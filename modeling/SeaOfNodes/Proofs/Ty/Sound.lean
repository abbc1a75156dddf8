import SeaOfNodes.Proofs.Ty.Reading

/-!
What is computed with types is true of values. Operators, comparisons and conversions of integers
and booleans are given on values, where an integer result is what its width leaves of the exact one,
and whatever they give for values that types describe is described by the type that is computed
(`admits_operators`). So a type that is an error stands for no result at all.
-/
namespace SeaOfNodes

/-! ### Operators on values -/

def BinaryOp.onBools? (op : BinaryOp) (a b : Bool) : Option Bool :=
  match op with
  | .logicalAnd | .bitwiseAnd => some (a && b)
  | .logicalOr | .bitwiseOr => some (a || b)
  | .bitwiseXor => some (a ^^ b)
  | _ => none

/-- The operator on values of two kinds, where it is defined. An untyped operand takes the width of
the other one, and an amount has a width of its own. -/
def BinaryOp.onValues? (op : BinaryOp) (p q : Primitive) (x y : Value) : Option Value :=
  match p, q, x, y with
  | .int w, .int v, .int a, .int b =>
    (if op.isShift then some w else w.unify? v).bind fun u =>
      (op.onInts? a b).map fun r => .int (u.truncate r)
  | .bool, .bool, .bool a, .bool b => (op.onBools? a b).map .bool
  | _, _, _, _ => none

def CompareOp.onInts (op : CompareOp) (a b : Int) : Bool :=
  match op with
  | .equal => a = b
  | .notEqual => a ≠ b
  | .less => a < b
  | .lessEqual => a ≤ b
  | .greater => b < a
  | .greaterEqual => b ≤ a

def CompareOp.onValues? (op : CompareOp) (p q : Primitive) (x y : Value) : Option Value :=
  match p, q, x, y with
  | .int w, .int v, .int a, .int b => (w.unify? v).map fun _ => .bool (op.onInts a b)
  | .bool, .bool, .bool a, .bool b =>
    match op with
    | .equal => some (.bool (a == b))
    | .notEqual => some (.bool (a != b))
    | _ => none
  | _, _, _, _ => none

def UnaryOp.onValues? (op : UnaryOp) (p : Primitive) (x : Value) : Option Value :=
  match op, p, x with
  | .negate, .int w, .int a => some (.int (w.truncate (-a)))
  | .bitwiseNot, .int w, .int a => some (.int (w.truncate (-a - 1)))
  | .logicalNot, .bool, .bool a => some (.bool !a)
  | _, _, _ => none

/-- The character with a code point, which surrogates are not. -/
def charOf? (a : Int) : Option Char :=
  if 0 ≤ a ∧ a.toNat.isValidChar then some (Char.ofNat a.toNat) else none

def Primitive.convert? (p q : Primitive) (x : Value) : Option Value :=
  match p, q, x with
  | .int _, .int w, .int a => some (.int (w.truncate a))
  | .int _, .float w, .int a => some (.float (w.round (.ofInt a)))
  | .int _, .bool, .int a => some (.bool (a != 0))
  | .int _, .rune, .int a => (charOf? a).map .rune
  | .int _, .string, .int a => (charOf? a).map fun c => .string (String.singleton c)
  | .bool, .int _, .bool a => some (.int a.toInt)
  | .bool, .bool, .bool a => some (.bool a)
  | _, _, _ => none

/-- Integers and booleans. -/
def Primitive.isDiscrete : Primitive → Bool
  | .int _ | .bool => true
  | _ => false

/-! ### Values of types -/

/-- Whether a machine can hold a value: integers have 128 bits. -/
def Value.InBits : Value → Prop
  | .int v => wrap128 v = v
  | _ => True

namespace Ty

/-- The values that a type stands for in a machine. -/
def Admits (t : Ty) (x : Value) : Prop := t.Describes x ∧ x.InBits

theorem admits_int_iff {w : IntWidth} {l : Level Int} {a : Int} :
    (int w l).Admits (.int a) ↔ w.holds a = true ∧ l.Describes a := by
  rw [Admits, Describes, IntWidth.holds, Bool.and_eq_true, beq_iff_eq]
  exact and_right_comm

theorem admits_bool_iff {l : Level Bool} {a : Bool} : (bool l).Admits (.bool a) ↔ l.Describes a :=
  and_iff_left trivial

theorem not_admits_of_isError {t : Ty} (h : t.isError = true) (x : Value) : ¬t.Admits x := by
  cases t <;> first | contradiction | exact fun hx => hx.1.elim

end Ty

namespace Level

variable {α : Type} {l m : Level α} {a : α}

theorem Describes.vague (h : l.Describes a) : l.Vague (.const a) := by
  cases l with
  | top => exact h.elim
  | const c => exact .inl (congrArg _ h.symm)
  | bottom => exact .inr rfl

theorem Vague.describes (h : l.Vague m) (hm : m.Describes a) : l.Describes a := by
  rcases h with rfl | rfl
  · exact hm
  · trivial

end Level

namespace Ty

variable {s t : Ty} {p q : Primitive} {w v : IntWidth} {l m : Level Int} {a b r : Int}
  {x y z : Value}

theorem primitive?_eq_int (h : t.primitive? = some (.int w)) : ∃ l, t = .int w l := by
  cases t <;> cases h
  exact ⟨_, rfl⟩

theorem primitive?_eq_bool (h : t.primitive? = some .bool) : ∃ l, t = .bool l := by
  cases t <;> cases h
  exact ⟨_, rfl⟩

theorem Vague.admits (h : Vague s t) (ht : t.isAggregate = false) (hx : t.Admits x) :
    s.Admits x := by
  cases h with
  | int w h =>
    cases x <;> first | exact hx.1.elim | exact ⟨⟨hx.1.1, h.describes hx.1.2⟩, hx.2⟩
  | float w h | bool h | rune h | string h =>
    cases x <;> first | exact hx.1.elim | exact ⟨h.describes hx.1, hx.2⟩
  | struct | array | tuple => contradiction

theorem Admits.vague_int (hx : (int w l).Admits (.int a)) : Vague (.int w l) (.int w (.const a)) :=
  .int w (admits_int_iff.1 hx).2.vague

theorem Admits.vague_bool {l : Level Bool} {a : Bool} (hx : (bool l).Admits (.bool a)) :
    Vague (.bool l) (.bool (.const a)) :=
  .bool (admits_bool_iff.1 hx).vague

/-! ### Two operands

An operator is evaluated on known values, and knows less of its result where it knows less of its
operands. -/

theorem admits_binary (hp : s.primitive? = some p) (hq : t.primitive? = some q) (hx : s.Admits x)
    (hy : t.Admits y) {op : BinaryOp} (hz : op.onValues? p q x y = some z) :
    (binary op s t).Admits z := by
  unfold BinaryOp.onValues? at hz
  split at hz
  · rename_i w v a b
    obtain ⟨l, rfl⟩ := primitive?_eq_int hp
    obtain ⟨m, rfl⟩ := primitive?_eq_int hq
    obtain ⟨u, hu, hz⟩ := Option.bind_eq_some_iff.1 hz
    obtain ⟨r, hr, rfl⟩ := Option.map_eq_some_iff.1 hz
    have ha := (admits_int_iff.1 hx).1
    have hop : (Primitive.int w).supportsBinary op = true := by
      cases op <;> first | rfl | contradiction
    have hshift : op.isShift = true → u.holds a = true := fun h => by
      rw [if_pos h] at hu
      exact Option.some.inj hu ▸ ha
    have hexact : binary op (.int w (.const a)) (.int v (.const b)) =
        .int u (.const (u.truncate r)) := by
      rw [binary_int hop, intBinary_eq hu, intResult_of_exact (IntWidth.holds_iff.1 ha).2 hshift hr]
    have hvague := vague_binary hx.vague_int hy.vague_int (congrArg isError hexact)
    rw [hexact] at hvague
    exact hvague.admits rfl (admits_int_iff.2 ⟨u.holds_truncate r, rfl⟩)
  · rename_i a b
    obtain ⟨l, rfl⟩ := primitive?_eq_bool hp
    obtain ⟨m, rfl⟩ := primitive?_eq_bool hq
    obtain ⟨r, hr, rfl⟩ := Option.map_eq_some_iff.1 hz
    have hexact : binary op (.bool (.const a)) (.bool (.const b)) = .bool (.const r) := by
      cases op <;> first
        | contradiction
        | (obtain rfl := Option.some.inj hr; cases a <;> cases b <;> rfl)
    have hvague := vague_binary hx.vague_bool hy.vague_bool (congrArg isError hexact)
    rw [hexact] at hvague
    exact hvague.admits rfl (admits_bool_iff.2 rfl)
  · contradiction

theorem holds_compare (op : CompareOp) (a b : Int) :
    op.holds (Ord.compare a b) = op.onInts a b := by
  rcases Int.lt_trichotomy a b with h | rfl | h
  · rw [Int.compare_eq_lt.2 h]
    cases op <;> simp [CompareOp.holds, CompareOp.onInts, h, h.ne, h.le]
  · cases op <;> simp [CompareOp.holds, CompareOp.onInts]
  · rw [Int.compare_eq_gt.2 h]
    cases op <;> simp [CompareOp.holds, CompareOp.onInts, h, h.ne', h.le]

theorem admits_compare (hp : s.primitive? = some p) (hq : t.primitive? = some q) (hx : s.Admits x)
    (hy : t.Admits y) {op : CompareOp} (hz : op.onValues? p q x y = some z) :
    (compare op s t).Admits z := by
  unfold CompareOp.onValues? at hz
  split at hz
  · rename_i w v a b
    obtain ⟨l, rfl⟩ := primitive?_eq_int hp
    obtain ⟨m, rfl⟩ := primitive?_eq_int hq
    obtain ⟨u, hu, rfl⟩ := Option.map_eq_some_iff.1 hz
    have hexact : compare op (.int w (.const a)) (.int v (.const b)) =
        .bool (.const (op.onInts a b)) := by
      rw [compare_eq rfl rfl, promote_of_not_float rfl, promote_of_not_float rfl,
        (Compares.int _ _ hu).compareOf_eq, ← holds_compare]
      rfl
    have hvague := vague_compare hx.vague_int hy.vague_int (congrArg isError hexact)
    rw [hexact] at hvague
    exact hvague.admits rfl (admits_bool_iff.2 rfl)
  · rename_i a b
    obtain ⟨l, rfl⟩ := primitive?_eq_bool hp
    obtain ⟨m, rfl⟩ := primitive?_eq_bool hq
    have hexact : ∃ c, compare op (.bool (.const a)) (.bool (.const b)) = .bool (.const c) ∧
        .bool c = z := by
      cases op <;> first
        | contradiction
        | (obtain rfl := Option.some.inj hz; cases a <;> cases b <;> exact ⟨_, rfl, rfl⟩)
    obtain ⟨c, hexact, rfl⟩ := hexact
    have hvague := vague_compare hx.vague_bool hy.vague_bool (congrArg isError hexact)
    rw [hexact] at hvague
    exact hvague.admits rfl (admits_bool_iff.2 rfl)
  · contradiction

/-! ### One operand -/

theorem admits_unary (hp : t.primitive? = some p) (hx : t.Admits x) {op : UnaryOp}
    (hz : op.onValues? p x = some z) : (t.unary op).Admits z := by
  unfold UnaryOp.onValues? at hz
  split at hz
  · obtain ⟨l, rfl⟩ := primitive?_eq_int hp
    cases hz
    exact (vague_unary hx.vague_int rfl).admits rfl
      (admits_int_iff.2 ⟨IntWidth.holds_truncate .., rfl⟩)
  · rename_i w a
    obtain ⟨l, rfl⟩ := primitive?_eq_int hp
    cases hz
    refine (vague_unary hx.vague_int rfl).admits rfl (admits_int_iff.2 ⟨w.holds_truncate _, ?_⟩)
    rw [IntWidth.truncate, wrap128_neg_sub_one (IntWidth.holds_iff.1 (admits_int_iff.1 hx).1).2]
    rfl
  · obtain ⟨l, rfl⟩ := primitive?_eq_bool hp
    cases hz
    exact (vague_unary hx.vague_bool rfl).admits rfl (admits_bool_iff.2 rfl)
  · contradiction

theorem runeOf_of_charOf? {c : Char} (h : charOf? a = some c) : runeOf a = .const c := by
  obtain ⟨⟨ha, hvalid⟩, hc⟩ := Option.ite_none_right_eq_some.1 h
  have hlt : a.toNat < 2 ^ 32 := by
    rcases hvalid with h | h <;> omega
  have hbits : a < pow2 32 := by
    have hpow : (pow2 32 : Int) = 2 ^ 32 := by decide
    omega
  have hchar : UInt32.isValidChar a.toNat.toUInt32 := by
    rw [UInt32.isValidChar, UInt32.toNat_ofNat_of_lt' hlt]
    exact hvalid
  rw [runeOf, if_pos ⟨ha, hbits⟩, if_pos hchar, Option.some.inj hc]

theorem admits_cast (hp : s.primitive? = some p) (hq : t.primitive? = some q) (hx : s.Admits x)
    (hz : p.convert? q x = some z) : (s.cast t).Admits z := by
  -- What the conversion of the known value gives is no error and admits the result.
  suffices hexact : ∃ e, Vague s e ∧ e.isDatum = true ∧ (e.cast t).isAggregate = false ∧
      (e.cast t).Admits z by
    obtain ⟨e, hvague, he, hscalar, hz⟩ := hexact
    have herror : (e.cast t).isError = false :=
      Bool.eq_false_iff.2 fun h => not_admits_of_isError h z hz
    exact (vague_cast hvague he herror).admits hscalar hz
  unfold Primitive.convert? at hz
  split at hz
  · rename_i v w a
    obtain ⟨l, rfl⟩ := primitive?_eq_int hp
    obtain ⟨m, rfl⟩ := primitive?_eq_int hq
    cases hz
    have ha := (admits_int_iff.1 hx).1
    refine ⟨_, hx.vague_int, ha, ?_⟩
    cases hshape : (int v (.const a)).sameShape (int w m) with
    | true =>
      obtain rfl := sameShape_int_iff.1 hshape
      have hdatum : (int v (.const a)).isDatum = true := ha
      rw [cast_of_sameShape hdatum rfl hshape, IntWidth.truncate_of_holds ha]
      exact ⟨rfl, admits_int_iff.2 ⟨ha, rfl⟩⟩
    | false =>
      rw [cast_eq_of_converts hshape hq (.intInt v w _)]
      refine ⟨rfl, admits_int_iff.2 ⟨w.holds_truncate a, ?_⟩⟩
      rw [IntWidth.truncate, (IntWidth.holds_iff.1 ha).2]
      dsimp only [Level.bind]
      split
      · rfl
      · split
        · exact beq_iff_eq.1 ‹_›
        · trivial
  · obtain ⟨l, rfl⟩ := primitive?_eq_int hp
    cases t <;> cases hq
    cases hz
    exact ⟨_, hx.vague_int, (admits_int_iff.1 hx).1, rfl, rfl, trivial⟩
  · obtain ⟨l, rfl⟩ := primitive?_eq_int hp
    cases t <;> cases hq
    cases hz
    exact ⟨_, hx.vague_int, (admits_int_iff.1 hx).1, rfl, rfl, trivial⟩
  · obtain ⟨l, rfl⟩ := primitive?_eq_int hp
    cases t <;> cases hq
    obtain ⟨c, hc, rfl⟩ := Option.map_eq_some_iff.1 hz
    refine ⟨_, hx.vague_int, (admits_int_iff.1 hx).1, ?_⟩
    rw [cast_eq_of_converts rfl rfl (.intRune _ _), Level.bind, runeOf_of_charOf? hc]
    exact ⟨rfl, rfl, trivial⟩
  · obtain ⟨l, rfl⟩ := primitive?_eq_int hp
    cases t <;> cases hq
    obtain ⟨c, hc, rfl⟩ := Option.map_eq_some_iff.1 hz
    refine ⟨_, hx.vague_int, (admits_int_iff.1 hx).1, ?_⟩
    rw [cast_eq_of_converts rfl rfl (.intString _ _), Level.bind, runeOf_of_charOf? hc]
    exact ⟨rfl, rfl, trivial⟩
  · obtain ⟨l, rfl⟩ := primitive?_eq_bool hp
    obtain ⟨m, rfl⟩ := primitive?_eq_int hq
    rename_i w a
    cases hz
    have hholds : w.holds a.toInt = true := by cases a <;> cases w <;> decide
    refine ⟨_, hx.vague_bool, rfl, rfl, admits_int_iff.2 ⟨hholds, ?_⟩⟩
    cases a <;> rfl
  · obtain ⟨l, rfl⟩ := primitive?_eq_bool hp
    obtain ⟨m, rfl⟩ := primitive?_eq_bool hq
    cases hz
    exact ⟨_, hx.vague_bool, rfl, rfl, rfl, trivial⟩
  · contradiction

/-! ### Soundness -/

theorem Admits.int_or_bool (hx : s.Admits x) (hp : s.primitive? = some p)
    (hp' : p.isDiscrete = true) :
    (∃ w l a, s = .int w l ∧ p = .int w ∧ x = .int a) ∨
      ∃ l a, s = .bool l ∧ p = .bool ∧ x = .bool a := by
  cases s <;> cases hp <;> first | contradiction | skip
  · cases x <;> first | exact hx.1.elim | exact .inl ⟨_, _, _, rfl, rfl, rfl⟩
  · cases x <;> first | exact hx.1.elim | exact .inr ⟨_, _, rfl, rfl, rfl⟩

theorem isError_binary_bottom (op : BinaryOp) :
    (binary op (.int w .bottom) (.int v .bottom)).isError = true ↔
      (op = .logicalAnd ∨ op = .logicalOr) ∨
        (if op.isShift then some w else w.unify? v) = none := by
  cases hop : (Primitive.int w).supportsBinary op with
  | false =>
    cases op <;> first
      | contradiction
      | simp [binary, binaryOf, promote, primitive?, hop, unsupported, fail, isError]
  | true =>
    have hlogical : ¬(op = .logicalAnd ∨ op = .logicalOr) := by rintro (rfl | rfl) <;> contradiction
    have hresult : ∀ u, (intResult op u .bottom .bottom).isError = false := by
      intro u
      rw [intResult_of_bottom (.inl rfl) (Bool.and_false _)]
      rfl
    rw [binary_int hop, intBinary, or_iff_right hlogical]
    split
    · simp [hresult]
    · cases w.unify? v with
      | none => simp [mismatch, fail, isError]
      | some u => simp [hresult]

/-- An operator on values is undefined where the kinds do not go together, for a divisor zero and
for a negative amount. -/
theorem onValues?_eq_none_iff (hp : s.primitive? = some p) (hq : t.primitive? = some q)
    (hp' : p.isDiscrete = true) (hq' : q.isDiscrete = true) (hx : s.Admits x) (hy : t.Admits y)
    (op : BinaryOp) :
    op.onValues? p q x y = none ↔ (binary op s.bottom t.bottom).isError = true ∨
      (op = .divide ∨ op = .modulus) ∧ y = .int 0 ∨ op.isShift = true ∧ ∃ b < 0, y = .int b := by
  have hpromote : ∀ {s t : Ty}, s.isError = false → t.isError = false → s.isFloat = false →
      t.isFloat = false → binary op s t = binaryOf op s t := by
    intro s t hs ht hs' ht'
    rw [binary_eq hs ht, promote_of_not_float ht', promote_of_not_float hs']
  rcases hx.int_or_bool hp hp' with ⟨w, l, a, rfl, rfl, rfl⟩ | ⟨l, a, rfl, rfl, rfl⟩ <;>
    rcases hy.int_or_bool hq hq' with ⟨v, m, b, rfl, rfl, rfl⟩ | ⟨m, b, rfl, rfl, rfl⟩
  · show _ ↔ (binary op (.int w .bottom) (.int v .bottom)).isError = true ∨ _
    rw [isError_binary_bottom, BinaryOp.onValues?]
    cases hwidth : (if op.isShift then some w else w.unify? v) with
    | none => simp
    | some u => simp [BinaryOp.onInts?_eq_none_iff]
  · refine iff_of_true rfl (.inl ?_)
    rw [hpromote rfl rfl rfl rfl]
    cases op <;> rfl
  · refine iff_of_true rfl (.inl ?_)
    rw [hpromote rfl rfl rfl rfl]
    cases op <;> rfl
  · cases op <;> simp [BinaryOp.onValues?, BinaryOp.onBools?] <;> rfl

/-- Operators, comparisons and conversions of integers and booleans are sound: what they give for
values that the operands stand for is a value that the result stands for. -/
theorem admits_operators (hp : s.primitive? = some p) (hq : t.primitive? = some q)
    (hp' : p.isDiscrete = true) (hx : s.Admits x) :
    (q.isDiscrete = true → ∀ y, t.Admits y →
      (∀ op z, BinaryOp.onValues? op p q x y = some z → (Ty.binary op s t).Admits z) ∧
      (∀ op, (Ty.binary op s t).isError = true → BinaryOp.onValues? op p q x y = none) ∧
      (∀ op, BinaryOp.onValues? op p q x y = none ↔
        (Ty.binary op s.bottom t.bottom).isError = true ∨
          (op = .divide ∨ op = .modulus) ∧ y = .int 0 ∨ op.isShift = true ∧ ∃ b < 0, y = .int b) ∧
      ∀ op z, CompareOp.onValues? op p q x y = some z → (Ty.compare op s t).Admits z) ∧
    (∀ op z, UnaryOp.onValues? op p x = some z → (s.unary op).Admits z) ∧
    ∀ z, p.convert? q x = some z → (s.cast t).Admits z := by
  refine ⟨?_, fun op z => admits_unary hp hx, fun z => admits_cast hp hq hx⟩
  intro hq' y hy
  refine ⟨fun op z => admits_binary hp hq hx hy, ?_, onValues?_eq_none_iff hp hq hp' hq' hx hy,
    fun op z => admits_compare hp hq hx hy⟩
  intro op herror
  -- An error describes no result.
  rw [Option.eq_none_iff_forall_ne_some]
  intro z hz
  exact not_admits_of_isError herror z (admits_binary hp hq hx hy hz)

theorem admits_operators_u8 : (Ty.int .u8 .bottom).Admits (.int 7) ∧
    (Ty.int .untyped (.const 200)).Admits (.int 200) ∧
    (Ty.binary .subtract (.int .u8 .bottom) (.int .untyped (.const 200))).Admits (.int 63) :=
  have hx : (Ty.int .u8 .bottom).Admits (.int 7) := ⟨⟨rfl, trivial⟩, rfl⟩
  have hy : (Ty.int .untyped (.const 200)).Admits (.int 200) := ⟨⟨rfl, rfl⟩, rfl⟩
  ⟨hx, hy, ((admits_operators rfl rfl rfl hx).1 rfl _ hy).1 .subtract (.int 63) rfl⟩

end Ty

end SeaOfNodes
