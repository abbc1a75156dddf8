import SeaOfNodes.Proofs.Number.Width
import SeaOfNodes.Proofs.Ty.Meet

/-!
Types of data: numbers, characters, strings and aggregates of these, of which each scalar is known or
not. Operators on data give data or an error, and the identities by which a builder leaves out
operators hold of them.
-/
namespace SeaOfNodes

namespace Level

variable {α β γ : Type}

/-- Whether something is known: the value, or that there is nothing more to know. -/
def isSettled : Level α → Bool
  | .top => false
  | _ => true

theorem isSettled_map {l : Level α} (h : l.isSettled = true) (f : α → β) :
    (l.map f).isSettled = true := by
  cases l <;> first | rfl | contradiction

theorem isSettled_bind {l : Level α} {f : α → Level β} (h : l.isSettled = true)
    (hf : ∀ a, (f a).isSettled = true) : (l.bind f).isSettled = true := by
  cases l with
  | top => contradiction
  | const a => exact hf a
  | bottom => rfl

theorem isSettled_lift {l : Level α} {m : Level β} (hl : l.isSettled = true)
    (hm : m.isSettled = true) (f : α → β → γ) : (lift f l m).isSettled = true := by
  cases l <;> cases m <;> first | rfl | contradiction

end Level

namespace Ty

variable {a b t : Ty} {ts : List Ty} {i : Nat} {l : Level Int} {m : Level Bool} {v w : IntWidth}

mutual

/-- Whether a type is that of data. An integer that is known is a value of its width. -/
def isDatum : Ty → Bool
  | .int w (.const v) => w.holds v
  | .int _ l => l.isSettled
  | .float _ l => l.isSettled
  | .bool l => l.isSettled
  | .rune l => l.isSettled
  | .string l => l.isSettled
  | .struct _ ls ts => ls.length == ts.length && allDatum ts
  | .array e ts => e.isErrorFree && allDatum ts
  | .tuple ts => allDatum ts
  | _ => false

def allDatum : List Ty → Bool
  | [] => true
  | t :: ts => t.isDatum && allDatum ts

end

theorem allDatum_iff : allDatum ts = true ↔ ∀ t ∈ ts, t.isDatum = true := by
  induction ts with
  | nil => simp [allDatum]
  | cons t ts ih => simp [allDatum, ih]

mutual

theorem isErrorFree_of_isDatum : ∀ {t : Ty}, t.isDatum = true → t.isErrorFree = true
  | .struct n ls ts, h | .array e ts, h => by
    rw [isDatum, Bool.and_eq_true] at h
    rw [isErrorFree, h.1, allErrorFree_of_allDatum h.2, Bool.and_true]
  | .tuple ts, h => by rw [isErrorFree, @allErrorFree_of_allDatum ts h]
  | .int .., _ | .float .., _ | .bool _, _ | .rune _, _ | .string _, _ => rfl
  | .pointer .., h | .function .., h | .void, h | .control _, h | .memory, h | .error _, h => by
    contradiction

theorem allErrorFree_of_allDatum : ∀ {ts : List Ty}, allDatum ts = true → allErrorFree ts = true
  | [], _ => rfl
  | t :: ts, h => by
    rw [allDatum, Bool.and_eq_true] at h
    rw [allErrorFree, isErrorFree_of_isDatum h.1, allErrorFree_of_allDatum h.2, Bool.and_true]

end

theorem isError_of_isDatum (h : t.isDatum = true) : t.isError = false :=
  isError_of_isErrorFree (isErrorFree_of_isDatum h)

mutual

theorem stamp_of_isErrorFree (n : Nat) : ∀ {t : Ty}, t.isErrorFree = true → t.stamp n = (t, n)
  | .pointer p l, h => by simp only [stamp, @stamp_of_isErrorFree n p h]
  | .struct m ls ts, h => by
    rw [isErrorFree, Bool.and_eq_true] at h
    simp only [stamp, stamps_of_allErrorFree n h.2]
  | .array e ts, h => by
    rw [isErrorFree, Bool.and_eq_true] at h
    simp only [stamp, stamp_of_isErrorFree n h.1, stamps_of_allErrorFree n h.2]
  | .tuple ts, h => by simp only [stamp, @stamps_of_allErrorFree n ts h]
  | .function ps r l, h => by
    rw [isErrorFree, Bool.and_eq_true] at h
    simp only [stamp, stamps_of_allErrorFree n h.1, stamp_of_isErrorFree n h.2]
  | .error _, h => by contradiction
  | .int .., _ | .float .., _ | .bool _, _ | .rune _, _ | .string _, _ | .void, _ | .control _, _
  | .memory, _ => rfl

theorem stamps_of_allErrorFree (n : Nat) : ∀ {ts : List Ty}, allErrorFree ts = true →
    stamps n ts = (ts, n)
  | [], _ => rfl
  | t :: ts, h => by
    rw [allErrorFree, Bool.and_eq_true] at h
    simp only [stamps, stamp_of_isErrorFree n h.1, stamps_of_allErrorFree n h.2]

end

/-! ### Scalars -/

/-- The scalar types of data. -/
inductive Scalar : Ty → Prop where
  | int (w : IntWidth) (l : Level Int) : Scalar (.int w l)
  | float (w : FloatWidth) (l : Level Double) : Scalar (.float w l)
  | bool (l : Level Bool) : Scalar (.bool l)
  | rune (l : Level Char) : Scalar (.rune l)
  | string (l : Level String) : Scalar (.string l)

theorem scalar_of_isDatum (h : t.isDatum = true) (hscalar : t.isAggregate = false) : Scalar t := by
  cases t <;> first | constructor | contradiction

theorem isDatum_int_iff : (int w l).isDatum = true ↔
    l.isSettled = true ∧ ∀ v, l = .const v → w.holds v = true := by
  cases l <;> simp [isDatum, Level.isSettled]

theorem wrap128_of_isDatum (h : (int w l).isDatum = true) (a : Int) (ha : l = .const a) :
    wrap128 a = a :=
  (IntWidth.holds_iff.1 ((isDatum_int_iff.1 h).2 a ha)).2

/-! ### Untyped integers next to floats -/

theorem promote_of_not_float (h : b.isFloat = false) : a.promote b = a := by
  unfold promote
  split
  · contradiction
  · rfl

theorem promote_eq_int (h : a.promote b = .int w l) : a = .int w l := by
  unfold promote at h
  split at h
  · contradiction
  · exact h

theorem promote_self (t : Ty) : t.promote t = t := by
  cases h : t.isFloat with
  | false => exact promote_of_not_float h
  | true => cases t <;> first | rfl | contradiction

theorem isAggregate_promote (a b : Ty) : (a.promote b).isAggregate = a.isAggregate := by
  unfold promote
  split <;> rfl

theorem isDatum_promote (ha : a.isDatum = true) (b : Ty) : (a.promote b).isDatum = true := by
  unfold promote
  split
  · exact Level.isSettled_map (isDatum_int_iff.1 ha).1 _
  · exact ha

/-! ### Two operands -/

section Binary

variable {op : BinaryOp} {u : IntWidth} {n k : Level Int} {r : Ty}

theorem not_error_of_binary (h : (binary op a b).isError = false) :
    a.isError = false ∧ b.isError = false := by
  cases a <;> cases b <;> first | exact ⟨rfl, rfl⟩ | contradiction

theorem binary_eq (ha : a.isError = false) (hb : b.isError = false) (op : BinaryOp) :
    binary op a b = binaryOf op (a.promote b) (b.promote a) := by
  cases a <;> cases b <;> first | rfl | contradiction

/-- What an integer operator gives in its width, if that is no error. -/
inductive Results (op : BinaryOp) (u : IntWidth) : Level Int → Level Int → Level Int → Prop where
  | absorbed {l n : Level Int} : absorbed op l n = true → Results op u l n (.const 0)
  | known {a b c : Int} : absorbed op (.const a) (.const b) = false → u.evaluate op a b = .ok c →
    Results op u (.const a) (.const b) (.const c)
  | unknown {l n : Level Int} : absorbed op l n = false → l.isConst = false ∨ n.isConst = false →
    Results op u l n (Level.lift (fun _ _ => 0) l n)

theorem results_intResult (h : (intResult op u l n).isError = false) :
    ((op == .divide || op == .modulus) && n == .const 0) = false ∧
      ∃ k, intResult op u l n = .int u k ∧ Results op u l n k := by
  unfold intResult at h ⊢
  split at h
  · contradiction
  · rename_i hzero
    rw [if_neg hzero]
    refine ⟨Bool.eq_false_iff.2 hzero, ?_⟩
    split at h
    · rename_i habsorbed
      rw [if_pos habsorbed]
      exact ⟨_, rfl, .absorbed habsorbed⟩
    · rename_i habsorbed
      rw [if_neg habsorbed]
      rw [Bool.not_eq_true] at habsorbed
      split at h
      · split at h
        · exact ⟨_, rfl, .known habsorbed ‹_›⟩
        · contradiction
      · rename_i hconst
        refine ⟨_, rfl, .unknown habsorbed ?_⟩
        cases l <;> cases n <;> first | exact .inl rfl | exact .inr rfl | exact (hconst _ _ rfl rfl).elim

theorem intBinary_eq (h : (if op.isShift then some w else w.unify? v) = some u) :
    intBinary op w l v n = intResult op u l n := by
  unfold intBinary
  split at h
  · cases h
    rw [if_pos ‹_›]
  · rw [if_neg ‹_›, h]

theorem binary_int (hop : (Primitive.int w).supportsBinary op = true) (l n : Level Int) :
    binary op (.int w l) (.int v n) = intBinary op w l v n := by
  rw [binary_eq rfl rfl, promote_of_not_float rfl, promote_of_not_float rfl]
  simp [binaryOf, primitive?, hop]

/-- What an operator gives, when untyped integers have become floats next to floats, if that is no
error. -/
inductive Combines (op : BinaryOp) : Ty → Ty → Ty → Prop where
  | int {w v u : IntWidth} {l n k : Level Int} : (Primitive.int w).supportsBinary op = true →
    (if op.isShift then some w else w.unify? v) = some u → intResult op u l n = .int u k →
    Combines op (.int w l) (.int v n) (.int u k)
  | float {w v u : FloatWidth} (l n : Level Double) : (Primitive.float w).supportsBinary op = true →
    w.unify? v = some u → Combines op (.float w l) (.float v n)
      (.float u (Level.lift (fun a b => u.round (floatEvaluate op a b)) l n))
  | bool {l n k : Level Bool} : boolBinary op l n = .bool k → Combines op (.bool l) (.bool n) (.bool k)
  | string (l n : Level String) : op = .add →
    Combines op (.string l) (.string n) (.string (Level.lift (· ++ ·) l n))

theorem Combines.binaryOf_eq (h : Combines op a b r) : binaryOf op a b = r := by
  cases h with
  | int hop hu hk => simp [binaryOf, primitive?, hop, intBinary_eq hu, hk]
  | float l n hop hu => simp [binaryOf, primitive?, hop, floatBinary, hu]
  | bool hk => cases op <;> exact hk
  | string l n hop =>
    subst hop
    rfl

theorem combines_binaryOf (h : (binaryOf op a b).isError = false) :
    Combines op a b (binaryOf op a b) := by
  suffices hexists : ∃ r, Combines op a b r by
    obtain ⟨r, hr⟩ := hexists
    rwa [hr.binaryOf_eq]
  unfold binaryOf at h
  split at h
  · contradiction
  · rename_i kind hkind
    split at h
    · contradiction
    · rename_i hop
      rw [Bool.not_eq_true, Bool.not_eq_false'] at hop
      split at h
      · rename_i w l v n
        cases hkind
        cases hu : (if op.isShift then some w else w.unify? v) with
        | some u =>
          rw [intBinary_eq hu] at h
          obtain ⟨-, k, hk, -⟩ := results_intResult h
          exact ⟨_, .int hop hu hk⟩
        | none =>
          unfold intBinary at h
          split at h
          · simp_all
          · simp_all [mismatch, fail, isError]
      · cases hkind
        unfold floatBinary at h
        split at h
        · exact ⟨_, .float _ _ hop ‹_›⟩
        · contradiction
      · cases op <;> first | contradiction | exact ⟨_, .bool rfl⟩ | skip
        all_goals
          simp only [boolBinary] at h
          split at h
          · exact ⟨_, .bool (if_pos ‹_›)⟩
          · exact ⟨_, .bool (if_neg ‹_›)⟩
      · cases op <;> first | contradiction | exact ⟨_, .string _ _ rfl⟩
      · contradiction

theorem combines_binary (h : (binary op a b).isError = false) :
    Combines op (a.promote b) (b.promote a) (binary op a b) := by
  obtain ⟨ha, hb⟩ := not_error_of_binary h
  rw [binary_eq ha hb] at h ⊢
  exact combines_binaryOf h

theorem Results.isDatum (h : Results op u l n k) (hl : (int w l).isDatum = true)
    (hn : (int v n).isDatum = true) : (int u k).isDatum = true := by
  cases h with
  | absorbed _ => exact IntWidth.holds_iff.2 ⟨IntWidth.wrap_zero u, by decide⟩
  | known _ hc => exact IntWidth.holds_evaluate (wrap128_of_isDatum hl _ rfl) hc
  | unknown _ hconst =>
    cases l <;> cases n <;> first | rfl | contradiction | simp [Level.isConst] at hconst

theorem isDatum_binary (ha : a.isDatum = true) (hb : b.isDatum = true)
    (h : (binary op a b).isError = false) : (binary op a b).isDatum = true := by
  have hcombines := combines_binary h
  have ha := isDatum_promote ha b
  have hb := isDatum_promote hb a
  generalize binary op a b = r at h hcombines ⊢
  generalize a.promote b = a, b.promote a = b at ha hb hcombines
  cases hcombines with
  | int _ _ hk =>
    obtain ⟨-, k, hk', hresults⟩ := results_intResult (congrArg isError hk)
    rw [← hk, hk']
    exact hresults.isDatum ha hb
  | float l n _ _ | string l n _ => exact Level.isSettled_lift ha hb _
  | @bool l n k hk =>
    have hlift : ∀ f : Bool → Bool → Bool, (bool (Level.lift f l n)).isDatum = true :=
      fun f => Level.isSettled_lift ha hb f
    rw [← hk]
    cases op <;> first | exact hlift _ | cases hk | skip
    all_goals
      simp only [boolBinary]
      split
      · rfl
      · exact hlift _

end Binary

section Compare

variable {op : CompareOp} {r : Ty}

theorem not_error_of_compare (h : (compare op a b).isError = false) :
    a.isError = false ∧ b.isError = false := by
  cases a <;> cases b <;> first | exact ⟨rfl, rfl⟩ | contradiction

/-- What a comparison gives, if that is no error. -/
inductive Compares (op : CompareOp) : Ty → Ty → Ty → Prop where
  | int {w v u : IntWidth} (l n : Level Int) : w.unify? v = some u →
    Compares op (.int w l) (.int v n)
      (.bool (Level.lift (fun a b => op.holds (Ord.compare a b)) l n))
  | float {w v u : FloatWidth} (l n : Level Double) : w.unify? v = some u →
    Compares op (.float w l) (.float v n) (.bool (Level.lift (floatHolds op) l n))
  | bool (l n : Level Bool) : op.isEquality = true → Compares op (.bool l) (.bool n)
    (.bool (Level.lift (fun x y => op.holds (Ord.compare x y)) l n))
  | rune (l n : Level Char) : Compares op (.rune l) (.rune n)
    (.bool (Level.lift (fun x y => op.holds (Ord.compare x.toNat y.toNat)) l n))
  | string (l n : Level String) : Compares op (.string l) (.string n)
    (.bool (Level.lift (fun x y => op.holds (Ord.compare x y)) l n))
  | pointer {p q : Ty} {l n : Level Unit} {k : Level Bool} : pointerCompare op p l q n = .bool k →
    Compares op (.pointer p l) (.pointer q n) (.bool k)

theorem compare_eq (ha : a.isError = false) (hb : b.isError = false) (op : CompareOp) :
    compare op a b = compareOf op (a.promote b) (b.promote a) := by
  cases a <;> cases b <;> first | rfl | contradiction

theorem Compares.compareOf_eq (h : Compares op a b r) : compareOf op a b = r := by
  cases h with
  | int l n hu => simp [compareOf, primitive?, Primitive.supportsCompare, intCompare, hu]
  | float l n hu => simp [compareOf, primitive?, Primitive.supportsCompare, floatCompare, hu]
  | bool l n hop => simp [compareOf, primitive?, Primitive.supportsCompare, hop]
  | rune l n | string l n => simp [compareOf, primitive?, Primitive.supportsCompare]
  | pointer hk => exact hk

theorem compares_compareOf (h : (compareOf op a b).isError = false) :
    Compares op a b (compareOf op a b) := by
  suffices hexists : ∃ r, Compares op a b r by
    obtain ⟨r, hr⟩ := hexists
    rwa [hr.compareOf_eq]
  unfold compareOf at h
  split at h
  · rename_i p l q n
    have hbool : ∃ k, pointerCompare op p l q n = .bool k := by
      unfold pointerCompare at h ⊢
      split at h
      · contradiction
      · split at h
        · exact ⟨_, (if_neg ‹_›).trans (if_pos ‹_›)⟩
        · contradiction
    obtain ⟨k, hk⟩ := hbool
    exact ⟨_, .pointer hk⟩
  · split at h
    · contradiction
    · rename_i kind hkind
      split at h
      · contradiction
      · rename_i hop
        split at h
        · unfold intCompare at h
          split at h
          · exact ⟨_, .int _ _ ‹_›⟩
          · contradiction
        · unfold floatCompare at h
          split at h
          · exact ⟨_, .float _ _ ‹_›⟩
          · contradiction
        · cases hkind
          exact ⟨_, .bool _ _ (by simpa [Primitive.supportsCompare] using hop)⟩
        · exact ⟨_, .rune _ _⟩
        · exact ⟨_, .string _ _⟩
        · contradiction

theorem compares_compare (h : (compare op a b).isError = false) :
    Compares op (a.promote b) (b.promote a) (compare op a b) := by
  obtain ⟨ha, hb⟩ := not_error_of_compare h
  rw [compare_eq ha hb] at h ⊢
  exact compares_compareOf h

theorem isDatum_compare (ha : a.isDatum = true) (hb : b.isDatum = true)
    (h : (compare op a b).isError = false) : (compare op a b).isDatum = true := by
  have hcompares := compares_compare h
  have ha := isDatum_promote ha b
  have hb := isDatum_promote hb a
  generalize compare op a b = r at h hcompares ⊢
  generalize a.promote b = a, b.promote a = b at ha hb hcompares
  cases hcompares with
  | int l n _ => exact Level.isSettled_lift (isDatum_int_iff.1 ha).1 (isDatum_int_iff.1 hb).1 _
  | float l n _ | bool l n _ | rune l n | string l n => exact @Level.isSettled_lift _ _ _ l n ha hb _
  | pointer _ => contradiction

end Compare

/-! ### One operand -/

/-- What an operator on one operand gives when it gives no error. -/
inductive Turns (op : UnaryOp) : Ty → Ty → Prop where
  | int (w : IntWidth) (l : Level Int) : op ≠ .logicalNot → Turns op (.int w l) (intUnary op w l)
  | float (w : FloatWidth) (l : Level Double) : op = .negate →
    Turns op (.float w l) (floatUnary op w l)
  | bool (l : Level Bool) : op = .logicalNot → Turns op (.bool l) (.bool (l.map (!·)))

theorem turns_unary {op : UnaryOp} (h : (t.unary op).isError = false) :
    Turns op t (t.unary op) := by
  cases t with
  | int w l =>
    cases op <;> first | contradiction | exact .int w l (by decide)
  | float w l =>
    cases op <;> first | contradiction | exact .float w l rfl
  | bool l =>
    cases op <;> first | contradiction | exact .bool l rfl
  | rune l | string l => cases op <;> contradiction
  | _ => contradiction

theorem Turns.unary_eq {op : UnaryOp} {r : Ty} (h : Turns op t r) : t.unary op = r := by
  cases h with
  | int w l hop => simp [unary, primitive?, Primitive.supportsUnary, hop]
  | float w l hop | bool l hop =>
    rw [hop]
    rfl

theorem wrap128_neg_sub_one {a : Int} (ha : wrap128 a = a) : wrap128 (-a - 1) = -a - 1 := by
  rw [wrap128_eq_iff] at ha ⊢
  omega

theorem holds_intUnary {op : UnaryOp} {a v : Int} (ha : w.holds a = true)
    (h : intUnary op w (.const a) = .int w (.const v)) : w.holds v = true := by
  cases (int.inj h).2
  cases op with
  | negate => exact IntWidth.holds_of_wrap128 (wrap128_wrap128 _)
  | bitwiseNot =>
    exact IntWidth.holds_of_wrap128 (wrap128_neg_sub_one (IntWidth.holds_iff.1 ha).2)
  | logicalNot => exact ha

theorem isDatum_unary {op : UnaryOp} (ht : t.isDatum = true) (h : (t.unary op).isError = false) :
    (t.unary op).isDatum = true := by
  have hturns := turns_unary h
  generalize t.unary op = r at h hturns ⊢
  cases hturns with
  | int w l _ =>
    cases l with
    | top => contradiction
    | const a => exact holds_intUnary ht rfl
    | bottom => rfl
  | float w l _ | bool l _ => exact @Level.isSettled_map _ _ l ht _

/-! ### Conversions -/

/-- What the conversion to another primitive type gives. -/
inductive Converts : Ty → Primitive → Ty → Prop where
  | intInt (v w : IntWidth) (l : Level Int) : Converts (.int v l) (.int w) (castInt v w l)
  | intFloat (v : IntWidth) (w : FloatWidth) (l : Level Int) :
    Converts (.int v l) (.float w) (.float w (l.map fun a => w.round (.ofInt a)))
  | floatInt (v : FloatWidth) (w : IntWidth) (l : Level Double) :
    Converts (.float v l) (.int w) (floatToInt w l)
  | floatFloat (v w : FloatWidth) (l : Level Double) :
    Converts (.float v l) (.float w) (.float w (l.map w.round))
  | intRune (v : IntWidth) (l : Level Int) : Converts (.int v l) .rune (.rune (l.bind runeOf))
  | runeInt (w : IntWidth) (l : Level Char) :
    Converts (.rune l) (.int w) (.int w (l.map fun c => w.wrap c.toNat))
  | intBool (v : IntWidth) (l : Level Int) : Converts (.int v l) .bool (.bool (l.map (· != 0)))
  | boolInt (w : IntWidth) (l : Level Bool) :
    Converts (.bool l) (.int w) (.int w (l.map fun b => if b then 1 else 0))
  | intString (v : IntWidth) (l : Level Int) :
    Converts (.int v l) .string (.string ((l.bind runeOf).map String.singleton))
  | runeString (l : Level Char) : Converts (.rune l) .string (.string (l.map String.singleton))

variable {r target : Ty} {kind : Primitive}

theorem Converts.primitive? (h : Converts t kind r) : r.primitive? = some kind := by
  cases h <;> rfl

theorem cast_of_sameShape (ht : t.isDatum = true) (htarget : target.isError = false)
    (hshape : t.sameShape target = true) : t.cast target = t := by
  cases t <;> cases target <;> first | contradiction | simp [cast, hshape]

theorem isError_target (ht : t.isDatum = true) (h : (t.cast target).isError = false) :
    target.isError = false := by
  cases target with
  | error blame => cases t <;> contradiction
  | _ => rfl

theorem cast_eq_of_converts (hshape : t.sameShape target = false)
    (hkind : target.primitive? = some kind) (h : Converts t kind r) : t.cast target = r := by
  cases h <;> cases target <;> cases hkind <;>
    simp [cast, hshape, primitive?, Primitive.castable, castScalar]

theorem exists_converts (ht : Scalar t) (h : (t.cast target).isError = false)
    (hshape : t.sameShape target = false) :
    ∃ kind r, target.primitive? = some kind ∧ Converts t kind r := by
  cases ht <;> cases target <;> first | exact ⟨_, _, rfl, by constructor⟩ | contradiction

theorem converts_cast (ht : t.isDatum = true) (h : (t.cast target).isError = false)
    (hshape : t.sameShape target = false) :
    ∃ kind, target.primitive? = some kind ∧ Converts t kind (t.cast target) := by
  cases hscalar : t.isAggregate with
  | false =>
    obtain ⟨kind, r, hkind, hr⟩ := exists_converts (scalar_of_isDatum ht hscalar) h hshape
    rw [cast_eq_of_converts hshape hkind hr]
    exact ⟨kind, hkind, hr⟩
  | true =>
    cases t <;> cases target <;> first
      | contradiction
      | simp [cast, hshape, primitive?, cannotCast, fail, isError] at h

theorem isSettled_runeOf (v : Int) : (runeOf v).isSettled = true := by
  unfold runeOf
  split
  · split <;> rfl
  · rfl

theorem wrap128_truncate? {d : Double} {v : Int} (h : d.truncate? = some v) : wrap128 v = v := by
  have hpow : (pow2 127 : Int) = 2 ^ 127 := by decide
  unfold Double.truncate? at h
  split at h
  · cases h
    rw [wrap128_eq_iff]
    omega
  · contradiction

theorem wrap128_ofNat {n : Nat} (h : n < 2 ^ 127) : wrap128 n = n := by
  rw [wrap128_eq_iff]
  omega

theorem isDatum_castInt (h : (int v l).isDatum = true) : (castInt v w l).isDatum = true := by
  cases l with
  | top => contradiction
  | bottom => rfl
  | const a =>
    have ha : wrap128 a = a := wrap128_of_isDatum h a rfl
    unfold castInt Level.bind
    dsimp only
    split
    · exact IntWidth.holds_of_wrap128 ha
    · split
      · rename_i hfits
        exact IntWidth.holds_iff.2 ⟨eq_of_beq hfits, ha⟩
      · rfl

theorem Converts.isDatum (h : Converts t kind r) (ht : t.isDatum = true) : r.isDatum = true := by
  cases h with
  | intInt v w l => exact isDatum_castInt ht
  | intFloat v w l => exact Level.isSettled_map (isDatum_int_iff.1 ht).1 _
  | floatInt v w l =>
    cases l with
    | top => contradiction
    | bottom => rfl
    | const d =>
      unfold floatToInt Level.bind
      dsimp only
      split
      · rename_i a ha
        exact IntWidth.holds_of_wrap128 (wrap128_truncate? ha)
      · rfl
  | floatFloat v w l => exact @Level.isSettled_map _ _ l ht _
  | intRune v l => exact Level.isSettled_bind (isDatum_int_iff.1 ht).1 isSettled_runeOf
  | runeInt w l =>
    cases l with
    | top => contradiction
    | bottom => rfl
    | const c =>
      have hc : c.toNat < 2 ^ 127 := c.val.toNat_lt.trans (by decide)
      exact IntWidth.holds_of_wrap128 (wrap128_ofNat hc)
  | intBool v l => exact Level.isSettled_map (isDatum_int_iff.1 ht).1 _
  | boolInt w l =>
    cases l with
    | top => contradiction
    | bottom => rfl
    | const b =>
      have hbits : w.holds (if b then 1 else 0) = true := by cases b <;> cases w <;> decide
      exact hbits
  | intString v l =>
    exact Level.isSettled_map (Level.isSettled_bind (isDatum_int_iff.1 ht).1 isSettled_runeOf) _
  | runeString l => exact @Level.isSettled_map _ _ l ht _

theorem isDatum_cast (ht : t.isDatum = true) (h : (t.cast target).isError = false) :
    (t.cast target).isDatum = true := by
  cases hshape : t.sameShape target with
  | true => rwa [cast_of_sameShape ht (isError_target ht h) hshape]
  | false =>
    obtain ⟨kind, -, hconverts⟩ := converts_cast ht h hshape
    exact hconverts.isDatum ht

/-! ### Aggregates -/

theorem isDatum_of_mem_members (ht : t.isDatum = true) {e : Ty} (he : e ∈ t.members) :
    e.isDatum = true := by
  cases t with
  | struct n ls ts | array f ts =>
    rw [isDatum, Bool.and_eq_true] at ht
    exact allDatum_iff.1 ht.2 e he
  | tuple ts => exact allDatum_iff.1 ht e he
  | _ => simp [members] at he

theorem element_eq (ht : t.isError = false) (i : Nat) : t.element i = match t.members[i]? with
    | some m => m
    | none => if t.isAggregate then fail ("no member " ++ toString i ++ " in `" ++ t.name ++ "`")
      else fail ("`" ++ t.name ++ "` has no members") := by
  cases t <;> first | rfl | contradiction

theorem element_of_getElem? (ht : t.isError = false) {i : Nat} {m : Ty}
    (h : t.members[i]? = some m) : t.element i = m := by
  rw [element_eq ht, h]

theorem getElem?_members_of_element (ht : t.isError = false) {i : Nat}
    (h : (t.element i).isError = false) : t.members[i]? = some (t.element i) := by
  cases hm : t.members[i]? with
  | some m => rw [element_of_getElem? ht hm]
  | none =>
    rw [element_eq ht, hm] at h
    dsimp only at h
    split at h <;> contradiction

theorem isDatum_element (ht : t.isDatum = true) (h : (t.element i).isError = false) :
    (t.element i).isDatum = true :=
  isDatum_of_mem_members ht
    (List.mem_of_getElem? (getElem?_members_of_element (isError_of_isDatum ht) h))

section

variable (haggregate : t.isAggregate = true) (ht : t.isErrorFree = true)
  (hlength : ts.length = t.members.length)
include haggregate ht hlength

theorem members_withMembers : (t.withMembers ts).members = ts := by
  cases t with
  | struct n ls us =>
    rw [isErrorFree, Bool.and_eq_true, beq_iff_eq] at ht
    have hlength : ts.length = us.length := hlength
    exact List.take_of_length_le (by omega)
  | array e us => rfl
  | tuple us => rfl
  | _ => contradiction

theorem isDatum_withMembers (hts : ∀ e ∈ ts, e.isDatum = true) :
    (t.withMembers ts).isDatum = true := by
  have hdatum : allDatum ts = true := allDatum_iff.2 hts
  cases t with
  | struct n ls us =>
    rw [isErrorFree, Bool.and_eq_true, beq_iff_eq] at ht
    have hlength : ts.length = us.length := hlength
    rw [withMembers, List.take_of_length_le (by omega), List.take_of_length_le (by omega), isDatum,
      hdatum, Bool.and_true, beq_iff_eq]
    omega
  | array e us =>
    rw [isErrorFree, Bool.and_eq_true] at ht
    rw [withMembers, isDatum, ht.1, hdatum, Bool.and_true]
  | tuple us => exact hdatum
  | _ => contradiction

end

end Ty

end SeaOfNodes
