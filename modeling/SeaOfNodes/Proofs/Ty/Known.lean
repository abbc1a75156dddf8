import SeaOfNodes.Proofs.Ty.Sound

/-!
Operators on operands whose values are known, of all kinds: integers wrap at their widths, and floats,
runes and strings have the operations of the machine. A type together with a value of it is the type
that knows the value (`Ty.knowing`), and what an operator gives for values is among those that it gives
for the types that know them. So a type that is constant is the value, whatever else is known later
(`Ty.value?_of_vague`).
-/
namespace SeaOfNodes

/-! ### Operators on known operands -/

/-- An operator on kinds and values, for two operands that are known. -/
def Ty.operate? (f : Primitive → Primitive → Value → Value → Option Value) (a b : Ty) :
    Option Value := do
  f (← a.primitive?) (← b.primitive?) (← a.value?) (← b.value?)

/-- The operator on two operands that are known, where it is defined. An untyped integer next to a
float is a float. -/
def BinaryOp.result? (op : BinaryOp) (a b : Ty) : Option Value :=
  match a.promote b, b.promote a with
  | .float w (.const x), .float v (.const y) =>
    if (Primitive.float w).supportsBinary op then
      (w.unify? v).map fun u => .float (u.round (Ty.floatEvaluate op x y))
    else none
  | .string (.const x), .string (.const y) => if op = .add then some (.string (x ++ y)) else none
  | a, b => Ty.operate? op.onValues? a b

/-- The comparison of two operands that are known. A float that is no number is unequal to itself. -/
def CompareOp.result? (op : CompareOp) (a b : Ty) : Option Value :=
  match a.promote b, b.promote a with
  | .float w (.const x), .float v (.const y) =>
    (w.unify? v).map fun _ => .bool (Ty.floatHolds op x y)
  | .rune (.const x), .rune (.const y) => some (.bool (op.holds (compare x.toNat y.toNat)))
  | .string (.const x), .string (.const y) => some (.bool (op.holds (compare x y)))
  | a, b => Ty.operate? op.onValues? a b

/-- The operator on an operand that is known. -/
def UnaryOp.result? (op : UnaryOp) (a : Ty) : Option Value :=
  match op, a with
  | .negate, .float _ (.const x) => some (.float x.neg)
  | op, a => do op.onValues? (← a.primitive?) (← a.value?)

/-- The conversion of an operand that is known to a kind. -/
def Primitive.result? (kind : Primitive) (a : Ty) : Option Value :=
  match a, kind with
  | .float _ (.const x), .int w => x.truncate?.map fun v => .int (w.wrap v)
  | .float _ (.const x), .float w => some (.float (w.round x))
  | .rune (.const x), .int w => some (.int (w.wrap x.toNat))
  | .rune (.const x), .string => some (.string (String.singleton x))
  | a, kind => do (← a.primitive?).convert? kind (← a.value?)

/-- A pointer is equal to those with its address, and there is no order on pointers. -/
def CompareOp.onAddresses? (op : CompareOp) (a b : Option Nat) : Option Value :=
  match op with
  | .equal => some (.bool (a == b))
  | .notEqual => some (.bool (a != b))
  | _ => none

namespace Ty

variable {s t a b r : Ty} {x z : Value}

/-- A scalar type, with the value that is known of it. -/
def knowing : Ty → Value → Ty
  | .int w _, .int a => .int w (.const a)
  | .float w _, .float a => .float w (.const a)
  | .bool _, .bool a => .bool (.const a)
  | .rune _, .rune a => .rune (.const a)
  | .string _, .string a => .string (.const a)
  | t, _ => t

/-- The explicit conversion of a value of a type. One to its own type leaves it alone, and a pointer
keeps its address. -/
def castValue? (t target : Ty) (x : Value) : Option Value :=
  if t.sameShape target then some x
  else match x with
    | .pointer a => some (.pointer a)
    | x => do (← target.primitive?).result? (t.knowing x)

/-- `a` is the type `t` when the value `x` of it is known. -/
structure Knows (t : Ty) (x : Value) (a : Ty) : Prop where
  vague : Vague t a
  isDatum : a.isDatum = true
  value : a.value? = some x

theorem Admits.knows (ht : Scalar t) (hx : t.Admits x) : t.Knows x (t.knowing x) := by
  cases ht with
  | int w l =>
    cases x <;> first
      | exact hx.1.elim
      | exact ⟨hx.vague_int, (admits_int_iff.1 hx).1, rfl⟩
  | float w l => cases x <;> first | exact hx.1.elim | exact ⟨.float w hx.1.vague, rfl, rfl⟩
  | bool l => cases x <;> first | exact hx.1.elim | exact ⟨.bool hx.1.vague, rfl, rfl⟩
  | rune l => cases x <;> first | exact hx.1.elim | exact ⟨.rune hx.1.vague, rfl, rfl⟩
  | string l => cases x <;> first | exact hx.1.elim | exact ⟨.string hx.1.vague, rfl, rfl⟩

theorem Admits.isError (h : t.Admits x) : t.isError = false :=
  Bool.eq_false_iff.2 fun herror => not_admits_of_isError herror x h

/-- A type that is constant is the value that becomes known. -/
theorem value?_of_vague (h : Vague t a) (hz : a.Admits z) (hconst : t.isConstant = true) :
    t.value? = some z := by
  obtain rfl := h.eq_of_isConstant hconst
  exact hz.1.value?_eq hconst

namespace Knows

variable (h : t.Knows x a)
include h

theorem isConstant : a.isConstant = true := by
  rw [← isSome_value?, h.value]
  rfl

theorem eq_of_admits (hz : a.Admits z) : x = z :=
  Option.some.inj (h.value.symm.trans (hz.1.value?_eq h.isConstant))

theorem scalar (ht : Scalar t) : Scalar a := by
  have hvague := h.vague
  cases ht <;> cases hvague <;> constructor

theorem ne_pointer (ht : Scalar t) (address : Option Nat) : x ≠ .pointer address := by
  have hvalue := h.value
  rintro rfl
  cases h.scalar ht <;> rename_i l <;> cases l <;> cases hvalue

theorem eq_knowing (ht : Scalar t) : a = t.knowing x := by
  obtain ⟨hvague, -, hvalue⟩ := h
  cases ht <;> cases hvague <;> rename_i l m _ <;> cases m <;> cases hvalue <;> rfl

end Knows

theorem admits_of_value? (ht : Scalar t) (hdatum : t.isDatum = true) (h : t.value? = some x) :
    t.Admits x := by
  cases ht with
  | int w l =>
    cases l <;> cases h
    exact admits_int_iff.2 ⟨hdatum, rfl⟩
  | float w l | bool l | rune l | string l =>
    cases l <;> cases h
    exact ⟨rfl, trivial⟩

/-! ### Results -/

theorem promote_eq_or (s t : Ty) : s.promote t = s ∨ ∃ l, s.promote t = .float .untyped l := by
  unfold promote
  split
  · exact .inr ⟨_, rfl⟩
  · exact .inl rfl

/-- An operator that floats do not have sees the operands as they are. -/
theorem unpromoted {f : Primitive → Primitive → Value → Value → Option Value}
    (hz : operate? f (a.promote b) (b.promote a) = some z)
    (hf : ∀ w q x y, f (.float w) q x y = none) (hf' : ∀ p w x y, f p (.float w) x y = none) :
    ∃ p q x y, a.primitive? = some p ∧ b.primitive? = some q ∧ a.value? = some x ∧
      b.value? = some y ∧ f p q x y = some z := by
  simp only [operate?, Option.bind_eq_bind, Option.bind_eq_some_iff] at hz
  obtain ⟨p, hp, q, hq, x, hx, y, hy, hz⟩ := hz
  rcases promote_eq_or a b with hl | ⟨l, hl⟩ <;> rw [hl] at hp hx
  · rcases promote_eq_or b a with hr | ⟨l, hr⟩ <;> rw [hr] at hq hy
    · exact ⟨p, q, x, y, hp, hq, hx, hy, hz⟩
    · cases hq
      simp [hf'] at hz
  · cases hp
    simp [hf] at hz

section

variable (ha : Scalar a) (hadatum : a.isDatum = true)
include ha hadatum

section

variable (hb : Scalar b) (hbdatum : b.isDatum = true)
include hb hbdatum

theorem admits_apply_binary {op : BinaryOp} (hz : op.result? a b = some z) :
    (binary op a b).Admits z := by
  have heq := binary_eq (isError_of_isDatum hadatum) (isError_of_isDatum hbdatum) op
  unfold BinaryOp.result? at hz
  split at hz
  · rename_i hl hr
    obtain ⟨hop, hz⟩ := Option.ite_none_right_eq_some.1 hz
    obtain ⟨u, hu, rfl⟩ := Option.map_eq_some_iff.1 hz
    rw [heq, hl, hr, (Combines.float _ _ hop hu).binaryOf_eq]
    exact ⟨rfl, trivial⟩
  · rename_i hl hr
    obtain ⟨hop, hz⟩ := Option.ite_none_right_eq_some.1 hz
    cases hz
    rw [heq, hl, hr, (Combines.string _ _ hop).binaryOf_eq]
    exact ⟨rfl, trivial⟩
  · obtain ⟨p, q, x, y, hp, hq, hx, hy, hz⟩ := unpromoted hz (fun _ _ _ _ => rfl)
      fun p _ _ _ => by cases p <;> rfl
    exact admits_binary hp hq (admits_of_value? ha hadatum hx) (admits_of_value? hb hbdatum hy) hz

theorem admits_apply_compare {op : CompareOp} (hz : op.result? a b = some z) :
    (compare op a b).Admits z := by
  have heq := compare_eq (isError_of_isDatum hadatum) (isError_of_isDatum hbdatum) op
  unfold CompareOp.result? at hz
  split at hz
  · rename_i hl hr
    obtain ⟨u, hu, rfl⟩ := Option.map_eq_some_iff.1 hz
    rw [heq, hl, hr, (Compares.float _ _ hu).compareOf_eq]
    exact ⟨rfl, trivial⟩
  iterate 2
    · rename_i hl hr
      cases hz
      rw [heq, hl, hr]
      exact ⟨rfl, trivial⟩
  · obtain ⟨p, q, x, y, hp, hq, hx, hy, hz⟩ := unpromoted hz (fun _ _ _ _ => rfl)
      fun p _ _ _ => by cases p <;> rfl
    exact admits_compare hp hq (admits_of_value? ha hadatum hx) (admits_of_value? hb hbdatum hy) hz

end

theorem admits_apply_unary {op : UnaryOp} (hz : op.result? a = some z) : (a.unary op).Admits z := by
  unfold UnaryOp.result? at hz
  split at hz
  · cases hz
    exact ⟨rfl, trivial⟩
  · simp only [Option.bind_eq_bind, Option.bind_eq_some_iff] at hz
    obtain ⟨p, hp, x, hx, hz⟩ := hz
    exact admits_unary hp (admits_of_value? ha hadatum hx) hz

theorem admits_apply_cast {kind : Primitive} (hkind : t.primitive? = some kind)
    (hshape : a.sameShape t = false) (hz : kind.result? a = some z) : (a.cast t).Admits z := by
  unfold Primitive.result? at hz
  split at hz
  · obtain ⟨v, hv, rfl⟩ := Option.map_eq_some_iff.1 hz
    rw [cast_eq_of_converts hshape hkind (.floatInt _ _ _)]
    refine admits_of_value? (.int _ _) (Converts.isDatum (.floatInt _ _ _) hadatum) ?_
    simp [floatToInt, Level.bind, hv, value?, Level.const?]
  · cases hz
    rw [cast_eq_of_converts hshape hkind (.floatFloat _ _ _)]
    exact ⟨rfl, trivial⟩
  · cases hz
    rw [cast_eq_of_converts hshape hkind (.runeInt _ _)]
    exact admits_of_value? (.int _ _) (Converts.isDatum (.runeInt _ _) hadatum) rfl
  · cases hz
    rw [cast_eq_of_converts hshape hkind (.runeString _)]
    exact ⟨rfl, trivial⟩
  · simp only [Option.bind_eq_bind, Option.bind_eq_some_iff] at hz
    obtain ⟨p, hp, x, hx, hz⟩ := hz
    exact admits_cast hp hkind (admits_of_value? ha hadatum hx) hz

end

/-- An operator that the type of its operand has is defined on the value. -/
theorem Knows.unary {op : UnaryOp} (h : t.Knows x a) (ht : Scalar t)
    (hno : (t.unary op).isError = false) :
    ∃ z, op.result? a = some z ∧ (t.unary op).Knows z (a.unary op) := by
  have herror : (a.unary op).isError = false := by
    have hvague := h.vague
    cases ht <;> cases hvague <;> cases op <;> first | rfl | contradiction
  obtain ⟨z, hz, hconst⟩ : ∃ z, op.result? a = some z ∧ (a.unary op).isConstant = true := by
    have hvalue := h.value
    have hturns := turns_unary herror
    generalize a.unary op = r at hturns ⊢
    cases hturns with
    | int w l hop | float w l hop | bool l hop =>
      cases l <;> cases hvalue
      cases op <;> first | contradiction | exact ⟨_, rfl, rfl⟩
  refine ⟨z, hz, vague_unary h.vague herror, isDatum_unary h.isDatum herror, ?_⟩
  exact (admits_apply_unary (h.scalar ht) h.isDatum hz).1.value?_eq hconst

/-- Two pointers that are known are both `nil`. -/
theorem value?_pointerCompare {op : CompareOp} {p q : Ty} {l m : Level Unit} {i j : Option Nat}
    (hconst : (pointerCompare op p l q m).isConstant = true) (hi : describesAddress l i)
    (hj : describesAddress m j) (hz : op.onAddresses? i j = some z) :
    (pointerCompare op p l q m).value? = some z := by
  unfold pointerCompare at hconst ⊢
  split at hconst
  · contradiction
  · rw [if_neg ‹_›]
    split at hconst
    · rw [if_pos ‹_›]
      cases l with
      | const =>
        cases m with
        | const =>
          obtain rfl : i = none := hi
          obtain rfl : j = none := hj
          cases op <;> cases hz <;> rfl
        | _ => contradiction
      | bottom => contradiction
      | top => exact hi.elim
    · contradiction

/-! ### Operands -/

theorem scalar_promote (h : s.promote t = r) (hr : Scalar r) : Scalar s := by
  rcases promote_eq_or s t with heq | ⟨l, heq⟩
  · exact (heq.symm.trans h) ▸ hr
  · unfold promote at heq
    split at heq
    · constructor
    · exact heq ▸ .float _ _

theorem scalar_of_binary {op : BinaryOp} (h : (binary op s t).isError = false) :
    Scalar s ∧ Scalar t := by
  have hcombines := combines_binary h
  generalize hs : s.promote t = s', ht : t.promote s = t', binary op s t = r at hcombines
  cases hcombines <;> exact ⟨scalar_promote hs (by constructor), scalar_promote ht (by constructor)⟩

theorem scalar_of_compare {op : CompareOp} (h : (compare op s t).isError = false) :
    Scalar s ∧ Scalar t ∨ ∃ p l q m, s = .pointer p l ∧ t = .pointer q m := by
  have hcompares := compares_compare h
  have hpointer : ∀ {s t p l}, promote s t = .pointer p l → s = .pointer p l := by
    intro s t p l h
    rcases promote_eq_or s t with heq | ⟨k, heq⟩ <;> rw [heq] at h
    · exact h
    · contradiction
  generalize hs : s.promote t = s', ht : t.promote s = t', compare op s t = r at hcompares
  cases hcompares with
  | pointer => exact .inr ⟨_, _, _, _, hpointer hs, hpointer ht⟩
  | _ => exact .inl ⟨scalar_promote hs (by constructor), scalar_promote ht (by constructor)⟩

theorem scalar_of_unary {op : UnaryOp} (h : (t.unary op).isError = false) : Scalar t := by
  have hturns := turns_unary h
  generalize t.unary op = r at hturns
  cases hturns <;> constructor

theorem cast_self (hno : (s.cast t).isError = false) (hshape : s.sameShape t = true) :
    s.cast t = s := by
  cases s <;> cases t <;> first | contradiction | simp [cast, hshape]

theorem scalar_of_cast (hno : (s.cast t).isError = false) (hshape : s.sameShape t = false) :
    Scalar s ∨ ∃ p l q m, s = .pointer p l ∧ t = .pointer q m ∧ s.cast t = .pointer q l := by
  cases s <;> cases t <;> first
    | exact .inl (by constructor)
    | contradiction
    | exact .inr ⟨_, _, _, _, rfl, rfl, by simp [cast, hshape]⟩
    | simp [cast, hshape, primitive?, cannotCast, fail, isError] at hno

end Ty

end SeaOfNodes
