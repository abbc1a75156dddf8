import SeaOfNodes.Proofs.Ty.Vague

/-!
What a node knows of its value. A reading relates the type of a node to the type of data that the
value turns out to have: the type itself, or one that is less vague. Whatever operators and
identities a builder uses, they keep to a reading.
-/
namespace SeaOfNodes.Ty

variable {a b t e target : Ty} {ts es : List Ty}

/-- A relation between the types of nodes and of their values that operators respect. -/
structure Reading (R : Ty → Ty → Prop) : Prop where
  isDatum_left : ∀ {t e}, R t e → t.isDatum = true
  isDatum : ∀ {t e}, R t e → e.isDatum = true
  bottom_eq : ∀ {t e}, R t e → t.bottom = e.bottom
  eq_of_isConstant : ∀ {t e}, R t e → t.isConstant = true → t = e
  eq_of_scalar : ∀ {t e}, R t e → e.isConstant = false → e.isAggregate = false → t = e
  refl : ∀ {e}, e.isDatum = true → R e e
  binary : ∀ {op a b a' b'}, R a a' → R b b' → (Ty.binary op a' b').isError = false →
    R (Ty.binary op a b) (Ty.binary op a' b')
  compare : ∀ {op a b a' b'}, R a a' → R b b' → (Ty.compare op a' b').isError = false →
    R (Ty.compare op a b) (Ty.compare op a' b')
  unary : ∀ {op t e}, R t e → (e.unary op).isError = false → R (t.unary op) (e.unary op)
  cast : ∀ {target t e}, R t e → (e.cast target).isError = false → R (t.cast target) (e.cast target)
  withMembers : ∀ {shape : Ty} {ts es}, shape.isAggregate = true → shape.isErrorFree = true →
    es.length = shape.members.length → List.Forall₂ R ts es →
    R (shape.withMembers ts) (shape.withMembers es)
  element : ∀ {t e i}, R t e → (e.element i).isError = false → R (t.element i) (e.element i)

theorem isDatum_of_forall₂ {R : Ty → Ty → Prop} (hR : ∀ {t e}, R t e → e.isDatum = true)
    (h : List.Forall₂ R ts es) : ∀ e ∈ es, e.isDatum = true := by
  induction h with
  | nil => exact List.forall_mem_nil _
  | cons he _ ih => exact List.forall_mem_cons.2 ⟨hR he, ih⟩

theorem reading_eq : Reading fun t e => t = e ∧ e.isDatum = true where
  isDatum_left := by
    rintro t e ⟨rfl, he⟩
    exact he
  isDatum h := h.2
  bottom_eq h := by rw [h.1]
  eq_of_isConstant h _ := h.1
  eq_of_scalar h _ _ := h.1
  refl he := ⟨rfl, he⟩
  binary := by
    rintro op a b a' b' ⟨rfl, ha⟩ ⟨rfl, hb⟩ h
    exact ⟨rfl, isDatum_binary ha hb h⟩
  compare := by
    rintro op a b a' b' ⟨rfl, ha⟩ ⟨rfl, hb⟩ h
    exact ⟨rfl, isDatum_compare ha hb h⟩
  unary := by
    rintro op t e ⟨rfl, he⟩ h
    exact ⟨rfl, isDatum_unary he h⟩
  cast := by
    rintro target t e ⟨rfl, he⟩ h
    exact ⟨rfl, isDatum_cast he h⟩
  withMembers {shape ts es} haggregate hshape hlength h := by
    have heq : ts = es := by
      clear hlength
      induction h with
      | nil => rfl
      | cons he _ ih => rw [he.1, ih]
    exact ⟨by rw [heq], isDatum_withMembers haggregate hshape hlength
      (isDatum_of_forall₂ (fun h => h.2) h)⟩
  element := by
    rintro t e i ⟨rfl, he⟩ h
    exact ⟨rfl, isDatum_element he h⟩

theorem reading_vague : Reading fun t e => Vague t e ∧ e.isDatum = true where
  isDatum_left h := h.1.isDatum h.2
  isDatum h := h.2
  bottom_eq h := h.1.bottom_eq
  eq_of_isConstant h := h.1.eq_of_isConstant
  eq_of_scalar h := h.1.eq_of_scalar h.2
  refl he := ⟨.refl he, he⟩
  binary ha hb h := ⟨vague_binary ha.1 hb.1 h, isDatum_binary ha.2 hb.2 h⟩
  compare ha hb h := ⟨vague_compare ha.1 hb.1 h, isDatum_compare ha.2 hb.2 h⟩
  unary ht h := ⟨vague_unary ht.1 h, isDatum_unary ht.2 h⟩
  cast ht h := ⟨vague_cast ht.1 ht.2 h, isDatum_cast ht.2 h⟩
  withMembers {shape ts es} haggregate hshape hlength h := by
    have hall : VagueAll ts es := by
      clear hlength
      induction h with
      | nil => exact .nil
      | cons he _ ih => exact .cons he.1 ih
    exact ⟨vague_withMembers haggregate hall, isDatum_withMembers haggregate hshape hlength
      (isDatum_of_forall₂ (fun h => h.2) h)⟩
  element ht h := ⟨vague_element ht.1 ht.2 h, isDatum_element ht.2 h⟩

/-! ### Neutral operands -/

/-- The right operand that an integer operator leaves the left one with. -/
def rightNeutral? : BinaryOp → Option Int
  | .add | .bitwiseOr | .subtract | .shiftLeft | .shiftRight => some 0
  | .multiply | .divide => some 1
  | _ => none

/-- The left operand that an integer operator leaves the right one with. -/
def leftNeutral? : BinaryOp → Option Int
  | .add | .bitwiseOr => some 0
  | .multiply => some 1
  | _ => none

theorem neutralOperand?_eq_some {op : BinaryOp} {lhs rhs x : NodeId × Ty}
    (h : neutralOperand? op lhs rhs = some x) :
    (x = lhs ∧ ∃ n, rightNeutral? op = some n ∧ rhs.2.int? = some n) ∨
      (x = rhs ∧ ∃ n, leftNeutral? op = some n ∧ lhs.2.int? = some n) := by
  cases op <;> simp only [neutralOperand?, Option.ite_none_right_eq_some, Option.some.injEq,
    reduceCtorEq, beq_iff_eq] at h
  case add | bitwiseOr | multiply =>
    split at h
    · exact .inl ⟨(Option.some.inj h).symm, _, rfl, by assumption⟩
    · obtain ⟨hn, hx⟩ := Option.ite_none_right_eq_some.1 h
      exact .inr ⟨(Option.some.inj hx).symm, _, rfl, hn⟩
  all_goals exact .inl ⟨h.2.symm, _, rfl, h.1⟩

theorem int?_eq_some {n : Int} (h : t.int? = some n) : ∃ w, t = .int w (.const n) := by
  cases t with
  | int w l =>
    cases l with
    | const v =>
      cases h
      exact ⟨w, rfl⟩
    | _ => contradiction
  | _ => contradiction

section Neutral

variable {op : BinaryOp} {w v : IntWidth} {l : Level Int} {n : Int}

theorem lor_zero (a : Int) : a.lor 0 = a ∧ Int.lor 0 a = a := by
  have hldiff : ∀ m : Nat, m.ldiff 0 = m := fun m =>
    Nat.eq_of_testBit_eq fun i => by simp
  cases a <;> simp [Int.lor, hldiff]

theorem onInts?_rightNeutral (hop : rightNeutral? op = some n) (a : Int) : op.onInts? a n = some a := by
  cases op <;> cases hop <;> simp [BinaryOp.onInts?, (lor_zero a).1]

theorem onInts?_leftNeutral (hop : leftNeutral? op = some n) (a : Int) : op.onInts? n a = some a := by
  cases op <;> cases hop <;> simp [BinaryOp.onInts?, (lor_zero a).2]

theorem intResult_rightNeutral (hl : (int w l).isDatum = true) (hop : rightNeutral? op = some n) :
    intResult op w l (.const n) = .int w l := by
  cases l with
  | top => contradiction
  | bottom => cases op <;> cases hop <;> rfl
  | const a =>
    rw [intResult_of_exact (IntWidth.holds_iff.1 hl).2 (fun _ => hl) (onInts?_rightNeutral hop a),
      IntWidth.truncate_of_holds hl]

theorem intResult_leftNeutral (hl : (int w l).isDatum = true) (hop : leftNeutral? op = some n) :
    intResult op w (.const n) l = .int w l := by
  cases l with
  | top => contradiction
  | bottom => cases op <;> cases hop <;> rfl
  | const a =>
    rw [intResult_of_exact (by cases op <;> cases hop <;> rfl) (by cases op <;> cases hop <;> nofun)
      (onInts?_leftNeutral hop a), IntWidth.truncate_of_holds hl]

theorem sameShape_int_iff {k : Level Int} : (int w l).sameShape (.int v k) = true ↔ w = v := by
  unfold sameShape
  cases w <;> cases v <;> simp [bottom, withLevel] <;> decide

theorem isError_of_isIntegral (h : t.isIntegral = true) : t.isError = false := by
  cases t <;> first | rfl | contradiction

theorem binary_rightNeutral (ha : a.isDatum = true) (hop : rightNeutral? op = some n)
    (h : (binary op a (.int v (.const n))).isIntegral = true)
    (hshape : a.sameShape (binary op a (.int v (.const n))) = true) :
    binary op a (.int v (.const n)) = a := by
  have hcombines := combines_binary (isError_of_isIntegral h)
  generalize binary op a (.int v (.const n)) = r at h hshape hcombines ⊢
  generalize ha' : a.promote _ = a', hn' : promote _ a = n' at hcombines
  cases hcombines with
  | int _ _ hk =>
    obtain rfl := promote_eq_int ha'
    cases promote_eq_int hn'
    obtain rfl := sameShape_int_iff.1 hshape
    rw [← hk, intResult_rightNeutral ha hop]
  | float | string => contradiction
  | bool =>
    unfold promote at hn'
    split at hn' <;> contradiction

theorem binary_leftNeutral (ha : a.isDatum = true) (hop : leftNeutral? op = some n)
    (h : (binary op (.int v (.const n)) a).isIntegral = true)
    (hshape : a.sameShape (binary op (.int v (.const n)) a) = true) :
    binary op (.int v (.const n)) a = a := by
  have hcombines := combines_binary (isError_of_isIntegral h)
  generalize binary op (.int v (.const n)) a = r at h hshape hcombines ⊢
  generalize hn' : promote _ a = n', ha' : a.promote _ = a' at hcombines
  cases hcombines with
  | int _ _ hk =>
    obtain rfl := promote_eq_int ha'
    cases promote_eq_int hn'
    obtain rfl := sameShape_int_iff.1 hshape
    rw [← hk, intResult_leftNeutral ha hop]
  | float | string => contradiction
  | bool =>
    unfold promote at hn'
    split at hn' <;> contradiction

end Neutral

/-! ### A value with itself -/

theorem zero_eq_of_bottom {r : Ty} (ht : t.isIntegral = true) (hbottom : t.bottom = r.bottom) :
    t.zero = r.zero := by
  cases t <;> cases r <;> first | contradiction | skip
  all_goals
    injections
    simp_all [zero]

theorem binary_self {op : BinaryOp} (he : e.isDatum = true) (hconst : e.isConstant = true)
    (hop : op = .subtract ∨ op = .bitwiseXor) (h : (binary op e e).isIntegral = true) :
    binary op e e = (binary op e e).zero := by
  have hcombines := combines_binary (isError_of_isIntegral h)
  rw [promote_self] at hcombines
  generalize binary op e e = r at h hcombines ⊢
  cases hcombines with
  | @int _ _ u l _ _ _ _ hk =>
    cases l with
    | const a =>
      have hself : op.onInts? a a = some 0 := by
        rcases hop with rfl | rfl
        · simp [BinaryOp.onInts?]
        · cases a <;> simp [BinaryOp.onInts?, Int.xor]
      have hshift : op.isShift = true → u.holds a = true := by
        rcases hop with rfl | rfl <;> exact fun h => absurd h Bool.false_ne_true
      rw [intResult_of_exact (wrap128_of_isDatum he a rfl) hshift hself, IntWidth.truncate_zero] at hk
      rw [← hk, zero, intOf, IntWidth.wrap_zero]
    | _ => contradiction
  | @bool l _ _ hk =>
    rw [← hk]
    cases l with
    | const a =>
      rcases hop with rfl | rfl
      · contradiction
      · cases a <;> rfl
    | _ => contradiction
  | float | string => contradiction

theorem compare_self {op : CompareOp} (he : e.isDatum = true) (hconst : e.isConstant = true)
    (hfloat : e.isFloat = false) (h : (compare op e e).isError = false) :
    compare op e e = .bool (.const (op.holds .eq)) := by
  have hcompares := compares_compare h
  rw [promote_self] at hcompares
  generalize compare op e e = r at h hcompares ⊢
  cases hcompares with
  | int l _ _ | bool l _ _ | rune l _ | string l _ =>
    cases l with
    | const a => simp [Level.lift]
    | _ => contradiction
  | float | pointer => contradiction

/-! ### Operators that undo themselves -/

theorem unary_unary {op : UnaryOp} (he : e.isDatum = true) (hfloat : e.isFloat = false)
    (h : (e.unary op).isError = false) : (e.unary op).unary op = e := by
  have hturns := turns_unary h
  generalize e.unary op = r at h hturns ⊢
  cases hturns with
  | int w l hop =>
    rw [intUnary, (Turns.int w _ hop).unary_eq]
    cases l with
    | top => contradiction
    | bottom => rfl
    | const a =>
      cases op with
      | negate => exact congrArg (fun v => int w (.const v)) (IntWidth.wrap_negate he)
      | bitwiseNot => exact congrArg (fun v => int w (.const v)) (IntWidth.wrap_complement he)
      | logicalNot => contradiction
  | float w l _ => contradiction
  | bool l hop =>
    rw [(Turns.bool _ hop).unary_eq]
    cases l with
    | const a => cases a <;> rfl
    | _ => rfl

/-! ### Conversions -/

theorem sameShape_of_primitive? {kind : Primitive} (ha : a.primitive? = some kind)
    (hb : b.primitive? = some kind) : a.sameShape b = true := by
  cases a <;> cases ha <;> cases b <;> cases hb <;> exact beq_iff.2 rfl

theorem sameShape_of_bottom (h : a.bottom = b.bottom) (target : Ty) :
    a.sameShape target = b.sameShape target := by
  unfold sameShape
  rw [h]

section

variable (ht : t.isDatum = true) (he : e.isDatum = true) (hbottom : t.bottom = e.bottom)
  (h : (t.cast target).isError = false)
include ht he hbottom h

theorem cast_eq_self (hshape : t.sameShape (t.cast target) = true) : e.cast target = e := by
  have htarget : t.sameShape target = true := by
    cases htarget : t.sameShape target with
    | true => rfl
    | false =>
      obtain ⟨kind, hkind, hconverts⟩ := converts_cast ht h htarget
      have hsame := sameShape_of_primitive? hconverts.primitive? hkind
      rw [sameShape_iff] at hshape hsame
      rw [← htarget, sameShape_iff.2 (hshape.trans hsame)]
  exact cast_of_sameShape he (isError_target ht h)
    ((sameShape_of_bottom hbottom target).symm.trans htarget)

theorem cast_cast_target (h' : (e.cast target).isError = false)
    (hshape : t.sameShape (t.cast target) = false) : e.cast (t.cast target) = e.cast target := by
  have htarget : t.sameShape target = false := by
    cases htarget : t.sameShape target with
    | true =>
      simp [cast_of_sameShape ht (isError_target ht h) htarget, sameShape_iff.2 rfl] at hshape
    | false => rfl
  have hshapes := sameShape_of_bottom hbottom
  obtain ⟨kind, hkind, hconverts⟩ := converts_cast ht h htarget
  obtain ⟨kind', hkind', hconverts'⟩ := converts_cast he h' ((hshapes target).symm.trans htarget)
  cases hkind.symm.trans hkind'
  exact cast_eq_of_converts ((hshapes _).symm.trans hshape) hconverts.primitive? hconverts'

end

/-! ### Aggregates and scalars -/

section Scalars

variable {r : Ty}

theorem isAggregate_withMembers (h : t.isAggregate = true) (ts : List Ty) :
    (t.withMembers ts).isAggregate = true := by
  cases t <;> first | rfl | contradiction

theorem isAggregate_of_binary {op : BinaryOp} (h : (binary op a b).isError = false) :
    a.isAggregate = false ∧ b.isAggregate = false ∧ (binary op a b).isAggregate = false := by
  have hcombines := combines_binary h
  rw [← isAggregate_promote a b, ← isAggregate_promote b a]
  generalize a.promote b = c, b.promote a = d, binary op a b = r at hcombines ⊢
  cases hcombines <;> exact ⟨rfl, rfl, rfl⟩

theorem isAggregate_of_compare {op : CompareOp} (h : (compare op a b).isError = false) :
    a.isAggregate = false ∧ b.isAggregate = false ∧ (compare op a b).isAggregate = false := by
  have hcompares := compares_compare h
  rw [← isAggregate_promote a b, ← isAggregate_promote b a]
  generalize a.promote b = c, b.promote a = d, compare op a b = r at hcompares ⊢
  cases hcompares <;> exact ⟨rfl, rfl, rfl⟩

theorem Turns.isAggregate {op : UnaryOp} (h : Turns op t r) :
    t.isAggregate = false ∧ r.isAggregate = false := by
  cases h <;> exact ⟨rfl, rfl⟩

theorem isAggregate_cast {target : Ty} (ht : t.isDatum = true) (hscalar : t.isAggregate = false)
    (h : (t.cast target).isError = false) : (t.cast target).isAggregate = false := by
  cases hshape : t.sameShape target with
  | true => rwa [cast_of_sameShape ht (isError_target ht h) hshape]
  | false =>
    obtain ⟨kind, -, hconverts⟩ := converts_cast ht h hshape
    generalize t.cast target = r at hconverts ⊢
    cases hconverts <;> rfl

end Scalars

end SeaOfNodes.Ty
