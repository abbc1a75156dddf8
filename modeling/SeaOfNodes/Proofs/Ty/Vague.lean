import SeaOfNodes.Proofs.Ty.Datum

/-!
Types that know less of a value. A type is as vague as another if it has the same shape and each of
its scalars knows what the other one's knows, or nothing. Operators on vaguer operands have vaguer
results, and no errors where the others have none.
-/
namespace SeaOfNodes

namespace Level

variable {α β γ : Type} {l l' : Level α} {m m' : Level β}

/-- A level knows what another one knows, or nothing. -/
def Vague (l l' : Level α) : Prop := l = l' ∨ l = .bottom

theorem Vague.refl (l : Level α) : l.Vague l := .inl rfl

theorem Vague.isSettled (h : l.Vague l') (hl' : l'.isSettled = true) : l.isSettled = true := by
  rcases h with rfl | rfl
  · exact hl'
  · rfl

theorem Vague.eq_of_isConst (h : l.Vague l') (hl : l.isConst = true) : l = l' := by
  rcases h with rfl | rfl
  · rfl
  · contradiction

theorem Vague.eq_of_settled (h : l.Vague l') (hl' : l'.isSettled = true) (hconst : l'.isConst = false) :
    l = l' := by
  rcases h with rfl | rfl
  · rfl
  · cases l' <;> first | rfl | contradiction

theorem Vague.bind (h : l.Vague l') (f : α → Level β) : (l.bind f).Vague (l'.bind f) := by
  rcases h with rfl | rfl
  · exact .inl rfl
  · exact .inr rfl

theorem Vague.map (h : l.Vague l') (f : α → β) : (l.map f).Vague (l'.map f) := h.bind _

theorem lift_bottom_right (f : α → β → γ) (l : Level α) : lift f l .bottom = .bottom := by
  cases l <;> rfl

theorem Vague.lift (h : l.Vague l') (h' : m.Vague m') (f : α → β → γ) :
    (lift f l m).Vague (lift f l' m') := by
  rcases h with rfl | rfl
  · rcases h' with rfl | rfl
    · exact .inl rfl
    · exact .inr (lift_bottom_right f l)
  · exact .inr rfl

end Level

namespace Ty

mutual

/-- A type has the shape of another one, and knows what that knows of a scalar or nothing. -/
inductive Vague : Ty → Ty → Prop where
  | int (w : IntWidth) {l m : Level Int} : l.Vague m → Vague (.int w l) (.int w m)
  | float (w : FloatWidth) {l m : Level Double} : l.Vague m → Vague (.float w l) (.float w m)
  | bool {l m : Level Bool} : l.Vague m → Vague (.bool l) (.bool m)
  | rune {l m : Level Char} : l.Vague m → Vague (.rune l) (.rune m)
  | string {l m : Level String} : l.Vague m → Vague (.string l) (.string m)
  | struct (n : String) (ls : List String) {ts us : List Ty} : VagueAll ts us →
    Vague (.struct n ls ts) (.struct n ls us)
  | array (e : Ty) {ts us : List Ty} : VagueAll ts us → Vague (.array e ts) (.array e us)
  | tuple {ts us : List Ty} : VagueAll ts us → Vague (.tuple ts) (.tuple us)

inductive VagueAll : List Ty → List Ty → Prop where
  | nil : VagueAll [] []
  | cons {t u : Ty} {ts us : List Ty} : Vague t u → VagueAll ts us → VagueAll (t :: ts) (u :: us)

end

variable {a b a' b' t e : Ty} {ts us : List Ty}

theorem VagueAll.length_eq (h : VagueAll ts us) : ts.length = us.length := by
  induction ts generalizing us with
  | nil =>
    cases h
    rfl
  | cons t ts ih =>
    cases h with
    | cons _ h => rw [List.length_cons, List.length_cons, ih h]

theorem VagueAll.getElem? (h : VagueAll ts us) {i : Nat} (hi : us[i]? = some e) :
    ∃ t, ts[i]? = some t ∧ Vague t e := by
  induction ts generalizing us i with
  | nil =>
    cases h
    contradiction
  | cons t ts ih =>
    cases h with
    | cons ht h =>
      cases i with
      | zero =>
        cases hi
        exact ⟨t, rfl, ht⟩
      | succ i => exact ih h hi

theorem VagueAll.take (h : VagueAll ts us) (n : Nat) : VagueAll (ts.take n) (us.take n) := by
  induction ts generalizing us n with
  | nil =>
    cases h
    rw [List.take_nil]
    exact .nil
  | cons t ts ih =>
    cases h with
    | cons ht h =>
      cases n with
      | zero => exact .nil
      | succ n => exact .cons ht (ih h n)

mutual

theorem Vague.bottom_eq : ∀ {t e : Ty}, Vague t e → t.bottom = e.bottom
  | _, _, .struct n ls h => congrArg (struct n ls) h.bottoms_eq
  | _, _, .array f h => congrArg (array f) h.bottoms_eq
  | _, _, .tuple h => congrArg tuple h.bottoms_eq
  | _, _, .int .. | _, _, .float .. | _, _, .bool _ | _, _, .rune _ | _, _, .string _ => rfl

theorem VagueAll.bottoms_eq : ∀ {ts us : List Ty}, VagueAll ts us →
    withLevels true ts = withLevels true us
  | _, _, .nil => rfl
  | _, _, .cons h hs => by rw [withLevels, withLevels, hs.bottoms_eq, ← bottom, h.bottom_eq]; rfl

end

mutual

theorem Vague.isDatum : ∀ {t e : Ty}, Vague t e → e.isDatum = true → t.isDatum = true
  | _, _, .int w h, he => by
    rw [isDatum_int_iff] at he ⊢
    refine ⟨h.isSettled he.1, fun v hv => ?_⟩
    have hconst := h.eq_of_isConst (hv ▸ rfl)
    exact he.2 v (hconst ▸ hv)
  | _, _, .float w h, he => h.isSettled he
  | _, _, .bool h, he => h.isSettled he
  | _, _, .rune h, he => h.isSettled he
  | _, _, .string h, he => h.isSettled he
  | _, _, .struct n ls h, he => by
    rw [isDatum, Bool.and_eq_true] at he ⊢
    exact ⟨h.length_eq ▸ he.1, h.allDatum he.2⟩
  | _, _, .array f h, he => by
    rw [isDatum, Bool.and_eq_true] at he ⊢
    exact ⟨he.1, h.allDatum he.2⟩
  | _, _, .tuple h, he => h.allDatum he

theorem VagueAll.allDatum : ∀ {ts us : List Ty}, VagueAll ts us → allDatum us = true →
    allDatum ts = true
  | _, _, .nil, _ => rfl
  | _, _, .cons h hs, he => by
    rw [allDatum, Bool.and_eq_true] at he ⊢
    exact ⟨h.isDatum he.1, hs.allDatum he.2⟩

end

mutual

theorem Vague.eq_of_isConstant : ∀ {t e : Ty}, Vague t e → t.isConstant = true → t = e
  | _, _, .int w h, ht | _, _, .float w h, ht | _, _, .bool h, ht | _, _, .rune h, ht =>
    by rw [h.eq_of_isConst ht]
  | _, _, .string h, ht => by rw [h.eq_of_isConst ht]
  | _, _, .struct n ls h, ht | _, _, .array f h, ht | _, _, .tuple h, ht =>
    by rw [h.eq_of_allConstant ht]

theorem VagueAll.eq_of_allConstant : ∀ {ts us : List Ty}, VagueAll ts us →
    allConstant ts = true → ts = us
  | _, _, .nil, _ => rfl
  | _, _, .cons h hs, ht => by
    rw [allConstant, Bool.and_eq_true] at ht
    rw [h.eq_of_isConstant ht.1, hs.eq_of_allConstant ht.2]

end

mutual

theorem Vague.refl : ∀ {t : Ty}, t.isDatum = true → Vague t t
  | .int w l, _ => .int w (.refl l)
  | .float w l, _ => .float w (.refl l)
  | .bool l, _ => .bool (.refl l)
  | .rune l, _ => .rune (.refl l)
  | .string l, _ => .string (.refl l)
  | .struct n ls ts, h => by
    rw [isDatum, Bool.and_eq_true] at h
    exact .struct n ls (.refl h.2)
  | .array f ts, h => by
    rw [isDatum, Bool.and_eq_true] at h
    exact .array f (.refl h.2)
  | .tuple ts, h => .tuple (@VagueAll.refl ts h)
  | .pointer .., h | .function .., h | .void, h | .control _, h | .memory, h | .error _, h => by
    contradiction

theorem VagueAll.refl : ∀ {ts : List Ty}, allDatum ts = true → VagueAll ts ts
  | [], _ => .nil
  | t :: ts, h => by
    rw [allDatum, Bool.and_eq_true] at h
    exact .cons (.refl h.1) (.refl h.2)

end

mutual

theorem Vague.bottom : ∀ {t : Ty}, t.isDatum = true → Vague t.bottom t
  | .int w l, _ => .int w (.inr rfl)
  | .float w l, _ => .float w (.inr rfl)
  | .bool l, _ => .bool (.inr rfl)
  | .rune l, _ => .rune (.inr rfl)
  | .string l, _ => .string (.inr rfl)
  | .struct n ls ts, h => by
    rw [isDatum, Bool.and_eq_true] at h
    exact .struct n ls (.bottoms h.2)
  | .array f ts, h => by
    rw [isDatum, Bool.and_eq_true] at h
    exact .array f (.bottoms h.2)
  | .tuple ts, h => .tuple (@VagueAll.bottoms ts h)
  | .pointer .., h | .function .., h | .void, h | .control _, h | .memory, h | .error _, h => by
    contradiction

theorem VagueAll.bottoms : ∀ {ts : List Ty}, allDatum ts = true → VagueAll (withLevels true ts) ts
  | [], _ => .nil
  | t :: ts, h => by
    rw [allDatum, Bool.and_eq_true] at h
    exact .cons (.bottom h.1) (.bottoms h.2)

end

theorem Vague.isError (h : Vague t e) : t.isError = false := by
  cases h <;> rfl

theorem Vague.eq_of_scalar (h : Vague t e) (he : e.isDatum = true) (hconst : e.isConstant = false)
    (hscalar : e.isAggregate = false) : t = e := by
  cases h with
  | int w h => rw [h.eq_of_settled (isDatum_int_iff.1 he).1 hconst]
  | float w h | bool h | rune h | string h => rw [h.eq_of_settled he hconst]
  | struct | array | tuple => contradiction

/-! ### Operators -/

section Binary

variable {op : BinaryOp} {w : IntWidth} {l l' m m' : Level Int}

theorem absorbed_of_vague (hl : l.Vague l') (hm : m.Vague m') (h : absorbed op l m = true) :
    absorbed op l' m' = true := by
  unfold absorbed at h ⊢
  rw [Bool.and_eq_true] at h ⊢
  refine ⟨h.1, Bool.or_eq_true_iff.2 ((Bool.or_eq_true_iff.1 h.2).imp ?_ ?_)⟩
  · intro hzero
    rwa [← hl.eq_of_isConst (by rw [eq_of_beq hzero]; rfl)]
  · intro hzero
    rwa [← hm.eq_of_isConst (by rw [eq_of_beq hzero]; rfl)]

theorem intResult_of_bottom (hbottom : l = .bottom ∨ m = .bottom)
    (hzero : ((op == .divide || op == .modulus) && m == .const 0) = false) :
    intResult op w l m = .int w (if absorbed op l m then .const 0 else .bottom) := by
  unfold intResult
  rw [hzero, if_neg Bool.false_ne_true]
  split
  · rfl
  · rcases hbottom with rfl | rfl
    · rfl
    · cases l <;> rfl

theorem vague_intResult (hl : l.Vague l') (hm : m.Vague m')
    (h : (intResult op w l' m').isError = false) :
    Vague (intResult op w l m) (intResult op w l' m') := by
  obtain ⟨hzero', k, hk, hresults⟩ := results_intResult h
  have hzero : ((op == .divide || op == .modulus) && m == .const 0) = false := by
    rcases hm with rfl | rfl
    · exact hzero'
    · exact Bool.and_false _
  by_cases hbottom : l = .bottom ∨ m = .bottom
  · rw [intResult_of_bottom hbottom hzero, hk]
    refine .int w ?_
    split
    · rename_i habsorbed
      have habsorbed := absorbed_of_vague hl hm habsorbed
      cases hresults <;> first | exact .refl _ | simp [habsorbed] at *
    · exact .inr rfl
  · -- Both operands are known as well as before.
    obtain rfl : l = l' := hl.resolve_right fun hb => hbottom (.inl hb)
    obtain rfl : m = m' := hm.resolve_right fun hb => hbottom (.inr hb)
    rw [hk]
    exact .int w (.refl k)

theorem vague_absorbing {l l' m m' : Level Bool} (hl : l.Vague l') (hm : m.Vague m') (z : Bool)
    (f : Bool → Bool → Bool) :
    Vague (if l == .const z || m == .const z then .bool (.const z) else .bool (Level.lift f l m))
      (if l' == .const z || m' == .const z then .bool (.const z)
        else .bool (Level.lift f l' m')) := by
  by_cases hbottom : l = .bottom ∨ m = .bottom
  · have hlift : Level.lift f l m = .bottom := by
      rcases hbottom with rfl | rfl
      · rfl
      · exact Level.lift_bottom_right f l
    split
    · rename_i habsorbed
      have habsorbed' : (l' == .const z || m' == .const z) = true := by
        rw [Bool.or_eq_true, beq_iff_eq, beq_iff_eq] at habsorbed ⊢
        exact habsorbed.imp (fun h => (hl.eq_of_isConst (by rw [h]; rfl)).symm.trans h)
          fun h => (hm.eq_of_isConst (by rw [h]; rfl)).symm.trans h
      rw [if_pos habsorbed']
      exact .bool (.refl _)
    · rw [hlift]
      split
      · exact .bool (.inr rfl)
      · exact .bool (.inr rfl)
  · obtain rfl : l = l' := hl.resolve_right fun hb => hbottom (.inl hb)
    obtain rfl : m = m' := hm.resolve_right fun hb => hbottom (.inr hb)
    split
    · exact .bool (.refl _)
    · exact .bool (.refl _)

theorem vague_boolBinary {l l' m m' : Level Bool} (hl : l.Vague l') (hm : m.Vague m')
    (h : (boolBinary op l' m').isError = false) :
    Vague (boolBinary op l m) (boolBinary op l' m') := by
  cases op <;> first
    | contradiction
    | exact vague_absorbing hl hm _ _
    | exact .bool (hl.lift hm _)

theorem vague_promote (ha : Vague a a') (hb : Vague b b') : Vague (a.promote b) (a'.promote b') := by
  cases hb with
  | float v hm =>
    have hsame := ha
    cases ha with
    | int w hl => cases w <;> first | exact .float _ (hl.map _) | exact .int _ hl
    | _ => exact hsame
  | _ =>
    rw [promote_of_not_float rfl, promote_of_not_float rfl]
    exact ha

theorem vague_binary (ha : Vague a a') (hb : Vague b b') (h : (binary op a' b').isError = false) :
    Vague (binary op a b) (binary op a' b') := by
  have hcombines := combines_binary h
  rw [binary_eq ha.isError hb.isError]
  have hab := vague_promote ha hb
  have hba := vague_promote hb ha
  generalize binary op a' b' = r at hcombines ⊢
  generalize a'.promote b' = c, b'.promote a' = d at hab hba hcombines
  generalize a.promote b = c', b.promote a = d' at hab hba
  cases hcombines with
  | int hop hu hk =>
    cases hab with | int w hl =>
    cases hba with | int v hm =>
    have hvague := vague_intResult hl hm (congrArg isError hk)
    rw [hk] at hvague
    generalize hr : intResult op _ _ _ = r at hvague
    cases hvague with | int u hk' =>
    rw [(Combines.int hop hu hr).binaryOf_eq]
    exact .int _ hk'
  | float _ _ hop hu =>
    cases hab with | float w hl =>
    cases hba with | float v hm =>
    rw [(Combines.float _ _ hop hu).binaryOf_eq]
    exact .float _ (hl.lift hm _)
  | bool hk =>
    cases hab with | bool hl =>
    cases hba with | bool hm =>
    have hvague := vague_boolBinary hl hm (congrArg isError hk)
    rw [hk] at hvague
    generalize hr : boolBinary op _ _ = r at hvague
    cases hvague with | bool hk' =>
    rw [(Combines.bool hr).binaryOf_eq]
    exact .bool hk'
  | string _ _ hop =>
    cases hab with | string hl =>
    cases hba with | string hm =>
    rw [(Combines.string _ _ hop).binaryOf_eq]
    exact .string (hl.lift hm _)

end Binary

theorem vague_compare {op : CompareOp} (ha : Vague a a') (hb : Vague b b')
    (h : (compare op a' b').isError = false) :
    Vague (compare op a b) (compare op a' b') := by
  have hcompares := compares_compare h
  rw [compare_eq ha.isError hb.isError]
  have hab := vague_promote ha hb
  have hba := vague_promote hb ha
  generalize compare op a' b' = r at hcompares ⊢
  generalize a'.promote b' = c, b'.promote a' = d at hab hba hcompares
  generalize a.promote b = c', b.promote a = d' at hab hba
  cases hcompares with
  | int _ _ hu =>
    cases hab with | int w hl =>
    cases hba with | int v hm =>
    rw [(Compares.int _ _ hu).compareOf_eq]
    exact .bool (hl.lift hm _)
  | float _ _ hu =>
    cases hab with | float w hl =>
    cases hba with | float v hm =>
    rw [(Compares.float _ _ hu).compareOf_eq]
    exact .bool (hl.lift hm _)
  | bool _ _ hop =>
    cases hab with | bool hl =>
    cases hba with | bool hm =>
    rw [(Compares.bool _ _ hop).compareOf_eq]
    exact .bool (hl.lift hm _)
  | rune =>
    cases hab with | rune hl =>
    cases hba with | rune hm =>
    exact .bool (hl.lift hm _)
  | string =>
    cases hab with | string hl =>
    cases hba with | string hm =>
    exact .bool (hl.lift hm _)
  | pointer _ => cases hab

theorem vague_unary {op : UnaryOp} (ht : Vague t e) (h : (e.unary op).isError = false) :
    Vague (t.unary op) (e.unary op) := by
  have hturns := turns_unary h
  generalize e.unary op = r at h hturns ⊢
  cases hturns with
  | int w l' hop =>
    cases ht with | int w hl =>
    rw [(Turns.int w _ hop).unary_eq]
    exact .int w (hl.map _)
  | float w l' hop =>
    cases ht with | float w hl =>
    rw [(Turns.float w _ hop).unary_eq]
    exact .float w (hl.map _)
  | bool l' hop =>
    cases ht with | bool hl =>
    rw [(Turns.bool _ hop).unary_eq]
    exact .bool (hl.map _)

/-! ### Conversions -/

theorem Vague.sameShape_eq (h : Vague t e) (target : Ty) : t.sameShape target = e.sameShape target := by
  unfold sameShape
  rw [h.bottom_eq]

theorem Vague.converts {kind : Primitive} {r' : Ty} (h : Vague t e) (hr' : Converts e kind r') :
    ∃ r, Converts t kind r ∧ Vague r r' := by
  cases hr' with
  | intInt v w l' =>
    cases h with | int v hl =>
    exact ⟨_, .intInt v w _, .int w (hl.bind _)⟩
  | intFloat v w l' =>
    cases h with | int v hl =>
    exact ⟨_, .intFloat v w _, .float w (hl.map _)⟩
  | floatInt v w l' =>
    cases h with | float v hl =>
    exact ⟨_, .floatInt v w _, .int w (hl.bind _)⟩
  | floatFloat v w l' =>
    cases h with | float v hl =>
    exact ⟨_, .floatFloat v w _, .float w (hl.map _)⟩
  | intRune v l' =>
    cases h with | int v hl =>
    exact ⟨_, .intRune v _, .rune (hl.bind _)⟩
  | runeInt w l' =>
    cases h with | rune hl =>
    exact ⟨_, .runeInt w _, .int w (hl.map _)⟩
  | intBool v l' =>
    cases h with | int v hl =>
    exact ⟨_, .intBool v _, .bool (hl.map _)⟩
  | boolInt w l' =>
    cases h with | bool hl =>
    exact ⟨_, .boolInt w _, .int w (hl.map _)⟩
  | intString v l' =>
    cases h with | int v hl =>
    exact ⟨_, .intString v _, .string ((hl.bind _).map _)⟩
  | runeString l' =>
    cases h with | rune hl =>
    exact ⟨_, .runeString _, .string (hl.map _)⟩

theorem vague_cast {target : Ty} (ht : Vague t e) (he : e.isDatum = true)
    (h : (e.cast target).isError = false) : Vague (t.cast target) (e.cast target) := by
  have hshapes := ht.sameShape_eq target
  cases hshape : e.sameShape target with
  | true =>
    have htarget := isError_target he h
    rw [cast_of_sameShape he htarget hshape,
      cast_of_sameShape (ht.isDatum he) htarget (hshapes.trans hshape)]
    exact ht
  | false =>
    obtain ⟨kind, hkind, hr'⟩ := converts_cast he h hshape
    obtain ⟨r, hr, hvague⟩ := ht.converts hr'
    rwa [cast_eq_of_converts (hshapes.trans hshape) hkind hr]

/-! ### Aggregates -/

theorem vague_withMembers {shape : Ty} (haggregate : shape.isAggregate = true)
    (h : VagueAll ts us) : Vague (shape.withMembers ts) (shape.withMembers us) := by
  cases shape with
  | struct n ls vs =>
    rw [withMembers, h.length_eq]
    exact .struct n _ (h.take _)
  | array f vs => exact .array f h
  | tuple vs => exact .tuple h
  | _ => contradiction

theorem vague_element (ht : Vague t e) (he : e.isDatum = true) {i : Nat}
    (h : (e.element i).isError = false) : Vague (t.element i) (e.element i) := by
  have hmember := getElem?_members_of_element (isError_of_isDatum he) h
  have hmembers : VagueAll t.members e.members := by
    cases ht with
    | struct n ls hs => exact hs
    | array f hs => exact hs
    | tuple hs => exact hs
    | _ => exact .nil
  obtain ⟨m, hm, hvague⟩ := hmembers.getElem? hmember
  rwa [element_of_getElem? (isError_of_isDatum (ht.isDatum he)) hm]

end Ty

end SeaOfNodes
