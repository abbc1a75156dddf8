import SeaOfNodes.Proofs.Ty.Regroup

/-!
The values of one declared type. Within them nothing that a meet takes from its left operand can
differ, so no meet fails and the order of operands is of no matter: they form a meet-semilattice
between the declared type at `top` and the declared type itself (`meet_semilattice`).
-/
namespace SeaOfNodes.Ty

variable {D a b c : Ty} {ts us : List Ty}

/-- Whether `a` is a value of the declared type `D`, with no error inside. -/
def isValueOf (D a : Ty) : Bool := a.isErrorFree && a.bottom == D

/-! ### Levels -/

theorem withLevel_withLevel (bottom bottom' : Bool) (t : Ty) :
    (t.withLevel bottom').withLevel bottom = t.withLevel bottom := by
  induction t using members_induction with
  | h t ih => cases t <;> simp_all [withLevel, withLevels_eq_map, members]

theorem isErrorFree_withLevel (bottom : Bool) (t : Ty) :
    (t.withLevel bottom).isErrorFree = t.isErrorFree := by
  induction t using members_induction with
  | h t ih =>
    rw [Bool.eq_iff_iff]
    cases t <;> simp_all [withLevel, withLevels_eq_map, isErrorFree, allErrorFree_iff, members]

theorem allErrorFree_withLevels (bottom : Bool) (ts : List Ty) :
    allErrorFree (withLevels bottom ts) = allErrorFree ts := by
  rw [Bool.eq_iff_iff]
  simp [allErrorFree_iff, withLevels_eq_map, isErrorFree_withLevel]

theorem isProper_of_isErrorFree {t : Ty} (h : t.isErrorFree = true) : t.isProper = true := by
  induction t using members_induction with
  | h t ih => cases t <;> simp_all [isErrorFree, isProper, allErrorFree_iff, allProper_iff, members]

theorem any_isError_of_allErrorFree (h : allErrorFree ts = true) : ts.any isError = false := by
  rw [allErrorFree_iff] at h
  simpa using fun t ht => isError_of_isErrorFree (h t ht)

/-! ### The ends of the order -/

theorem meet_scalar_ends (hscalar : a.isAggregate = false) (ha : a.isErrorFree = true) :
    a.meet a = a ∧ a.top.meet a = a ∧ a.bottom.meet a = a.bottom := by
  cases a with
  | int w l | float w l =>
    have hunify : w.unify? w = some w := by cases w <;> rfl
    simp [top, bottom, withLevel, meet, hunify]
  | bool l | rune l | string l => simp [top, bottom, withLevel, meet]
  | pointer p l =>
    have hshape : p.sameShape p = true := sameShape_iff.2 rfl
    simp [top, bottom, withLevel, meet, meetPointer, hshape]
  | function ps r l =>
    have hsame : sameSignature ps r ps r = true := sameSignature_iff.2 ⟨rfl, rfl⟩
    simp [top, bottom, withLevel, meet, hsame]
  | control l => cases l <;> exact ⟨rfl, rfl, rfl⟩
  | void | memory => exact ⟨rfl, rfl, rfl⟩
  | struct | array | tuple | error => contradiction

theorem meet_aggregate_ends {make : List Ty → Ty} (hts : allErrorFree ts = true)
    (hmeet : ∀ {xs}, xs.length = ts.length →
      (make xs).meet (make ts) = collect make (List.zipWith meet xs ts))
    (h : ∀ t ∈ ts, t.isErrorFree = true →
      t.meet t = t ∧ t.top.meet t = t ∧ t.bottom.meet t = t.bottom) :
    (make ts).meet (make ts) = make ts ∧ (make (withLevels false ts)).meet (make ts) = make ts ∧
      (make (withLevels true ts)).meet (make ts) = make (withLevels true ts) := by
  have h := fun t ht => h t ht (allErrorFree_iff.1 hts t ht)
  have hzip : ∀ {f g : Ty → Ty}, (∀ t ∈ ts, (f t).meet t = g t) →
      List.zipWith meet (ts.map f) ts = ts.map g := by
    intro f g hfg
    rw [List.zipWith_map_left, List.zipWith_self]
    exact List.map_congr_left hfg
  have hself := hzip (f := id) (g := id) fun t ht => (h t ht).1
  have htop := hzip (g := id) fun t ht => (h t ht).2.1
  have hbottom := hzip (g := bottom) fun t ht => (h t ht).2.2
  have hfree := any_isError_of_allErrorFree hts
  have hlevels := any_isError_of_allErrorFree ((allErrorFree_withLevels true ts).trans hts)
  rw [withLevels_eq_map] at hlevels
  rw [List.map_id] at hself htop
  rw [hmeet rfl, hself, withLevels_eq_map, withLevels_eq_map, hmeet (List.length_map _),
    hmeet (List.length_map _)]
  exact ⟨collect_eq hfree, htop.symm ▸ collect_eq hfree, hbottom.symm ▸ collect_eq hlevels⟩

theorem meet_ends (ha : a.isErrorFree = true) :
    a.meet a = a ∧ a.top.meet a = a ∧ a.bottom.meet a = a.bottom := by
  induction a using members_induction with
  | h a ih =>
    cases a with
    | struct n ls ts =>
      rw [isErrorFree, Bool.and_eq_true, beq_iff_eq] at ha
      refine meet_aggregate_ends ha.2 (fun hxs => ?_) ih
      rw [meet_struct_of_length (ha.1.trans hxs.symm), List.take_of_length_le (le_of_eq ha.1)]
    | array e ts =>
      rw [isErrorFree, Bool.and_eq_true] at ha
      exact meet_aggregate_ends ha.2 meet_array ih
    | tuple ts => exact meet_aggregate_ends ha meet_tuple ih
    | _ => exact meet_scalar_ends rfl ha

/-! ### Values of one declared type -/

theorem agreesAll_of_bottoms (h : ∀ t ∈ ts, ∀ {u}, t.bottom = u.bottom → t.agrees u = true)
    (heq : withLevels true ts = withLevels true us) : agreesAll ts us = true := by
  induction ts generalizing us with
  | nil => cases us <;> rfl
  | cons t ts ih =>
    cases us with
    | nil => rfl
    | cons u us =>
      obtain ⟨ht, hts⟩ := List.forall_mem_cons.1 h
      rw [withLevels, withLevels, List.cons.injEq] at heq
      rw [agreesAll, ht heq.1, ih hts heq.2, Bool.and_true]

theorem agrees_of_bottom (h : a.bottom = b.bottom) : a.agrees b = true := by
  induction a using members_induction generalizing b with
  | h a ih =>
    cases a with
    | pointer p l =>
      cases b <;> simp [bottom, withLevel] at h
      rw [agrees, h, beq_iff.2 rfl, Bool.or_true]
    | struct n ls ts =>
      cases b <;> simp [bottom, withLevel] at h
      rw [agrees, h.2.1, @agreesAll_of_bottoms ts _ ih h.2.2, Bool.and_true, beq_iff_eq]
    | array e ts =>
      cases b <;> simp [bottom, withLevel] at h
      rw [agrees, h.1, @agreesAll_of_bottoms ts _ ih h.2, Bool.and_true, beq_iff]
    | tuple ts =>
      cases b <;> simp [bottom, withLevel] at h
      rw [agrees, @agreesAll_of_bottoms ts _ ih h]
    | function ps r l =>
      cases b <;> simp [bottom, withLevel] at h
      rw [agrees, h.1, h.2, beq_iff.2 rfl, beqList_iff_plains _ _ |>.2 rfl, Bool.and_true,
        Bool.or_true]
    | _ => cases b <;> rfl

theorem isValueOf_iff (hD : D.isErrorFree = true) :
    isValueOf D a = true ↔ a.isErrorFree = true ∧ a.bottom = D := by
  unfold isValueOf
  rw [Bool.and_eq_true]
  refine and_congr_right fun ha => ?_
  exact beq_iff_eq_of_isErrorFree ((isErrorFree_withLevel true a).trans ha) hD

theorem shape_of_isErrorFree (ha : a.isErrorFree = true) : a.shape = a.bottom :=
  plain_of_isErrorFree ((isErrorFree_withLevel true a).trans ha)

theorem isError_of_isProper (h : a.isProper = true) : a.isError = false := by
  cases a <;> first | rfl | contradiction

theorem isValueOf_meet (hD : D.isErrorFree = true) (ha : isValueOf D a = true)
    (hb : isValueOf D b = true) : isValueOf D (a.meet b) = true := by
  rw [isValueOf_iff hD] at ha hb ⊢
  have hshape : a.shape = b.shape := by
    rw [shape_of_isErrorFree ha.1, shape_of_isErrorFree hb.1, ha.2, hb.2]
  have hproper := isProper_of_isErrorFree ha.1
  have hcovers := covers_meet hshape hproper
  have hfree := isErrorFree_meet ha.1 hb.1 (isError_of_isProper (hcovers.isProper hproper))
  refine ⟨hfree, ?_⟩
  rw [← shape_of_isErrorFree hfree, hcovers.shape, shape_of_isErrorFree ha.1, ha.2]

theorem isError_of_isValueOf (h : isValueOf D a = true) : a.isError = false := by
  rw [isValueOf, Bool.and_eq_true] at h
  exact isError_of_isErrorFree h.1

/-- The values of a declared type form a bounded meet-semilattice: they meet in a value of the type,
in any order and grouping, and lie between the type at `top` and the type itself. -/
theorem meet_semilattice (hD : isValueOf D D = true) (ha : isValueOf D a = true)
    (hb : isValueOf D b = true) (hc : isValueOf D c = true) :
    isValueOf D (a.meet b) = true ∧ a.meet b = b.meet a ∧
      (a.meet b).meet c = a.meet (b.meet c) ∧ a.meet a = a ∧
      isValueOf D D.top = true ∧ D.top.meet a = a ∧ D.meet a = D := by
  have hfree : D.isErrorFree = true := (Bool.and_eq_true _ _ ▸ hD).1
  have hab := isValueOf_meet hfree ha hb
  have hbc := isValueOf_meet hfree hb hc
  have hleft := isError_of_isValueOf (isValueOf_meet hfree hab hc)
  have hright := isError_of_isValueOf (isValueOf_meet hfree ha hbc)
  obtain ⟨haf, haD⟩ := (isValueOf_iff hfree).1 ha
  obtain ⟨hbf, hbD⟩ := (isValueOf_iff hfree).1 hb
  obtain ⟨hcf, -⟩ := (isValueOf_iff hfree).1 hc
  obtain ⟨hself, htop, hbottom⟩ := meet_ends haf
  have hcomm : a.meet b = b.meet a :=
    (swaps_meet haf hbf).eq_iff.2 (.inr (agrees_of_bottom (haD.trans hbD.symm)))
  have hassoc : (a.meet b).meet c = a.meet (b.meet c) :=
    ((groups_meet haf hbf hcf).same hleft hright).1
  have hDtop : D.top = a.top := by rw [← haD, top, bottom, withLevel_withLevel, top]
  refine ⟨hab, hcomm, hassoc, hself, ?_, ?_, ?_⟩
  · rw [isValueOf_iff hfree, hDtop, top, isErrorFree_withLevel, bottom, withLevel_withLevel]
    exact ⟨haf, haD⟩
  · rw [hDtop, htop]
  · rw [← haD, hbottom]

/-- Three values of an array of pairs of a number and a pointer. -/
theorem meet_semilattice_array :
    let pair n l := tuple [.int .int n, pointer (.int .int .bottom) l]
    let D := array (pair .bottom .bottom) [pair .bottom .bottom]
    let a := array (pair .bottom .bottom) [pair (.const 1) .top]
    let b := array (pair .bottom .bottom) [pair .top (.const ())]
    let c := array (pair .bottom .bottom) [pair (.const 2) (.const ())]
    isValueOf D (a.meet b) = true ∧ a.meet b = b.meet a ∧
      (a.meet b).meet c = a.meet (b.meet c) ∧ a.meet a = a ∧
      isValueOf D D.top = true ∧ D.top.meet a = a ∧ D.meet a = D := by
  intro pair D a b c
  exact meet_semilattice (by decide) (by decide) (by decide) (by decide)

end SeaOfNodes.Ty
