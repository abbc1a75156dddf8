import SeaOfNodes.Proofs.Ty.Assign

/-!
Well-formed types: each integer constant is a value of its width, no level is `top`, and no
aggregate has an error as a member. Whatever the operations of the lattice are given of these, they
give an error or another well-formed type (`wellFormed_operations`).
-/
namespace SeaOfNodes.Ty

variable {a b e r t target : Ty} {ts us vs : List Ty} {l : Level Int} {w : IntWidth}

/-! ### Types and their parts -/

theorem zeros_eq_map : zeros ts = ts.map zero := by
  induction ts with
  | nil => rfl
  | cons t ts ih => rw [zeros, ih, List.map_cons]

theorem concretes_eq_map : concretes ts = ts.map concrete := by
  induction ts with
  | nil => rfl
  | cons t ts ih => rw [concretes, ih, List.map_cons]

theorem cast_cases {P : Ty → Prop} (herror : ∀ {u : Ty}, u.isError = true → P u) (ht : P t)
    (hpointer : ∀ p q l m, t = .pointer q l → target = .pointer p m → P (.pointer p l))
    (hscalar : P (castScalar t target)) : P (t.cast target) := by
  unfold cast
  split
  · exact herror rfl
  · exact herror rfl
  · split
    · exact ht
    · split
      · exact hpointer _ _ _ _ rfl rfl
      · split
        · split
          · exact hscalar
          · exact herror rfl
        · exact herror rfl

/-- Whether the level of a type is not `top` and is a value of its width if it is a constant, and
whether an aggregate has no error among its parts. -/
def isFit : Ty → Bool
  | .int w (.const v) => w.holds v
  | .int _ l => l.isSettled
  | .float _ l => l.isSettled
  | .bool l => l.isSettled
  | .rune l => l.isSettled
  | .string l => l.isSettled
  | .pointer _ l => l.isSettled
  | .function _ _ l => l.isSettled
  | .struct _ _ ts | .tuple ts => !ts.any isError
  | .array e ts => !(e :: ts).any isError
  | .void | .control _ | .memory | .error _ => true

/-- An error, or a well-formed type: all its parts are fit. -/
inductive Sound : Ty → Prop where
  | mk {t : Ty} : t.isFit = true → (∀ u ∈ t.parts, Sound u) → Sound t

def WellFormed (t : Ty) : Prop := t.Sound ∧ t.isError = false

theorem Sound.isFit (h : t.Sound) : t.isFit = true := by
  cases h
  assumption

theorem Sound.parts (h : t.Sound) : ∀ u ∈ t.parts, u.Sound := by
  cases h
  assumption

theorem sound_of_isError (h : t.isError = true) : t.Sound := by
  obtain ⟨e, rfl⟩ := isError_iff.1 h
  exact .mk rfl nofun

/-- An error or a well-formed type, as operations give one. -/
def IsResult (t : Ty) : Prop := t.isError = true ∨ t.WellFormed

theorem Sound.isResult (h : t.Sound) : t.IsResult := by
  cases herror : t.isError with
  | true => exact .inl herror
  | false => exact .inr ⟨h, herror⟩

theorem sound_iff (haggregate : t.isAggregate = true) : t.Sound ↔ ∀ u ∈ t.parts, u.WellFormed := by
  have hfit : t.isFit = true ↔ ∀ u ∈ t.parts, u.isError = false := by
    cases t <;> first | contradiction | simp [isFit, parts]
  refine ⟨fun h u hu => ⟨h.parts u hu, hfit.1 h.isFit u hu⟩, fun h => ?_⟩
  exact .mk (hfit.2 fun u hu => (h u hu).2) fun u hu => (h u hu).1

theorem Sound.members (h : t.Sound) : ∀ m ∈ t.members, m.WellFormed := fun m hm =>
  (sound_iff (isAggregate_of_mem_members hm)).1 h m (mem_parts_of_mem_members hm)

/-! ### Scalars -/

theorem Scalar.isFit_eq (h : Scalar t) : t.isFit = t.isDatum := by
  cases h with
  | int w l => cases l <;> rfl
  | _ => rfl

theorem Sound.isDatum (h : t.Sound) (ht : Scalar t) : t.isDatum = true := ht.isFit_eq ▸ h.isFit

theorem sound_of_isDatum (ht : Scalar t) (h : t.isDatum = true) : t.Sound := by
  refine .mk (ht.isFit_eq ▸ h) fun u hu => ?_
  cases ht <;> contradiction

theorem sound_int (hl : l.isSettled = true) (h : ∀ v, l = .const v → w.holds v = true) :
    (int w l).Sound := sound_of_isDatum (.int w l) (isDatum_int_iff.2 ⟨hl, h⟩)

theorem scalar_of_promote (h : Scalar (a.promote b)) : Scalar a := by
  unfold promote at h
  split at h
  · exact .int _ _
  · exact h

theorem Combines.scalar {op : BinaryOp} (h : Combines op a b r) :
    Scalar a ∧ Scalar b ∧ Scalar r := by
  cases h <;> exact ⟨by constructor, by constructor, by constructor⟩

theorem Sound.binary (ha : a.Sound) (op : BinaryOp) (hb : b.Sound) : (Ty.binary op a b).Sound := by
  cases herror : (Ty.binary op a b).isError with
  | true => exact sound_of_isError herror
  | false =>
    obtain ⟨hsa, hsb, hsr⟩ := (combines_binary herror).scalar
    have hda := ha.isDatum (scalar_of_promote hsa)
    exact sound_of_isDatum hsr (isDatum_binary hda (hb.isDatum (scalar_of_promote hsb)) herror)

theorem Sound.promote (ha : a.Sound) (b : Ty) : (a.promote b).Sound := by
  unfold Ty.promote
  split
  · exact .mk (Level.isSettled_map (isDatum_int_iff.1 (ha.isDatum (.int _ _))).1 _) nofun
  · exact ha

theorem Sound.compare (ha : a.Sound) (op : CompareOp) (hb : b.Sound) :
    (Ty.compare op a b).Sound := by
  cases herror : (Ty.compare op a b).isError with
  | true => exact sound_of_isError herror
  | false =>
    have hcompares := compares_compare herror
    have ha := ha.promote b
    have hb := hb.promote a
    generalize Ty.compare op a b = r at hcompares ⊢
    generalize a.promote b = a, b.promote a = b at ha hb hcompares
    cases hcompares with
    | @int w v _ l n _ =>
      have hl := (isDatum_int_iff.1 (ha.isDatum (.int w l))).1
      exact .mk (Level.isSettled_lift hl (isDatum_int_iff.1 (hb.isDatum (.int v n))).1 _) nofun
    | float l n _ | bool l n _ | rune l n | string l n =>
      exact .mk (Level.isSettled_lift ha.isFit hb.isFit _) nofun
    | pointer hk =>
      unfold pointerCompare at hk
      split at hk
      · contradiction
      · split at hk
        · cases hk
          exact .mk (Level.isSettled_lift ha.isFit hb.isFit _) nofun
        · contradiction

theorem Sound.unary (ht : t.Sound) (op : UnaryOp) : (t.unary op).Sound := by
  cases herror : (t.unary op).isError with
  | true => exact sound_of_isError herror
  | false =>
    have hdatum (hs : Scalar t) := isDatum_unary (ht.isDatum hs) herror
    have hturns := turns_unary herror
    generalize t.unary op = r at hturns hdatum ⊢
    cases hturns with
    | int w l _ => exact sound_of_isDatum (.int w _) (hdatum (.int w l))
    | float w l _ => exact sound_of_isDatum (.float w _) (hdatum (.float w l))
    | bool l _ => exact sound_of_isDatum (.bool _) (hdatum (.bool l))

theorem sound_castScalar (ht : t.Sound) : (castScalar t target).Sound := by
  cases herror : (castScalar t target).isError with
  | true => exact sound_of_isError herror
  | false =>
    have hconverts : ∃ kind, Converts t kind (castScalar t target) := by
      unfold castScalar at herror ⊢
      split at herror <;> first | exact ⟨_, by constructor⟩ | contradiction
    -- A conversion gives another scalar, and its level is as settled as that of the value.
    obtain ⟨kind, hconverts⟩ := hconverts
    generalize castScalar t target = r at hconverts ⊢
    have hscalar : ∀ {t : Ty} {p : Primitive}, t.primitive? = some p → Scalar t := fun {t _} h => by
      cases t <;> first | constructor | contradiction
    have hsource : Scalar t := by cases hconverts <;> constructor
    exact sound_of_isDatum (hscalar hconverts.primitive?) (hconverts.isDatum (ht.isDatum hsource))

theorem Sound.cast (ht : t.Sound) (htarget : target.Sound) : (t.cast target).Sound := by
  refine cast_cases sound_of_isError ht (fun p q l m h h' => ?_) (sound_castScalar ht)
  subst h h'
  exact .mk ht.isFit htarget.parts

/-! ### Meets and assignments -/

theorem isSettled_meet {α : Type} [DecidableEq α] {l m : Level α} (hl : l.isSettled = true)
    (hm : m.isSettled = true) : (l.meet m).isSettled = true := by
  cases l <;> cases m <;> first | contradiction | rfl | (simp only [Level.meet]; split <;> rfl)

theorem eq_of_meet {α : Type} [DecidableEq α] {l m : Level α} {v : α} (hl : l.isSettled = true)
    (hm : m.isSettled = true) (h : l.meet m = .const v) : l = .const v ∧ m = .const v := by
  cases l <;> cases m <;> first | contradiction | skip
  simp only [Level.meet] at h
  split at h
  · rename_i heq
    subst heq
    exact ⟨h, h⟩
  · contradiction

theorem wellFormed_paired {f : Ty → Ty → Ty} (hvs : List.zipWith f ts us = vs)
    (hno : vs.any isError = false) (h : ∀ t ∈ ts, ∀ u ∈ us, (f t u).Sound) :
    ∀ v ∈ vs, v.WellFormed := by
  intro v hv
  obtain ⟨t, ht, u, hu, rfl, herror⟩ := mem_paired hvs hno hv
  exact ⟨h t ht u hu, herror⟩

theorem Sound.meet (ha : a.Sound) (hb : b.Sound) : (a.meet b).Sound := by
  induction a using members_induction generalizing b with
  | h a ih =>
    have hpair : ∀ t ∈ a.members, ∀ u ∈ b.members, (t.meet u).Sound := fun t ht u hu =>
      ih t ht (ha.members t ht).1 (hb.members u hu).1
    cases herror : (a.meet b).isError with
    | true => exact sound_of_isError herror
    | false =>
      have hmet := met_meet herror
      generalize a.meet b = r at hmet ⊢
      cases hmet with
      | @int w v u l m hu =>
        have hl := isDatum_int_iff.1 (ha.isDatum (.int w l))
        have hm := isDatum_int_iff.1 (hb.isDatum (.int v m))
        refine sound_int (isSettled_meet hl.1 hm.1) fun c hc => ?_
        -- The constant is that of both operands, and the width is one of theirs.
        obtain ⟨hlc, hmc⟩ := eq_of_meet hl.1 hm.1 hc
        have hwv : u = w ∨ u = v := by
          revert hu
          cases w <;> cases v <;> simp [IntWidth.unify?] <;> rintro rfl <;> simp
        rcases hwv with rfl | rfl
        · exact hl.2 c hlc
        · exact hm.2 c hmc
      | float l m _ | bool l m | rune l m | string l m =>
        exact .mk (isSettled_meet ha.isFit hb.isFit) nofun
      | pointer l m hr =>
        refine .mk (isSettled_meet ha.isFit hb.isFit) fun u hu => ?_
        rcases hr with rfl | rfl
        · exact ha.parts _ hu
        · exact hb.parts _ hu
      | function l m _ => exact .mk (isSettled_meet ha.isFit hb.isFit) ha.parts
      | struct ls ks hvs hno =>
        have hvs := wellFormed_paired hvs hno hpair
        exact (sound_iff rfl).2 fun v hv => hvs v (List.mem_of_mem_take hv)
      | array e f hvs hno _ =>
        have he := (sound_iff rfl).1 ha e (.head _)
        exact (sound_iff rfl).2 (List.forall_mem_cons.2 ⟨he, wellFormed_paired hvs hno hpair⟩)
      | tuple hvs hno _ => exact (sound_iff rfl).2 (wellFormed_paired hvs hno hpair)
      | void | control l m | memory => exact .mk rfl nofun

theorem Sound.assignTo (ha : a.Sound) (hb : b.Sound) : (a.assignTo b).Sound := by
  induction a using members_induction generalizing b with
  | h a ih =>
    have hpair : ∀ t ∈ a.members, ∀ u ∈ b.members, (t.assignTo u).Sound := fun t ht u hu =>
      ih t ht (ha.members t ht).1 (hb.members u hu).1
    cases herror : (a.assignTo b).isError with
    | true => exact sound_of_isError herror
    | false =>
      have hassigned := assigned_assignTo herror
      generalize a.assignTo b = r at hassigned ⊢
      cases hassigned with
      | @int v w l m hw =>
        have hl := isDatum_int_iff.1 (ha.isDatum (.int v l))
        refine sound_int hl.1 fun c hc => ?_
        -- Only an untyped constant gets another width, and it is checked to fit that.
        rcases hw with ⟨-, hfits⟩ | rfl
        · exact IntWidth.holds_iff.2 ⟨eq_of_beq (hfits c hc), (IntWidth.holds_iff.1 (hl.2 c hc)).2⟩
        · exact hl.2 c hc
      | intFloat l w m =>
        exact .mk (Level.isSettled_map (isDatum_int_iff.1 (ha.isDatum (.int _ l))).1 _) nofun
      | float hk =>
        rcases hk with ⟨-, rfl⟩ | ⟨-, rfl⟩
        · exact .mk (Level.isSettled_map ha.isFit _) nofun
        · exact .mk ha.isFit nofun
      | bool l m | rune l m | string l m => exact .mk ha.isFit nofun
      | void => exact ha
      | pointer _ => exact .mk ha.isFit hb.parts
      | function l m _ => exact .mk ha.isFit hb.parts
      | struct n ls ks hvs hno =>
        have hvs := wellFormed_paired hvs hno hpair
        exact (sound_iff rfl).2 fun v hv => hvs v (List.mem_of_mem_take hv)
      | array e f hvs hno _ =>
        have hf := (sound_iff rfl).1 hb f (.head _)
        exact (sound_iff rfl).2 (List.forall_mem_cons.2 ⟨hf, wellFormed_paired hvs hno hpair⟩)
      | tuple hvs hno _ => exact (sound_iff rfl).2 (wellFormed_paired hvs hno hpair)

/-! ### Types from declared types -/

theorem wellFormed_map {f : Ty → Ty} (hno : ∀ t ∈ ts, (f t).isError = false)
    (h : ∀ t ∈ ts, (f t).Sound) : ∀ u ∈ ts.map f, u.WellFormed := by
  intro u hu
  obtain ⟨t, ht, rfl⟩ := List.mem_map.1 hu
  exact ⟨h t ht, hno t ht⟩

theorem Sound.zero (ht : t.Sound) : t.zero.Sound := by
  induction t using members_induction with
  | h t ih =>
    have hmembers : firstError? (zeros t.members) = none → ∀ u ∈ zeros t.members, u.WellFormed := by
      intro hnone
      rw [zeros_eq_map] at hnone ⊢
      refine wellFormed_map (fun m hm => ?_) fun m hm => ih m hm (ht.members m hm).1
      simpa using List.any_eq_false.1 (firstError?_eq_none_iff.1 hnone) _ (List.mem_map_of_mem hm)
    cases t with
    | int w l => exact sound_int rfl fun v hv => by cases hv; cases w <;> decide
    | pointer p l => exact .mk rfl ht.parts
    | struct n ls ts | array e ts | tuple ts =>
      rw [Ty.zero]
      split
      · exact sound_of_isError rfl
      · refine (sound_iff rfl).2 ?_
        first
          | exact hmembers ‹_›
          | exact List.forall_mem_cons.2 ⟨(sound_iff rfl).1 ht e (.head _), hmembers ‹_›⟩
    | _ => exact .mk rfl nofun

theorem Sound.bottom (ht : t.Sound) : t.bottom.Sound := by
  induction t using members_induction with
  | h t ih =>
    have hmembers : ∀ u ∈ withLevels true t.members, u.WellFormed := by
      rw [withLevels_eq_map]
      refine wellFormed_map (fun m hm => ?_) fun m hm => ih m hm (ht.members m hm).1
      exact (isError_congr shape_bottom).trans (ht.members m hm).2
    cases t with
    | struct n ls ts | tuple ts => exact (sound_iff rfl).2 hmembers
    | array e ts =>
      exact (sound_iff rfl).2 (List.forall_mem_cons.2 ⟨(sound_iff rfl).1 ht e (.head _), hmembers⟩)
    | pointer p l | function ps r l => exact .mk rfl ht.parts
    | _ => exact .mk rfl nofun

theorem isError_concrete (t : Ty) : t.concrete.isError = t.isError := by
  unfold concrete
  split <;> rfl

theorem Sound.concrete (ht : t.Sound) : t.concrete.Sound := by
  induction t using members_induction with
  | h t ih =>
    have hmembers : ∀ u ∈ concretes t.members, u.WellFormed := by
      rw [concretes_eq_map]
      refine wellFormed_map (fun m hm => ?_) fun m hm => ih m hm (ht.members m hm).1
      exact (isError_concrete m).trans (ht.members m hm).2
    cases t with
    | struct n ls ts | tuple ts => exact (sound_iff rfl).2 hmembers
    | array e ts =>
      exact (sound_iff rfl).2 (List.forall_mem_cons.2 ⟨(sound_iff rfl).1 ht e (.head _), hmembers⟩)
    | int w l =>
      cases w with
      | untyped =>
        have hl := isDatum_int_iff.1 (ht.isDatum (.int _ l))
        refine sound_int (Level.isSettled_map hl.1 _) fun v hv => ?_
        cases l with
        | const a =>
          cases hv
          exact IntWidth.holds_wrap rfl a
        | _ => contradiction
      | _ => exact ht
    | float w l =>
      cases w with
      | untyped => exact .mk ht.isFit nofun
      | _ => exact ht
    | _ => exact ht

/-! ### Members -/

theorem Sound.element (ht : t.Sound) (i : Nat) : (t.element i).Sound := by
  cases herror : (t.element i).isError with
  | true => exact sound_of_isError herror
  | false =>
    cases ht' : t.isError with
    | true =>
      obtain ⟨e, rfl⟩ := isError_iff.1 ht'
      contradiction
    | false =>
      have hm := getElem?_members_of_element ht' herror
      exact (ht.members _ (List.mem_of_getElem? hm)).1

theorem Sound.member (ht : t.Sound) (label : String) : (t.member label).Sound := by
  unfold Ty.member
  split
  · exact ht
  · split
    · exact ht.element _
    · exact sound_of_isError rfl

theorem Sound.index (ha : a.Sound) (b : Ty) : (a.index b).Sound := by
  unfold Ty.index
  split
  · exact ha
  · unfold indexInto
    split
    · split
      · rename_i ts _ v m hm
        obtain ⟨i, -, hm⟩ := Option.bind_eq_some_iff.1 hm
        exact (ha.members m (List.mem_of_getElem? hm)).1
      · exact sound_of_isError rfl
    all_goals exact sound_of_isError rfl
  · exact sound_of_isError rfl

theorem Sound.withMembers (ht : t.Sound) (hts : ∀ m ∈ ts, m.WellFormed) :
    (t.withMembers ts).Sound := by
  cases t with
  | struct n ls us => exact (sound_iff rfl).2 fun m hm => hts m (List.mem_of_mem_take hm)
  | array e us =>
    exact (sound_iff rfl).2 (List.forall_mem_cons.2 ⟨(sound_iff rfl).1 ht e (.head _), hts⟩)
  | tuple us => exact (sound_iff rfl).2 hts
  | _ => exact ht

/-- The operations of the lattice give an error or a well-formed type whenever their operands are
errors or well-formed types, and the members that an aggregate is given are well formed. -/
theorem wellFormed_operations (ha : a.IsResult) (hb : b.IsResult) :
    (a.meet b).IsResult ∧ (a.phi b).IsResult ∧ (∀ op, (Ty.binary op a b).IsResult) ∧
    (∀ op, (Ty.compare op a b).IsResult) ∧ (∀ op, (a.unary op).IsResult) ∧ (a.cast b).IsResult ∧
    (a.assignTo b).IsResult ∧ a.zero.IsResult ∧ a.bottom.IsResult ∧ a.concrete.IsResult ∧
    (a.index b).IsResult ∧ (∀ i, (a.element i).IsResult) ∧ (∀ label, (a.member label).IsResult) ∧
    ∀ ts, ts.length = a.members.length → (∀ t ∈ ts, t.WellFormed) →
      (a.withMembers ts).IsResult := by
  have ha : a.Sound := ha.elim sound_of_isError And.left
  have hb : b.Sound := hb.elim sound_of_isError And.left
  have hphi : (a.phi b).Sound := by
    unfold Ty.phi
    split
    · exact ha
    · exact ha.meet hb
  refine ⟨(ha.meet hb).isResult, hphi.isResult, fun op => (ha.binary op hb).isResult,
    fun op => (ha.compare op hb).isResult, fun op => (ha.unary op).isResult, (ha.cast hb).isResult,
    (ha.assignTo hb).isResult, ha.zero.isResult, ha.bottom.isResult, ha.concrete.isResult,
    (ha.index b).isResult, fun i => (ha.element i).isResult,
    fun label => (ha.member label).isResult, ?_⟩
  exact fun ts _ hts => (ha.withMembers hts).isResult

/-- The untyped 300 is well formed and so is any `i8`; assigning the one to the other is an error,
and casting gives a value that is not known. -/
theorem wellFormed_operations_overflow :
    let a := Ty.int .untyped (.const 300)
    let b := Ty.int .i8 .bottom
    a.WellFormed ∧ b.WellFormed ∧ (a.cast b).WellFormed ∧ (a.assignTo b).isError = true := by
  intro a b
  have ha : a.WellFormed := ⟨sound_of_isDatum (.int _ _) (by decide), rfl⟩
  have hb : b.WellFormed := ⟨sound_of_isDatum (.int _ _) (by decide), rfl⟩
  obtain ⟨-, -, -, -, -, hcast, -⟩ := wellFormed_operations (.inr ha) (.inr hb)
  exact ⟨ha, hb, hcast.resolve_left (by decide), by decide⟩

end SeaOfNodes.Ty
