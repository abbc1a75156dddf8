import SeaOfNodes.Proofs.Ty.Meet

/-!
Whether it matters which two of three types meet first. It does in two cases only: where a `nil` that
has no pointee yet and such a pointer of which nothing is known come next to each other and the third
points to something, and where one of three structs has fewer members, so that an error in the others
is dropped with the rest of their members. In both one grouping loses an error that the other has;
two groupings that are no error are always the same (`groups_meet`).
-/
namespace SeaOfNodes

theorem IntWidth.unify?_assoc (w v u : IntWidth) :
    (w.unify? v).bind (·.unify? u) = (v.unify? u).bind (w.unify? ·) := by
  cases w <;> cases v <;> cases u <;> rfl

theorem FloatWidth.unify?_assoc (w v u : FloatWidth) :
    (w.unify? v).bind (·.unify? u) = (v.unify? u).bind (w.unify? ·) := by
  cases w <;> cases v <;> cases u <;> rfl

namespace Ty

variable {a b c t : Ty} {ts us vs : List Ty}

/-- A `nil` without a pointee next to a pointer without a pointee of which nothing is known. Where
they meet first, the result is such a `nil` again and takes on any pointee. -/
def nilAndTop (p : Ty) (l : Level Unit) (q : Ty) (m : Level Unit) : Bool :=
  p.isVoid && q.isVoid && (l == .const () && m == .top || l == .top && m == .const ())

mutual

/-- Whether three types may meet in either grouping: no error is lost in one of them. -/
def groups : Ty → Ty → Ty → Bool
  | .pointer p l, .pointer q m, .pointer r k =>
    (!nilAndTop p l q m || r.isVoid) && (!nilAndTop q m r k || p.isVoid)
  | .struct _ _ ts, .struct _ _ us, .struct _ _ vs =>
    groupsAll ts us vs &&
      -- members behind the end of the shortest struct are dropped, and their errors with them
      (!((List.zipWith meet ts us).drop vs.length).any isError &&
        !((List.zipWith meet us vs).drop ts.length).any isError)
  | .array _ ts, .array _ us, .array _ vs => groupsAll ts us vs
  | .tuple ts, .tuple us, .tuple vs => groupsAll ts us vs
  | _, _, _ => true

def groupsAll : List Ty → List Ty → List Ty → Bool
  | t :: ts, u :: us, v :: vs => t.groups u v && groupsAll ts us vs
  | _, _, _ => true

end

/-- Two groupings of a meet, of which `left` and `right` tell whether they fail: if neither does they
are the `same`, and only one does only if the operands do not group. -/
structure Regroups (left right : Bool) (same : Prop) (g : Bool) : Prop where
  same : left = false → right = false → same ∧ g = true
  apart : left ≠ right → g = false

namespace Regroups

variable {left right left' right' g g' : Bool} {same same' : Prop}

theorem of_errors (hleft : left = true) (hright : right = true) : Regroups left right same g := by
  subst hleft hright
  exact ⟨fun h => by contradiction, fun h => by contradiction⟩

theorem of_same (hsame : same) (h : left = right) : Regroups left right same true :=
  ⟨fun _ _ => ⟨hsame, rfl⟩, fun hne => absurd h hne⟩

theorem and (h : Regroups left right same g) (h' : Regroups left' right' same' g') :
    Regroups (left || left') (right || right') (same ∧ same') (g && g') := by
  refine ⟨fun hl hr => ?_, fun hne => ?_⟩
  · rw [Bool.or_eq_false_iff] at hl hr
    obtain ⟨hsame, hg⟩ := h.same hl.1 hr.1
    obtain ⟨hsame', hg'⟩ := h'.same hl.2 hr.2
    exact ⟨⟨hsame, hsame'⟩, by rw [hg, hg', Bool.and_true]⟩
  · by_cases heq : left = right
    · have hne' : left' ≠ right' := by
        intro heq'
        exact hne (by rw [heq, heq'])
      rw [h'.apart hne', Bool.and_false]
    · rw [h.apart heq, Bool.false_and]

theorem of_dropped (left right : Bool) : Regroups left right True (!left && !right) := by
  cases left <;> cases right <;> exact ⟨by simp, by simp⟩

theorem congr (h : Regroups left right same g) (hleft : left' = left) (hright : right' = right)
    (hsame : left = false → right = false → same → same') : Regroups left' right' same' g := by
  subst hleft hright
  exact ⟨fun hl hr => ⟨hsame hl hr (h.same hl hr).1, (h.same hl hr).2⟩, h.apart⟩

end Regroups

/-- The two groupings of the meet of three types. -/
abbrev Groups (a b c : Ty) : Prop :=
  Regroups ((a.meet b).meet c).isError (a.meet (b.meet c)).isError
    ((a.meet b).meet c = a.meet (b.meet c)) (a.groups b c)

theorem groups_of_kind_ne (h : a.kind ≠ b.kind ∨ b.kind ≠ c.kind) : Groups a b c := by
  refine .of_errors ?_ ?_
  · rcases h with hab | hbc
    · exact isError_meet_left (isError_meet_of_kind_ne hab)
    · cases hx : (a.meet b).isError with
      | true => exact isError_meet_left hx
      | false =>
        have hkind := kind_meet hx
        exact isError_meet_of_kind_ne (by omega)
  · rcases h with hab | hbc
    · cases hx : (b.meet c).isError with
      | true => exact isError_meet_right hx
      | false =>
        have hkind := kind_meet hx
        exact isError_meet_of_kind_ne (by omega)
    · exact isError_meet_right (isError_meet_of_kind_ne hbc)

/-! ### Pointers

How pointers meet depends on their levels, on which of them have no pointee, and on which pointees
have one shape. -/

theorem isVoid_iff : t.isVoid = true ↔ t = .void := by cases t <;> simp [isVoid]

theorem sameShape_void (t : Ty) : t.sameShape .void = t.isVoid := by cases t <;> rfl

theorem sameShape_left {p q : Ty} (h : p.sameShape q = true) (r : Ty) :
    q.sameShape r = p.sameShape r := by
  rw [Bool.eq_iff_iff, sameShape_iff, sameShape_iff, sameShape_iff.1 h]

/-- Whether two pointers that may have no pointee meet in an error. -/
def clashes (void : Bool) (l : Level Unit) (void' : Bool) (m : Level Unit) (same : Bool) : Bool :=
  !(void && l.isConst || void' && m.isConst || same)

/-- Whether two pointees that may be none have one shape, if that is known of what is a pointee. -/
def alike (void void' same : Bool) : Bool := void && void' || !void && !void' && same

theorem sameShape_eq (p q : Ty) : p.sameShape q = alike p.isVoid q.isVoid (p.sameShape q) := by
  cases hp : p.isVoid with
  | true =>
    rw [isVoid_iff.1 hp, sameShape_comm, sameShape_void]
    simp [alike]
  | false =>
    cases hq : q.isVoid with
    | true =>
      rw [isVoid_iff.1 hq, sameShape_void, hp]
      rfl
    | false => rfl

theorem meet_pointer (p q : Ty) (l m : Level Unit) :
    ((pointer p l).meet (pointer q m)).isError = clashes p.isVoid l q.isVoid m (p.sameShape q) ∧
      (((pointer p l).meet (pointer q m)).isError = false →
        (pointer p l).meet (pointer q m) = pointer (if p.isVoid then q else p) (l.meet m)) := by
  have hnil : ∀ (p : Ty) (l : Level Unit), isUntypedNil p l = (p.isVoid && l.isConst) := by
    intro p l
    cases p <;> cases l <;> rfl
  rw [meet, meetPointer, hnil, hnil, clashes]
  cases hp : p.isVoid with
  | true =>
    obtain rfl := isVoid_iff.1 hp
    rw [sameShape_comm, sameShape_void]
    cases hq : q.isVoid with
    | true =>
      obtain rfl := isVoid_iff.1 hq
      cases l <;> cases m <;> exact ⟨rfl, fun _ => rfl⟩
    | false => cases l <;> exact ⟨rfl, fun h => by first | rfl | contradiction⟩
  | false =>
    rw [Bool.false_and, if_neg Bool.false_ne_true, Bool.false_or]
    cases q.isVoid && m.isConst || p.sameShape q <;>
      exact ⟨rfl, fun h => by first | rfl | contradiction⟩

instance {left right g : Bool} {same : Prop} [Decidable same] :
    Decidable (Regroups left right same g) :=
  decidable_of_iff ((left = false → right = false → same ∧ g = true) ∧ (left ≠ right → g = false))
    ⟨fun h => ⟨h.1, h.2⟩, fun h => ⟨h.1, h.2⟩⟩

theorem regroups_clashes : ∀ l ∈ [Level.top, .const (), .bottom],
    ∀ m ∈ [Level.top, .const (), .bottom], ∀ k ∈ [Level.top, .const (), .bottom],
    ∀ u v w x y z : Bool, (x = true → y = z) → (y = true → x = z) →
    Regroups
      (clashes u l v m (alike u v x) ||
        clashes (u && v) (l.meet m) w k (if u then alike v w y else alike u w z))
      (clashes v m w k (alike v w y) ||
        clashes u l (v && w) (m.meet k) (if v then alike u w z else alike u v x))
      True
      ((!(u && v && (l == .const () && m == .top || l == .top && m == .const ())) || w) &&
        (!(v && w && (m == .const () && k == .top || m == .top && k == .const ())) || u)) := by
  decide +kernel

theorem groups_pointer (p q r : Ty) (l m k : Level Unit) :
    Groups (pointer p l) (pointer q m) (pointer r k) := by
  have hmem : ∀ l : Level Unit, l ∈ [Level.top, .const (), .bottom] := by rintro (_ | _ | _) <;> simp
  have hclashes := regroups_clashes l (hmem l) m (hmem m) k (hmem k) p.isVoid q.isVoid r.isVoid
    (p.sameShape q) (q.sameShape r) (p.sameShape r) (fun h => sameShape_left h r) fun h => by
      rw [sameShape_comm p, sameShape_comm p, sameShape_left h]
  simp only [← sameShape_eq] at hclashes
  obtain ⟨hpq, hpq'⟩ := meet_pointer p q l m
  obtain ⟨hqr, hqr'⟩ := meet_pointer q r m k
  rw [← hpq, ← hqr] at hclashes
  have hleft : (((pointer p l).meet (pointer q m)).meet (pointer r k)).isError =
      (((pointer p l).meet (pointer q m)).isError || clashes (p.isVoid && q.isVoid) (l.meet m)
        r.isVoid k (if p.isVoid then q.sameShape r else p.sameShape r)) := by
    cases herror : ((pointer p l).meet (pointer q m)).isError with
    | true => rw [isError_meet_left herror, Bool.true_or]
    | false =>
      rw [hpq' herror, (meet_pointer ..).1]
      cases hp : p.isVoid <;> simp [hp]
  have hright : ((pointer p l).meet ((pointer q m).meet (pointer r k))).isError =
      (((pointer q m).meet (pointer r k)).isError || clashes p.isVoid l (q.isVoid && r.isVoid)
        (m.meet k) (if q.isVoid then p.sameShape r else p.sameShape q)) := by
    cases herror : ((pointer q m).meet (pointer r k)).isError with
    | true => rw [isError_meet_right herror, Bool.true_or]
    | false =>
      rw [hqr' herror, (meet_pointer ..).1]
      cases hq : q.isVoid <;> simp [hq]
  refine hclashes.congr hleft hright fun hl hr _ => ?_
  -- Both groupings have the first pointee there is.
  rw [hl] at hleft
  rw [hr] at hright
  rw [hpq' (Bool.or_eq_false_iff.1 hl).1] at hleft ⊢
  rw [hqr' (Bool.or_eq_false_iff.1 hr).1] at hright ⊢
  rw [(meet_pointer ..).2 hleft, (meet_pointer ..).2 hright, Level.meet_assoc]
  cases hp : p.isVoid <;> simp [hp]

/-! ### Other types without members -/

theorem groups_unify {W α : Type} [DecidableEq α] {make : W → Level α → Ty}
    {unify : W → W → Option W}
    (hassoc : ∀ w v u, (unify w v).bind (unify · u) = (unify v u).bind (unify w ·))
    (hsome : ∀ {w v u l m}, unify w v = some u → (make w l).meet (make v m) = make u (l.meet m))
    (hnone : ∀ {w v l m}, unify w v = none → ((make w l).meet (make v m)).isError = true)
    {w v u : W} {l m k : Level α} (hg : (make w l).groups (make v m) (make u k) = true) :
    Groups (make w l) (make v m) (make u k) := by
  have hassoc := hassoc w v u
  cases hwv : unify w v with
  | none =>
    refine .of_errors (isError_meet_left (hnone hwv)) ?_
    cases hvu : unify v u with
    | none => exact isError_meet_right (hnone hvu)
    | some y =>
      rw [hwv, hvu] at hassoc
      rw [hsome hvu]
      exact hnone hassoc.symm
  | some x =>
    cases hvu : unify v u with
    | none =>
      rw [hwv, hvu] at hassoc
      refine .of_errors ?_ (isError_meet_right (hnone hvu))
      rw [hsome hwv]
      exact hnone hassoc
    | some y =>
      rw [hwv, hvu] at hassoc
      unfold Groups
      rw [hsome hwv, hsome hvu, hg]
      cases hxu : unify x u with
      | none => exact .of_errors (hnone hxu) (hnone (hassoc.symm.trans hxu))
      | some z =>
        rw [hsome hxu, hsome (hassoc.symm.trans hxu), Level.meet_assoc]
        exact .of_same rfl rfl

/-- The signature of a function that is one of two. -/
def unifySignature? (f g : List Ty × Ty) : Option (List Ty × Ty) :=
  if sameSignature f.1 f.2 g.1 g.2 then some f else none

theorem unifySignature?_assoc (f g h : List Ty × Ty) :
    (unifySignature? f g).bind (unifySignature? · h) =
      (unifySignature? g h).bind (unifySignature? f ·) := by
  unfold unifySignature?
  cases hfg : sameSignature f.1 f.2 g.1 g.2 with
  | false => cases sameSignature g.1 g.2 h.1 h.2 <;> simp [hfg]
  | true =>
    have hleft : sameSignature f.1 f.2 h.1 h.2 = sameSignature g.1 g.2 h.1 h.2 := by
      rw [sameSignature_iff] at hfg
      rw [Bool.eq_iff_iff, sameSignature_iff, sameSignature_iff, hfg.1, hfg.2]
    cases hgh : sameSignature g.1 g.2 h.1 h.2 <;> simp [hfg, hleft, hgh]

/-! ### Aggregates -/

theorem any_drop_of_any (n : Nat) (h : ts.any isError = false) :
    (ts.drop n).any isError = false := by
  rw [List.any_eq_false] at h ⊢
  exact fun t ht => h t (List.mem_of_mem_drop ht)

section Aggregate

variable {f : Ty → Ty → Ty} (hf : ∀ {t u : Ty}, t.isError = true → (f t u).isError = true)
include hf

theorem any_isError_zipWith (hvs : vs = List.zipWith f ts us) (h : ts.any isError = true) :
    (vs.any isError || (ts.drop us.length).any isError) = true := by
  subst hvs
  induction ts generalizing us with
  | nil => contradiction
  | cons t ts ih =>
    cases us with
    | nil => exact h
    | cons u us =>
      rw [List.zipWith_cons_cons, List.any_cons, List.length_cons, List.drop_succ_cons]
      cases ht : t.isError with
      | true => rw [hf ht]; rfl
      | false =>
        rw [List.any_cons, ht] at h
        rw [Bool.or_assoc, ih h, Bool.or_true]

variable {inner outer : List Ty → Ty}

theorem isError_of_collect (houter : ∀ vs, (outer vs).isError = false)
    (hvs : vs = List.zipWith f ts us) (h : f (inner ts) c = collect outer vs) :
    (f (collect inner ts) c).isError =
      (vs.any isError || (ts.drop us.length).any isError) := by
  cases hts : ts.any isError with
  | true => rw [any_isError_zipWith hf hvs hts, hf (isError_collect_of inner hts)]
  | false =>
    rw [collect_eq hts, h, isError_collect (houter _), any_drop_of_any _ hts, Bool.or_false]

theorem isError_of_inner (h : (f (inner ts) c).isError = true) :
    (f (collect inner ts) c).isError = true := by
  cases hts : ts.any isError with
  | true => exact hf (isError_collect_of inner hts)
  | false => rw [collect_eq hts, h]

end Aggregate

theorem regroups_collect {first second left right : List Ty → Ty} {g : Bool}
    (hab : a.meet b = collect first (List.zipWith meet ts us))
    (hbc : b.meet c = collect second (List.zipWith meet us vs))
    (hleft : (first (List.zipWith meet ts us)).meet c =
      collect left (List.zipWith meet (List.zipWith meet ts us) vs))
    (hright : a.meet (second (List.zipWith meet us vs)) =
      collect right (List.zipWith meet ts (List.zipWith meet us vs)))
    (herror : ∀ xs, (left xs).isError = false ∧ (right xs).isError = false)
    (hsame : left (List.zipWith meet ts (List.zipWith meet us vs)) =
      right (List.zipWith meet ts (List.zipWith meet us vs)))
    (h : Regroups ((List.zipWith meet (List.zipWith meet ts us) vs).any isError)
      ((List.zipWith meet ts (List.zipWith meet us vs)).any isError)
      (List.zipWith meet (List.zipWith meet ts us) vs =
        List.zipWith meet ts (List.zipWith meet us vs)) g) :
    Regroups ((a.meet b).meet c).isError (a.meet (b.meet c)).isError
      ((a.meet b).meet c = a.meet (b.meet c))
      (g && (!((List.zipWith meet ts us).drop vs.length).any isError &&
        !((List.zipWith meet us vs).drop ts.length).any isError)) := by
  rw [hab, hbc]
  have hl := isError_of_collect (f := meet) isError_meet_left (fun xs => (herror xs).1) rfl hleft
  have hr := isError_of_collect (f := fun t u => u.meet t) isError_meet_right
    (fun xs => (herror xs).2) List.zipWith_comm hright
  refine (h.and (.of_dropped _ _)).congr hl hr ?_
  rintro hl' hr' ⟨heq, -⟩
  have hxs : (List.zipWith meet ts us).any isError = false := by
    by_contra hne
    simp [any_isError_zipWith (f := meet) isError_meet_left rfl (by simpa using hne)] at hl'
  have hys : (List.zipWith meet us vs).any isError = false := by
    by_contra hne
    simp [any_isError_zipWith isError_meet_right List.zipWith_comm (by simpa using hne)] at hr'
  rw [Bool.or_eq_false_iff] at hl' hr'
  rw [collect_eq hxs, collect_eq hys, hleft, hright, collect_eq hl'.1, collect_eq hr'.1, heq, hsame]

/-- The two groupings of the meets of the members of three aggregates. -/
abbrev GroupsAll (ts us vs : List Ty) : Prop :=
  Regroups ((List.zipWith meet (List.zipWith meet ts us) vs).any isError)
    ((List.zipWith meet ts (List.zipWith meet us vs)).any isError)
    (List.zipWith meet (List.zipWith meet ts us) vs =
      List.zipWith meet ts (List.zipWith meet us vs)) (groupsAll ts us vs)

theorem groups_struct {n m o : String} {ls ks js : List String} (hls : ls.length = ts.length)
    (hks : ks.length = us.length) (h : GroupsAll ts us vs) :
    Groups (struct n ls ts) (struct m ks us) (struct o js vs) := by
  have hother : ∀ {n m : String} {ls ks : List String} {ts us : List Ty}, n ≠ m →
      ((struct n ls ts).meet (struct m ks us)).isError = true := by
    intro n m ls ks ts us hne
    rw [meet, if_neg hne, isError_mismatched]
  by_cases hnm : n = m
  · subst hnm
    by_cases hmo : n = o
    · subst hmo
      refine regroups_collect (meet_struct_of_length hls) (meet_struct_of_length hks)
        (meet_struct_of_length ?_) (meet_struct_of_length hls) (fun _ => ⟨rfl, rfl⟩) ?_ h
      · simp [hls, Nat.min_comm]
      · rw [List.take_take, List.length_zipWith, Nat.min_comm]
    · refine .of_errors ?_ (isError_meet_right (hother hmo))
      rw [meet_struct_of_length hls]
      exact isError_of_inner (f := meet) isError_meet_left (hother hmo)
  · refine .of_errors (isError_meet_left (hother hnm)) ?_
    by_cases hmo : m = o
    · subst hmo
      rw [meet_struct_of_length hks]
      exact isError_of_inner (f := fun t u => u.meet t) isError_meet_right (hother hnm)
    · exact isError_meet_right (hother hmo)

theorem groups_of_length {E : Type} {make : E → List Ty → Ty} {e f h : E}
    (hsame : ∀ (e f : E) {xs ys : List Ty}, xs.length = ys.length →
      (make e xs).meet (make f ys) = collect (make e) (List.zipWith meet xs ys))
    (hother : ∀ {e f : E} {xs ys : List Ty}, xs.length ≠ ys.length →
      ((make e xs).meet (make f ys)).isError = true)
    (herror : ∀ xs, (make e xs).isError = false)
    (hg : (make e ts).groups (make f us) (make h vs) = groupsAll ts us vs)
    (hmembers : GroupsAll ts us vs) : Groups (make e ts) (make f us) (make h vs) := by
  by_cases htu : ts.length = us.length
  · have hxs : (List.zipWith meet ts us).length = us.length := by
      rw [List.length_zipWith]
      omega
    by_cases huv : us.length = vs.length
    · have hys : ts.length = (List.zipWith meet us vs).length := by
        rw [List.length_zipWith]
        omega
      have hcollect := regroups_collect (hsame e f htu) (hsame f h huv) (hsame e h (hxs.trans huv))
        (hsame e f hys) (fun xs => ⟨herror xs, herror xs⟩) rfl hmembers
      rw [← hxs.trans huv, List.drop_length, hys, List.drop_length, List.any_nil, Bool.not_false,
        Bool.and_true, Bool.and_true] at hcollect
      rw [Groups, hg]
      exact hcollect
    · refine .of_errors ?_ (isError_meet_right (hother huv))
      rw [hsame e f htu]
      exact isError_of_inner (f := meet) isError_meet_left (hother (by rw [hxs]; exact huv))
  · refine .of_errors (isError_meet_left (hother htu)) ?_
    by_cases huv : us.length = vs.length
    · rw [hsame f h huv]
      refine isError_of_inner (f := fun t u => u.meet t) isError_meet_right (hother ?_)
      rw [List.length_zipWith]
      omega
    · exact isError_meet_right (hother huv)

theorem groups_array {e f h : Ty} (hmembers : GroupsAll ts us vs) :
    Groups (array e ts) (array f us) (array h vs) := by
  refine groups_of_length (fun _ _ => meet_array) ?_ (fun _ => rfl) ?_ hmembers
  · intro e f xs ys hlength
    rw [meet, if_neg hlength, isError_mismatched]
  · rw [groups]

theorem groups_tuple (hmembers : GroupsAll ts us vs) :
    Groups (tuple ts) (tuple us) (tuple vs) := by
  refine @groups_of_length ts us vs Unit (fun _ => tuple) () () () (fun _ _ => meet_tuple) ?_
    (fun _ => rfl) ?_ hmembers
  · intro _ _ xs ys hlength
    rw [meet, if_neg hlength, isError_mismatched]
  · rw [groups]

theorem groups_members (h : ∀ t ∈ ts, ∀ {u v}, t.isErrorFree = true → u.isErrorFree = true →
      v.isErrorFree = true → Groups t u v) (ht : allErrorFree ts = true)
    (hu : allErrorFree us = true) (hv : allErrorFree vs = true) : GroupsAll ts us vs := by
  induction ts generalizing us vs with
  | nil =>
    rw [GroupsAll, groupsAll]
    · exact .of_same rfl rfl
    · simp
  | cons t ts ih =>
    cases us with
    | nil => exact .of_same rfl rfl
    | cons u us =>
      cases vs with
      | nil => exact .of_same rfl rfl
      | cons v vs =>
        rw [allErrorFree, Bool.and_eq_true] at ht hu hv
        have hhead := h t (.head _) ht.1 hu.1 hv.1
        have htail := ih (fun t ht => h t (.tail _ ht)) ht.2 hu.2 hv.2
        simp only [GroupsAll, List.zipWith_cons_cons, groupsAll]
        refine (hhead.and htail).congr rfl rfl ?_
        rintro - - ⟨h, hs⟩
        rw [h, hs]

/-- Three types meet in the same type whichever two meet first if neither grouping fails, and only
one of the groupings fails exactly if the types do not group. -/
theorem groups_meet (ha : a.isErrorFree = true) (hb : b.isErrorFree = true)
    (hc : c.isErrorFree = true) : Groups a b c := by
  induction a using members_induction generalizing b c with
  | h a ih =>
    by_cases hkind : a.kind = b.kind ∧ b.kind = c.kind
    · cases paired_of_kind hkind.1 <;> cases paired_of_kind hkind.2
      case int.int =>
        exact groups_unify IntWidth.unify?_assoc (fun h => by rw [meet, h])
          (fun h => by rw [meet, h]; rfl) rfl
      case float.float =>
        exact groups_unify FloatWidth.unify?_assoc (fun h => by rw [meet, h])
          (fun h => by rw [meet, h]; rfl) rfl
      case bool.bool | rune.rune | string.string =>
        exact .of_same (by simp only [meet, Level.meet_assoc]) rfl
      case pointer.pointer p q l m r k => exact groups_pointer p q r l m k
      case function.function ps qs r s l m ts t k =>
        refine @groups_unify (List Ty × Ty) String _ (fun f n => function f.1 f.2 n)
          unifySignature? unifySignature?_assoc ?_ ?_ (ps, r) (qs, s) (ts, t) l m k rfl
        · intro f g h n o hsome
          obtain ⟨hsame, hfh⟩ := Option.ite_none_right_eq_some.1 hsome
          cases hfh
          rw [meet, if_pos hsame]
        · intro f g n o hnone
          rw [meet, if_neg (by simpa [unifySignature?] using hnone)]
          rfl
      case control.control => exact .of_same (by simp only [meet, Bool.or_assoc]) rfl
      case void.void | memory.memory => exact .of_same rfl rfl
      case struct.struct =>
        rw [isErrorFree, Bool.and_eq_true, beq_iff_eq] at ha hb hc
        exact groups_struct ha.1 hb.1 (groups_members ih ha.2 hb.2 hc.2)
      case array.array =>
        rw [isErrorFree, Bool.and_eq_true] at ha hb hc
        exact groups_array (groups_members ih ha.2 hb.2 hc.2)
      case tuple.tuple => exact groups_tuple (groups_members ih ha hb hc)
      case error.error => contradiction
    · exact groups_of_kind_ne (not_and_or.1 hkind)

/-! ### The laws -/

/-- Whether two meets are the same or both an error. -/
def sameOutcome (a b : Ty) : Bool := a.isError && b.isError || a == b

theorem isError_plain (t : Ty) : t.plain.isError = t.isError := by cases t <;> rfl

theorem isError_of_beq (h : (a == b) = true) : a.isError = b.isError := by
  rw [beq_iff] at h
  rw [← isError_plain a, h, isError_plain]

/-- When the order of types that meet does not matter. Two types meet in the same type in both orders
exactly if they meet in an error or agree in what is taken from the left; and of three types it does
not matter which two meet first exactly if both ways end in an error or no error is lost on one of
them. -/
theorem meet_order_iff (ha : a.isErrorFree = true) (hb : b.isErrorFree = true)
    (hc : c.isErrorFree = true) :
    ((a.meet b == b.meet a) = true ↔ (a.meet b).isError = true ∨ a.agrees b = true) ∧
      (sameOutcome ((a.meet b).meet c) (a.meet (b.meet c)) = true ↔
        ((a.meet b).meet c).isError = true ∧ (a.meet (b.meet c)).isError = true ∨
          a.groups b c = true) := by
  refine ⟨beq_meet_comm_iff ha hb, ?_⟩
  have hgroups := groups_meet ha hb hc
  unfold sameOutcome
  rw [Bool.or_eq_true, Bool.and_eq_true]
  by_cases herror : ((a.meet b).meet c).isError = (a.meet (b.meet c)).isError
  · cases hright : (a.meet (b.meet c)).isError with
    | true => simp [herror, hright]
    | false =>
      obtain ⟨hsame, hg⟩ := hgroups.same (herror.trans hright) hright
      simp [hsame, hg, beq_iff]
  · have hne : ¬((a.meet b).meet c == a.meet (b.meet c)) = true :=
      fun h => herror (isError_of_beq h)
    simp [hne, hgroups.apart herror]

theorem meet_order_iff_nil :
    let p := pointer (.int .int .bottom) .top
    let q := pointer .void (.const ())
    let r := pointer (.int .int .bottom) .bottom
    (p.meet q == q.meet p) = true ∧ sameOutcome ((p.meet q).meet r) (p.meet (q.meet r)) = true := by
  intro p q r
  have horder := @meet_order_iff p q r (by decide) (by decide) (by decide)
  exact ⟨horder.1.2 (.inr (by decide)), horder.2.2 (.inr (by decide))⟩

/-- Arrays without elements meet in the left one. An untyped `nil` takes on the pointee of a pointer
behind one of which nothing is known, but that one does not. -/
theorem not_meet_order :
    let a := array (.int .int .bottom) []
    let b := array (.bool .bottom) []
    let nil := pointer .void (.const ())
    let unknown := pointer .void .top
    let p := pointer (.int .int .bottom) .bottom
    (a.meet b == b.meet a) = false ∧
      sameOutcome ((nil.meet unknown).meet p) (nil.meet (unknown.meet p)) = false := by
  decide

end Ty

end SeaOfNodes
