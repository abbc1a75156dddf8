import SeaOfNodes.Proofs.Scope.Basic
import SeaOfNodes.Proofs.Scope.Construct
import SeaOfNodes.Proofs.Scope.Name

/-!
Locals that are held as values. Joins and the heads of loops give them other values, so a name is
held behind a join or in a loop only if it was held before, in the same frame (`Scope.Revalues`).

While a function is read, the locals that are held are its own, and not those with a name in a given
list (`Scope.Spares`).
-/
namespace SeaOfNodes

open SeaOfNodes.Graph

namespace Scope

variable {s s' s'' : Scope} {names : List String} {n : String} {x : Binding} {d k floor : Nat}
  {id id' old new : NodeId} {ty : Ty}

/-! ### Depths -/

theorem depth_push : s.push.depth = s.depth + 1 := by simp [push, depth]

theorem depth_pop : s.pop.depth = s.depth - 1 := by simp [pop, depth]

theorem depth_truncate : (s.truncate k).depth = min k s.depth := by simp [truncate, depth]

theorem depth_restrictTo : (s.restrictTo s').depth = min s'.depth s.depth := by
  simp [restrictTo, depth]

theorem depth_writeBack : (s.writeBack s').depth = s.depth :=
  (writeBack_entries (d := 0) (n := "") (x := .type .void) s'.entries).1

theorem depth_declare? (h : s.declare? n x = some s') : s'.depth = s.depth := by
  rw [declare?_eq_some h, depth_set]

theorem binds_of_depthOf? (hk : s.depthOf? n = some k) (hx : s.lookup n = some x) : s.Binds k n x := by
  obtain ⟨⟨frame, depth⟩, hfind, hdepth⟩ := Option.map_eq_some_iff.1 hk
  obtain rfl : depth = k := hdepth
  obtain ⟨hcontains, before, after, hsplit, hbefore⟩ := List.find?_eq_some_iff_append.1 hfind
  have hplace : (frame, depth) ∈ s.frames.zipIdx := by
    rw [← List.mem_reverse, hsplit]
    simp
  have hframes : s.frames.reverse = before.map Prod.fst ++ frame :: after.map Prod.fst := by
    simpa using congrArg (List.map Prod.fst) hsplit
  have hnone : (before.map Prod.fst).findSome? (fun frame => Frame.get? frame n) = none := by
    refine List.findSome?_eq_none_iff.2 fun frame hmem => ?_
    obtain ⟨entry, hentry, rfl⟩ := List.mem_map.1 hmem
    have hfree : ∀ other ∈ entry.1, other.1 ≠ n := by simpa [Frame.contains] using hbefore entry hentry
    exact List.lookup_eq_none_iff.2 fun other hother => by simpa using (hfree other hother).symm
  have hget : frame.get? n = some x := by
    rw [lookup, hframes, List.findSome?_append, hnone, List.findSome?_cons] at hx
    cases hget : frame.get? n with
    | some y => rwa [hget] at hx
    | none =>
      have hfree : ∀ other ∈ frame, (n == other.1) = false := by
        simpa using List.lookup_eq_none_iff.1 hget
      obtain ⟨other, hother, heq⟩ := List.any_eq_true.1 hcontains
      have := hfree other hother
      simp_all
  exact ⟨frame, List.mem_zipIdx_iff_getElem?.1 hplace, Frame.mem_of_get? hget⟩

/-! ### Other values -/

/-- The locals that `s'` holds as values are held in `s`, if with other values. -/
structure Revalues (s s' : Scope) : Prop where
  depth : s'.depth = s.depth
  held : ∀ d n id ty, s'.Binds d n (.held id ty) → ∃ id, s.Binds d n (.held id ty)

namespace Revalues

theorem refl (s : Scope) : s.Revalues s := ⟨rfl, fun _ _ id _ h => ⟨id, h⟩⟩

theorem trans (h1 : s.Revalues s') (h2 : s'.Revalues s'') : s.Revalues s'' := by
  refine ⟨h2.depth.trans h1.depth, fun d n id ty h => ?_⟩
  obtain ⟨id', h'⟩ := h2.held d n id ty h
  exact h1.held d n id' ty h'

theorem set (h : s.Revalues s') (hx : s.Binds d n (.held id ty)) :
    s.Revalues (s'.set d n (.held id' ty)) := by
  refine ⟨depth_set.trans h.depth, fun k m other ty' hb => ?_⟩
  rcases binds_set hb with ⟨rfl, rfl, heq⟩ | hb
  · cases heq
    exact ⟨id, hx⟩
  · exact h.held k m other ty' hb

theorem substitute (h : s.Revalues s') : s.Revalues (s'.substitute old new) := by
  refine ⟨by simpa [Scope.substitute, Scope.depth] using h.depth, fun d n id ty hb => ?_⟩
  rcases binds_substitute hb with ⟨before, ty', hbefore, heq⟩ | ⟨hnone, -⟩
  · cases heq
    exact h.held d n before ty hbefore
  · contradiction

theorem rebind? (hx : s.lookup n = some (.held id ty)) :
    s.Revalues ((s.rebind? n (.held id' ty)).getD s) := by
  cases hs : s.rebind? n (.held id' ty) with
  | none => exact .refl s
  | some s' =>
    obtain ⟨k, hk, rfl⟩ := Option.map_eq_some_iff.1 hs
    exact (Revalues.refl s).set (binds_of_depthOf? hk hx)

theorem substituteAll (replaced : List (NodeId × NodeId)) (s : Scope) :
    s.Revalues (replaced.foldl (fun scope (old, new) => scope.substitute old new) s) := by
  induction replaced generalizing s with
  | nil => exact .refl s
  | cons entry replaced ih => exact (Revalues.refl s).substitute.trans (ih _)

end Revalues

/-! ### Names that are not held -/

/-- No local with a name in `names` is held as a value, and none is held in the outermost frame.
There are at least `floor` frames. -/
structure Spares (floor : Nat) (names : List String) (s : Scope) : Prop where
  deep : floor ≤ s.depth
  held : ∀ d n id ty, s.Binds d n (.held id ty) → d ≠ 0 ∧ n ∉ names

namespace Spares

section

variable (h : s.Spares floor names)
include h

theorem revalues (hs : s.Revalues s') : s'.Spares floor names := by
  refine ⟨hs.depth ▸ h.deep, fun d n id ty hb => ?_⟩
  obtain ⟨id', hb'⟩ := hs.held d n id ty hb
  exact h.held d n id' ty hb'

theorem lookup (hx : s.lookup n = some (.held id ty)) : n ∉ names := by
  obtain ⟨d, hd⟩ := binds_of_lookup hx
  exact (h.held d n id ty hd).2

theorem push : s.push.Spares floor names :=
  ⟨by have := h.deep; rw [depth_push]; omega, fun d n id ty hb => h.held d n id ty (binds_push hb)⟩

theorem pop (hdeep : floor < s.depth) : s.pop.Spares floor names :=
  ⟨by rw [depth_pop]; omega, fun d n id ty hb => h.held d n id ty (binds_pop hb)⟩

theorem truncate (hk : floor ≤ k) : (s.truncate k).Spares floor names :=
  ⟨by have := h.deep; rw [depth_truncate]; omega,
    fun d n id ty hb => h.held d n id ty (binds_truncate.1 hb).2⟩

theorem restrictTo (hdeep : floor ≤ s'.depth) : (s.restrictTo s').Spares floor names :=
  ⟨by have := h.deep; rw [depth_restrictTo]; omega,
    fun d n id ty hb => h.held d n id ty (binds_restrictTo hb)⟩

theorem writeBack (h' : s'.Spares floor names) : (s.writeBack s').Spares floor names := by
  refine ⟨depth_writeBack.symm ▸ h.deep, fun d n id ty hb => ?_⟩
  exact (binds_writeBack hb).elim (h.held d n id ty) (h'.held d n id ty)

theorem declare? (hx : ∀ id ty, x = .held id ty → 2 ≤ floor ∧ n ∉ names)
    (hs : s.declare? n x = some s') : s'.Spares floor names := by
  refine ⟨depth_declare? hs ▸ h.deep, fun d m id ty hb => ?_⟩
  rw [declare?_eq_some hs] at hb
  rcases binds_set hb with ⟨rfl, rfl, rfl⟩ | hb
  · have := h.deep
    obtain ⟨hfloor, hfree⟩ := hx id ty rfl
    exact ⟨by omega, hfree⟩
  · exact h.held d m id ty hb

end

end Spares

end Scope

/-! ### Joins and loops -/

variable {b : Builder} {floor : Nat} {names : List String} {parent scope : Scope}

theorem Does.any {α : Type} (m : BuildM α) : Does AnyFault b m fun _ _ => True := by
  unfold Does Yields
  split <;> exact trivial

namespace BuildM

theorem mergeEntries_revalues (region : NodeId) (arms : List Arm)
    (entries : List (Nat × String × Binding)) (hentries : ∀ entry ∈ entries, entry ∈ parent.entries)
    (h : parent.Revalues scope) : Does AnyFault b (mergeEntries region arms entries scope) fun s _ =>
      parent.Revalues s := by
  induction entries generalizing scope b with
  | nil => exact .pure h
  | cons entry entries ih =>
    obtain ⟨depth, name, binding⟩ := entry
    obtain ⟨hentry, hrest⟩ := List.forall_mem_cons.1 hentries
    have hbinds := Scope.mem_entries.1 hentry
    cases binding with
    | held before ty =>
      rw [mergeEntries]
      dsimp only [Binding.heldValue?]
      split
      · exact ih hrest h
      · exact (Does.any _).bind fun merged _ _ => ih hrest (h.set hbinds)
    | type ty => exact ih hrest h
    | value id => exact ih hrest h
    | slot address ty => exact ih hrest h

variable {arms : List Arm}

theorem merge_scope (P : Scope → Prop) (hparent : ∀ s, parent.Revalues s → P s)
    (harms : ∀ arm ∈ arms, P (arm.scope.truncate parent.depth)) :
    Does AnyFault b (merge parent arms) fun join _ => P join.scope := by
  refine (liveArms_finds _ 0).bind ?_
  rintro live b ⟨rfl, -, hlive⟩
  split
  · refine (Does.any _).bind fun c b1 _ => (Does.any _).bind fun control b2 _ => ?_
    exact .pure (hparent _ (.refl _))
  · rename_i index arm
    obtain ⟨hmem, -⟩ := (hlive arm).1 ⟨index, by simp⟩
    obtain ⟨whole, hwhole, rfl⟩ := List.mem_map.1 hmem
    exact .pure (harms whole hwhole)
  · refine (Does.any _).bind fun region b1 _ => ?_
    refine (mergeEntries_revalues _ _ _ (fun _ h => h) (.refl parent)).bind fun s b2 hs => ?_
    exact (Does.any _).bind fun memory b3 _ => .pure (hparent s hs)

end BuildM

namespace LoopPhis

theorem openEntries_revalues (header : NodeId) (entries : List (Nat × String × Binding))
    (hentries : ∀ entry ∈ entries, entry ∈ parent.entries) (h : parent.Revalues scope) :
    Does AnyFault b (openEntries header entries scope) fun r _ => parent.Revalues r.2 := by
  induction entries generalizing scope b with
  | nil => exact .pure h
  | cons entry entries ih =>
    obtain ⟨depth, name, binding⟩ := entry
    obtain ⟨hentry, hrest⟩ := List.forall_mem_cons.1 hentries
    cases binding with
    | held id ty =>
      refine (Does.any _).bind fun phi _ _ => ?_
      exact (ih hrest (h.set (Scope.mem_entries.1 hentry))).bind fun r _ hr => .pure hr
    | type ty => exact ih hrest h
    | value id => exact ih hrest h
    | slot address ty => exact ih hrest h

theorem enter_revalues (parent : Scope) (header : NodeId) :
    Does AnyFault b (enter parent header) fun r _ => parent.Revalues r.2 := by
  refine (openEntries_revalues header _ (fun _ h => h) (.refl parent)).bind fun r b1 hr => ?_
  refine (Does.any _).bind fun c b2 _ => (Does.any _).bind fun memory b3 _ => ?_
  exact (Does.any _).bind fun _ b4 _ => .pure hr

end LoopPhis

end SeaOfNodes
