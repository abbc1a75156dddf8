import SeaOfNodes.Proofs.Build.Basic
import SeaOfNodes.Scope.Basic

/-!
What scopes bind. `Scope.Binds` says which bindings a scope has, and there is one lemma about it for
each operation on scopes. What holds of all bindings (`Scope.All`) is kept by all operations that add
none without it.
-/
namespace SeaOfNodes

open SeaOfNodes.Graph

variable {name n m : String} {x y : Binding} {d k : Nat}

/-! ### Frames -/

namespace Frame

variable {frame : Frame}

theorem mem_of_get? (h : frame.get? name = some x) : (name, x) ∈ frame := by
  obtain ⟨l1, l2, heq, -⟩ := List.lookup_eq_some_iff.1 h
  simp [heq]

theorem mem_insert (h : (n, y) ∈ insert name x frame) : n = name ∧ y = x ∨ (n, y) ∈ frame := by
  induction frame with
  | nil => simpa [insert] using h
  | cons entry frame ih =>
    rw [insert] at h
    split at h
    · rcases List.mem_cons.1 h with heq | h
      · exact .inl (Prod.mk.inj heq)
      · exact .inr (List.mem_cons_of_mem _ h)
    · rcases List.mem_cons.1 h with rfl | h
      · exact .inr List.mem_cons_self
      · exact (ih h).imp_right (List.mem_cons_of_mem _)

end Frame

/-! ### Scopes -/

namespace Scope

variable {s s' s'' : Scope}

def Binds (s : Scope) (depth : Nat) (name : String) (binding : Binding) : Prop :=
  ∃ frame, s.frames[depth]? = some frame ∧ (name, binding) ∈ frame

theorem Binds.lt_depth (h : s.Binds d n x) : d < s.depth := by
  obtain ⟨frame, hframe, -⟩ := h
  exact (List.getElem?_eq_some_iff.1 hframe).1

theorem not_binds_initial : ¬ initial.Binds d n x := by
  rintro ⟨frame, hframe, hmem⟩
  rcases d with - | d
  · cases hframe
    contradiction
  · contradiction

@[simp] theorem depth_set : (s.set k name x).depth = s.depth := by simp [set, depth]

theorem binds_push (h : s.push.Binds d n x) : s.Binds d n x := by
  obtain ⟨frame, hframe, hmem⟩ := h
  rw [push, List.getElem?_append] at hframe
  split at hframe
  · exact ⟨frame, hframe, hmem⟩
  · have hempty : frame ∈ [([] : Frame)] := List.mem_of_getElem? hframe
    simp [List.mem_singleton.1 hempty] at hmem

theorem binds_truncate : (s.truncate k).Binds d n x ↔ d < k ∧ s.Binds d n x := by
  simp only [Binds, truncate]
  by_cases h : d < k
  · simp [h]
  · simp [h]

theorem binds_pop (h : s.pop.Binds d n x) : s.Binds d n x := by
  obtain ⟨frame, hframe, hmem⟩ := h
  rw [pop, List.dropLast_eq_take, List.getElem?_take] at hframe
  split at hframe
  · exact ⟨frame, hframe, hmem⟩
  · contradiction

theorem binds_set (h : (s.set k name x).Binds d n y) :
    (d = k ∧ n = name ∧ y = x) ∨ s.Binds d n y := by
  obtain ⟨frame, hframe, hmem⟩ := h
  rw [set, List.getElem?_modify] at hframe
  obtain ⟨old, hold, rfl⟩ := Option.map_eq_some_iff.1 hframe
  by_cases hd : k = d
  · rw [if_pos hd] at hmem
    rcases Frame.mem_insert hmem with ⟨hn, hy⟩ | hmem
    · exact .inl ⟨hd.symm, hn, hy⟩
    · exact .inr ⟨old, hold, hmem⟩
  · rw [if_neg hd] at hmem
    exact .inr ⟨old, hold, hmem⟩

theorem binds_of_get? (h : s.get? d n = some x) : s.Binds d n x := by
  obtain ⟨frame, hframe, hx⟩ := Option.bind_eq_some_iff.1 h
  exact ⟨frame, hframe, Frame.mem_of_get? hx⟩

theorem binds_of_lookup (h : s.lookup n = some x) : ∃ d, s.Binds d n x := by
  obtain ⟨l1, frame, l2, heq, hx, -⟩ := List.findSome?_eq_some_iff.1 h
  have hmem : frame ∈ s.frames := by
    rw [← List.mem_reverse, heq]
    exact List.mem_append_right l1 List.mem_cons_self
  obtain ⟨d, hd⟩ := List.mem_iff_getElem?.1 hmem
  exact ⟨d, frame, hd, Frame.mem_of_get? hx⟩

theorem declare?_eq_some (h : s.declare? n x = some s') : s' = s.set (s.depth - 1) n x := by
  unfold declare? at h
  split at h
  · contradiction
  · split at h
    · contradiction
    · exact (Option.some.inj h).symm

theorem binds_restrictTo (h : (s.restrictTo s').Binds d n x) : s.Binds d n x := by
  obtain ⟨frame, hframe, hmem⟩ := h
  rw [restrictTo, List.getElem?_zipWith] at hframe
  split at hframe
  · rename_i old present _ hpresent
    cases hframe
    exact ⟨present, hpresent, (List.mem_filter.1 hmem).1⟩
  · contradiction

theorem mem_entries : (d, n, x) ∈ s.entries ↔ s.Binds d n x := by
  simp only [entries, List.mem_flatMap, List.mem_map, Prod.mk.injEq, Prod.exists]
  constructor
  · rintro ⟨frame, depth, hframe, name, y, hmem, rfl, rfl, rfl⟩
    exact ⟨frame, List.mem_zipIdx_iff_getElem?.1 hframe, hmem⟩
  · rintro ⟨frame, hframe, hmem⟩
    exact ⟨frame, d, List.mem_zipIdx_iff_getElem?.2 hframe, n, x, hmem, rfl, rfl, rfl⟩

theorem writeBack_entries (entries : List (Nat × String × Binding)) :
    (entries.foldl (fun s (depth, name, binding) => s.set depth name binding) s).depth = s.depth ∧
    ((entries.foldl (fun s (depth, name, binding) => s.set depth name binding) s).Binds d n x →
      s.Binds d n x ∨ (d, n, x) ∈ entries) := by
  induction entries generalizing s with
  | nil => exact ⟨rfl, .inl⟩
  | cons entry entries ih =>
    obtain ⟨hdepth, hbinds⟩ := ih
    refine ⟨hdepth.trans depth_set, fun h => ?_⟩
    rcases hbinds h with h | h
    · rcases binds_set h with ⟨rfl, rfl, rfl⟩ | h
      · exact .inr List.mem_cons_self
      · exact .inl h
    · exact .inr (List.mem_cons_of_mem _ h)

theorem binds_writeBack (h : (s.writeBack s').Binds d n x) : s.Binds d n x ∨ s'.Binds d n x :=
  ((writeBack_entries s'.entries).2 h).imp_right mem_entries.1

theorem binds_substitute {old new : NodeId} (h : (s.substitute old new).Binds d n x) :
    (∃ id ty, s.Binds d n (.held id ty) ∧ x = .held (if id = old then new else id) ty) ∨
      x.heldValue? = none ∧ s.Binds d n x := by
  obtain ⟨frame, hframe, hmem⟩ := h
  rw [substitute, List.getElem?_map] at hframe
  obtain ⟨before, hbefore, rfl⟩ := Option.map_eq_some_iff.1 hframe
  obtain ⟨⟨m, y⟩, hy, heq⟩ := List.mem_map.1 hmem
  cases heq
  cases y with
  | held id ty =>
    refine .inl ⟨id, ty, ⟨before, hbefore, hy⟩, ?_⟩
    by_cases hid : id = old
    · simp [Binding.heldValue?, Binding.withValue, hid]
    · simp [Binding.heldValue?, hid]
  | type ty | value id | slot address ty => exact .inr ⟨rfl, before, hbefore, hy⟩

/-! ### What holds of all bindings -/

/-- All names stand for what `P` holds of. -/
def All (P : Binding → Prop) (s : Scope) : Prop := ∀ d n x, s.Binds d n x → P x

namespace All

variable {P Q : Binding → Prop} {old new : NodeId}

section

variable (h : s.All P)
include h

theorem lookup (hx : s.lookup n = some x) : P x := by
  obtain ⟨d, hd⟩ := binds_of_lookup hx
  exact h d n x hd

theorem set (hx : P x) : (s.set k n x).All P := by
  intro d m y hy
  rcases binds_set hy with ⟨-, -, rfl⟩ | hy
  · exact hx
  · exact h d m y hy

theorem declare? (hx : P x) (hs : s.declare? n x = some s') : s'.All P := by
  rw [declare?_eq_some hs]
  exact h.set hx

end

end All

end Scope

end SeaOfNodes
