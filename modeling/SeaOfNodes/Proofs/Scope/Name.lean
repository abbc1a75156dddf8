import SeaOfNodes.Proofs.Scope.Basic

/-!
Names of frames. In a scope whose frames have each name once, an entry is what its frame says of the
name, and no two entries have one place.
-/
namespace SeaOfNodes

namespace Frame

variable {frame : Frame} {name m : String} {x y : Binding}

theorem get?_cons :
    get? ((name, x) :: frame) m = if m = name then some x else frame.get? m := by
  unfold get?
  by_cases h : m = name
  · simp [h]
  · simp only [List.lookup_cons, beq_eq_false_iff_ne.2 h, if_neg h]

theorem get?_insert : (frame.insert name x).get? m = if m = name then some x else frame.get? m := by
  induction frame with
  | nil => exact get?_cons
  | cons entry frame ih =>
    obtain ⟨n, y⟩ := entry
    rw [insert]
    by_cases hn : n = name
    · subst hn
      rw [if_pos rfl, get?_cons, get?_cons]
      split <;> rfl
    · simp only [if_neg hn, get?_cons, ih]
      by_cases hm : m = n
      · simp [hm, hn]
      · simp [hm]

theorem get?_of_mem (hframe : (frame.map Prod.fst).Nodup) (h : (name, x) ∈ frame) :
    frame.get? name = some x := by
  induction frame with
  | nil => contradiction
  | cons entry frame ih =>
    obtain ⟨n, y⟩ := entry
    obtain ⟨hnot, hrest⟩ := List.nodup_cons.1 hframe
    rw [get?_cons]
    rcases List.mem_cons.1 h with heq | hmem
    · cases heq
      simp
    · have hname : name ∈ frame.map Prod.fst := List.mem_map.2 ⟨_, hmem, rfl⟩
      have hne : name ≠ n := by
        rintro rfl
        exact hnot hname
      rw [if_neg hne, ih hrest hmem]

end Frame

namespace Scope

variable {s : Scope} {d k : Nat} {name n : String} {x y : Binding}

/-- No frame has a name twice. -/
def Distinct (s : Scope) : Prop := ∀ frame ∈ s.frames, (frame.map Prod.fst).Nodup

instance (s : Scope) : Decidable s.Distinct :=
  inferInstanceAs (Decidable (∀ frame ∈ s.frames, (frame.map Prod.fst).Nodup))

theorem get?_set_self (h : s.get? d n = some y) : (s.set d n x).get? d n = some x := by
  obtain ⟨frame, hframe, -⟩ := Option.bind_eq_some_iff.1 h
  simp [get?, set, hframe, Frame.get?_insert]

theorem get?_set_of_ne (h : ¬ (d = k ∧ n = name)) : (s.set k name x).get? d n = s.get? d n := by
  simp only [get?, set, List.getElem?_modify]
  cases s.frames[d]? with
  | none => rfl
  | some frame =>
    by_cases hd : k = d
    · have hn : n ≠ name := fun hn => h ⟨hd.symm, hn⟩
      simp [hd, Frame.get?_insert, hn]
    · simp [hd]

theorem get?_truncate (h : d < k) : (s.truncate k).get? d n = s.get? d n := by
  simp [get?, truncate, h]

theorem Distinct.get?_of_binds (hs : s.Distinct) (h : s.Binds d n x) : s.get? d n = some x := by
  obtain ⟨frame, hframe, hmem⟩ := h
  simp [get?, hframe, Frame.get?_of_mem (hs frame (List.mem_of_getElem? hframe)) hmem]

theorem Distinct.mem_entries_iff (hs : s.Distinct) : (d, n, x) ∈ s.entries ↔ s.get? d n = some x :=
  mem_entries.trans ⟨hs.get?_of_binds, binds_of_get?⟩

def place (entry : Nat × String × Binding) : Nat × String := (entry.1, entry.2.1)

theorem Distinct.nodup_places (hs : s.Distinct) : (s.entries.map place).Nodup := by
  obtain ⟨frames⟩ := s
  -- Frames further in stand at greater depths.
  have hall : ∀ (frames : List Frame) (k : Nat), Distinct ⟨frames⟩ →
      (((frames.zipIdx k).flatMap fun p => p.1.map fun e => (p.2, e)).map place).Nodup ∧
      ∀ entry ∈ (frames.zipIdx k).flatMap fun p => p.1.map fun e => (p.2, e), k ≤ entry.1 := by
    intro frames
    induction frames with
    | nil => simp
    | cons frame frames ih =>
      intro k hs
      obtain ⟨hframe, hrest⟩ := List.forall_mem_cons.1 hs
      obtain ⟨hnodup, hle⟩ := ih (k + 1) hrest
      rw [List.zipIdx_cons, List.flatMap_cons, List.map_append]
      refine ⟨List.nodup_append.2 ⟨?_, hnodup, ?_⟩, ?_⟩
      · refine List.Nodup.of_map Prod.snd ?_
        simpa [Function.comp_def, place] using hframe
      · intro p hp q hq heq
        subst heq
        obtain ⟨entry, hentry, rfl⟩ := List.mem_map.1 hq
        have hlt := hle entry hentry
        simp only [List.map_map, List.mem_map, Function.comp_apply, place, Prod.mk.injEq] at hp
        omega
      · intro entry hentry
        rcases List.mem_append.1 hentry with hentry | hentry
        · obtain ⟨-, -, rfl⟩ := List.mem_map.1 hentry
          exact Nat.le_refl k
        · have hlt := hle entry hentry
          omega
  exact (hall frames 0 hs).1

end Scope

end SeaOfNodes
