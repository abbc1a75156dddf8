import Mathlib.Data.Finset.Card
import Mathlib.Data.List.Nodup
import SeaOfNodes.Proofs.Pass.Fold

/-!
Whole optimizations. The worklist of a simplification never runs out of the steps it is given, since
every replacement leaves fewer nodes that a fold may look at.
-/
namespace SeaOfNodes.Graph

variable {g g' : Graph} {id x : NodeId} {node : Node} {F : Fault → Prop}

/-! ### The work that is left -/

/-- The places of the nodes that a fold may still look at. -/
def openPlaces (g : Graph) : Finset Nat :=
  (Finset.range g.slots.size).filter fun index => g.isOpen ⟨index, 0⟩ = true

/-- The number of nodes that a fold may still look at. -/
def work (g : Graph) : Nat := g.openPlaces.card

theorem index_lt_of_get? (hn : g.get? x = some node) : x.index < g.slots.size := by
  unfold get? at hn
  split at hn
  · rename_i slot hslot
    exact (Array.getElem?_eq_some_iff.1 hslot).1
  · contradiction

theorem mem_openPlaces {index : Nat} : index ∈ g.openPlaces ↔ g.isOpen ⟨index, 0⟩ = true := by
  unfold openPlaces
  rw [Finset.mem_filter, Finset.mem_range, and_iff_right_iff_imp]
  intro hopen
  obtain ⟨node, hn, -⟩ := isOpen_iff.1 hopen
  exact index_lt_of_get? hn

theorem openPlaces_subset (h : ∀ x, g'.isOpen x = true → g.isOpen x = true) :
    g'.openPlaces ⊆ g.openPlaces := by
  intro index hindex
  exact mem_openPlaces.2 (h _ (mem_openPlaces.1 hindex))

theorem work_le (h : ∀ x, g'.isOpen x = true → g.isOpen x = true) : g'.work ≤ g.work :=
  Finset.card_le_card (openPlaces_subset h)

theorem work_lt (hd : g.Dense) (h : ∀ x, g'.isOpen x = true → g.isOpen x = true)
    (hopen : g.isOpen id = true) (hclosed : g'.isOpen id = false) : g'.work < g.work := by
  obtain ⟨node, hn, -⟩ := isOpen_iff.1 hopen
  obtain ⟨hgeneration, -⟩ := (hd.has_iff id).1 ⟨node, hn⟩
  have hid : id = ⟨id.index, 0⟩ := by
    cases id
    simp_all
  refine Finset.card_lt_card ((Finset.ssubset_iff_of_subset (openPlaces_subset h)).2
    ⟨id.index, ?_, ?_⟩)
  · rw [mem_openPlaces, ← hid]
    exact hopen
  · rw [mem_openPlaces, ← hid, hclosed]
    exact Bool.false_ne_true

theorem work_le_size (g : Graph) : g.work ≤ g.slots.size := by
  have := Finset.card_filter_le (Finset.range g.slots.size) fun index => g.isOpen ⟨index, 0⟩ = true
  rwa [Finset.card_range] at this

theorem nodup_eraseDups {α : Type} [DecidableEq α] (xs : List α) : xs.eraseDups.Nodup := by
  match xs with
  | [] => exact List.nodup_nil
  | x :: xs =>
    rw [List.eraseDups_cons, List.nodup_cons]
    refine ⟨?_, nodup_eraseDups _⟩
    simp [List.mem_eraseDups]
termination_by xs.length
decreasing_by exact Nat.lt_succ_of_le (List.length_filter_le _ _)

theorem Dense.length_le (hd : g.Dense) {ids : List NodeId} (hids : ∀ x ∈ ids, g.Has x)
    (hnodup : ids.Nodup) : ids.length ≤ g.slots.size := by
  have hplaces : (ids.map NodeId.index).Nodup := by
    refine hnodup.map_on ?_
    intro x hx y hy hxy
    have hgx := ((hd.has_iff x).1 (hids x hx)).1
    have hgy := ((hd.has_iff y).1 (hids y hy)).1
    cases x
    cases y
    simp_all
  have hsub : (ids.map NodeId.index).toFinset ⊆ Finset.range g.slots.size := by
    intro index hindex
    obtain ⟨x, hx, rfl⟩ := List.mem_map.1 (List.mem_toFinset.1 hindex)
    exact Finset.mem_range.2 ((hd.has_iff x).1 (hids x hx)).2
  have hcard := Finset.card_le_card hsub
  rwa [List.toFinset_card_of_nodup hplaces, List.length_map, Finset.card_range] at hcard

theorem lookAgain_yields (h : g.WellFormed) {new : NodeId} (hnew : g.Has new)
    (queued : Std.ExtTreeSet NodeId) {F : Fault → Prop} :
    Yields F (g.lookAgain new queued) fun fresh => fresh.length ≤ g.slots.size := by
  obtain ⟨us, hus⟩ := users_ok hnew
  refine .bind_ok hus (.pure ?_)
  refine (List.length_filter_le _ _).trans (h.dense.length_le ?_ (nodup_eraseDups _))
  intro x hx
  rw [List.mem_eraseDups, List.mem_append, List.mem_singleton] at hx
  rcases hx with hx | rfl
  · obtain ⟨u, hu, rfl⟩ := List.mem_map.1 hx
    exact users_has hus u hu
  · exact hnew

theorem length_handlesFrom_le (slots : List Slot) (index : Nat) :
    (handlesFrom index slots).length ≤ slots.length := by
  induction slots generalizing index with
  | nil => exact Nat.le_refl _
  | cons slot slots ih =>
    have := ih (index + 1)
    rw [handlesFrom]
    split <;> simp only [List.length_cons] <;> omega

theorem length_liveIds_le (g : Graph) : g.liveIds.length ≤ g.slots.size := by
  refine (List.length_filter_le _ _).trans ?_
  have := length_handlesFrom_le g.slots.toList 0
  rwa [Array.length_toList] at this

/-! ### The worklist -/

/-- What simplifying a node leaves behind: there is no more work than before, and less if `found`
took the place of the node. -/
structure Simplified (F : Fault → Prop) (g : Graph) (found : Option NodeId) (g' : Graph) : Prop where
  leaves : Leaves F g g'
  has : ∀ new, found = some new → g'.Has new
  total : g'.slots.size + g'.work ≤ g.slots.size + g.work
  work : g'.work ≤ g.work
  less : ∀ new, found = some new → g'.work < g.work

theorem simplify_yields (h : Sound F g) (hlive : g.isLive id = true) (hn : g.get? id = some node) :
    Yields F (g.simplify id) fun (found, g') => Simplified F g found g' := by
  refine .bind_ok (op_of_get? hn) ?_
  by_cases hop : node.op = .constant
  · -- No fold looks at a constant.
    rw [hop]
    exact .ok ⟨⟨h, .refl g⟩, by simp, Nat.le_refl _, Nat.le_refl _, by simp⟩
  · have hopen : g.isOpen id = true := by
      obtain ⟨other, ho, hreplaced⟩ := isLive_iff.1 hlive
      cases hn.symm.trans ho
      exact isOpen_iff.2 ⟨node, hn, hreplaced, hop⟩
    refine (simplifyBy_yields h hlive).imp ?_
    rintro ⟨found, g'⟩ htried
    have hwork : g'.work ≤ g.work := work_le htried.isOpen
    rcases htried.size with ⟨hnone, hsize⟩ | ⟨hsize, hclosed⟩
    · have hnone : found = none := hnone
      exact ⟨htried.leaves, htried.has, Nat.add_le_add (Nat.le_of_eq hsize) hwork, hwork, by simp [hnone]⟩
    · have hless : g'.work < g.work := work_lt h.wellFormed.dense htried.isOpen hopen hclosed
      have hsize : g'.slots.size ≤ g.slots.size + 1 := hsize
      exact ⟨htried.leaves, htried.has, by omega, hwork, fun _ _ => hless⟩

/-- A worklist with enough steps for its nodes and for all that the work left can put on it. -/
theorem simplifyQueue_yields (fuel bound : Nat) (queue : List NodeId)
    (queued : Std.ExtTreeSet NodeId) (h : Sound F g) (hbound : g.slots.size + g.work ≤ bound)
    (hfuel : queue.length + g.work * (bound + 1) < fuel) :
    Yields F (simplifyQueue fuel queue queued g) fun _ => True := by
  induction fuel generalizing g queue queued with
  | zero => omega
  | succ fuel ih =>
    cases queue with
    | nil => exact trivial
    | cons id queue =>
      rw [List.length_cons] at hfuel
      rw [simplifyQueue]
      cases hlive : g.isLive id with
      | false => exact ih queue (queued.erase id) h hbound (by omega)
      | true =>
        obtain ⟨node, hn, -⟩ := isLive_iff.1 hlive
        refine (simplify_yields h hlive hn).bind fun r hsimplified => ?_
        obtain ⟨found, g1⟩ := r
        have hsound := hsimplified.leaves.sound
        have hbound1 : g1.slots.size + g1.work ≤ bound := hsimplified.total.trans hbound
        cases found with
        | none =>
          have hmul := Nat.mul_le_mul_right (bound + 1) hsimplified.work
          exact ih queue (queued.erase id) hsound hbound1 (by omega)
        | some new =>
          have hmul := Nat.mul_le_mul_right (bound + 1) (Nat.succ_le_of_lt (hsimplified.less new rfl))
          rw [Nat.succ_mul] at hmul
          have hnew := hsimplified.has new rfl
          obtain ⟨us, hus⟩ := users_ok hnew
          refine .bind_ok hus ?_
          have hfresh : g1.lookAgain new (queued.erase id) = .ok _ :=
            bind_eq_ok_iff.2 ⟨us, hus, rfl⟩
          have hlength := (lookAgain_yields (F := fun _ => False) hsound.wellFormed hnew _).result hfresh
          refine (ih (queue ++ _) _ hsound hbound1 ?_).bind fun _ _ => .pure trivial
          rw [List.length_append]
          omega

theorem simplifyAll_yields (h : Sound F g) : Yields F g.simplifyAll fun _ => True := by
  have hwork := g.work_le_size
  have hlength := g.length_liveIds_le
  refine simplifyQueue_yields _ (2 * (g.slots.size + 1)) g.liveIds _ h (by omega) ?_
  have := Nat.mul_le_mul_right (2 * (g.slots.size + 1) + 1) (hwork.trans (Nat.le_succ _))
  simp only [Nat.succ_eq_add_one] at this
  omega

/-- A graph without phis and loads. -/
def Straight (g : Graph) : Prop :=
  ∀ x node, g.get? x = some node → node.op ≠ .phi ∧ ∀ offset, node.op ≠ .load offset

/-! ### Rounds -/

variable {options : OptimizeOptions}

def afterRound (stats : OptimizeStats) (moved simplified : Nat) : OptimizeStats :=
  { stats with
    rounds := stats.rounds + 1
    moved := stats.moved + moved
    simplified := stats.simplified + simplified }

theorem optimizeRounds_succ (limit : Nat) (stats : OptimizeStats) (g : Graph) :
    optimizeRounds options (limit + 1) stats g =
      g.reorderIf options >>= fun (moved, g1) => g1.simplifyIf options >>= fun (simplified, g2) =>
        if moved = 0 ∧ simplified = 0 then .ok (afterRound stats moved simplified, g2)
        else optimizeRounds options limit (afterRound stats moved simplified) g2 := by
  rw [optimizeRounds]
  unfold reorderIf simplifyIf
  cases options.reorder <;> cases options.simplify <;> rfl

/-! ### The changes of an optimization -/

variable {ev : Event}

/-- A change turns the graph before it into the graph after it. -/
def Event.Happens (ev : Event) : Prop :=
  match ev.change with
  | .lift id => ev.before.Lifts id ev.after
  | .replace old new => ev.before.replace old new = .ok ev.after

theorem ClimbMakes.happens (h : ClimbMakes id g ev) : ev.Happens := by
  induction h with
  | here hl => exact hl
  | later _ _ ih => exact ih

theorem ClimbAllMakes.happens {ids : List NodeId} (h : ClimbAllMakes ids g ev) : ev.Happens := by
  induction h with
  | here hc => exact hc.happens
  | later _ _ ih => exact ih

theorem SelectMakes.happens {position : Nat} {phis : List NodeId}
    (h : SelectMakes position phis g ev) : ev.Happens := by
  induction h with
  | here _ hr => exact hr
  | later _ _ _ ih => exact ih

theorem TryMakes.happens {folds : List Fold} (h : TryMakes id folds g ev) : ev.Happens := by
  induction h with
  | fold hfold =>
    cases hfold with
    | region _ _ _ _ hselect => exact hselect.happens
  | replace _ _ hr => exact hr
  | next _ _ _ ih => exact ih

theorem QueueMakes.happens {queue : List NodeId} {queued : Std.ExtTreeSet NodeId}
    (h : QueueMakes queue queued g ev) : ev.Happens := by
  induction h with
  | here _ _ htry => exact htry.happens
  | skip _ _ ih => exact ih
  | kept _ _ _ ih => exact ih
  | replaced _ _ _ _ ih => exact ih

theorem RoundsMake.happens {limit : Nat} (h : RoundsMake options limit g ev) : ev.Happens := by
  induction h with
  | reorder _ hclimb => exact hclimb.happens
  | simplify _ _ hqueue => exact hqueue.happens
  | next _ _ _ _ ih => exact ih

end SeaOfNodes.Graph
