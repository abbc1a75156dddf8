import SeaOfNodes.Proofs.Graph.Chain
import SeaOfNodes.Proofs.Graph.WellFormed

/-!
Graphs while they are built. Nodes get rising indices, and every effect names an older state of
memory, so that chains of memory end.

An error can stand for a variable at the head of a loop and be replaced by any later node. A state
of memory is never an error, and if it is a phi then its first case is an older state of memory; so
no replacement puts an effect behind a younger one.
-/
namespace SeaOfNodes

def Op.isError : Op → Bool
  | .error _ => true
  | _ => false

namespace Graph

variable {g g' : Graph} {id x y old new : NodeId} {node : Node} {inputs : List NodeId} {op : Op}
  {ty : Ty}

/-- A node that can be a state of memory. -/
inductive IsState (g : Graph) : NodeId → Prop where
  | node {id : NodeId} {node : Node} : g.get? id = some node → node.op ≠ .phi →
    node.op.isError = false → IsState g id
  | phi {id region first : NodeId} {node : Node} {rest : List NodeId} : g.get? id = some node →
    node.op = .phi → node.inputs = region :: first :: rest → first.index < id.index →
    IsState g first → IsState g id

theorem IsState.has (h : g.IsState x) : g.Has x := by
  cases h with
  | node hn _ _ => exact ⟨_, hn⟩
  | phi hn _ _ _ _ => exact ⟨_, hn⟩

/-- States of memory stay, if first cases stay or older states of memory take their place. -/
theorem IsState.change
    (hnode : ∀ x node, g.get? x = some node → ∃ node', g'.get? x = some node' ∧
      node'.op = node.op ∧ ∀ region first rest, node.inputs = region :: first :: rest →
        ∃ region' first' rest', node'.inputs = region' :: first' :: rest' ∧
          (first' = first ∨ (g.IsState first → g.IsState first' ∧ first'.index < first.index)))
    (h : g.IsState x) : g'.IsState x := by
  -- The cases of a phi are older than it, so the induction is on the index.
  induction hx : x.index using Nat.strongRecOn generalizing x with
  | ind n ih =>
    subst hx
    cases h with
    | node hn hop herror =>
      obtain ⟨node', hn', hop', -⟩ := hnode _ _ hn
      exact .node hn' (hop' ▸ hop) (hop' ▸ herror)
    | phi hn hop hinputs hlt hfirst =>
      obtain ⟨node', hn', hop', hcases⟩ := hnode _ _ hn
      obtain ⟨region', first', rest', hinputs', rfl | hless⟩ := hcases _ _ _ hinputs
      · exact .phi hn' (hop'.trans hop) hinputs' hlt (ih _ hlt hfirst rfl)
      · obtain ⟨hstate, hlt'⟩ := hless hfirst
        exact .phi hn' (hop'.trans hop) hinputs' (hlt'.trans hlt) (ih _ (hlt'.trans hlt) hstate rfl)

theorem IsState.mono
    (hnode : ∀ x node, g.get? x = some node → ∃ node', g'.get? x = some node' ∧
      node'.op = node.op ∧ node.inputs <+: node'.inputs)
    (h : g.IsState x) : g'.IsState x := by
  refine h.change fun x node hn => ?_
  obtain ⟨node', hn', hop, more, hinputs⟩ := hnode x node hn
  refine ⟨node', hn', hop, fun region first rest heq => ?_⟩
  exact ⟨region, first, rest ++ more, by rw [← hinputs, heq]; rfl, .inl rfl⟩

theorem IsState.of_slots_eq (h : g.IsState x) (hslots : g'.slots = g.slots) : g'.IsState x := by
  refine h.mono fun x node hn => ⟨node, ?_, rfl, List.prefix_refl _⟩
  unfold get? at hn ⊢
  rw [hslots]
  exact hn

theorem Enters.isState (he : Enters g g') (h : g.IsState x) : g'.IsState x := by
  refine h.mono fun x node hn => ?_
  obtain ⟨us, hus, -⟩ := he.node hn
  exact ⟨_, hus, rfl, List.prefix_refl _⟩

theorem Extends.isState (h : Extends g g') (hx : g.IsState x) : g'.IsState x := by
  refine hx.mono fun x node hn => ?_
  obtain ⟨us, hus⟩ := h.node hn
  exact ⟨_, hus, rfl, List.prefix_refl _⟩

/-! ### Graphs that are built -/

/-- What holds of a graph while it is built. -/
structure Built (g : Graph) : Prop where
  wellFormed : g.WellFormed
  registered : g.Registered
  memory : ∀ {id e}, g.memory[id]? = some e → e.previous.index < id.index ∧
    g.IsState e.previous ∧ g.At id fun op _ => op ≠ .phi ∧ op.isError = false

theorem Built.of_memory_eq (h : g.Built) (hw : g'.WellFormed) (hreg : g'.Registered)
    (hmemory : g'.memory = g.memory) (hstate : ∀ x, g.IsState x → g'.IsState x)
    (hkeeps : Keeps g g') : g'.Built where
  wellFormed := hw
  registered := hreg
  memory {id e} hm := by
    rw [hmemory] at hm
    obtain ⟨hlt, hprevious, hid⟩ := h.memory hm
    exact ⟨hlt, hstate _ hprevious, hkeeps.at hid⟩

namespace Built

theorem create (h : g.Built)
    (hshaped : Node.Shaped { op, ty := (ty.stamp g.origins).1, inputs })
    (hc : g.create op ty inputs = .ok (id, g')) : g'.Built := by
  have hd := h.wellFormed.dense
  have hext := Extends.create hd hc
  exact h.of_memory_eq (h.wellFormed.create h.registered hshaped hc)
    (h.registered.create hd.freeSlots hc) (create_frame hd hc).2.1 (fun _ => hext.isState) hext.keeps

theorem attachMemory {e : MemoryEffect} (h : g.Built)
    (hid : g.At id fun op _ => op ≠ .phi ∧ op.isError = false) (hstate : g.IsState e.previous)
    (hlt : e.previous.index < id.index) (ha : g.attachMemory id e = .ok g') : g'.Built := by
  have henters := (attachMemory_spec ha).1
  have hstate' : ∀ y, g.IsState y → g'.IsState y :=
    fun y hy => henters.isState (hy.of_slots_eq rfl)
  have hkeeps : Keeps g g' := ⟨henters.keeps.node⟩
  refine ⟨h.wellFormed.attachMemory h.registered hid.has ha, h.registered.attachMemory ha, ?_⟩
  intro x e' hm
  rw [henters.memory, show ({ g with memory := g.memory.insert id e } : Graph).memory[x]? =
    (g.memory.insert id e)[x]? from rfl, getElem?_insert_id] at hm
  split at hm
  · rename_i hx
    cases hm
    rw [hx]
    exact ⟨hlt, hstate' _ hstate, hkeeps.at hid⟩
  · obtain ⟨hlt, hprevious, hx⟩ := h.memory hm
    exact ⟨hlt, hstate' _ hprevious, hkeeps.at hx⟩

theorem beside (h : g.Built) (origins : Nat) (dead : Option NodeId) :
    ({ g with origins := origins, deadNode := dead } : Graph).Built := by
  have hw := h.wellFormed
  refine h.of_memory_eq ?_ h.registered rfl (fun _ hy => hy.of_slots_eq rfl) ⟨(Keeps.refl g).node⟩
  exact ⟨⟨hw.dense.free, hw.dense.has_iff⟩, hw.shaped, hw.inputs, hw.control, hw.memory,
    hw.phiRegion, hw.roots⟩

end Built

end Graph

end SeaOfNodes
