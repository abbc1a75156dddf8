import SeaOfNodes.Proofs.Graph.Later

/-!
The step in which a graph is built: a node is added with its edges.
-/
namespace SeaOfNodes

namespace Graph

variable {g g' g0 : Graph} {id x y old new : NodeId} {node : Node}

/-! ### New nodes -/

/-- A node is added to a graph that is built, and older nodes have lower indices. -/
structure Adds (g g' : Graph) (id : NodeId) (op : Op) (ty : Ty) (inputs : List NodeId) : Prop
    extends Joins g g' id op ty inputs where
  built : g'.Built
  older : ∀ {x}, g.Has x → x.index < id.index

namespace Adds

variable {op : Op} {ty : Ty} {inputs : List NodeId}

theorem create (hb : g.Built) (hshaped : Node.Shaped { op, ty := (ty.stamp g.origins).1, inputs })
    (hc : g.create op ty inputs = .ok (id, g')) : Adds g g' id op (ty.stamp g.origins).1 inputs := by
  have hd := hb.wellFormed.dense
  refine ⟨.create hd.freeSlots hc, hb.create hshaped hc, fun hx => ?_⟩
  rw [(create_spec hd hc).1]
  exact ((hd.has_iff _).1 hx).2

theorem attachMemory (h : Adds g g' id op ty inputs) {effect : MemoryEffect}
    (hop : op ≠ .phi ∧ op.isError = false) (hstate : g.IsState effect.previous) {g'' : Graph}
    (ha : g'.attachMemory id effect = .ok g'') : Adds g g'' id op ty inputs := by
  have henters := (attachMemory_spec ha).1
  obtain ⟨us, hn⟩ := h.node
  obtain ⟨vs, hvs, -⟩ := henters.node hn
  exact {
    extend := h.extend.attachMemory h.new ha
    built := h.built.attachMemory ⟨_, hn, hop⟩ (h.extend.isState hstate) (h.older hstate.has) ha
    new := h.new
    older := h.older
    only := fun hy => h.only (henters.has.1 hy)
    node := ⟨vs, hvs⟩ }

theorem isLive (h : Adds g g' id op ty inputs) : g'.isLive id = true := by
  obtain ⟨us, hn⟩ := h.node
  exact isLive_iff.2 ⟨_, hn, rfl⟩

end Adds

end Graph

end SeaOfNodes
