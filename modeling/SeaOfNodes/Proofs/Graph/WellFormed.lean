import SeaOfNodes.Proofs.Graph.Registered
import SeaOfNodes.Proofs.Outcome

/-!
Graphs in which every edge points to a node and every node has the inputs that its operation
needs. On such graphs no operation meets a stale handle.
-/
namespace SeaOfNodes

/-- Whether a node has the inputs that its operation needs. -/
def Node.Shaped (node : Node) : Prop :=
  match node.op with
  | .binary _ | .compare _ | .store _ => 2 ≤ node.inputs.length
  | .unary _ | .projection _ | .load _ | .addressOf _ | .cast | .branch _ | .phi =>
    1 ≤ node.inputs.length
  | .build => node.ty.members.length ≤ node.inputs.length
  | _ => True

namespace Graph

variable {g g' : Graph} {id x : NodeId} {node : Node} {F : Fault → Prop} {P : Op → Ty → Prop}
  {e : MemoryEffect} {f : Node → Node} {new old : NodeId} {us : List User}

/-- The operation and the type of a node, which never change. -/
def At (g : Graph) (id : NodeId) (P : Op → Ty → Prop) : Prop :=
  ∃ node, g.get? id = some node ∧ P node.op node.ty

instance {g : Graph} {id : NodeId} {P : Op → Ty → Prop} [∀ op ty, Decidable (P op ty)] :
    Decidable (g.At id P) :=
  match h : g.get? id with
  | some node => decidable_of_iff (P node.op node.ty) (by simp [At, h])
  | none => isFalse (by simp [At, h])

/-- The handle of a phi. -/
def IsPhi (g : Graph) (id : NodeId) : Prop := g.At id fun op _ => op = .phi

theorem At.has (h : g.At id P) : g.Has id := by
  obtain ⟨node, hn, -⟩ := h
  exact ⟨node, hn⟩

theorem At.mono {Q : Op → Ty → Prop} (h : g.At id P) (hPQ : ∀ op ty, P op ty → Q op ty) :
    g.At id Q := by
  obtain ⟨node, hn, hp⟩ := h
  exact ⟨node, hn, hPQ _ _ hp⟩

/-- Every edge points to a node, and every node has the inputs that it needs. -/
structure WellFormed (g : Graph) : Prop where
  dense : g.Dense
  shaped : ∀ {id node}, g.get? id = some node → node.Shaped
  inputs : ∀ {id node x}, g.get? id = some node → x ∈ node.inputs → g.Has x
  control : ∀ {id c}, g.control[id]? = some c → g.Has id ∧ g.Has c
  memory : ∀ {id e}, g.memory[id]? = some e →
    g.Has id ∧ g.Has e.previous ∧ ∀ t, e.target = some t → g.Has t
  phiRegion : ∀ {id r}, g.phiRegion[id]? = some r → g.IsPhi id ∧ g.Has r
  roots : ∀ {id}, id ∈ g.roots → g.Has id

theorem input_yields (h : g.WellFormed) (hn : g.get? id = some node) {position : Nat}
    (hposition : position < node.inputs.length) : Yields F (g.input id position) g.Has :=
  .of_eq (input_of_get? hn hposition) (h.inputs hn (List.getElem_mem hposition))

theorem ty_yields (hid : g.Has id) : Yields F (g.ty id) fun _ => True := by
  obtain ⟨node, hn⟩ := hid
  exact .of_eq (ty_of_get? hn) trivial

/-! ### Operations and types stay -/

/-- Every node of `g` is one of `g'`, with the same operation and type. -/
structure Keeps (g g' : Graph) : Prop where
  node : ∀ {id node}, g.get? id = some node → ∃ node', g'.get? id = some node' ∧
    node'.op = node.op ∧ node'.ty = node.ty

theorem Keeps.refl (g : Graph) : Keeps g g := ⟨fun h => ⟨_, h, rfl, rfl⟩⟩

theorem Keeps.trans {g'' : Graph} (h1 : Keeps g g') (h2 : Keeps g' g'') : Keeps g g'' := by
  constructor
  intro id node hn
  obtain ⟨node1, hn1, hop1, hty1⟩ := h1.node hn
  obtain ⟨node2, hn2, hop2, hty2⟩ := h2.node hn1
  exact ⟨node2, hn2, hop2.trans hop1, hty2.trans hty1⟩

theorem Keeps.has (h : Keeps g g') (hx : g.Has x) : g'.Has x := by
  obtain ⟨node, hn⟩ := hx
  obtain ⟨node', hn', -⟩ := h.node hn
  exact ⟨node', hn'⟩

theorem Keeps.at (h : Keeps g g') (hx : g.At x P) : g'.At x P := by
  obtain ⟨node, hn, hp⟩ := hx
  obtain ⟨node', hn', hop, hty⟩ := h.node hn
  exact ⟨node', hn', by rw [hop, hty]; exact hp⟩

theorem Enters.keeps (h : Enters g g') : Keeps g g' := by
  constructor
  intro id node hn
  obtain ⟨us, hus, -⟩ := h.node hn
  exact ⟨_, hus, rfl, rfl⟩

theorem EdgesTurned.keeps {t : Turn} (h : EdgesTurned t us g g') : Keeps g g' := by
  constructor
  intro id node hn
  obtain ⟨es, hes, -⟩ := h.node hn
  exact ⟨_, hes, rfl, rfl⟩

theorem Extends.keeps (h : Extends g g') : Keeps g g' := by
  constructor
  intro x node hn
  obtain ⟨us, hus⟩ := h.node hn
  exact ⟨_, hus, rfl, rfl⟩

theorem keeps_replace (hr : g.replace old new = .ok g') : Keeps g g' := by
  by_cases hne : old = new
  · rw [replace_self hr hne]
    exact .refl _
  · refine ⟨fun hn => ?_⟩
    obtain ⟨us, es, -, hes⟩ := get?_replace hr hne hn
    exact ⟨_, hes, rfl, rfl⟩

/-! ### What keeps a graph well-formed -/

/-- Edges are kept for nodes only. -/
structure Tabled (g : Graph) : Prop where
  control : ∀ {x y}, g.control[x]? = some y → g.Has x
  memory : ∀ {x e}, g.memory[x]? = some e → g.Has x
  phiRegion : ∀ {x y}, g.phiRegion[x]? = some y → g.Has x ∧ g.Has y

namespace Tabled

theorem turned {t : Turn} (h : g.Tabled) (ht : Turned t us g g') (hus : ∀ u ∈ us, g.Has u.node)
    (hnew : g.Has t.new) : g'.Tabled where
  control {x y} hc := by
    rw [ht.control] at hc
    unfold Turn.predecessor at hc
    split at hc
    · exact ht.has.2 (hus _ ‹_›)
    · exact ht.has.2 (h.control hc)
  memory {x e} hm := by
    rw [ht.memory] at hm
    obtain ⟨e', he', -⟩ := Option.map_eq_some_iff.1 hm
    exact ht.has.2 (h.memory he')
  phiRegion {x y} hr := by
    rw [ht.has, ht.has]
    rw [ht.phiRegion] at hr
    unfold Turn.region at hr
    split at hr
    · rename_i hold
      simp only [Bool.and_eq_true, beq_iff_eq] at hold
      cases hr
      exact ⟨(h.phiRegion hold.2).1, hnew⟩
    · exact h.phiRegion hr

theorem replace (h : g.Tabled) (hnew : g.Has new) (hr : g.replace old new = .ok g') : g'.Tabled := by
  by_cases hne : old = new
  · rwa [replace_self hr hne]
  obtain ⟨us, g1, hus, hturned, hold, rfl⟩ := replace_spec hr hne
  have h1 : g1.Tabled := h.turned hturned (users_has hus) hnew
  have hhas : ∀ {x}, g1.Has x → (({ g1 with roots := g.rootsAfter old new } : Graph).mapNode old
    Node.mark).Has x := (has_mapNode Node.mark hold).2
  exact ⟨fun hc => hhas (h1.control hc), fun hm => hhas (h1.memory hm),
    fun hr => (h1.phiRegion hr).imp hhas hhas⟩

end Tabled

namespace WellFormed

variable {inputs : List NodeId}

/-- Where edges are entered they point to nodes. -/
theorem of_registered (hd : g.Dense) (hreg : g.Registered) (htabled : g.Tabled)
    (hshaped : ∀ {id node}, g.get? id = some node → node.Shaped)
    (hphi : ∀ {id r}, g.phiRegion[id]? = some r → g.IsPhi id)
    (hroots : ∀ {id}, id ∈ g.roots → g.Has id) : g.WellFormed where
  dense := hd
  shaped := hshaped
  inputs hn hx := hreg.has (.value 0) ⟨_, hn, hx⟩
  control hc := ⟨htabled.control hc, hreg.has .control hc⟩
  memory hm := ⟨htabled.memory hm, hreg.has .previous ⟨_, hm, rfl⟩,
    fun _ ht => hreg.has .target ⟨_, hm, ht⟩⟩
  phiRegion hr := ⟨hphi hr, (htabled.phiRegion hr).2⟩
  roots := hroots

section

variable (h : g.WellFormed)
include h

theorem tabled : g.Tabled :=
  ⟨fun hc => (h.control hc).1, fun hm => (h.memory hm).1,
    fun hr => ⟨(h.phiRegion hr).1.has, (h.phiRegion hr).2⟩⟩

/-- A change that keeps all nodes, the edges of control, the regions of phis and the roots. -/
theorem change (hkeeps : Keeps g g') (hd : g'.Dense) (hreg : g'.Registered)
    (hshaped : ∀ {id node}, g'.get? id = some node → node.Shaped)
    (hcontrol : g'.control = g.control) (hmemory : ∀ {x e}, g'.memory[x]? = some e → g'.Has x)
    (hregion : g'.phiRegion = g.phiRegion) (hroots : g'.roots = g.roots) : g'.WellFormed := by
  refine of_registered hd hreg ⟨?_, hmemory, ?_⟩ hshaped ?_ ?_
  · rw [hcontrol]
    exact fun hc => hkeeps.has (h.control hc).1
  · rw [hregion]
    exact fun hr => ⟨hkeeps.has (h.phiRegion hr).1.has, hkeeps.has (h.phiRegion hr).2⟩
  · rw [hregion]
    exact fun hr => hkeeps.at (h.phiRegion hr).1
  · rw [hroots]
    exact fun hx => hkeeps.has (h.roots hx)

/-! ### Operations -/

variable (hreg : g.Registered)
include hreg

theorem create {op : Op} {ty : Ty}
    (hshaped : Node.Shaped { op, ty := (ty.stamp g.origins).1, inputs })
    (hc : g.create op ty inputs = .ok (id, g')) : g'.WellFormed := by
  have hjoins := Joins.create h.dense.freeSlots hc
  have henters := (create_spec h.dense hc).2.1
  refine h.change hjoins.extend.keeps (h.dense.create hc) (hreg.create h.dense.freeSlots hc) ?_
    henters.control ?_ henters.phiRegion henters.roots
  · intro x node hn
    rcases hjoins.cases hn with ⟨old, us, hold, rfl⟩ | ⟨rfl, us, rfl⟩
    · have hshaped := h.shaped hold
      exact hshaped
    · exact hshaped
  · rw [henters.memory]
    exact fun hm => hjoins.extend.keeps.has (h.memory hm).1

theorem attachMemory (hid : g.Has id) (ha : g.attachMemory id e = .ok g') : g'.WellFormed := by
  have henters := (attachMemory_spec ha).1
  have hkeeps : Keeps g g' := ⟨henters.keeps.node⟩
  have hd : ({ g with memory := g.memory.insert id e } : Graph).Dense :=
    ⟨h.dense.free, h.dense.has_iff⟩
  refine h.change hkeeps (hd.enters henters) (hreg.attachMemory ha) ?_ henters.control ?_
    henters.phiRegion henters.roots
  · intro x node hn
    obtain ⟨us, hus⟩ := henters.node_back hn
    have hold : Node.Shaped { node with users := us } := h.shaped hus
    exact hold
  · intro x e' hm
    rw [henters.memory, getElem?_insert_id] at hm
    split at hm
    · exact hkeeps.has (‹x = id› ▸ hid)
    · exact hkeeps.has (h.memory hm).1

theorem replace (hnew : g.Has new) (hr : g.replace old new = .ok g') : g'.WellFormed := by
  by_cases hne : old = new
  · rwa [replace_self hr hne]
  have hkeeps := keeps_replace hr
  refine of_registered (h.dense.replace hr) (hreg.replace hr) (h.tabled.replace hnew hr) ?_ ?_ ?_
  · intro x node' hn'
    obtain ⟨node, hn, -⟩ := get?_of_replace hr hne hn'
    obtain ⟨us, es, -, hes⟩ := get?_replace hr hne hn
    cases hn'.symm.trans hes
    have hshaped := h.shaped hn
    have hlength : ((g.turnOf old new).inputs us x node).length = node.inputs.length := by
      unfold Turn.inputs
      split <;> simp [Node.rename]
    unfold Node.Shaped at hshaped ⊢
    rw [hlength]
    exact hshaped
  · obtain ⟨us, g1, -, hturned, -, rfl⟩ := replace_spec hr hne
    intro x r hx
    have hx : g1.phiRegion[x]? = some r := hx
    rw [hturned.phiRegion] at hx
    cases hold : g.phiRegion[x]? with
    | none => simp [Turn.region, hold] at hx
    | some r => exact hkeeps.at (h.phiRegion hold).1
  · obtain ⟨us, g1, -, hturned, -, rfl⟩ := replace_spec hr hne
    intro x hx
    refine hkeeps.has ?_
    have hx : x ∈ g.rootsAfter old new := hx
    unfold rootsAfter at hx
    split at hx
    · rcases Std.ExtTreeSet.mem_insert.1 hx with hx | hx
      · exact Std.LawfulEqOrd.eq_of_compare hx ▸ hnew
      · exact h.roots (Std.ExtTreeSet.mem_of_mem_erase hx)
    · exact h.roots hx

end

theorem state_turnOf (h : g.WellFormed) (hnew : g.Has new) : g.Has (g.turnOf old new).state := by
  unfold turnOf
  cases hm : g.memory[old]? with
  | none => exact hnew
  | some e => exact (h.memory hm).2.1

theorem replace_ok (h : g.WellFormed) (hold : g.Has old) (hnew : g.Has new) :
    ∃ g', g.replace old new = .ok g' :=
  Graph.replace_ok hold hnew (h.state_turnOf hnew)

end WellFormed

end Graph

end SeaOfNodes
