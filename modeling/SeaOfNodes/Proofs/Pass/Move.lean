import SeaOfNodes.Proofs.Graph.Made
import SeaOfNodes.Proofs.Pass.Reorder
import SeaOfNodes.Proofs.Pass.Valuation

/-!
What a move of an access up the chain changes: the access and the effect before it change places,
and the nodes that took the state behind the access take the state behind that effect.
-/
namespace SeaOfNodes

namespace Graph

variable {g g' : Graph} {id x y : NodeId} {node : Node} {e b : MemoryEffect} {us : List User}
  {new old p : NodeId}

/-! ### What a move does -/

/-- The effect before a node after `id` has moved past `previous`, which followed `before`. -/
def movedBefore (id previous before : NodeId) (us : List User) (x : NodeId) (e : MemoryEffect) :
    MemoryEffect :=
  { e with
    previous := if x = previous then id else if x = id then before
      else if ⟨x, .previous⟩ ∈ us then previous else e.previous }

structure Moved (id : NodeId) (e b : MemoryEffect) (us : List User) (g g' : Graph) : Prop where
  node : ∀ {x node}, g.get? x = some node → ∃ users, g'.get? x = some { node with
    inputs := Turn.inputs ⟨id, e.previous, e.previous⟩ (us.filter g.flows) x node, users := users }
  back : ∀ {x}, g'.Has x → g.Has x
  control : g'.control = g.control
  memory : ∀ x, g'.memory[x]? = g.memory[x]?.map (movedBefore id e.previous b.previous us x)

theorem setPrevious_memory (h : g.setPrevious id p = .ok g') (x : NodeId) :
    g'.memory[x]? = g.memory[x]?.map fun e => { e with previous := if x = id then p else e.previous } := by
  obtain ⟨e, he, henters, -⟩ := setPrevious_spec h
  rw [henters.memory]
  rw [getElem?_insert_id]
  by_cases hx : x = id
  · simp [hx, he]
  · cases g.memory[x]? <;> simp [hx]

theorem swap_moved (hus : g.users id = .ok us)
    (hswap : g.swap id e.previous b.previous = .ok g') : Moved id e b us g g' := by
  obtain ⟨g1, g2, hsteps⟩ := swap_steps hus hswap
  obtain ⟨_, _, henters2, -⟩ := setPrevious_spec hsteps.first
  obtain ⟨_, _, henters3, -⟩ := setPrevious_spec hsteps.second
  have hedges : ∀ x, (⟨x, .control⟩ : User) ∉ us.filter g.flows ∧
      (⟨x, .target⟩ : User) ∉ us.filter g.flows ∧
      ((⟨x, .previous⟩ : User) ∈ us.filter g.flows ↔ (⟨x, .previous⟩ : User) ∈ us) := by
    simp [flows]
  refine ⟨?_, ?_, ?_, ?_⟩
  · intro x node hn
    obtain ⟨us1, hus1, -⟩ := hsteps.turned.node hn
    obtain ⟨us2, hus2, -⟩ := henters2.node hus1
    obtain ⟨us3, hus3, -⟩ := henters3.node hus2
    exact ⟨us3, hus3⟩
  · intro x hx
    exact hsteps.turned.back (henters2.has.1 (henters3.has.1 hx))
  · have hcontrol : g1.control = g.control := by
      refine Std.ExtTreeMap.ext_getElem? fun x => ?_
      rw [hsteps.turned.control, Turn.predecessor, if_neg (hedges x).1]
    exact henters3.control.trans (henters2.control.trans hcontrol)
  · intro x
    rw [setPrevious_memory hsteps.second, setPrevious_memory hsteps.first, hsteps.turned.memory]
    cases g.memory[x]? with
    | none => rfl
    | some effect =>
      simp only [Option.map_some, Turn.effect, movedBefore, (hedges x).2.1, (hedges x).2.2, if_false]

/-! ### Operations -/

theorem has_setPrevious (h : g.setPrevious id p = .ok g') : g'.Has x ↔ g.Has x := by
  obtain ⟨_, _, henters, -⟩ := setPrevious_spec h
  exact henters.has

theorem has_replaceInput (h : g.replaceInput id old new = .ok g') : g'.Has x ↔ g.Has x := by
  obtain ⟨node, hn, ⟨-, rfl⟩ | ⟨-, henters, -⟩⟩ := replaceInput_spec h
  · exact .rfl
  · exact henters.has.trans (has_mapNode _ ⟨node, hn⟩)

namespace Made

theorem setPrevious (h : Made g) (hp : g.Has p) (hs : g.setPrevious id p = .ok g') : Made g' := by
  obtain ⟨e, he, -⟩ := setPrevious_spec hs
  refine .step (.setPrevious id p) h ?_ hs
  intro x hx
  simp only [Operation.handles, List.mem_cons, List.not_mem_nil, or_false] at hx
  rcases hx with rfl | rfl
  · exact h.keeps.1.memory he
  · exact hp

theorem moveConsumers (h : Made g) (hold : g.Has old) (hnew : g.Has new)
    (hus : ∀ u ∈ us, g.Has u.node) (hr : moveConsumers old new us g = .ok g') : Made g' := by
  induction us generalizing g with
  | nil =>
    cases hr
    exact h
  | cons u us ih =>
    have hrest : ∀ g1, Made g1 → (∀ x, g1.Has x ↔ g.Has x) →
        moveConsumers old new us g1 = .ok g' → Made g' := by
      intro g1 hmade hhas hr
      exact ih hmade ((hhas _).2 hold) ((hhas _).2 hnew)
        (fun w hw => (hhas _).2 (hus w (List.mem_cons_of_mem _ hw))) hr
    rw [moveConsumers] at hr
    split at hr
    · obtain ⟨g1, h1, hr⟩ := bind_eq_ok_iff.1 hr
      exact hrest g1 (h.setPrevious hnew h1) (fun x => has_setPrevious h1) hr
    · obtain ⟨g1, h1, hr⟩ := bind_eq_ok_iff.1 hr
      refine hrest g1 (.step (.replaceInput u.node old new) h ?_ h1) (fun x => has_replaceInput h1) hr
      intro x hx
      simp only [Operation.handles, List.mem_cons, List.not_mem_nil, or_false] at hx
      rcases hx with rfl | rfl | rfl
      · exact hus u List.mem_cons_self
      · exact hold
      · exact hnew

theorem swap {previous before : NodeId} (h : Made g) (hid : g.Has id) (hprevious : g.Has previous)
    (hbefore : g.Has before) (hs : g.swap id previous before = .ok g') : Made g' := by
  obtain ⟨us, hus⟩ := users_ok hid
  obtain ⟨g1, g2, hsteps⟩ := swap_steps hus hs
  have hnodes : ∀ u ∈ us.filter g.flows, g.Has u.node :=
    fun u hu => users_has hus u (List.mem_filter.1 hu).1
  have hmade1 : Made g1 := h.moveConsumers hid hprevious hnodes hsteps.consumers
  have hmade2 : Made g2 := hmade1.setPrevious (hsteps.turned.has.2 hbefore) hsteps.first
  exact hmade2.setPrevious ((has_setPrevious hsteps.first).2 (hsteps.turned.has.2 hid)) hsteps.second

end Made

/-! ### What nodes take after a move -/

/-- Where a state is taken from after `id` has moved past `previous`. -/
def turned (id previous y : NodeId) : NodeId := if y = id then previous else y

theorem mem_users_previous_iff (hreg : g.Registered) (hus : g.users id = .ok us) :
    ⟨x, .previous⟩ ∈ us ↔ g.isLive x = true ∧ g.before? x = some id := by
  constructor
  · intro hx
    obtain ⟨hlive, hx⟩ := edgeHolds_previous_iff.1 ((mem_users hus).1 hx).2
    exact ⟨hlive, before?_eq_some_iff.2 hx⟩
  · rintro ⟨hlive, hx⟩
    obtain ⟨edge, ha, hu⟩ :=
      hreg.exists_user hus hlive (show g.Refers x .previous id from before?_eq_some_iff.1 hx)
    obtain rfl : edge = .previous := by simpa [Edge.Alike, Edge.isValue] using ha
    exact hu

theorem usesByValue_iff (hreg : g.Registered) (hus : g.users id = .ok us)
    (hn : g.get? x = some node) : usesByValue (us.filter g.flows) x = true ↔
      node.replaced = false ∧ node.isMemoryPhi = true ∧ id ∈ node.inputs := by
  unfold usesByValue
  rw [List.any_eq_true]
  constructor
  · rintro ⟨⟨y, edge⟩, hu, hx⟩
    obtain ⟨hu, hflows⟩ := List.mem_filter.1 hu
    obtain ⟨hy, hvalue⟩ : y = x ∧ edge.isValue = true := by simpa using hx
    subst hy
    cases edge with
    | value position =>
      obtain ⟨other, ho, hlive, hid⟩ := edgeHolds_value_iff.1 ((mem_users hus).1 hu).2
      cases hn.symm.trans ho
      refine ⟨hlive, ?_, hid⟩
      simpa [flows, hn, Node.isMemoryPhi] using hflows
    | control => contradiction
    | previous => contradiction
    | target => contradiction
  · rintro ⟨hlive, hphi, hid⟩
    have hr : g.Refers x (.value 0) id := ⟨node, hn, hid⟩
    obtain ⟨edge, ha, hu⟩ := hreg.exists_user hus (isLive_iff.2 ⟨node, hn, hlive⟩) hr
    cases edge with
    | value position =>
      refine ⟨_, List.mem_filter.2 ⟨hu, ?_⟩, by simp [Edge.isValue]⟩
      simpa [flows, hn, Node.isMemoryPhi] using hphi
    | control | previous | target => simp [Edge.Alike, Edge.isValue] at ha

namespace Moved

variable (hm : Moved id e b us g g') (hreg : g.Registered) (hus : g.users id = .ok us)

include hm hreg hus in
theorem exists_node (hn : g.get? x = some node) : ∃ node', g'.get? x = some node' ∧
    node'.op = node.op ∧ node'.ty = node.ty ∧ node'.replaced = node.replaced ∧
    (node.isMemoryPhi = false → node'.inputs = node.inputs) ∧
    (node.replaced = false → node'.states = node.states.map (turned id e.previous)) := by
  obtain ⟨users, hget⟩ := hm.node hn
  refine ⟨_, hget, rfl, rfl, rfl, ?_, ?_⟩
  · intro hphi
    have hnot : usesByValue (us.filter g.flows) x = false := by
      rw [Bool.eq_false_iff, Ne, usesByValue_iff hreg hus hn]
      simp [hphi]
    simp [Turn.inputs, hnot]
  · intro hlive
    cases hphi : node.isMemoryPhi with
    | false =>
      have hnot : ¬ node.isMemoryPhi = true := by simp [hphi]
      have hold : node.states = [] := if_neg hnot
      rw [hold]
      exact if_neg hnot
    | true =>
      have hin : Turn.inputs ⟨id, e.previous, e.previous⟩ (us.filter g.flows) x node =
          node.inputs.map (turned id e.previous) := by
        unfold Turn.inputs
        split
        · simp [Node.rename, Turn.standIn, turned]
        · rename_i hnot
          rw [usesByValue_iff hreg hus hn] at hnot
          have hid : id ∉ node.inputs := fun hid => hnot ⟨hlive, hphi, hid⟩
          refine (List.map_id' node.inputs).symm.trans (List.map_congr_left ?_)
          intro y hy
          have : y ≠ id := by rintro rfl; exact hid hy
          simp [turned, this]
      have hold : node.states = node.inputs := if_pos hphi
      rw [hold, ← hin]
      exact if_pos hphi

include hm hreg hus in
theorem node_back {node' : Node} (hn' : g'.get? x = some node') : ∃ node, g.get? x = some node ∧
    node'.op = node.op ∧ node'.ty = node.ty ∧ node'.replaced = node.replaced ∧
    (node.isMemoryPhi = false → node'.inputs = node.inputs) ∧
    (node.replaced = false → node'.states = node.states.map (turned id e.previous)) := by
  obtain ⟨node, hn⟩ := hm.back ⟨node', hn'⟩
  obtain ⟨other, ho, hfacts⟩ := hm.exists_node hreg hus hn
  cases hn'.symm.trans ho
  exact ⟨node, hn, hfacts⟩

include hm hreg hus in
theorem isLive_eq (x : NodeId) : g'.isLive x = g.isLive x := by
  rw [Bool.eq_iff_iff, isLive_iff, isLive_iff]
  constructor
  · rintro ⟨node', hn', hlive⟩
    obtain ⟨node, hn, -, -, hmark, -⟩ := hm.node_back hreg hus hn'
    exact ⟨node, hn, hmark ▸ hlive⟩
  · rintro ⟨node, hn, hlive⟩
    obtain ⟨node', hn', -, -, hmark, -⟩ := hm.exists_node hreg hus hn
    exact ⟨node', hn', hmark.trans hlive⟩

include hm hreg hus in
theorem before?_of_ne (hlive : g.isLive x = true) (hid : x ≠ id) (hprevious : x ≠ e.previous) :
    g'.before? x = (g.before? x).map (turned id e.previous) := by
  have hx := mem_users_previous_iff (x := x) hreg hus
  unfold before? at hx ⊢
  rw [hm.memory]
  cases he' : g.memory[x]? with
  | none => rfl
  | some effect => simp_all [movedBefore, turned]

include hm in
theorem before?_id (he : g.memory[id]? = some e) (hne : id ≠ e.previous) :
    g'.before? id = some b.previous := by
  simp [before?, hm.memory, he, movedBefore, hne]

include hm in
theorem before?_previous (hb : g.memory[e.previous]? = some b) : g'.before? e.previous = some id := by
  simp [before?, hm.memory, hb, movedBefore]

include hm hreg hus in
theorem takes_of_ne (hlive : g.isLive x = true) (hid : x ≠ id) (hprevious : x ≠ e.previous) :
    g'.takes x = (g.takes x).map (turned id e.previous) := by
  obtain ⟨node, hn, hmark⟩ := isLive_iff.1 hlive
  obtain ⟨node', hn', -, -, -, -, hstates⟩ := hm.exists_node hreg hus hn
  unfold takes
  rw [hm.before?_of_ne hreg hus hlive hid hprevious, hn, hn']
  simp only [Option.elim_some, hstates hmark]
  cases g.before? x <;> rfl

include hm in
theorem before?_eq (hus : g.users id = .ok us) (he : g.memory[id]? = some e)
    (hb : g.memory[e.previous]? = some b) (x : NodeId) : g'.before? x =
      if x = e.previous then some id else if x = id then some b.previous
      else if ⟨x, .previous⟩ ∈ us then some e.previous else g.before? x := by
  have hmem : (⟨x, .previous⟩ : User) ∈ us → ∃ effect, g.memory[x]? = some effect := by
    intro hx
    obtain ⟨-, effect, heffect, -⟩ := edgeHolds_previous_iff.1 ((mem_users hus).1 hx).2
    exact ⟨effect, heffect⟩
  unfold before?
  rw [hm.memory]
  by_cases hprevious : x = e.previous
  · simp [hprevious, hb, movedBefore]
  by_cases hid : x = id
  · simp [hid ▸ hprevious, hid, he, movedBefore]
  by_cases hx : (⟨x, .previous⟩ : User) ∈ us
  · obtain ⟨effect, heffect⟩ := hmem hx
    simp [hprevious, hid, hx, heffect, movedBefore]
  · cases g.memory[x]? <;> simp [hprevious, hid, hx, movedBefore]

include hm hreg hus in
theorem at_iff {P : Op → Ty → Prop} : g'.At x P ↔ g.At x P := by
  constructor
  · rintro ⟨node', hn', hp⟩
    obtain ⟨node, hn, hop, hty, -⟩ := hm.node_back hreg hus hn'
    exact ⟨node, hn, by rw [← hop, ← hty]; exact hp⟩
  · rintro ⟨node, hn, hp⟩
    obtain ⟨node', hn', hop, hty, -⟩ := hm.exists_node hreg hus hn
    exact ⟨node', hn', by rw [hop, hty]; exact hp⟩

include hm hreg hus in
theorem types_eq (y : NodeId) : (g'.get? y).map Node.ty = (g.get? y).map Node.ty := by
  cases hn : g.get? y with
  | none =>
    cases hn' : g'.get? y with
    | none => rfl
    | some node' =>
      obtain ⟨node, hn, -⟩ := hm.node_back hreg hus hn'
      simp_all
  | some node =>
    obtain ⟨node', hn', -, hty, -⟩ := hm.exists_node hreg hus hn
    simp [hn', hty]

end Moved

theorem isMemoryPhi_of_isChained (h : node.op.isChained = true) : node.isMemoryPhi = false := by
  unfold Node.isMemoryPhi
  cases hop : node.op <;> simp_all [Op.isChained]

theorem isChained_of_isMemoryAccess {op : Op} (h : op.isMemoryAccess = true) :
    op.isChained = true := by
  cases op <;> simp_all [Op.isMemoryAccess, Op.isChained]

theorem states_of_isChained (h : node.op.isChained = true) : node.states = [] :=
  if_neg (by simp [isMemoryPhi_of_isChained h])

theorem takes_of_isChained (hn : g.get? x = some node) (h : node.op.isChained = true) :
    g.takes x = (g.before? x).toList := by
  unfold takes
  rw [hn, Option.elim_some, states_of_isChained h, List.append_nil]

end Graph

end SeaOfNodes
