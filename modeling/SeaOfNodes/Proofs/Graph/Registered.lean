import SeaOfNodes.Proofs.Graph.Replace
import SeaOfNodes.Proofs.Graph.Slots

/-!
Every edge is entered at the node it points to. So a replacement, which turns the edges that are
entered, leaves no edge to the node that it replaces.
-/
namespace SeaOfNodes

/-- Two edges of one kind; inputs are alike wherever they stand. -/
def Edge.Alike (a b : Edge) : Prop := a = b ∨ a.isValue = true ∧ b.isValue = true

theorem Edge.Alike.refl (a : Edge) : a.Alike a := .inl rfl

theorem Edge.Alike.symm {a b : Edge} (h : a.Alike b) : b.Alike a := by
  rcases h with h | ⟨ha, hb⟩
  · exact .inl h.symm
  · exact .inr ⟨hb, ha⟩

namespace Graph

variable {g g' : Graph} {id x y old new : NodeId} {edge : Edge} {node : Node} {us : List User}

def Refers (g : Graph) (x : NodeId) (edge : Edge) (y : NodeId) : Prop :=
  match edge with
  | .value _ => ∃ node, g.get? x = some node ∧ y ∈ node.inputs
  | .control => g.control[x]? = some y
  | .previous => ∃ e, g.memory[x]? = some e ∧ e.previous = y
  | .target => ∃ e, g.memory[x]? = some e ∧ e.target = some y

/-- Every edge is entered at the node it points to. -/
def Registered (g : Graph) : Prop :=
  ∀ x edge y, g.Refers x edge y → ∃ edge', edge'.Alike edge ∧ g.Entered y ⟨x, edge'⟩

theorem registered_empty : empty.Registered := by
  intro x edge y hr
  cases edge <;> simp [Refers, empty, get?] at hr

theorem Refers.alike (h : g.Refers x edge y) {edge' : Edge} (ha : edge.Alike edge') :
    g.Refers x edge' y := by
  rcases ha with rfl | ⟨hv, hv'⟩
  · exact h
  · cases edge <;> simp only [Edge.isValue, Bool.false_eq_true] at hv
    cases edge' <;> simp only [Edge.isValue, Bool.false_eq_true] at hv'
    exact h

theorem edgeHolds_iff :
    g.edgeHolds y ⟨x, edge⟩ = true ↔ g.isLive x = true ∧ g.Refers x edge y := by
  cases edge with
  | value position =>
    rw [edgeHolds_value_iff]
    unfold isLive
    constructor
    · rintro ⟨node, hn, hlive, hy⟩
      exact ⟨by simp [hn, hlive], node, hn, hy⟩
    · rintro ⟨hlive, node, hn, hy⟩
      exact ⟨node, hn, by simpa [hn] using hlive, hy⟩
  | control => exact edgeHolds_control_iff
  | previous => exact edgeHolds_previous_iff
  | target => exact edgeHolds_target_iff

theorem Registered.has (h : g.Registered) (edge : Edge) (hr : g.Refers x edge y) : g.Has y := by
  obtain ⟨-, -, node, hn, -⟩ := h x edge y hr
  exact ⟨node, hn⟩

/-- The users of a node are the nodes that refer to it and that no other stands for. -/
theorem Registered.exists_user (h : g.Registered) (hus : g.users y = .ok us)
    (hlive : g.isLive x = true) (hr : g.Refers x edge y) :
    ∃ edge', edge'.Alike edge ∧ (⟨x, edge'⟩ : User) ∈ us := by
  obtain ⟨edge', ha, hentered⟩ := h x edge y hr
  exact ⟨edge', ha, (mem_users hus).2 ⟨hentered, edgeHolds_iff.2 ⟨hlive, hr.alike ha.symm⟩⟩⟩

theorem Registered.usesByValue_iff (h : g.Registered) (hus : g.users y = .ok us)
    (hn : g.get? x = some node) :
    usesByValue us x = true ↔ node.replaced = false ∧ y ∈ node.inputs := by
  constructor
  · intro huses
    obtain ⟨⟨z, edge⟩, hu, hz⟩ := List.any_eq_true.1 huses
    obtain ⟨rfl, hvalue⟩ : z = x ∧ edge.isValue = true := by simpa using hz
    obtain ⟨hlive, hrefers⟩ := edgeHolds_iff.1 ((mem_users hus).1 hu).2
    obtain ⟨other, ho, hmark⟩ := isLive_iff.1 hlive
    cases hn.symm.trans ho
    obtain ⟨other, ho, hmem⟩ : g.Refers z (.value 0) y := hrefers.alike (.inr ⟨hvalue, rfl⟩)
    cases hn.symm.trans ho
    exact ⟨hmark, hmem⟩
  · rintro ⟨hmark, hmem⟩
    have hrefers : g.Refers x (.value 0) y := ⟨node, hn, hmem⟩
    obtain ⟨edge, ha, hu⟩ := h.exists_user hus (isLive_iff.2 ⟨node, hn, hmark⟩) hrefers
    have hvalue : edge.isValue = true := ha.elim (fun h => h ▸ rfl) And.left
    exact List.any_eq_true.2 ⟨_, hu, by simp [hvalue]⟩

theorem Registered.inputs_turnOf (h : g.Registered) (hus : g.users old = .ok us)
    (hn : g.get? x = some node) (hmark : node.replaced = false) : (g.turnOf old new).inputs us x node =
      node.inputs.map fun y => if y = old then (g.turnOf old new).standIn node else y := by
  unfold Turn.inputs
  split
  · rfl
  · rename_i huses
    have hnot : old ∉ node.inputs := fun hmem => huses ((h.usesByValue_iff hus hn).2 ⟨hmark, hmem⟩)
    exact congrArg Node.inputs (Node.rename_of_not_mem hnot _).symm

theorem Registered.of_change (h : g.Registered) (hentered : ∀ y u, g.Entered y u → g'.Entered y u)
    (hnew : ∀ x edge y, g'.Refers x edge y →
      g.Refers x edge y ∨ ∃ edge', edge'.Alike edge ∧ g'.Entered y ⟨x, edge'⟩) : g'.Registered := by
  intro x edge y hr
  rcases hnew x edge y hr with hr | hr
  · obtain ⟨edge', ha, he⟩ := h x edge y hr
    exact ⟨edge', ha, hentered y _ he⟩
  · exact hr

theorem Enters.refers (h : Enters g g') : g'.Refers x edge y ↔ g.Refers x edge y := by
  cases edge with
  | value position =>
    constructor
    · rintro ⟨node, hn, hy⟩
      obtain ⟨us, hus⟩ := h.node_back hn
      exact ⟨_, hus, hy⟩
    · rintro ⟨node, hn, hy⟩
      obtain ⟨us, hus, -⟩ := h.node hn
      exact ⟨_, hus, hy⟩
  | control => simp only [Refers, h.control]
  | previous | target => simp only [Refers, h.memory]

namespace Registered

section

variable (h : g.Registered)
include h

theorem create {op : Op} {ty : Ty} {inputs : List NodeId} (hf : g.FreeSlots)
    (hc : g.create op ty inputs = .ok (id, g')) : g'.Registered := by
  obtain ⟨g1, ha, henters, hin⟩ := create_allocates hf hc
  refine h.of_change ?_ ?_
  · rintro y u ⟨node, hn, hu⟩
    have hy : y ≠ id := by
      rintro rfl
      exact ha.new ⟨node, hn⟩
    exact henters.entered ⟨node, by rw [ha.get?, if_neg hy]; exact hn, hu⟩
  · intro x edge y hr
    rw [henters.refers] at hr
    have hsame : g1.control = g.control ∧ g1.memory = g.memory := by rw [ha.frame]; exact ⟨rfl, rfl⟩
    cases edge with
    | value position =>
      obtain ⟨node, hn, hy⟩ := hr
      rw [ha.get?] at hn
      split at hn
      · rename_i hx
        cases hn
        obtain ⟨p, hp⟩ := hin y hy
        exact .inr ⟨.value p, .inr ⟨rfl, rfl⟩, hx ▸ hp⟩
      · exact .inl ⟨node, hn, hy⟩
    | control =>
      simp only [Refers, hsame.1] at hr
      exact .inl hr
    | previous | target =>
      simp only [Refers, hsame.2] at hr
      exact .inl hr

theorem attachControl (ha : g.attachControl id x = .ok g') : g'.Registered := by
  obtain ⟨henters, hentered⟩ := attachControl_spec ha
  refine h.of_change (fun y u hu => henters.entered hu) ?_
  intro z edge y hr
  rw [henters.refers] at hr
  cases edge with
  | value position => exact .inl hr
  | control =>
    simp only [Refers] at hr
    rw [getElem?_insert_id] at hr
    split at hr
    · rename_i hz
      cases hr
      exact .inr ⟨.control, .refl _, hz ▸ hentered⟩
    · exact .inl hr
  | previous => exact .inl hr
  | target => exact .inl hr

theorem setMemory {e : MemoryEffect}
    (henters : Enters { g with memory := g.memory.insert id e } g')
    (hprevious : g'.Entered e.previous ⟨id, .previous⟩)
    (htarget : ∀ t, e.target = some t → g'.Entered t ⟨id, .target⟩) : g'.Registered := by
  refine h.of_change (fun y u hu => henters.entered hu) ?_
  intro z edge y hr
  rw [henters.refers] at hr
  cases edge with
  | value position => exact .inl hr
  | control => exact .inl hr
  | previous =>
    obtain ⟨e', he', rfl⟩ := hr
    rw [getElem?_insert_id] at he'
    split at he'
    · rename_i hz
      cases he'
      exact .inr ⟨.previous, .refl _, hz ▸ hprevious⟩
    · exact .inl ⟨e', he', rfl⟩
  | target =>
    obtain ⟨e', he', ht⟩ := hr
    rw [getElem?_insert_id] at he'
    split at he'
    · rename_i hz
      cases he'
      exact .inr ⟨.target, .refl _, hz ▸ htarget y ht⟩
    · exact .inl ⟨e', he', ht⟩

theorem attachMemory {e : MemoryEffect} (ha : g.attachMemory id e = .ok g') : g'.Registered := by
  obtain ⟨henters, hprevious, htarget⟩ := attachMemory_spec ha
  exact h.setMemory henters hprevious htarget

theorem entered_target {e : MemoryEffect} (he : g.memory[id]? = some e)
    {m : Std.ExtTreeMap NodeId MemoryEffect} (henters : Enters { g with memory := m } g') :
    ∀ t, e.target = some t → g'.Entered t ⟨id, .target⟩ := by
  intro t ht
  obtain ⟨edge', ha, hentered⟩ := h id .target t ⟨e, he, ht⟩
  obtain rfl : edge' = .target := by simpa [Edge.Alike, Edge.isValue] using ha
  exact henters.entered hentered

theorem setPrevious (hs : g.setPrevious id x = .ok g') : g'.Registered := by
  obtain ⟨e, he, henters, hprevious⟩ := setPrevious_spec hs
  have htarget := h.entered_target he henters
  exact h.setMemory henters hprevious htarget

theorem setTarget (hs : g.setTarget id x = .ok g') : g'.Registered := by
  obtain ⟨htarget, ⟨e, he, henters⟩ | ⟨-, henters⟩⟩ := setTarget_spec hs
  · obtain ⟨edge', ha, hentered⟩ := h id .previous e.previous ⟨e, he, rfl⟩
    obtain rfl : edge' = .previous := by simpa [Edge.Alike, Edge.isValue] using ha
    refine h.setMemory henters (henters.entered hentered) ?_
    rintro t ⟨⟩
    exact htarget
  · exact h.of_change (fun y u hu => henters.entered hu) fun z edge y hr =>
      .inl (henters.refers.1 hr)

theorem mapInputs {f : Node → Node} (hn : g.get? id = some node)
    (hf : ∀ node, node.users ⊆ (f node).users) (henters : Enters (g.mapNode id f) g')
    (hin : ∀ y ∈ (f node).inputs, y ∈ node.inputs ∨ ∃ p, g'.Entered y ⟨id, .value p⟩) :
    g'.Registered := by
  refine h.of_change ?_ ?_
  · rintro y u ⟨other, ho, hu⟩
    refine henters.entered ?_
    by_cases hy : y = id
    · exact ⟨f other, by rw [get?_mapNode f ⟨node, hn⟩, if_pos hy, ho]; rfl, hf other hu⟩
    · exact ⟨other, by rw [get?_mapNode f ⟨node, hn⟩, if_neg hy, ho], hu⟩
  · intro z edge y hr
    rw [henters.refers] at hr
    cases edge with
    | value position =>
      obtain ⟨other, ho, hy⟩ := hr
      rw [get?_mapNode f ⟨node, hn⟩] at ho
      split at ho
      · rename_i hz
        rw [hz, hn] at ho
        cases ho
        rcases hin y hy with hy | ⟨p, hp⟩
        · exact .inl ⟨node, hz ▸ hn, hy⟩
        · exact .inr ⟨.value p, .inr ⟨rfl, rfl⟩, hz ▸ hp⟩
      · exact .inl ⟨other, ho, hy⟩
    | control => exact .inl hr
    | previous => exact .inl hr
    | target => exact .inl hr

theorem appendInput (ha : g.appendInput id x = .ok g') : g'.Registered := by
  obtain ⟨node, hn, henters, hin⟩ := appendInput_spec ha
  refine h.mapInputs (f := Node.append x) hn (fun _ => List.Subset.refl _) henters ?_
  intro y hy
  rcases List.mem_append.1 hy with hy | hy
  · exact .inl hy
  · obtain rfl := List.mem_singleton.1 hy
    exact hin

theorem replaceInput (hr : g.replaceInput id old new = .ok g') : g'.Registered := by
  obtain ⟨node, hn, ⟨-, rfl⟩ | ⟨-, henters, hentered⟩⟩ := replaceInput_spec hr
  · exact h
  · refine h.mapInputs (f := Node.rename old new) hn (fun _ => List.Subset.refl _) henters ?_
    intro y hy
    obtain ⟨z, hz, rfl⟩ := List.mem_map.1 hy
    split
    · exact .inr hentered
    · exact .inl hz

theorem redirect {before : Option NodeId} {u : User} (hr : g.redirect old new before u = .ok g') :
    g'.Registered := by
  obtain ⟨z, e⟩ := u
  cases e with
  | value position =>
    obtain ⟨node, -, hr⟩ := bind_eq_ok_iff.1 hr
    split at hr
    · exact h.replaceInput hr
    · exact h.replaceInput hr
  | control => exact h.attachControl hr
  | previous => exact h.setPrevious hr
  | target => exact h.setTarget hr

theorem redirectAll {before : Option NodeId} (hr : redirectAll old new before us g = .ok g') :
    g'.Registered := by
  induction us generalizing g with
  | nil =>
    cases hr
    exact h
  | cons u us ih =>
    obtain ⟨g1, h1, hr⟩ := bind_eq_ok_iff.1 hr
    refine ih ?_ hr
    have := h.redirect h1
    split
    · exact this
    · exact this

theorem replace (hr : g.replace old new = .ok g') : g'.Registered := by
  unfold Graph.replace at hr
  split at hr
  · cases hr
    exact h
  · obtain ⟨us, -, hr⟩ := bind_eq_ok_iff.1 hr
    obtain ⟨g1, h1, hr⟩ := bind_eq_ok_iff.1 hr
    obtain ⟨hold, rfl⟩ := update_eq_ok_iff.1 hr
    have hreg := h.redirectAll h1
    obtain ⟨node, hn⟩ := hold
    refine mapInputs (f := fun node => { node with replaced := true }) ?_ hn
      (fun _ => List.Subset.refl _) (.refl _) fun y hy => .inl hy
    split
    · exact hreg
    · exact hreg

end

end Registered

end Graph

end SeaOfNodes
