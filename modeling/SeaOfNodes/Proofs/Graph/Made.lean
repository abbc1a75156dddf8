import SeaOfNodes.Proofs.Graph.Sweep

/-!
Graphs that are made by operations, one after the other, from the empty graph. Slots may be freed
and used again between them. Every operation keeps the places of edges to nodes that are there
(`Tidy`) and every edge entered (`Registered`); so the users of a node are exactly the nodes that
refer to it and that no other stands for.
-/
namespace SeaOfNodes

/-- The operations that change a graph. -/
inductive Operation where
  | create (op : Op) (ty : Ty) (inputs : List NodeId)
  | attachControl (id predecessor : NodeId)
  | attachMemory (id : NodeId) (effect : MemoryEffect)
  | setPrevious (id previous : NodeId)
  | appendInput (id input : NodeId)
  | replaceInput (id old new : NodeId)
  | replace (old new : NodeId)
  | eliminateDeadCode
  | setPhiRegion (phi region : NodeId)
  | markRoot (id : NodeId)
  | setType (id : NodeId) (ty : Ty)
  | deadControl

namespace Operation

def handles : Operation → List NodeId
  | .create _ _ inputs => inputs
  | .attachControl id predecessor => [id, predecessor]
  | .attachMemory id effect => id :: effect.previous :: effect.target.toList
  | .setPrevious id previous => [id, previous]
  | .appendInput id input => [id, input]
  | .replaceInput id old new => [id, old, new]
  | .replace old new => [old, new]
  | .setPhiRegion phi region => [phi, region]
  | .markRoot id | .setType id _ => [id]
  | .eliminateDeadCode | .deadControl => []

def run (g : Graph) : Operation → Except Fault Graph
  | .create op ty inputs => return (← g.create op ty inputs).2
  | .attachControl id predecessor => g.attachControl id predecessor
  | .attachMemory id effect => g.attachMemory id effect
  | .setPrevious id previous => g.setPrevious id previous
  | .appendInput id input => g.appendInput id input
  | .replaceInput id old new => g.replaceInput id old new
  | .replace old new => g.replace old new
  | .eliminateDeadCode => .ok g.eliminateDeadCode.2
  | .setPhiRegion phi region => .ok (g.setPhiRegion phi region)
  | .markRoot id => .ok (g.markRoot id)
  | .setType id ty => g.setType id ty
  | .deadControl => return (← g.deadControl).2

/-- Runs operations one after the other, while their handles are those of nodes. -/
def runAll : List Operation → Graph → Except Fault Graph
  | [], g => .ok g
  | o :: os, g => do
    match o.handles.find? fun x => (g.get? x).isNone with
    | some x => .error (.stale x)
    | none => runAll os (← o.run g)

end Operation

namespace Graph

variable {g g' : Graph} {id x y n t : NodeId} {node : Node} {us : List User} {inputs : List NodeId}
  {op : Op} {ty : Ty}

/-- The graphs that operations on handles of nodes make from the empty graph. -/
inductive Made : Graph → Prop
  | empty : Made Graph.empty
  | step {g g' : Graph} (o : Operation) : Made g → (∀ x ∈ o.handles, g.Has x) →
      o.run g = .ok g' → Made g'

theorem Made.runAll {os : List Operation} (h : Made g) (hrun : Operation.runAll os g = .ok g') :
    Made g' := by
  induction os generalizing g with
  | nil =>
    cases hrun
    exact h
  | cons o os ih =>
    rw [Operation.runAll] at hrun
    split at hrun
    · contradiction
    · rename_i hnone
      obtain ⟨g1, h1, hrun⟩ := bind_eq_ok_iff.1 hrun
      refine ih (.step o h ?_ h1) hrun
      intro x hx
      rw [has_iff_isSome]
      cases hget : g.get? x <;> simp_all

/-! ### Places of edges -/

/-- Free slots are empty, nodes are counted, and edges are kept for nodes only. -/
structure Tidy (g : Graph) : Prop extends Tabled g where
  free : g.FreeSlots
  size : g.size = g.ids.length

namespace Tidy

section

variable (h : g.Tidy)
include h

theorem change (hhas : ∀ x, g'.Has x ↔ g.Has x) (hfree : g'.free = g.free)
    (hslots : g'.slots.size = g.slots.size) (hsize : g'.size = g.size) (htabled : g'.Tabled) :
    g'.Tidy where
  toTabled := htabled
  free := h.free.of_has hfree hslots fun x hx => (hhas x).1 hx
  size := by
    have hcount : g'.ids.length = g.ids.length :=
      length_ids_of_has (nodup_ids g) fun x => (hhas x).trans mem_ids_iff.symm
    rw [hsize, h.size, hcount]

/-- What is beside the nodes and the tables does not matter. -/
theorem beside (roots : Std.ExtTreeSet NodeId) (dead : Option NodeId) (origins : Nat) :
    ({ g with roots := roots, deadNode := dead, origins := origins } : Graph).Tidy :=
  h.change (fun _ => .rfl) rfl rfl rfl ⟨h.control, h.memory, h.phiRegion⟩

theorem enters (he : Enters g g') : g'.Tidy := by
  refine h.change (fun _ => he.has) he.free he.size (by rw [he.frame]) ⟨?_, ?_, ?_⟩
  · rw [he.control]
    exact fun hc => he.has.2 (h.control hc)
  · rw [he.memory]
    exact fun hm => he.has.2 (h.memory hm)
  · rw [he.phiRegion]
    exact fun hr => (h.phiRegion hr).imp he.has.2 he.has.2

theorem setControl (hid : g.Has id) (c : NodeId) :
    ({ g with control := g.control.insert id c } : Graph).Tidy := by
  refine h.change (fun _ => .rfl) rfl rfl rfl ⟨?_, h.memory, h.phiRegion⟩
  intro x y hc
  rw [getElem?_insert_id] at hc
  split at hc
  · rename_i hx
    exact hx ▸ hid
  · exact h.control hc

theorem setMemory (hid : g.Has id) (e : MemoryEffect) :
    ({ g with memory := g.memory.insert id e } : Graph).Tidy := by
  refine h.change (fun _ => .rfl) rfl rfl rfl ⟨h.control, ?_, h.phiRegion⟩
  intro x e' hm
  rw [getElem?_insert_id] at hm
  split at hm
  · rename_i hx
    exact hx ▸ hid
  · exact h.memory hm

theorem setPhiRegion (hid : g.Has id) (hr : g.Has x) : (g.setPhiRegion id x).Tidy := by
  refine h.change (fun _ => .rfl) rfl rfl rfl ⟨h.control, h.memory, ?_⟩
  intro y z hy
  rw [show (g.setPhiRegion id x).phiRegion = g.phiRegion.insert id x from rfl,
    getElem?_insert_id] at hy
  split at hy
  · rename_i hyid
    cases hy
    exact ⟨hyid ▸ hid, hr⟩
  · exact h.phiRegion hy

theorem mapNode (hid : g.Has id) (f : Node → Node) : (g.mapNode id f).Tidy := by
  have hhas : ∀ {x}, g.Has x → (g.mapNode id f).Has x := (has_mapNode f hid).2
  exact h.change (fun _ => has_mapNode f hid) rfl (slots_size_mapNode f) rfl
    ⟨fun hc => hhas (h.control hc), fun hm => hhas (h.memory hm),
      fun hr => (h.phiRegion hr).imp hhas hhas⟩

theorem replace {old new : NodeId} (hnew : g.Has new) (hr : g.replace old new = .ok g') :
    g'.Tidy := by
  by_cases hne : old = new
  · rw [replace_self hr hne]
    exact h
  have htabled := h.toTabled.replace hnew hr
  have hsize := size_replace hr hne
  obtain ⟨us, g1, -, hturned, hold, rfl⟩ := replace_spec hr hne
  exact h.change (fun _ => (has_mapNode _ hold).trans hturned.has) hturned.free hsize
    (by rw [hturned.frame]; rfl) htabled

theorem allocated (ha : Allocates node g id g') : g'.Tidy := by
  have hold : ∀ {x}, g.Has x → g'.Has x := fun hx => ha.has.2 (.inr hx)
  refine ⟨⟨?_, ?_, ?_⟩, ha.free, ?_⟩
  · rw [ha.frame]
    exact fun hc => ha.frame ▸ hold (h.control hc)
  · rw [ha.frame]
    exact fun hm => ha.frame ▸ hold (h.memory hm)
  · rw [ha.frame]
    exact fun hr => ha.frame ▸ (h.phiRegion hr).imp hold hold
  · have hnot : id ∉ g.ids := fun hmem => ha.new (mem_ids_iff.1 hmem)
    have hcount : g'.ids.length = (id :: g.ids).length := by
      refine length_ids_of_has (List.nodup_cons.2 ⟨hnot, nodup_ids g⟩) fun x => ?_
      rw [ha.has, List.mem_cons, mem_ids_iff]
    rw [hcount, List.length_cons, ← h.size, ha.frame]

end

theorem reaches_of_not_mem (hx : g.Has x) (hnot : ¬ x ∈ g.deadIds) : g.Reaches x := by
  by_contra hreach
  exact hnot (mem_deadIds.2 ⟨hx, hreach⟩)

theorem eliminateDeadCode (h : g.Tidy) : g.eliminateDeadCode.2.Tidy := by
  have hwithout := without_swept g
  have hfree : g.swept.FreeSlots := by
    refine FreeSlots.foldl_remove ?_ _
    refine h.free.of_has rfl ?_ fun x hx => has_clearMarks.1 hx
    simp [clearMarks]
  refine ⟨⟨?_, ?_, ?_⟩, hfree.of_has rfl ?_ fun x hx => has_pruneUsers.1 hx, ?_⟩
  · intro x y hc
    have hc : g.swept.control[x]? = some y := hc
    rw [hwithout.control] at hc
    split at hc
    · contradiction
    · rename_i hnot
      exact has_eliminated.2 (reaches_of_not_mem (h.control hc) hnot)
  · intro x e hm
    have hm : g.swept.memory[x]? = some e := hm
    rw [hwithout.memory] at hm
    split at hm
    · contradiction
    · rename_i hnot
      exact has_eliminated.2 (reaches_of_not_mem (h.memory hm) hnot)
  · intro x y hr
    have hr : g.swept.phiRegion[x]? = some y := hr
    rw [hwithout.phiRegion] at hr
    split at hr
    · contradiction
    · rename_i hnot
      have hreach := reaches_of_not_mem (h.phiRegion hr).1 hnot
      have hregion : g.Points x y := .inr hr
      exact ⟨has_eliminated.2 hreach, has_eliminated.2 (.edge hreach hregion (h.phiRegion hr).2)⟩
  · simp [eliminateDeadCode_eq, pruneUsers]
  · have hsize := size_eliminated h.size
    have hcount := length_ids_eliminated (g := g)
    have := h.size
    omega

end Tidy

/-! ### Entries -/

namespace Registered

/-- A sweep drops no entry of an edge that is left: marks are taken away before entries are looked
at, so an edge of a node that another stood for counts as well. -/
theorem eliminateDeadCode (h : g.Registered) (htidy : g.Tidy) : g.eliminateDeadCode.2.Registered := by
  intro x edge y hr
  have hx : g.Reaches x := by
    refine has_eliminated.1 ?_
    cases edge with
    | value position =>
      obtain ⟨node, hn, -⟩ := hr
      exact ⟨node, hn⟩
    | control => exact htidy.eliminateDeadCode.control hr
    | previous | target =>
      obtain ⟨e, he, -⟩ := hr
      exact htidy.eliminateDeadCode.memory he
  rw [eliminateDeadCode_eq, refers_pruneUsers] at hr
  obtain ⟨edge', ha, node, hn, hu⟩ := h x edge y ((refers_swept hx).1 hr)
  have hy : g.Reaches y := .edge hx (.inl ⟨edge, (refers_swept hx).1 hr⟩) ⟨node, hn⟩
  have hlive : g.swept.isLive x = true := by
    obtain ⟨other, ho⟩ := hx.has
    exact isLive_iff.2 ⟨other.unmark, by rw [get?_swept hx, ho]; rfl, rfl⟩
  refine ⟨edge', ha, ?_⟩
  rw [eliminateDeadCode_eq, entered_pruneUsers]
  refine ⟨⟨node.unmark, by rw [get?_swept hy, hn]; rfl, hu⟩, ?_⟩
  exact edgeHolds_iff.2 ⟨hlive, hr.alike ha.symm⟩

end Registered

/-! ### Operations -/

theorem create_keeps (htidy : g.Tidy) (hreg : g.Registered)
    (h : g.create op ty inputs = .ok (id, g')) : g'.Tidy ∧ g'.Registered := by
  obtain ⟨g1, hallocates, henters, -⟩ := create_allocates htidy.free h
  exact ⟨((htidy.beside _ _ _).allocated hallocates).enters henters, hreg.create htidy.free h⟩

theorem deadControl_keeps (htidy : g.Tidy) (hreg : g.Registered)
    (h : g.deadControl = .ok (id, g')) : g'.Tidy ∧ g'.Registered := by
  rcases deadControl_cases h with ⟨-, -, rfl⟩ | ⟨g1, h1, rfl⟩
  · exact ⟨htidy, hreg⟩
  · obtain ⟨htidy1, hreg1⟩ := create_keeps htidy hreg h1
    exact ⟨htidy1.beside _ _ _, hreg1⟩

theorem run_keeps {o : Operation} (htidy : g.Tidy) (hreg : g.Registered)
    (hhas : ∀ x ∈ o.handles, g.Has x) (hrun : o.run g = .ok g') : g'.Tidy ∧ g'.Registered := by
  cases o with
  | create op ty inputs =>
    obtain ⟨⟨id, g1⟩, h1, hrun⟩ := bind_eq_ok_iff.1 hrun
    cases hrun
    exact create_keeps htidy hreg h1
  | attachControl id predecessor =>
    have hid : g.Has id := hhas id (by simp [Operation.handles])
    exact ⟨(htidy.setControl hid _).enters (attachControl_spec hrun).1, hreg.attachControl hrun⟩
  | attachMemory id effect =>
    have hid : g.Has id := hhas id (by simp [Operation.handles])
    exact ⟨(htidy.setMemory hid _).enters (attachMemory_spec hrun).1, hreg.attachMemory hrun⟩
  | setPrevious id previous =>
    obtain ⟨e, he, henters, -⟩ := setPrevious_spec hrun
    exact ⟨(htidy.setMemory (htidy.memory he) _).enters henters, hreg.setPrevious hrun⟩
  | appendInput id input =>
    obtain ⟨node, hn, henters, -⟩ := appendInput_spec hrun
    exact ⟨(htidy.mapNode ⟨node, hn⟩ _).enters henters, hreg.appendInput hrun⟩
  | replaceInput id old new =>
    refine ⟨?_, hreg.replaceInput hrun⟩
    obtain ⟨node, hn, ⟨-, rfl⟩ | ⟨-, henters, -⟩⟩ := replaceInput_spec hrun
    · exact htidy
    · exact (htidy.mapNode ⟨node, hn⟩ _).enters henters
  | replace old new =>
    have hnew : g.Has new := hhas new (by simp [Operation.handles])
    exact ⟨htidy.replace hnew hrun, hreg.replace hrun⟩
  | eliminateDeadCode =>
    cases hrun
    exact ⟨htidy.eliminateDeadCode, hreg.eliminateDeadCode htidy⟩
  | setPhiRegion phi region =>
    cases hrun
    have hphi : g.Has phi := hhas phi (by simp [Operation.handles])
    exact ⟨htidy.setPhiRegion hphi (hhas region (by simp [Operation.handles])), hreg⟩
  | markRoot id =>
    cases hrun
    exact ⟨htidy.beside _ _ _, hreg⟩
  | setType id ty =>
    obtain ⟨hid, rfl⟩ := update_eq_ok_iff.1 hrun
    obtain ⟨node, hn⟩ := hid
    have hreg' : ({ g with origins := (ty.stamp g.origins).2 } : Graph).Registered := hreg
    exact ⟨(htidy.beside _ _ _).mapNode ⟨node, hn⟩ _,
      hreg'.mapInputs (f := fun node => { node with ty := (ty.stamp g.origins).1 }) hn
        (fun _ => List.Subset.refl _) (.refl _) fun y hy => .inl hy⟩
  | deadControl =>
    obtain ⟨⟨id, g1⟩, h1, hrun⟩ := bind_eq_ok_iff.1 hrun
    cases hrun
    exact deadControl_keeps htidy hreg h1

theorem Made.keeps (h : Made g) : g.Tidy ∧ g.Registered := by
  induction h with
  | empty =>
    constructor
    · refine ⟨⟨?_, ?_, ?_⟩, .of_empty, rfl⟩ <;> simp [Graph.empty]
    · exact registered_empty
  | step o _ hhas hrun ih => exact run_keeps ih.1 ih.2 hhas hrun

/-- The users of a node are those nodes that refer to it, by each kind of edge. -/
theorem Made.mem_users_iff (h : Made g) (ht : g.Has t) (hn : g.isLive n = true) :
    ∃ us, g.users t = .ok us ∧
      ((∃ position, ⟨n, .value position⟩ ∈ us) ↔ ∃ node, g.get? n = some node ∧ t ∈ node.inputs) ∧
      (⟨n, .control⟩ ∈ us ↔ g.control[n]? = some t) ∧
      (⟨n, .previous⟩ ∈ us ↔ ∃ e, g.memory[n]? = some e ∧ e.previous = t) ∧
      (⟨n, .target⟩ ∈ us ↔ ∃ e, g.memory[n]? = some e ∧ e.target = some t) := by
  obtain ⟨us, hus⟩ := users_ok ht
  have hrefers : ∀ {edge}, ⟨n, edge⟩ ∈ us → g.Refers n edge t := by
    intro edge hu
    exact (edgeHolds_iff.1 ((mem_users hus).1 hu).2).2
  have huser : ∀ {edge}, g.Refers n edge t → ∃ edge', edge'.Alike edge ∧ ⟨n, edge'⟩ ∈ us :=
    fun hr => h.keeps.2.exists_user hus hn hr
  -- Edges but inputs have one entry.
  have hsame : ∀ {edge edge' : Edge}, edge.isValue = false → edge'.Alike edge → edge' = edge := by
    intro edge edge' hedge ha
    rcases ha with rfl | ⟨-, hvalue⟩
    · rfl
    · rw [hedge] at hvalue
      contradiction
  have hsingle : ∀ {edge : Edge}, edge.isValue = false → (⟨n, edge⟩ ∈ us ↔ g.Refers n edge t) := by
    intro edge hedge
    refine ⟨hrefers, ?_⟩
    intro hr
    obtain ⟨edge', ha, hu⟩ := huser hr
    exact hsame hedge ha ▸ hu
  refine ⟨us, hus, ⟨?_, ?_⟩, hsingle rfl, hsingle rfl, hsingle rfl⟩
  · rintro ⟨position, hu⟩
    exact hrefers hu
  · intro hr
    obtain ⟨edge', ha, hu⟩ := huser (show g.Refers n (.value 0) t from hr)
    cases edge' with
    | value position => exact ⟨position, hu⟩
    | control | previous | target => simp [Edge.Alike, Edge.isValue] at ha

/-- A constant is replaced and freed, and another one that takes its slot becomes an input of the
node that used it. -/
def reusedSlot : Except Fault Graph :=
  Operation.runAll [
    .create .start (.control true) [], .create .constant .void [],
    .create .build .void [⟨1, 0⟩, ⟨1, 0⟩], .attachControl ⟨2, 0⟩ ⟨0, 0⟩, .create .constant .void [],
    .replace ⟨1, 0⟩ ⟨3, 0⟩, .markRoot ⟨2, 0⟩, .eliminateDeadCode, .create .constant .void [],
    .appendInput ⟨2, 0⟩ ⟨1, 1⟩] .empty

theorem mem_users_reusedSlot : ∃ g us, reusedSlot = .ok g ∧ g.Has ⟨1, 1⟩ ∧
    g.isLive ⟨2, 0⟩ = true ∧ g.users ⟨1, 1⟩ = .ok us ∧
    ((∃ position, ⟨⟨2, 0⟩, .value position⟩ ∈ us) ↔
      ∃ node, g.get? ⟨2, 0⟩ = some node ∧ ⟨1, 1⟩ ∈ node.inputs) := by
  have hok : passes (fun g => (g.get? ⟨1, 1⟩).isSome && g.isLive ⟨2, 0⟩) reusedSlot = true := by
    decide +kernel
  obtain ⟨g, hg, hok⟩ := exists_ok_of_passes hok
  rw [Bool.and_eq_true, ← has_iff_isSome] at hok
  obtain ⟨us, hus, hvalue, -⟩ := (Made.empty.runAll hg).mem_users_iff hok.1 hok.2
  exact ⟨g, us, hg, hok.1, hok.2, hus, hvalue⟩

end Graph

end SeaOfNodes
