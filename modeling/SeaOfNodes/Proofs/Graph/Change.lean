import SeaOfNodes.Graph.Edge

/-!
What the operations on a graph change. An operation that sets an edge changes that edge and then
enters users; `Enters` says that nothing but entries of users was added, so that every property
that does not look at users has to be proved of the change alone.
-/
namespace SeaOfNodes

theorem bind_eq_ok_iff {ε α β : Type} {m : Except ε α} {f : α → Except ε β} {b : β} :
    (m >>= f) = .ok b ↔ ∃ a, m = .ok a ∧ f a = .ok b := by
  cases m <;> simp [bind, Except.bind]

theorem getElem?_insert_id {α : Type} (m : Std.ExtTreeMap NodeId α) (k x : NodeId) (v : α) :
    (m.insert k v)[x]? = if x = k then some v else m[x]? := by
  rw [Std.ExtTreeMap.getElem?_insert]
  by_cases h : x = k
  · simp [h]
  · have : ¬ k = x := fun he => h he.symm
    simp [h, this]

namespace Node

def append (input : NodeId) (node : Node) : Node := { node with inputs := node.inputs ++ [input] }

/-- The node with inputs that name `new` where they named `old`. -/
def rename (old new : NodeId) (node : Node) : Node :=
  { node with inputs := node.inputs.map fun x => if x = old then new else x }

/-- The node when another one stands for it. -/
def mark (node : Node) : Node := { node with replaced := true }

end Node

namespace Graph

variable {g g' g'' : Graph} {id x y : NodeId} {node : Node} {e : MemoryEffect}
  {inputs : List NodeId} {new old t : NodeId}

/-- Whether a handle names a node. -/
def Has (g : Graph) (id : NodeId) : Prop := ∃ node, g.get? id = some node

/-- The graph with the node of a handle changed. -/
def mapNode (g : Graph) (id : NodeId) (f : Node → Node) : Graph :=
  { g with slots := g.slots.modify id.index fun slot => { slot with node := slot.node.map f } }

theorem has_iff_isSome : g.Has id ↔ (g.get? id).isSome := by
  rw [Option.isSome_iff_exists]
  rfl

instance : Decidable (g.Has id) := decidable_of_iff _ has_iff_isSome.symm

theorem Has.node_eq (h : g.Has id) : ∃ node, g.node id = .ok node ∧ g.get? id = some node := by
  obtain ⟨node, hn⟩ := h
  exact ⟨node, by simp [Graph.node, hn], hn⟩

section

variable (h : g.get? id = some node)
include h

theorem node_of_get? : g.node id = .ok node := by
  simp [Graph.node, h]

theorem ty_of_get? : g.ty id = .ok node.ty := by
  simp [ty, h]

theorem op_of_get? : g.op id = .ok node.op := by
  simp [op, h]

theorem input_of_get? {n : Nat} (hn : n < node.inputs.length) :
    g.input id n = .ok node.inputs[n] := by
  unfold input
  rw [node_of_get? h]
  simp [Bind.bind, Except.bind, hn]

end

theorem node_eq_ok_iff : g.node id = .ok node ↔ g.get? id = some node := by
  unfold Graph.node
  cases g.get? id <;> simp

theorem ty_eq_ok_iff {t : Ty} : g.ty id = .ok t ↔ ∃ node, g.get? id = some node ∧ node.ty = t := by
  unfold ty
  cases g.get? id <;> simp

/-! ### One node -/

theorem get?_mapNode (f : Node → Node) (h : g.Has id) (x : NodeId) :
    (g.mapNode id f).get? x = if x = id then (g.get? x).map f else g.get? x := by
  obtain ⟨node, hn⟩ := h
  unfold get? at hn
  split at hn
  case h_2 => contradiction
  case h_1 slot hs =>
    by_cases hi : x.index = id.index
    · by_cases hg : slot.generation = id.generation
      · by_cases hxg : slot.generation = x.generation
        · have : x = id := by cases x; cases id; simp_all
          subst this
          simp [get?, mapNode, Array.getElem?_modify, hs, hg]
        · have hne : x ≠ id := by rintro rfl; exact hxg hg
          simp [get?, mapNode, Array.getElem?_modify, hi, hs, hxg]
      · simp [hg] at hn
    · have hne : x ≠ id := by rintro rfl; exact hi rfl
      have : id.index ≠ x.index := fun h => hi h.symm
      simp [get?, mapNode, Array.getElem?_modify, this, hne]

theorem update_eq (f : Node → Node) (h : g.Has id) : g.update id f = .ok (g.mapNode id f) := by
  obtain ⟨node, hn⟩ := h
  simp [update, hn, mapNode]

theorem update_eq_ok_iff {f : Node → Node} :
    g.update id f = .ok g' ↔ g.Has id ∧ g' = g.mapNode id f := by
  constructor
  · intro h
    have hid : g.Has id := by
      unfold update at h
      split at h
      · rename_i node hn
        exact ⟨node, hn⟩
      · contradiction
    rw [update_eq f hid] at h
    exact ⟨hid, (Except.ok.inj h).symm⟩
  · rintro ⟨hid, rfl⟩
    exact update_eq f hid

@[simp] theorem slots_size_mapNode (f : Node → Node) : (g.mapNode id f).slots.size = g.slots.size := by
  simp [mapNode]

@[simp] theorem has_mapNode (f : Node → Node) (h : g.Has id) : (g.mapNode id f).Has x ↔ g.Has x := by
  rw [has_iff_isSome, has_iff_isSome, get?_mapNode f h]
  split <;> simp

/-! ### Entries of users -/

structure Enters (g g' : Graph) : Prop where
  node : ∀ {id node}, g.get? id = some node →
    ∃ users, g'.get? id = some { node with users := users } ∧ node.users ⊆ users
  back : ∀ {id node}, g'.get? id = some node → g.Has id
  frame : g' = { g with slots := g'.slots }
  size : g'.slots.size = g.slots.size

namespace Enters

theorem refl (g : Graph) : Enters g g where
  node h := ⟨_, h, List.Subset.refl _⟩
  back h := ⟨_, h⟩
  frame := rfl
  size := rfl

theorem trans (h1 : Enters g g') (h2 : Enters g' g'') : Enters g g'' where
  node h := by
    obtain ⟨us, hus, hsub⟩ := h1.node h
    obtain ⟨vs, hvs, hsub'⟩ := h2.node hus
    exact ⟨vs, hvs, fun u hu => hsub' (hsub hu)⟩
  back h := by
    obtain ⟨node, hn⟩ := h2.back h
    exact h1.back hn
  frame := by
    have h := h2.frame
    rw [h1.frame] at h
    exact h
  size := h2.size.trans h1.size

section

variable (h : Enters g g')
include h

theorem control : g'.control = g.control := by rw [h.frame]

theorem memory : g'.memory = g.memory := by rw [h.frame]

theorem phiRegion : g'.phiRegion = g.phiRegion := by rw [h.frame]

theorem roots : g'.roots = g.roots := by rw [h.frame]

theorem deadNode : g'.deadNode = g.deadNode := by rw [h.frame]

theorem free : g'.free = g.free := by rw [h.frame]

theorem has : g'.Has x ↔ g.Has x := by
  constructor
  · rintro ⟨node, hn⟩
    exact h.back hn
  · rintro ⟨node, hn⟩
    obtain ⟨us, hus, -⟩ := h.node hn
    exact ⟨_, hus⟩

theorem node_back (hn : g'.get? id = some node) :
    ∃ users, g.get? id = some { node with users := users } := by
  obtain ⟨old, ho⟩ := h.back hn
  obtain ⟨us, hus, -⟩ := h.node ho
  rw [hn] at hus
  refine ⟨old.users, ?_⟩
  rw [ho, Option.some.inj hus]

end

end Enters

/-- Whether `u` is among the entries of users at `x`. -/
def Entered (g : Graph) (x : NodeId) (u : User) : Prop := ∃ node, g.get? x = some node ∧ u ∈ node.users

theorem Enters.entered (h : Enters g g') {u : User} (hu : g.Entered x u) : g'.Entered x u := by
  obtain ⟨node, hx, hu⟩ := hu
  obtain ⟨us, hus, hsub⟩ := h.node hx
  exact ⟨_, hus, hsub hu⟩

theorem registerUser_spec {u : User} (h : g.registerUser t u = .ok g') :
    Enters g g' ∧ g'.Entered t u := by
  obtain ⟨ht, rfl⟩ := update_eq_ok_iff.1 h
  obtain ⟨target, htarget⟩ := ht
  constructor
  · constructor
    · intro x n hx
      rw [get?_mapNode _ ⟨_, htarget⟩]
      by_cases he : x = t
      · subst he
        rw [hx] at htarget ⊢
        by_cases hu : u ∈ n.users
        · exact ⟨n.users, by simp [hu], List.Subset.refl _⟩
        · exact ⟨n.users ++ [u], by simp [hu], List.subset_append_left _ _⟩
      · exact ⟨n.users, by simp [he, hx], List.Subset.refl _⟩
    · intro x n hx
      have : (g.mapNode t _).Has x := ⟨n, hx⟩
      exact (has_mapNode _ ⟨_, htarget⟩).1 this
    · rfl
    · simp
  · unfold Entered
    rw [get?_mapNode _ ⟨_, htarget⟩]
    by_cases hu : u ∈ target.users
    · exact ⟨target, by simp [htarget, hu], hu⟩
    · exact ⟨{ target with users := target.users ++ [u] }, by simp [htarget, hu], by simp⟩

theorem registerUser_ok (ht : g.Has x) (u : User) : ∃ g', g.registerUser x u = .ok g' :=
  ⟨_, update_eq _ ht⟩

theorem registerInputs_spec {position : Nat} {seen : List NodeId}
    (h : registerInputs id position seen inputs g = .ok g') :
    Enters g g' ∧ ∀ x ∈ inputs, x ∈ seen ∨ ∃ p, g'.Entered x ⟨id, .value p⟩ := by
  induction inputs generalizing position seen g with
  | nil =>
    cases h
    exact ⟨.refl _, by simp⟩
  | cons a inputs ih =>
    rw [registerInputs] at h
    split at h
    · rename_i ha
      obtain ⟨henters, hin⟩ := ih h
      refine ⟨henters, ?_⟩
      intro x hx
      rcases List.mem_cons.1 hx with rfl | hx
      · exact .inl ha
      · exact hin x hx
    · obtain ⟨g1, h1, h⟩ := bind_eq_ok_iff.1 h
      obtain ⟨henters1, huser⟩ := registerUser_spec h1
      obtain ⟨henters, hin⟩ := ih h
      refine ⟨henters1.trans henters, ?_⟩
      have hentry : ∃ p, g'.Entered a ⟨id, .value p⟩ := ⟨_, henters.entered huser⟩
      intro x hx
      rcases List.mem_cons.1 hx with rfl | hx
      · exact .inr hentry
      · rcases hin x hx with hseen | hx
        · rcases List.mem_cons.1 hseen with rfl | hseen
          · exact .inr hentry
          · exact .inl hseen
        · exact .inr hx

theorem registerInputs_ok (hin : ∀ x ∈ inputs, g.Has x) (id : NodeId) (position : Nat)
    (seen : List NodeId) : ∃ g', registerInputs id position seen inputs g = .ok g' := by
  induction inputs generalizing position seen g with
  | nil => exact ⟨g, rfl⟩
  | cons a inputs ih =>
    rw [registerInputs]
    split
    · exact ih (fun x hx => hin x (List.mem_cons_of_mem _ hx)) _ _
    · obtain ⟨g1, h1⟩ := registerUser_ok (hin a List.mem_cons_self) ⟨id, .value position⟩
      obtain ⟨g', h'⟩ := ih
        (fun x hx => (registerUser_spec h1).1.has.2 (hin x (List.mem_cons_of_mem _ hx)))
        (position + 1) (a :: seen)
      exact ⟨g', by simp [h1, h', bind, Except.bind]⟩

/-! ### New nodes -/

/-- No slot was ever freed: the handles of nodes are those of the first generation. -/
structure Dense (g : Graph) : Prop where
  free : g.free = []
  has_iff : ∀ id, g.Has id ↔ id.generation = 0 ∧ id.index < g.slots.size

def nextId (g : Graph) : NodeId := ⟨g.slots.size, 0⟩

def added (g : Graph) (op : Op) (ty : Ty) (inputs : List NodeId) : Graph :=
  { g with
    slots := g.slots.push ⟨0, some { op, ty := (ty.stamp g.origins).1, inputs }⟩
    size := g.size + 1
    origins := (ty.stamp g.origins).2 }

theorem get?_added (op : Op) (ty : Ty) (inputs : List NodeId) (x : NodeId) :
    (g.added op ty inputs).get? x =
      if x = g.nextId then some { op, ty := (ty.stamp g.origins).1, inputs } else g.get? x := by
  by_cases hi : x.index = g.slots.size
  · by_cases hg : x.generation = 0
    · have : x = g.nextId := by cases x; simp_all [nextId]
      simp [get?, added, this, nextId]
    · have : x ≠ g.nextId := by rintro rfl; exact hg rfl
      have hg' : ¬ 0 = x.generation := fun h => hg h.symm
      simp [get?, added, hi, this, hg']
  · have : x ≠ g.nextId := by rintro rfl; exact hi rfl
    simp [get?, added, Array.getElem?_push, hi, this]

theorem Dense.get?_nextId (hd : g.Dense) : g.get? g.nextId = none := by
  cases h : g.get? g.nextId with
  | none => rfl
  | some node => exact absurd ((hd.has_iff _).1 ⟨node, h⟩).2 (Nat.lt_irrefl _)

theorem Dense.ne_nextId (hd : g.Dense) (h : g.Has x) : x ≠ g.nextId := by
  rintro rfl
  obtain ⟨node, hn⟩ := h
  simp [hd.get?_nextId] at hn

theorem has_added (op : Op) (ty : Ty) (inputs : List NodeId) :
    (g.added op ty inputs).Has x ↔ x = g.nextId ∨ g.Has x := by
  rw [has_iff_isSome, has_iff_isSome, get?_added]
  split <;> simp_all

theorem Dense.added (hd : g.Dense) (op : Op) (ty : Ty) (inputs : List NodeId) :
    (g.added op ty inputs).Dense where
  free := hd.free
  has_iff x := by
    rw [has_added, hd.has_iff]
    have hsize : (g.added op ty inputs).slots.size = g.slots.size + 1 := by simp [Graph.added]
    rw [hsize]
    constructor
    · rintro (rfl | ⟨h1, h2⟩)
      · exact ⟨rfl, Nat.lt_succ_self _⟩
      · exact ⟨h1, by omega⟩
    · rintro ⟨h1, h2⟩
      by_cases hx : x.index = g.slots.size
      · exact .inl (by cases x; simp_all [nextId])
      · exact .inr ⟨h1, by omega⟩

theorem Dense.enters (hd : g.Dense) (h : Enters g g') : g'.Dense where
  free := h.free.trans hd.free
  has_iff x := by rw [h.has, h.size, hd.has_iff]

theorem Dense.mapNode (hd : g.Dense) (hid : g.Has id) (f : Node → Node) : (g.mapNode id f).Dense where
  free := hd.free
  has_iff x := by rw [has_mapNode f hid, slots_size_mapNode, hd.has_iff]

theorem allocate_of_free_nil (h : g.free = []) (node : Node) :
    g.allocate node =
      (g.nextId, { g with slots := g.slots.push ⟨0, some node⟩, size := g.size + 1 }) := by
  unfold allocate
  rw [h]
  simp only [nextId]

theorem create_eq (hd : g.Dense) (op : Op) (ty : Ty) (inputs : List NodeId) :
    g.create op ty inputs =
      (registerInputs g.nextId 0 [] inputs (g.added op ty inputs)).map fun g' => (g.nextId, g') := by
  unfold create
  simp only [allocate_of_free_nil (g := { g with origins := (ty.stamp g.origins).2 }) hd.free]
  change (registerInputs g.nextId 0 [] inputs (g.added op ty inputs) >>= fun g' =>
    pure (g.nextId, g')) = _
  cases registerInputs g.nextId 0 [] inputs (g.added op ty inputs) <;> rfl

theorem create_spec {op : Op} {ty : Ty} (hd : g.Dense) (h : g.create op ty inputs = .ok (id, g')) :
    id = g.nextId ∧ Enters (g.added op ty inputs) g' ∧
      ∀ x ∈ inputs, ∃ p, g'.Entered x ⟨id, .value p⟩ := by
  rw [create_eq hd] at h
  cases hr : registerInputs g.nextId 0 [] inputs (g.added op ty inputs) with
  | error f => simp [hr, Except.map] at h
  | ok g1 =>
    simp only [hr, Except.map] at h
    obtain ⟨rfl, rfl⟩ := h
    obtain ⟨henters, hin⟩ := registerInputs_spec hr
    exact ⟨rfl, henters, fun x hx => (hin x hx).resolve_left List.not_mem_nil⟩

theorem create_ok {inputs : List NodeId} (hd : g.Dense) (hin : ∀ x ∈ inputs, g.Has x) (op : Op)
    (ty : Ty) : ∃ g', g.create op ty inputs = .ok (g.nextId, g') := by
  obtain ⟨g', h⟩ := registerInputs_ok
    (fun x hx => (has_added op ty inputs).2 (.inr (hin x hx))) g.nextId 0 []
  exact ⟨g', by rw [create_eq hd, h]; rfl⟩

/-! ### Edges -/

theorem attachControl_spec {c : NodeId} (h : g.attachControl id c = .ok g') :
    Enters { g with control := g.control.insert id c } g' ∧ g'.Entered c ⟨id, .control⟩ :=
  registerUser_spec h

theorem attachControl_ok (hc : g.Has x) (id : NodeId) : ∃ g', g.attachControl id x = .ok g' :=
  registerUser_ok (g := { g with control := g.control.insert id x }) hc _

theorem attachMemory_spec (h : g.attachMemory id e = .ok g') :
    Enters { g with memory := g.memory.insert id e } g' ∧ g'.Entered e.previous ⟨id, .previous⟩ ∧
      ∀ t, e.target = some t → g'.Entered t ⟨id, .target⟩ := by
  obtain ⟨g1, h1, h⟩ := bind_eq_ok_iff.1 h
  obtain ⟨henters1, huser1⟩ := registerUser_spec h1
  cases ht : e.target with
  | none =>
    simp only [ht] at h
    cases h
    exact ⟨henters1, huser1, by simp⟩
  | some t =>
    simp only [ht] at h
    obtain ⟨henters, huser⟩ := registerUser_spec h
    refine ⟨henters1.trans henters, henters.entered huser1, ?_⟩
    rintro _ ⟨⟩
    exact huser

theorem attachMemory_ok (hp : g.Has e.previous) (ht : ∀ t, e.target = some t → g.Has t)
    (id : NodeId) : ∃ g', g.attachMemory id e = .ok g' := by
  obtain ⟨g1, h1⟩ :=
    registerUser_ok (g := { g with memory := g.memory.insert id e }) hp ⟨id, .previous⟩
  unfold attachMemory
  rw [h1]
  cases htarget : e.target with
  | none => exact ⟨g1, rfl⟩
  | some t =>
    obtain ⟨g', h'⟩ := registerUser_ok ((registerUser_spec h1).1.has.2 (ht t htarget)) ⟨id, .target⟩
    exact ⟨g', h'⟩

theorem setPrevious_spec {p : NodeId} (h : g.setPrevious id p = .ok g') :
    ∃ e, g.memory[id]? = some e ∧
      Enters { g with memory := g.memory.insert id { e with previous := p } } g' ∧
      g'.Entered p ⟨id, .previous⟩ := by
  unfold setPrevious at h
  split at h
  · rename_i e he
    exact ⟨e, he, registerUser_spec h⟩
  · contradiction

theorem setPrevious_ok (he : g.memory[id]? = some e) (hp : g.Has x) :
    ∃ g', g.setPrevious id x = .ok g' := by
  unfold setPrevious
  rw [he]
  exact registerUser_ok (g := { g with memory := g.memory.insert id { e with previous := x } }) hp _

theorem setTarget_spec (h : g.setTarget id t = .ok g') :
    g'.Entered t ⟨id, .target⟩ ∧
      ((∃ e, g.memory[id]? = some e ∧
          Enters { g with memory := g.memory.insert id { e with target := some t } } g') ∨
        (g.memory[id]? = none ∧ Enters g g')) := by
  unfold setTarget at h
  split at h
  · rename_i e he
    obtain ⟨henters, huser⟩ := registerUser_spec h
    exact ⟨huser, .inl ⟨e, he, henters⟩⟩
  · rename_i he
    obtain ⟨henters, huser⟩ := registerUser_spec h
    exact ⟨huser, .inr ⟨he, henters⟩⟩

theorem setTarget_ok (ht : g.Has x) (id : NodeId) : ∃ g', g.setTarget id x = .ok g' := by
  unfold setTarget
  split
  · rename_i e he
    exact registerUser_ok
      (g := { g with memory := g.memory.insert id { e with target := some x } }) ht _
  · exact registerUser_ok ht _

theorem appendInput_spec {input : NodeId} (h : g.appendInput id input = .ok g') :
    ∃ node, g.get? id = some node ∧ Enters (g.mapNode id (Node.append input)) g' ∧
      (input ∈ node.inputs ∨ ∃ p, g'.Entered input ⟨id, .value p⟩) := by
  obtain ⟨node, hn, h⟩ := bind_eq_ok_iff.1 h
  obtain ⟨g1, h1, h⟩ := bind_eq_ok_iff.1 h
  obtain ⟨hid, rfl⟩ := update_eq_ok_iff.1 h1
  refine ⟨node, node_eq_ok_iff.1 hn, ?_⟩
  split at h
  · rename_i hin
    cases h
    exact ⟨.refl _, .inl hin⟩
  · obtain ⟨henters, huser⟩ := registerUser_spec h
    exact ⟨henters, .inr ⟨_, huser⟩⟩

theorem appendInput_ok (hid : g.Has id) (hx : g.Has x) : ∃ g', g.appendInput id x = .ok g' := by
  obtain ⟨node, hn, -⟩ := hid.node_eq
  unfold appendInput
  rw [hn, update_eq _ hid]
  change ∃ g', (if x ∈ node.inputs then pure (g.mapNode id _) else
    (g.mapNode id _).registerUser x ⟨id, .value node.inputs.length⟩) = .ok g'
  split
  · exact ⟨_, rfl⟩
  · exact registerUser_ok ((has_mapNode _ hid).2 hx) _

theorem replaceInput_spec (h : g.replaceInput id old new = .ok g') :
    ∃ node, g.get? id = some node ∧
      ((old ∉ node.inputs ∧ g' = g) ∨
        (old ∈ node.inputs ∧ Enters (g.mapNode id (Node.rename old new)) g' ∧
          ∃ p, g'.Entered new ⟨id, .value p⟩)) := by
  obtain ⟨node, hn, h⟩ := bind_eq_ok_iff.1 h
  refine ⟨node, node_eq_ok_iff.1 hn, ?_⟩
  split at h
  · rename_i hnone
    refine .inl ⟨?_, (Except.ok.inj h).symm⟩
    intro hin
    have := List.findIdx?_eq_none_iff.1 hnone old hin
    simp at this
  · rename_i position hsome
    obtain ⟨g1, h1, h⟩ := bind_eq_ok_iff.1 h
    obtain ⟨hid, rfl⟩ := update_eq_ok_iff.1 h1
    obtain ⟨henters, huser⟩ := registerUser_spec h
    refine .inr ⟨?_, henters, _, huser⟩
    obtain ⟨hlt, heq, -⟩ := List.findIdx?_eq_some_iff_getElem.1 hsome
    have hold : node.inputs[position] = old := by simpa using heq
    exact hold ▸ List.getElem_mem hlt

theorem replaceInput_ok (hid : g.Has id) (hnew : g.Has new) :
    ∃ g', g.replaceInput id old new = .ok g' := by
  obtain ⟨node, hn, -⟩ := hid.node_eq
  unfold replaceInput
  rw [hn]
  simp only [bind, Except.bind]
  split
  · exact ⟨_, rfl⟩
  · rw [update_eq _ hid]
    exact registerUser_ok ((has_mapNode _ hid).2 hnew) _

/-! ### Dead control -/

theorem deadControl_cases (h : g.deadControl = .ok (id, g')) :
    g.deadNode = some id ∧ g.isLive id = true ∧ g' = g ∨
      ∃ g1, g.create .constant .dead [] = .ok (id, g1) ∧ g' = { g1 with deadNode := some id } := by
  unfold deadControl at h
  have hnew : ∀ c : NodeId × Graph, g.create .constant .dead [] = .ok c →
      (c.1, { c.2 with deadNode := some c.1 }) = (id, g') →
      ∃ g1, g.create .constant .dead [] = .ok (id, g1) ∧ g' = { g1 with deadNode := some id } := by
    rintro ⟨_, g1⟩ hc hr
    cases hr
    exact ⟨g1, hc, rfl⟩
  split at h
  · rename_i dead hdead
    split at h
    · rename_i hlive
      cases Except.ok.inj h
      exact .inl ⟨hdead, hlive, rfl⟩
    · obtain ⟨c, hc, h⟩ := bind_eq_ok_iff.1 h
      exact .inr (hnew c hc (Except.ok.inj h))
  · obtain ⟨c, hc, h⟩ := bind_eq_ok_iff.1 h
    exact .inr (hnew c hc (Except.ok.inj h))

end Graph

end SeaOfNodes
