import SeaOfNodes.Proofs.Graph.Change

/-!
What replacing a node changes. The users of the node are turned one after the other; `Turned` says
what the graph is after some of them were, and `replace_spec` that a replacement turns exactly the
users that the node had, and marks the node.
-/
namespace SeaOfNodes

/-- Whether an edge is an input. -/
def Edge.isValue : Edge → Bool
  | .value _ => true
  | _ => false

/-- Whether a list of users has `id` by one of its inputs. -/
def usesByValue (users : List User) (id : NodeId) : Bool :=
  users.any fun user => user.node == id && user.edge.isValue

/-- Whether a list of users has `id`, by any edge. -/
def usesAnyhow (users : List User) (id : NodeId) : Bool := users.any fun user => user.node == id

/-- How a replacement turns edges: `new` stands for `old`, and in the chain of memory `state`
does. -/
structure Turn where
  old : NodeId
  new : NodeId
  state : NodeId

namespace Turn

variable {x : NodeId}

/-- A place in the chain of memory after the turn of `users`. -/
def effect (t : Turn) (users : List User) (id : NodeId) (e : MemoryEffect) : MemoryEffect :=
  { e with
    previous := if ⟨id, .previous⟩ ∈ users then t.state else e.previous
    target := if ⟨id, .target⟩ ∈ users then some t.new else e.target }

/-- What an input of a node becomes. A memory phi selects states of memory. -/
def standIn (t : Turn) (node : Node) : NodeId :=
  if node.op == .phi && node.ty == .memory then t.state else t.new

def inputs (t : Turn) (users : List User) (id : NodeId) (node : Node) : List NodeId :=
  if usesByValue users id then (node.rename t.old (t.standIn node)).inputs else node.inputs

def predecessor (t : Turn) (users : List User) (id : NodeId) (c : Option NodeId) : Option NodeId :=
  if ⟨id, .control⟩ ∈ users then some t.new else c

/-- The region of a phi after the turn of `users`. -/
def region (t : Turn) (users : List User) (id : NodeId) (r : Option NodeId) : Option NodeId :=
  if usesAnyhow users id && r == some t.old then some t.new else r

/-! Turning a user and then others is turning all of them. -/

section

variable (t : Turn) (u : User) (us : List User) (id : NodeId)
include t u us id

theorem inputs_cons (node : Node) (entries : List User) :
    t.inputs (u :: us) id node =
      t.inputs us id { node with inputs := t.inputs [u] id node, users := entries } := by
  have hidem : ∀ s : NodeId, ((fun x => if x = t.old then s else x) ∘
      fun x => if x = t.old then s else x) = fun x => if x = t.old then s else x := by
    intro s
    funext x
    by_cases hx : x = t.old <;> simp [hx]
  have hcons : usesByValue (u :: us) id = (usesByValue [u] id || usesByValue us id) := by
    simp [usesByValue]
  cases hu : usesByValue [u] id <;> cases hus : usesByValue us id <;>
    simp [inputs, hcons, hu, standIn, Node.rename, hidem]

theorem predecessor_cons (c : Option NodeId) :
    t.predecessor (u :: us) id c = t.predecessor us id (t.predecessor [u] id c) := by
  unfold predecessor
  grind

theorem effect_cons (e : MemoryEffect) :
    t.effect (u :: us) id e = t.effect us id (t.effect [u] id e) := by
  unfold effect
  grind

theorem region_cons (r : Option NodeId) :
    t.region (u :: us) id r = t.region us id (t.region [u] id r) := by
  unfold region usesAnyhow
  grind

end

/-! An edge of one sort leaves the others as they are. -/

theorem inputs_of_not_value (t : Turn) {e : Edge} (he : e.isValue = false) (id : NodeId)
    (node : Node) : t.inputs [⟨x, e⟩] id node = node.inputs := by
  simp [inputs, usesByValue, he]

theorem inputs_of_ne (t : Turn) {id : NodeId} (e : Edge) (hne : id ≠ x) (node : Node) :
    t.inputs [⟨x, e⟩] id node = node.inputs := by
  have : ¬ x = id := fun he => hne he.symm
  simp [inputs, usesByValue, this]

theorem inputs_self (t : Turn) (x : NodeId) (position : Nat) (node : Node) :
    t.inputs [⟨x, .value position⟩] x node = (node.rename t.old (t.standIn node)).inputs := by
  simp [inputs, usesByValue, Edge.isValue]

theorem predecessor_of_ne (t : Turn) {e : Edge} (he : e ≠ .control) (id : NodeId)
    (c : Option NodeId) : t.predecessor [⟨x, e⟩] id c = c := by
  have : ¬ Edge.control = e := fun h => he h.symm
  simp [predecessor, this]

theorem effect_of_ne (t : Turn) {x : NodeId} {e : Edge} (hp : e ≠ .previous) (ht : e ≠ .target)
    (id : NodeId) : t.effect [⟨x, e⟩] id = fun effect => effect := by
  have hp' : ¬ Edge.previous = e := fun h => hp h.symm
  have ht' : ¬ Edge.target = e := fun h => ht h.symm
  funext e'
  simp [effect, hp', ht']

end Turn

theorem Node.rename_of_not_mem {node : Node} {old : NodeId} (h : old ∉ node.inputs) (new : NodeId) :
    node.rename old new = node := by
  have hsame : node.inputs.map (fun x => if x = old then new else x) = node.inputs.map id := by
    refine List.map_congr_left ?_
    intro x hx
    have : x ≠ old := by rintro rfl; exact h hx
    simp [this]
  unfold rename
  rw [hsame, List.map_id]

namespace Graph

variable {g g' g'' : Graph} {id x : NodeId} {node : Node} {t : Turn} {us vs : List User} {u : User}
  {before : Option NodeId} {position : Nat}

/-- `g'` is `g` after the turn of the edges of `users`, whatever became of the regions of phis. -/
structure EdgesTurned (t : Turn) (users : List User) (g g' : Graph) : Prop where
  node : ∀ {id node}, g.get? id = some node → ∃ entries,
    g'.get? id = some { node with inputs := t.inputs users id node, users := entries } ∧
      node.users ⊆ entries
  back : ∀ {id}, g'.Has id → g.Has id
  control : ∀ id, g'.control[id]? = t.predecessor users id g.control[id]?
  memory : ∀ id, g'.memory[id]? = g.memory[id]?.map (t.effect users id)
  frame : g' = { g with
    slots := g'.slots, control := g'.control, memory := g'.memory, phiRegion := g'.phiRegion }
  size : g'.slots.size = g.slots.size

namespace EdgesTurned

theorem nil (t : Turn) (g : Graph) : EdgesTurned t [] g g where
  node h := ⟨_, h, List.Subset.refl _⟩
  back h := h
  control id := by simp [Turn.predecessor]
  memory id := by
    cases g.memory[id]? <;> simp [Turn.effect]
  frame := rfl
  size := rfl

theorem cons (h1 : EdgesTurned t [u] g g') (h2 : EdgesTurned t us g' g'') :
    EdgesTurned t (u :: us) g g'' where
  node hn := by
    obtain ⟨es, hes, hsub⟩ := h1.node hn
    obtain ⟨fs, hfs, hsub'⟩ := h2.node hes
    refine ⟨fs, ?_, fun v hv => hsub' (hsub hv)⟩
    rw [hfs, t.inputs_cons u us _ _ es]
  back hx := h1.back (h2.back hx)
  control id := by rw [h2.control, h1.control, ← t.predecessor_cons]
  memory id := by
    rw [h2.memory, h1.memory, Option.map_map]
    congr 1
    funext e
    exact (t.effect_cons u us id e).symm
  frame := by
    have h := h2.frame
    rw [h1.frame] at h
    exact h
  size := h2.size.trans h1.size

section

variable (h : EdgesTurned t us g g')
include h

theorem roots : g'.roots = g.roots := by rw [h.frame]

theorem deadNode : g'.deadNode = g.deadNode := by rw [h.frame]

theorem free : g'.free = g.free := by rw [h.frame]

theorem has : g'.Has x ↔ g.Has x := by
  refine ⟨h.back, ?_⟩
  rintro ⟨node, hn⟩
  obtain ⟨us, hus, -⟩ := h.node hn
  exact ⟨_, hus⟩

theorem dense (hd : g.Dense) : g'.Dense where
  free := h.free.trans hd.free
  has_iff x := by rw [h.has, h.size, hd.has_iff]

end

theorem of_enters {h : Graph} (he : Enters h g')
    (hnode : ∀ {id node}, g.get? id = some node → h.get? id =
      some { node with inputs := t.inputs us id node })
    (hback : ∀ {id}, h.Has id → g.Has id)
    (hcontrol : ∀ id, h.control[id]? = t.predecessor us id g.control[id]?)
    (hmemory : ∀ id, h.memory[id]? = g.memory[id]?.map (t.effect us id))
    (hframe : h = { g with slots := h.slots, control := h.control, memory := h.memory })
    (hsize : h.slots.size = g.slots.size) :
    EdgesTurned t us g g' ∧ g'.phiRegion = g.phiRegion := by
  refine ⟨⟨?_, ?_, ?_, ?_, ?_, ?_⟩, ?_⟩
  · intro id node hn
    obtain ⟨es, hes, hsub⟩ := he.node (hnode hn)
    exact ⟨es, hes, hsub⟩
  · exact fun hx => hback (he.has.1 hx)
  · intro id
    rw [he.control, hcontrol]
  · intro id
    rw [he.memory, hmemory]
  · have h1 := he.frame
    rw [hframe] at h1
    rw [h1]
  · exact he.size.trans hsize
  · rw [he.phiRegion, hframe]

end EdgesTurned

structure Turned (t : Turn) (users : List User) (g g' : Graph) : Prop
    extends EdgesTurned t users g g' where
  phiRegion : ∀ id, g'.phiRegion[id]? = t.region users id g.phiRegion[id]?

theorem Turned.nil (t : Turn) (g : Graph) : Turned t [] g g where
  toEdgesTurned := .nil t g
  phiRegion id := by simp [Turn.region, usesAnyhow]

theorem Turned.cons (h1 : Turned t [u] g g') (h2 : Turned t us g' g'') : Turned t (u :: us) g g'' where
  toEdgesTurned := h1.toEdgesTurned.cons h2.toEdgesTurned
  phiRegion id := by rw [h2.phiRegion, h1.phiRegion, ← t.region_cons]

/-! ### One edge -/

theorem redirect_value (h : g.redirect t.old t.new before ⟨x, .value position⟩ = .ok g')
    (ht : t.state = before.getD t.new) : EdgesTurned t [⟨x, .value position⟩] g g' ∧
    g'.phiRegion = g.phiRegion := by
  obtain ⟨node, hn, h⟩ := bind_eq_ok_iff.1 h
  replace hn := node_eq_ok_iff.1 hn
  have h : g.replaceInput x t.old (t.standIn node) = .ok g' := by
    unfold Turn.standIn
    rw [ht]
    split at h
    · rename_i hphi
      rw [if_pos hphi]
      exact h
    · rename_i hphi
      rw [if_neg hphi]
      exact h
  obtain ⟨node', hn', hcases⟩ := replaceInput_spec h
  cases hn.symm.trans hn'
  rcases hcases with ⟨hnot, rfl⟩ | ⟨-, henters, -⟩
  · refine EdgesTurned.of_enters (.refl _) ?_ (fun hx => hx) ?_ ?_ rfl rfl
    · intro id other ho
      by_cases he : id = x
      · subst he
        cases hn.symm.trans ho
        rw [ho, t.inputs_self, Node.rename_of_not_mem hnot]
      · rw [ho, t.inputs_of_ne _ he]
    · intro id
      rw [t.predecessor_of_ne (by simp)]
    · intro id
      rw [t.effect_of_ne (by simp) (by simp), Option.map_id']
  · refine EdgesTurned.of_enters henters ?_ (has_mapNode _ ⟨_, hn⟩).1 ?_ ?_ rfl (by simp)
    · intro id other ho
      rw [get?_mapNode _ ⟨_, hn⟩]
      by_cases he : id = x
      · subst he
        cases hn.symm.trans ho
        rw [ho, t.inputs_self]
        simp [Node.rename]
      · rw [if_neg he, ho, t.inputs_of_ne _ he]
    · intro id
      rw [t.predecessor_of_ne (by simp)]
      rfl
    · intro id
      rw [t.effect_of_ne (by simp) (by simp), Option.map_id']
      rfl

theorem redirect_control {before : Option NodeId}
    (h : g.redirect t.old t.new before ⟨x, .control⟩ = .ok g') : EdgesTurned t [⟨x, .control⟩] g g' ∧
    g'.phiRegion = g.phiRegion := by
  obtain ⟨henters, -⟩ := attachControl_spec (c := t.new) h
  refine EdgesTurned.of_enters henters ?_ (fun hx => hx) ?_ ?_ rfl rfl
  · intro id node hn
    rw [t.inputs_of_not_value rfl]
    exact hn
  · intro id
    rw [getElem?_insert_id]
    simp [Turn.predecessor]
  · intro id
    rw [t.effect_of_ne (by simp) (by simp), Option.map_id']

theorem redirect_previous (h : g.redirect t.old t.new before ⟨x, .previous⟩ = .ok g')
    (ht : t.state = before.getD t.new) : EdgesTurned t [⟨x, .previous⟩] g g' ∧
    g'.phiRegion = g.phiRegion := by
  obtain ⟨e, he, henters, -⟩ := setPrevious_spec (p := t.state) (by rw [ht]; exact h)
  refine EdgesTurned.of_enters henters ?_ (fun hx => hx) ?_ ?_ rfl rfl
  · intro id node hn
    rw [t.inputs_of_not_value rfl]
    exact hn
  · intro id
    rw [t.predecessor_of_ne (by simp)]
  · intro id
    rw [getElem?_insert_id]
    by_cases hx : id = x
    · subst hx
      simp [Turn.effect, he]
    · cases g.memory[id]? <;> simp [Turn.effect, hx]

theorem redirect_target {before : Option NodeId}
    (h : g.redirect t.old t.new before ⟨x, .target⟩ = .ok g') : EdgesTurned t [⟨x, .target⟩] g g' ∧
    g'.phiRegion = g.phiRegion := by
  have hnode : ∀ {id node}, g.get? id = some node →
      g.get? id = some { node with inputs := t.inputs [⟨x, .target⟩] id node } := by
    intro id node hn
    rw [t.inputs_of_not_value rfl]
    exact hn
  have hcontrol : ∀ id, g.control[id]? = t.predecessor [⟨x, .target⟩] id g.control[id]? := by
    intro id
    rw [t.predecessor_of_ne (by simp)]
  obtain ⟨-, ⟨e, he, henters⟩ | ⟨hnone, henters⟩⟩ := setTarget_spec (t := t.new) h
  · refine EdgesTurned.of_enters henters hnode (fun hx => hx) hcontrol ?_ rfl rfl
    intro id
    rw [getElem?_insert_id]
    by_cases hx : id = x
    · subst hx
      simp [Turn.effect, he]
    · cases g.memory[id]? <;> simp [Turn.effect, hx]
  · refine EdgesTurned.of_enters henters hnode (fun hx => hx) hcontrol ?_ rfl rfl
    intro id
    by_cases hx : id = x
    · subst hx
      simp [hnone]
    · cases g.memory[id]? <;> simp [Turn.effect, hx]

theorem redirect_spec (h : g.redirect t.old t.new before u = .ok g')
    (ht : t.state = before.getD t.new) : EdgesTurned t [u] g g' ∧ g'.phiRegion = g.phiRegion := by
  obtain ⟨x, e⟩ := u
  cases e with
  | value position => exact redirect_value h ht
  | control => exact redirect_control h
  | previous => exact redirect_previous h ht
  | target => exact redirect_target h

theorem EdgesTurned.turned (h : EdgesTurned t [u] g g') (hregion : g'.phiRegion = g.phiRegion) :
    Turned t [u] g
      (if g'.phiRegion[u.node]? = some t.old then g'.setPhiRegion u.node t.new else g') := by
  split
  · rename_i hold
    refine ⟨⟨h.node, h.back, h.control, h.memory, ?_, h.size⟩, ?_⟩
    · rw [h.frame]
      rfl
    · intro id
      change (g'.phiRegion.insert u.node t.new)[id]? = _
      rw [getElem?_insert_id, hregion]
      by_cases hid : id = u.node
      · subst hid
        simp [Turn.region, usesAnyhow, ← hregion, hold]
      · have : ¬ u.node = id := fun he => hid he.symm
        simp [Turn.region, usesAnyhow, hid, this]
  · rename_i hold
    refine ⟨h, ?_⟩
    intro id
    rw [hregion]
    by_cases hid : id = u.node
    · subst hid
      simp [Turn.region, ← hregion, hold]
    · have : ¬ u.node = id := fun he => hid he.symm
      simp [Turn.region, usesAnyhow, this]

theorem redirectAll_spec (h : redirectAll t.old t.new before us g = .ok g')
    (ht : t.state = before.getD t.new) : Turned t us g g' := by
  induction us generalizing g with
  | nil =>
    cases h
    exact .nil t _
  | cons u us ih =>
    obtain ⟨g1, h1, h⟩ := bind_eq_ok_iff.1 h
    obtain ⟨hturned, hregion⟩ := redirect_spec h1 ht
    exact (hturned.turned hregion).cons (ih h)

/-! ### Users -/

theorem mem_users (h : g.users x = .ok us) : u ∈ us ↔ g.Entered x u ∧ g.edgeHolds x u = true := by
  obtain ⟨node, hn, h⟩ := bind_eq_ok_iff.1 h
  cases h
  replace hn := node_eq_ok_iff.1 hn
  simp [Entered, hn]

theorem users_ok (h : g.Has x) : ∃ us, g.users x = .ok us := by
  obtain ⟨node, hn, -⟩ := h.node_eq
  exact ⟨_, by unfold users; rw [hn]; rfl⟩

theorem users_has (h : g.users x = .ok us) : ∀ u ∈ us, g.Has u.node := by
  intro u hu
  have hholds := ((mem_users h).1 hu).2
  unfold edgeHolds at hholds
  split at hholds
  · contradiction
  · exact ⟨_, ‹_›⟩

theorem edgeHolds_value_iff :
    g.edgeHolds x ⟨id, .value position⟩ = true ↔
      ∃ node, g.get? id = some node ∧ node.replaced = false ∧ x ∈ node.inputs := by
  unfold edgeHolds
  cases g.get? id <;> simp

theorem edgeHolds_control_iff :
    g.edgeHolds x ⟨id, .control⟩ = true ↔ g.isLive id = true ∧ g.control[id]? = some x := by
  unfold edgeHolds isLive
  cases g.get? id <;> cases g.control[id]? <;> simp

theorem edgeHolds_previous_iff :
    g.edgeHolds x ⟨id, .previous⟩ = true ↔
      g.isLive id = true ∧ ∃ e, g.memory[id]? = some e ∧ e.previous = x := by
  unfold edgeHolds isLive
  cases g.get? id <;> cases g.memory[id]? <;> simp

theorem edgeHolds_target_iff :
    g.edgeHolds x ⟨id, .target⟩ = true ↔
      g.isLive id = true ∧ ∃ e, g.memory[id]? = some e ∧ e.target = some x := by
  unfold edgeHolds isLive
  cases g.get? id <;> cases g.memory[id]? <;> simp

/-! ### Whole replacements -/

/-- How replacing `old` by `new` turns edges. -/
def turnOf (g : Graph) (old new : NodeId) : Turn :=
  ⟨old, new, (g.memory[old]?.map MemoryEffect.previous).getD new⟩

def rootsAfter (g : Graph) (old new : NodeId) : Std.ExtTreeSet NodeId :=
  if old ∈ g.roots then (g.roots.erase old).insert new else g.roots

theorem replace_spec {old new : NodeId} (h : g.replace old new = .ok g') (hne : old ≠ new) :
    ∃ us g1, g.users old = .ok us ∧ Turned (g.turnOf old new) us g g1 ∧ g1.Has old ∧
      g' = ({ g1 with roots := g.rootsAfter old new } : Graph).mapNode old Node.mark := by
  unfold replace at h
  rw [if_neg hne] at h
  obtain ⟨us, hus, h⟩ := bind_eq_ok_iff.1 h
  obtain ⟨g1, h1, h⟩ := bind_eq_ok_iff.1 h
  have hturned : Turned (g.turnOf old new) us g g1 := redirectAll_spec h1 rfl
  obtain ⟨hold, rfl⟩ := update_eq_ok_iff.1 h
  refine ⟨us, g1, hus, hturned, ?_, ?_⟩
  · split at hold <;> exact hold
  · unfold rootsAfter
    rw [← hturned.roots]
    split <;> rfl

structure Turnable (t : Turn) (us : List User) (g : Graph) : Prop where
  new : g.Has t.new
  state : g.Has t.state
  user : ∀ u ∈ us, g.Has u.node
  effect : ∀ u ∈ us, u.edge = .previous → ∃ e, g.memory[u.node]? = some e

theorem Turnable.turned (h : Turnable t (u :: us) g) (ht : EdgesTurned t vs g g') :
    Turnable t us g' where
  new := ht.has.2 h.new
  state := ht.has.2 h.state
  user v hv := ht.has.2 (h.user v (List.mem_cons_of_mem _ hv))
  effect v hv he := by
    obtain ⟨e, hmem⟩ := h.effect v (List.mem_cons_of_mem _ hv) he
    exact ⟨_, by rw [ht.memory, hmem]; rfl⟩

theorem turnable_users (hus : g.users x = .ok us) (hvs : vs ⊆ us) (hnew : g.Has t.new)
    (hstate : g.Has t.state) : Turnable t vs g := by
  refine ⟨hnew, hstate, fun u hu => users_has hus u (hvs hu), ?_⟩
  rintro ⟨y, e⟩ hu rfl
  obtain ⟨-, e, he, -⟩ := edgeHolds_previous_iff.1 ((mem_users hus).1 (hvs hu)).2
  exact ⟨e, he⟩

theorem redirect_ok {before : Option NodeId} (h : Turnable t (u :: us) g)
    (ht : t.state = before.getD t.new) : ∃ g', g.redirect t.old t.new before u = .ok g' := by
  obtain ⟨x, e⟩ := u
  have hx : g.Has x := h.user _ List.mem_cons_self
  have hstate : g.Has (before.getD t.new) := ht ▸ h.state
  cases e with
  | value position =>
    obtain ⟨node, hn, -⟩ := hx.node_eq
    unfold redirect
    simp only [hn, bind, Except.bind]
    split
    · exact replaceInput_ok hx hstate
    · exact replaceInput_ok hx h.new
  | control => exact attachControl_ok h.new x
  | previous =>
    obtain ⟨e, he⟩ := h.effect _ List.mem_cons_self rfl
    exact setPrevious_ok he hstate
  | target => exact setTarget_ok h.new x

theorem redirectAll_ok (h : Turnable t us g) (before : Option NodeId)
    (ht : t.state = before.getD t.new) : ∃ g', redirectAll t.old t.new before us g = .ok g' := by
  induction us generalizing g with
  | nil => exact ⟨g, rfl⟩
  | cons u us ih =>
    obtain ⟨g1, h1⟩ := redirect_ok h ht
    obtain ⟨hturned, hregion⟩ := redirect_spec h1 ht
    obtain ⟨g', h'⟩ := ih (h.turned (hturned.turned hregion).toEdgesTurned)
    exact ⟨g', by simp only [redirectAll, h1, bind]; exact h'⟩

theorem replace_ok {old new : NodeId} (hold : g.Has old) (hnew : g.Has new)
    (hstate : g.Has (g.turnOf old new).state) : ∃ g', g.replace old new = .ok g' := by
  unfold replace
  split
  · exact ⟨g, rfl⟩
  · obtain ⟨us, hus⟩ := users_ok hold
    have hturnable : Turnable (g.turnOf old new) us g :=
      turnable_users hus (List.Subset.refl us) hnew hstate
    obtain ⟨g1, h1⟩ := redirectAll_ok hturnable (g.memory[old]?.map MemoryEffect.previous) rfl
    have hold1 : g1.Has old := (redirectAll_spec h1 rfl).has.2 hold
    have h1 : redirectAll old new (g.memory[old]?.map MemoryEffect.previous) us g = .ok g1 := h1
    simp only [hus, h1, bind, Except.bind]
    exact ⟨_, update_eq _ (by split <;> exact hold1)⟩

/-! ### Marks -/

section Marks

variable {old new : NodeId}

theorem isLive_iff : g.isLive x = true ↔ ∃ node, g.get? x = some node ∧ node.replaced = false := by
  unfold isLive
  cases g.get? x <;> simp

section

variable (hr : g.replace old new = .ok g') (hne : old ≠ new)
include hr hne

theorem get?_replace (hn : g.get? x = some node) :
    ∃ us es, g.users old = .ok us ∧ g'.get? x = some { node with
      inputs := (g.turnOf old new).inputs us x node, users := es
      replaced := node.replaced || x == old } := by
  obtain ⟨us, g1, hus, hturned, hold, rfl⟩ := replace_spec hr hne
  obtain ⟨es, hes, -⟩ := hturned.node hn
  have hold : ({ g1 with roots := g.rootsAfter old new } : Graph).Has old := hold
  refine ⟨us, es, hus, ?_⟩
  rw [get?_mapNode Node.mark hold]
  change (if x = old then (g1.get? x).map Node.mark else g1.get? x) = _
  rw [hes]
  by_cases hx : x = old <;> simp [Node.mark, hx]

theorem replaced_replace (hn : g.get? x = some node) :
    ∃ node', g'.get? x = some node' ∧ node'.op = node.op ∧
      node'.ty = node.ty ∧ node'.replaced = (node.replaced || x == old) := by
  obtain ⟨us, es, -, hes⟩ := get?_replace hr hne hn
  exact ⟨_, hes, rfl, rfl, rfl⟩

theorem get?_of_replace {node' : Node} (hn : g'.get? x = some node') :
    ∃ node, g.get? x = some node ∧ node'.op = node.op ∧
      node'.ty = node.ty ∧ node'.replaced = (node.replaced || x == old) := by
  have hx : g.Has x := by
    obtain ⟨us, g1, -, hturned, hold, rfl⟩ := replace_spec hr hne
    exact hturned.back ((has_mapNode Node.mark hold).1 ⟨node', hn⟩)
  obtain ⟨node, hx⟩ := hx
  obtain ⟨other, ho, hfacts⟩ := replaced_replace hr hne hx
  cases hn.symm.trans ho
  exact ⟨node, hx, hfacts⟩

theorem isLive_replace : g'.isLive x = true ↔ g.isLive x = true ∧ x ≠ old := by
  rw [isLive_iff, isLive_iff]
  constructor
  · rintro ⟨node', hn', hlive⟩
    obtain ⟨node, hn, -, -, hmark⟩ := get?_of_replace hr hne hn'
    rw [hmark] at hlive
    simp only [Bool.or_eq_false_iff, beq_eq_false_iff_ne] at hlive
    exact ⟨⟨node, hn, hlive.1⟩, hlive.2⟩
  · rintro ⟨⟨node, hn, hlive⟩, hx⟩
    obtain ⟨node', hn', -, -, hmark⟩ := replaced_replace hr hne hn
    exact ⟨node', hn', by simp [hmark, hlive, hx]⟩

theorem size_replace : g'.slots.size = g.slots.size := by
  obtain ⟨us, g1, -, hturned, -, rfl⟩ := replace_spec hr hne
  rw [slots_size_mapNode]
  exact hturned.size

end

theorem replace_self (hr : g.replace old new = .ok g') (heq : old = new) : g' = g := by
  unfold replace at hr
  rw [if_pos heq] at hr
  exact (Except.ok.inj hr).symm

theorem Dense.replace (hd : g.Dense) (hr : g.replace old new = .ok g') :
    g'.Dense := by
  by_cases hne : old = new
  · obtain rfl := replace_self hr hne
    exact hd
  · obtain ⟨us, g1, -, hturned, hold, rfl⟩ := replace_spec hr hne
    have hd1 := hturned.dense hd
    have hd2 : ({ g1 with roots := g.rootsAfter old new } : Graph).Dense := ⟨hd1.free, hd1.has_iff⟩
    exact hd2.mapNode hold _

end Marks

end Graph

end SeaOfNodes
