import SeaOfNodes.Proofs.Graph.Later

/-!
What is left when dead code is eliminated. `Reaches` says which nodes the roots depend on, by
following edges of all five kinds; the walk from the roots finds these and no others. A sweep frees
the rest, takes the marks away and drops the entries of users that are gone, and does nothing else.
-/
namespace SeaOfNodes.Graph

variable {g g' : Graph} {id x y : NodeId} {node : Node}

/-! ### The walk -/

section Walk

variable {next : NodeId → Node → List NodeId} {seen : Std.ExtTreeSet NodeId} {pending : List NodeId}

theorem of_mem_walk {P : NodeId → Prop} (hpending : ∀ x ∈ pending, g.Has x → P x)
    (hnext : ∀ x node, P x → g.get? x = some node → ∀ y ∈ next x node, g.Has y → P y)
    (hx : x ∈ g.walk next seen pending) : P x := by
  fun_induction walk g next seen pending with
  | case1 => contradiction
  | case2 seen id pending hnone ih | case3 seen id pending node hn hseen ih =>
    exact ih (fun y hy => hpending y (List.mem_cons_of_mem _ hy)) hx
  | case4 seen id pending node hn hseen ih =>
    have hid : P id := hpending id List.mem_cons_self ⟨node, hn⟩
    rcases List.mem_cons.1 hx with rfl | hx
    · exact hid
    · refine ih ?_ hx
      intro y hy hhas
      rcases List.mem_append.1 hy with hy | hy
      · exact hnext id node hid hn y hy hhas
      · exact hpending y (List.mem_cons_of_mem _ hy) hhas

/-- A walk visits every node that it was given and every node that follows one that it visits, if
it has not seen it before. -/
theorem mem_walk (seen : Std.ExtTreeSet NodeId) (pending : List NodeId) :
    (∀ x ∈ pending, g.Has x → x ∈ seen ∨ x ∈ g.walk next seen pending) ∧
      ∀ x ∈ g.walk next seen pending, ∀ node, g.get? x = some node → ∀ y ∈ next x node, g.Has y →
        y ∈ seen ∨ y ∈ g.walk next seen pending := by
  fun_induction walk g next seen pending with
  | case1 => simp
  | case2 seen id pending hnone ih =>
    refine ⟨?_, ih.2⟩
    intro x hx hhas
    rcases List.mem_cons.1 hx with rfl | hx
    · obtain ⟨node, hn⟩ := hhas
      simp [hnone] at hn
    · exact ih.1 x hx hhas
  | case3 seen id pending node hn hseen ih =>
    refine ⟨?_, ih.2⟩
    intro x hx hhas
    rcases List.mem_cons.1 hx with rfl | hx
    · exact .inl hseen
    · exact ih.1 x hx hhas
  | case4 seen id pending node hn hseen ih =>
    -- What the rest of the walk has seen, this walk has seen or starts with.
    have hback : ∀ {x}, x ∈ seen.insert id ∨ x ∈ g.walk next (seen.insert id) (next id node ++ pending) →
        x ∈ seen ∨ x ∈ id :: g.walk next (seen.insert id) (next id node ++ pending) := by
      intro x hx
      rcases hx with hx | hx
      · rcases Std.ExtTreeSet.mem_insert.1 hx with hx | hx
        · obtain rfl := Std.LawfulEqOrd.compare_eq_iff_eq.1 hx
          exact .inr List.mem_cons_self
        · exact .inl hx
      · exact .inr (List.mem_cons_of_mem _ hx)
    constructor
    · intro x hx hhas
      rcases List.mem_cons.1 hx with rfl | hx
      · exact .inr List.mem_cons_self
      · exact hback (ih.1 x (List.mem_append_right _ hx) hhas)
    · intro x hx other ho y hy hhas
      rcases List.mem_cons.1 hx with rfl | hx
      · cases hn.symm.trans ho
        exact hback (ih.1 y (List.mem_append_left _ hy) hhas)
      · exact hback (ih.2 x hx other ho y hy hhas)

end Walk

/-! ### What the roots depend on -/

def Points (g : Graph) (x y : NodeId) : Prop :=
  (∃ edge, g.Refers x edge y) ∨ g.phiRegion[x]? = some y

theorem mem_edgesOf (hn : g.get? x = some node) : y ∈ g.edgesOf x node ↔ g.Points x y := by
  have hedges : y ∈ g.edgesOf x node ↔ y ∈ node.inputs ∨ g.control[x]? = some y ∨
      (∃ e, g.memory[x]? = some e ∧ e.previous = y) ∨
      (∃ e, g.memory[x]? = some e ∧ e.target = some y) ∨ g.phiRegion[x]? = some y := by
    simp [edgesOf, Option.bind_eq_some_iff]
  rw [hedges]
  constructor
  · rintro (hy | hy | hy | hy | hy)
    · exact .inl ⟨.value 0, node, hn, hy⟩
    · exact .inl ⟨.control, hy⟩
    · exact .inl ⟨.previous, hy⟩
    · exact .inl ⟨.target, hy⟩
    · exact .inr hy
  · rintro (⟨edge, hy⟩ | hy)
    · cases edge with
      | value position =>
        obtain ⟨other, ho, hy⟩ := hy
        cases hn.symm.trans ho
        exact .inl hy
      | control => exact .inr (.inl hy)
      | previous => exact .inr (.inr (.inl hy))
      | target => exact .inr (.inr (.inr (.inl hy)))
    · exact .inr (.inr (.inr (.inr hy)))

/-- The nodes that the roots depend on: through inputs, control, the effect before, the address
used and the region of a phi. -/
inductive Reaches (g : Graph) : NodeId → Prop
  | root {x : NodeId} : x ∈ g.roots → g.Has x → Reaches g x
  | edge {x y : NodeId} : Reaches g x → g.Points x y → g.Has y → Reaches g y

theorem Reaches.has (h : g.Reaches x) : g.Has x := by
  cases h with
  | root _ hx => exact hx
  | edge _ _ hx => exact hx

theorem mem_reached_iff : x ∈ g.reached ↔ g.Reaches x := by
  constructor
  · refine of_mem_walk ?_ ?_
    · intro y hy hhas
      exact .root (Std.ExtTreeSet.mem_toList.1 hy) hhas
    · intro y node hreach hn z hz hhas
      exact .edge hreach ((mem_edgesOf hn).1 hz) hhas
  · intro h
    have hnot : ∀ {z : NodeId}, ¬ z ∈ (∅ : Std.ExtTreeSet NodeId) := by simp
    obtain ⟨hroots, hedges⟩ := @mem_walk g g.edgesOf ∅ g.roots.toList
    induction h with
    | root hroot hhas => exact (hroots _ (Std.ExtTreeSet.mem_toList.2 hroot) hhas).resolve_left hnot
    | edge hreach hp hhas ih =>
      obtain ⟨node, hn⟩ := hreach.has
      exact (hedges _ ih node hn _ ((mem_edgesOf hn).2 hp) hhas).resolve_left hnot

/-- Every edge of a node names a node. -/
def Whole (g : Graph) : Prop := ∀ x y, g.Has x → g.Points x y → g.Has y

theorem whole_iff : g.Whole ↔
    ∀ x ∈ g.ids, ∀ node ∈ g.get? x, ∀ y ∈ g.edgesOf x node, (g.get? y).isSome = true := by
  constructor
  · intro h x _ node hn y hy
    exact has_iff_isSome.1 (h x y ⟨node, hn⟩ ((mem_edgesOf hn).1 hy))
  · rintro h x y ⟨node, hn⟩ hp
    exact has_iff_isSome.2 (h x (mem_ids hn) node hn y ((mem_edgesOf hn).2 hp))

instance : Decidable g.Whole := decidable_of_iff _ whole_iff.symm

/-! ### The sweep -/

/-- The nodes that the roots do not depend on, in slot order. -/
def deadIds (g : Graph) : List NodeId :=
  g.ids.filter fun id => !(Std.ExtTreeSet.ofList g.reached).contains id

/-- The graph without these nodes, before entries of users are dropped. -/
def swept (g : Graph) : Graph := g.deadIds.foldl remove g.clearMarks

theorem eliminateDeadCode_eq :
    g.eliminateDeadCode = (g.deadIds.length, g.swept.pruneUsers) := rfl

theorem mem_deadIds : x ∈ g.deadIds ↔ g.Has x ∧ ¬ g.Reaches x := by
  unfold deadIds
  rw [List.mem_filter, mem_ids_iff, ← mem_reached_iff]
  simp

theorem nodup_deadIds (g : Graph) : g.deadIds.Nodup := (nodup_ids g).filter _

theorem has_clearMarks : g.clearMarks.Has x ↔ g.Has x := by
  rw [has_iff_isSome, has_iff_isSome, get?_clearMarks]
  simp

theorem without_swept (g : Graph) : Without g.deadIds g.clearMarks g.swept :=
  without_foldl_remove (fun _ hx => has_clearMarks.2 (mem_deadIds.1 hx).1) (nodup_deadIds g)

theorem has_swept : g.swept.Has x ↔ g.Reaches x := by
  rw [(without_swept g).has, has_clearMarks, mem_deadIds]
  constructor
  · rintro ⟨hnot, hhas⟩
    by_contra hreach
    exact hnot ⟨hhas, hreach⟩
  · intro hreach
    exact ⟨fun hmem => hmem.2 hreach, hreach.has⟩

theorem Reaches.not_mem_deadIds (h : g.Reaches x) : ¬ x ∈ g.deadIds :=
  fun hmem => (mem_deadIds.1 hmem).2 h

theorem get?_swept (h : g.Reaches x) : g.swept.get? x = (g.get? x).map Node.unmark := by
  rw [(without_swept g).get?, if_neg h.not_mem_deadIds, get?_clearMarks]

theorem refers_swept (h : g.Reaches x) {edge : Edge} : g.swept.Refers x edge y ↔ g.Refers x edge y := by
  cases edge with
  | value position =>
    simp only [Refers, get?_swept h]
    cases g.get? x <;> simp [Node.unmark]
  | control =>
    simp only [Refers]
    rw [(without_swept g).control, if_neg h.not_mem_deadIds]
    rfl
  | previous | target =>
    simp only [Refers]
    rw [(without_swept g).memory, if_neg h.not_mem_deadIds]
    rfl

/-! ### Dropping entries -/

theorem has_pruneUsers : g.pruneUsers.Has x ↔ g.Has x := by
  rw [has_iff_isSome, has_iff_isSome, get?_pruneUsers]
  simp

theorem refers_pruneUsers {edge : Edge} : g.pruneUsers.Refers x edge y ↔ g.Refers x edge y := by
  cases edge with
  | value position =>
    simp only [Refers, get?_pruneUsers]
    cases g.get? x <;> simp [Node.filterUsers]
  | control => rfl
  | previous => rfl
  | target => rfl

theorem isLive_pruneUsers : g.pruneUsers.isLive x = g.isLive x := by
  unfold isLive
  rw [get?_pruneUsers]
  cases g.get? x <;> rfl

theorem edgeHolds_pruneUsers {u : User} : g.pruneUsers.edgeHolds x u = g.edgeHolds x u := by
  rw [Bool.eq_iff_iff, edgeHolds_iff, edgeHolds_iff, isLive_pruneUsers, refers_pruneUsers]

theorem entered_pruneUsers {u : User} :
    g.pruneUsers.Entered x u ↔ g.Entered x u ∧ g.edgeHolds x u = true := by
  unfold Entered
  rw [get?_pruneUsers]
  cases g.get? x <;> simp [Node.filterUsers]

/-! ### Elimination -/

/-- What `eliminateDeadCode` may do to a graph: `removed` nodes are freed, and `g'` is left. -/
structure Sweeps (g : Graph) (removed : Nat) (g' : Graph) : Prop where
  /-- The nodes left are those that the roots depend on. -/
  has : ∀ x, g'.Has x ↔ g.Reaches x
  /-- A node that is left keeps its operation, its type and its inputs, -/
  node : ∀ x node', g'.get? x = some node' → ∃ node, g.get? x = some node ∧
    node'.op = node.op ∧ node'.ty = node.ty ∧ node'.inputs = node.inputs
  /-- and its places outside the node. -/
  control : ∀ x, g'.Has x → g'.control[x]? = g.control[x]?
  memory : ∀ x, g'.Has x → g'.memory[x]? = g.memory[x]?
  phiRegion : ∀ x, g'.Has x → g'.phiRegion[x]? = g.phiRegion[x]?
  roots : ∀ x, g'.Has x → (x ∈ g'.roots ↔ x ∈ g.roots)
  /-- Nothing that is left names a freed node. -/
  edges : g'.Whole
  users : ∀ x u, g'.Entered x u → g'.Has u.node
  /-- The nodes freed are counted, and `size` falls by that count where it is the number of nodes. -/
  count : removed + g'.ids.length = g.ids.length
  size : g.size = g.ids.length → removed + g'.size = g.size
  /-- There is nothing left to do. -/
  again : g'.eliminateDeadCode = (0, g')

theorem has_eliminated : g.eliminateDeadCode.2.Has x ↔ g.Reaches x := by
  rw [eliminateDeadCode_eq, has_pruneUsers, has_swept]

theorem points_eliminated (h : g.Reaches x) :
    g.eliminateDeadCode.2.Points x y ↔ g.Points x y := by
  have hregion : g.swept.pruneUsers.phiRegion[x]? = g.phiRegion[x]? := by
    show g.swept.phiRegion[x]? = _
    rw [(without_swept g).phiRegion, if_neg h.not_mem_deadIds]
    rfl
  rw [eliminateDeadCode_eq]
  simp only [Points, refers_pruneUsers, refers_swept h, hregion]

theorem get?_eliminated (h : g.Reaches x) : g.eliminateDeadCode.2.get? x =
    ((g.get? x).map Node.unmark).map (Node.filterUsers (g.eliminateDeadCode.2.edgeHolds x)) := by
  have hholds : g.swept.pruneUsers.edgeHolds x = g.swept.edgeHolds x :=
    funext fun _ => edgeHolds_pruneUsers
  rw [eliminateDeadCode_eq, get?_pruneUsers, get?_swept h, hholds]

theorem mem_roots_eliminated (h : g.Reaches x) : x ∈ g.eliminateDeadCode.2.roots ↔ x ∈ g.roots := by
  have := (without_swept g).roots x
  exact this.trans ⟨fun hx => hx.2, fun hx => ⟨h.not_mem_deadIds, hx⟩⟩

theorem reaches_eliminated (h : g.Reaches x) : g.eliminateDeadCode.2.Reaches x := by
  induction h with
  | root hroot hhas =>
    have hreach := Reaches.root hroot hhas
    exact .root ((mem_roots_eliminated hreach).2 hroot) (has_eliminated.2 hreach)
  | edge hreach hp hhas ih =>
    exact .edge ih ((points_eliminated hreach).2 hp) (has_eliminated.2 (.edge hreach hp hhas))

theorem eliminateDeadCode_again :
    g.eliminateDeadCode.2.eliminateDeadCode = (0, g.eliminateDeadCode.2) := by
  generalize he : g.eliminateDeadCode.2 = g'
  have hnone : g'.deadIds = [] := by
    refine List.eq_nil_iff_forall_not_mem.2 ?_
    intro x hx
    obtain ⟨hhas, hnot⟩ := mem_deadIds.1 hx
    subst he
    exact hnot (reaches_eliminated (has_eliminated.1 hhas))
  -- A node that is left has no mark, and its entries are those of edges.
  have hnode : ∀ x node, g'.get? x = some node →
      ∃ old, node = Node.filterUsers (g'.edgeHolds x) (Node.unmark old) := by
    intro x node hn
    subst he
    rw [get?_eliminated (has_eliminated.1 ⟨node, hn⟩)] at hn
    simp only [Option.map_map, Option.map_eq_some_iff] at hn
    obtain ⟨old, -, hold⟩ := hn
    exact ⟨old, hold.symm⟩
  have hmarks : g'.clearMarks = g' := by
    refine clearMarks_eq ?_
    intro x node hn
    obtain ⟨old, rfl⟩ := hnode x node hn
    rfl
  have hentries : g'.pruneUsers = g' := by
    refine pruneUsers_eq ?_
    intro x node hn u hu
    obtain ⟨old, rfl⟩ := hnode x node hn
    exact (List.mem_filter.1 hu).2
  rw [eliminateDeadCode_eq, swept, hnone, List.foldl_nil, hmarks, hentries]
  rfl

theorem length_ids_eliminated :
    g.eliminateDeadCode.1 + g.eliminateDeadCode.2.ids.length = g.ids.length := by
  have hleft : g.eliminateDeadCode.2.ids.length =
      (g.ids.filter (Std.ExtTreeSet.ofList g.reached).contains).length := by
    refine length_ids_of_has ((nodup_ids g).filter _) ?_
    intro x
    have hhas : x ∈ g.reached → g.Has x := fun hx => (mem_reached_iff.1 hx).has
    rw [has_eliminated, List.mem_filter, mem_ids_iff, ← mem_reached_iff]
    simpa using hhas
  have hsplit := List.length_eq_length_filter_add (l := g.ids)
    (Std.ExtTreeSet.ofList g.reached).contains
  have hfreed : g.eliminateDeadCode.1 = (g.ids.filter fun id =>
      !(Std.ExtTreeSet.ofList g.reached).contains id).length := rfl
  omega

theorem size_eliminated (hsize : g.size = g.ids.length) :
    g.eliminateDeadCode.1 + g.eliminateDeadCode.2.size = g.size := by
  have hle : g.deadIds.length ≤ g.ids.length := List.length_filter_le _ _
  have hswept : g.swept.size = g.size - g.deadIds.length := (without_swept g).size
  show g.deadIds.length + g.swept.size = g.size
  omega

/-- Eliminating dead code frees the nodes that the roots do not depend on and no others, leaves the
rest as they are, and has nothing to do when it is done again. -/
theorem sweeps_eliminateDeadCode (hwhole : g.Whole) :
    Sweeps g g.eliminateDeadCode.1 g.eliminateDeadCode.2 where
  has _ := has_eliminated
  node x node' hn := by
    rw [get?_eliminated (has_eliminated.1 ⟨node', hn⟩)] at hn
    simp only [Option.map_map, Option.map_eq_some_iff] at hn
    obtain ⟨node, hget, rfl⟩ := hn
    exact ⟨node, hget, rfl, rfl, rfl⟩
  control x hx := by
    have h := (without_swept g).control x
    rw [if_neg (has_eliminated.1 hx).not_mem_deadIds] at h
    exact h
  memory x hx := by
    have h := (without_swept g).memory x
    rw [if_neg (has_eliminated.1 hx).not_mem_deadIds] at h
    exact h
  phiRegion x hx := by
    have h := (without_swept g).phiRegion x
    rw [if_neg (has_eliminated.1 hx).not_mem_deadIds] at h
    exact h
  roots x hx := mem_roots_eliminated (has_eliminated.1 hx)
  edges x y hx hp := by
    have hreach := has_eliminated.1 hx
    have hp := (points_eliminated hreach).1 hp
    exact has_eliminated.2 (.edge hreach hp (hwhole x y hreach.has hp))
  users x u hu := by
    rw [eliminateDeadCode_eq, entered_pruneUsers] at hu
    obtain ⟨z, edge⟩ := u
    have hlive := (edgeHolds_iff.1 hu.2).1
    rw [eliminateDeadCode_eq, has_pruneUsers]
    obtain ⟨node, hn, -⟩ := isLive_iff.1 hlive
    exact ⟨node, hn⟩
  count := length_ids_eliminated
  size := size_eliminated
  again := eliminateDeadCode_again

/-- A loop with a phi of memory before the one root, and two nodes of another part that use each
other. The first of them has a mark, and the loop has an entry of it. -/
def loopAndCycle : Graph where
  slots := #[
    ⟨0, some { op := .start, ty := .control true, inputs := [] }⟩,
    ⟨0, some { op := .loop, ty := .control true, inputs := [⟨0, 0⟩, ⟨1, 0⟩],
               users := [⟨⟨1, 0⟩, .value 1⟩, ⟨⟨4, 0⟩, .control⟩] }⟩,
    ⟨0, some { op := .phi, ty := .memory, inputs := [⟨1, 0⟩, ⟨0, 0⟩, ⟨2, 0⟩] }⟩,
    ⟨0, some { op := .return_, ty := .control true, inputs := [] }⟩,
    ⟨0, some { op := .build, ty := .void, inputs := [⟨5, 0⟩], replaced := true }⟩,
    ⟨0, some { op := .build, ty := .void, inputs := [⟨4, 0⟩] }⟩]
  control := (∅ : Std.ExtTreeMap NodeId NodeId).insert ⟨3, 0⟩ ⟨1, 0⟩ |>.insert ⟨2, 0⟩ ⟨1, 0⟩
  memory := (∅ : Std.ExtTreeMap NodeId MemoryEffect).insert ⟨3, 0⟩ ⟨⟨2, 0⟩, none, .unknown⟩
  phiRegion := (∅ : Std.ExtTreeMap NodeId NodeId).insert ⟨2, 0⟩ ⟨1, 0⟩
  roots := (∅ : Std.ExtTreeSet NodeId).insert ⟨3, 0⟩
  size := 6

theorem sweeps_loopAndCycle : loopAndCycle.Whole ∧ loopAndCycle.size = loopAndCycle.ids.length ∧
    Sweeps loopAndCycle 2 loopAndCycle.eliminateDeadCode.2 :=
  have hwhole : loopAndCycle.Whole := by decide +kernel
  have hcount : loopAndCycle.eliminateDeadCode.1 = 2 := by decide +kernel
  ⟨hwhole, by decide, hcount ▸ sweeps_eliminateDeadCode hwhole⟩

end SeaOfNodes.Graph
