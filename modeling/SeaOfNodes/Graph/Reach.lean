import SeaOfNodes.Graph.Edge

/-!
What a node depends on, the nodes that the roots depend on, and freeing all others.
-/
namespace SeaOfNodes.Graph

/-- What a node depends on: its inputs, its control predecessor, the effect before it, the address
that it uses and the region of a phi, in this order. -/
def edgesOf (g : Graph) (id : NodeId) (node : Node) : List NodeId :=
  let effect := g.memory[id]?
  node.inputs ++ g.control[id]?.toList ++ (effect.map MemoryEffect.previous).toList ++
    (effect.bind MemoryEffect.target).toList ++ g.phiRegion[id]?.toList

def dependencies (g : Graph) (id : NodeId) : Except Fault (List NodeId) := do
  return g.edgesOf id (← g.node id)

theorem mem_handlesFrom {slots : List Slot} {start : Nat} {id : NodeId} {slot : Slot} {node : Node}
    (hs : slots[id.index - start]? = some slot) (hstart : start ≤ id.index)
    (hg : slot.generation = id.generation) (hn : slot.node = some node) :
    id ∈ handlesFrom start slots := by
  induction slots generalizing start with
  | nil => simp at hs
  | cons s slots ih =>
    rw [handlesFrom]
    rcases Nat.eq_or_lt_of_le hstart with h | h
    · subst h
      simp only [Nat.sub_self, List.getElem?_cons_zero, Option.some.injEq] at hs
      subst hs
      simp [hn, hg]
    · have hi : id.index - start = id.index - (start + 1) + 1 := by omega
      rw [hi, List.getElem?_cons_succ] at hs
      have := ih hs h
      split
      · exact List.mem_cons_of_mem _ this
      · exact this

theorem mem_ids {g : Graph} {id : NodeId} {node : Node} (h : g.get? id = some node) :
    id ∈ g.ids := by
  unfold get? at h
  split at h
  · rename_i slot hs
    split at h
    · rename_i hg
      exact mem_handlesFrom (by simpa using hs) (Nat.zero_le _) hg h
    · contradiction
  · contradiction

/-- The sum of `f` over the members of a list that `p` holds of. -/
def total {α : Type} (p : α → Bool) (f : α → Nat) : List α → Nat
  | [] => 0
  | x :: xs => (if p x then f x else 0) + total p f xs

/-- Number of handles that a walk along `next` still has to look at when it has seen `seen`. -/
def unseenWeight (g : Graph) (next : NodeId → Node → List NodeId) (seen : Std.ExtTreeSet NodeId) :
    Nat :=
  total (fun id => !seen.contains id)
    (fun id => ((g.get? id).elim 0 fun node => (next id node).length) + 1) g.ids

theorem total_mono {α : Type} {p q : α → Bool} {f : α → Nat} (hpq : ∀ x, q x = true → p x = true)
    (xs : List α) : total q f xs ≤ total p f xs := by
  induction xs with
  | nil => exact Nat.le_refl _
  | cons x xs ih =>
    rw [total, total]
    by_cases hq : q x = true
    · simp only [hq, hpq x hq, if_true]
      omega
    · simp only [hq, Bool.false_eq_true, if_false]
      omega

theorem total_lt {α : Type} {xs : List α} {p q : α → Bool} {f : α → Nat} {a : α}
    (ha : a ∈ xs) (hp : p a = true) (hq : q a = false) (hpq : ∀ x, q x = true → p x = true) :
    total q f xs + f a ≤ total p f xs := by
  induction xs with
  | nil => simp at ha
  | cons x xs ih =>
    rw [total, total]
    rcases List.mem_cons.1 ha with rfl | h
    · have := total_mono (f := f) hpq xs
      simp only [hp, hq, if_true, Bool.false_eq_true, if_false]
      omega
    · have := ih h
      by_cases hx : q x = true
      · simp only [hx, hpq x hx, if_true]
        omega
      · simp only [hx, Bool.false_eq_true, if_false]
        omega

theorem unseenWeight_insert {g : Graph} (next : NodeId → Node → List NodeId)
    {seen : Std.ExtTreeSet NodeId} {id : NodeId} {node : Node}
    (h : g.get? id = some node) (hs : ¬ id ∈ seen) :
    g.unseenWeight next (seen.insert id) + ((next id node).length + 1) ≤
      g.unseenWeight next seen := by
  have hs' : seen.contains id = false := by
    rw [Std.ExtTreeSet.mem_iff_contains] at hs
    exact Bool.eq_false_iff.2 hs
  have := total_lt (f := fun id => ((g.get? id).elim 0 fun node => (next id node).length) + 1)
    (p := fun id => !seen.contains id) (q := fun x => !(seen.insert id).contains x)
    (mem_ids h) (by simp [hs']) (by simp) (by
      intro x hx
      simp only [Std.ExtTreeSet.contains_insert, Bool.not_or, Bool.and_eq_true] at hx
      exact hx.2)
  simpa [unseenWeight, h] using this

/-- The nodes that a walk along `next` reaches, in the order in which it first does: a node comes
before those that follow it, and these are visited in their order. -/
def walk (g : Graph) (next : NodeId → Node → List NodeId) (seen : Std.ExtTreeSet NodeId) :
    List NodeId → List NodeId
  | [] => []
  | id :: pending =>
    match _h : g.get? id with
    | none => walk g next seen pending
    | some node =>
      if _hs : id ∈ seen then walk g next seen pending
      else id :: walk g next (seen.insert id) (next id node ++ pending)
termination_by pending => g.unseenWeight next seen + pending.length
decreasing_by
  · simp
  · simp
  · have := unseenWeight_insert next _h _hs
    simp only [List.length_append, List.length_cons]
    omega

/-- The nodes that the roots depend on, in the order of a walk from the roots. -/
def reached (g : Graph) : List NodeId := g.walk g.edgesOf ∅ g.roots.toList

/-- Takes every mark away. -/
def clearMarks (g : Graph) : Graph :=
  { g with slots := g.slots.map fun slot =>
      { slot with node := slot.node.map fun node => { node with replaced := false } } }

/-- Drops the entries of edges that are not there. -/
def pruneUsers (g : Graph) : Graph :=
  let keep (index : Nat) (slot : Slot) : Slot :=
    { slot with node := slot.node.map fun node =>
        { node with users := node.users.filter (g.edgeHolds ⟨index, slot.generation⟩) } }
  { g with slots := g.slots.mapIdx keep }

/-- Frees every node that the roots do not depend on, and counts them. -/
def eliminateDeadCode (g : Graph) : Nat × Graph :=
  let reached := Std.ExtTreeSet.ofList g.reached
  let dead := g.ids.filter fun id => !reached.contains id
  (dead.length, (dead.foldl remove g.clearMarks).pruneUsers)

end SeaOfNodes.Graph
