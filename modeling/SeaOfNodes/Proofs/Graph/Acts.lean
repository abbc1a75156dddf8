import SeaOfNodes.Proofs.Graph.Sees

/-!
Operations that act on memory or on the world: stores, calls, and the casts that make a string, which
are the casts in the chain of memory. A change is silent if no node acts behind it that did not act
before it.
-/
namespace SeaOfNodes

@[simp] def Op.acts : Op → Bool
  | .store _ | .call => true
  | _ => false

namespace Graph

variable {g g' g'' : Graph} {id x : NodeId} {inputs : List NodeId} {ty : Ty}

/-- A store, a call, or a cast that is an effect. -/
def Acts (g : Graph) (x : NodeId) : Prop :=
  g.At x fun op _ => op.acts = true ∨ op = .cast ∧ ∃ e, g.memory[x]? = some e

def Silent (g g' : Graph) : Prop := ∀ x, g'.Acts x → g.Acts x

namespace Silent

theorem refl (g : Graph) : Silent g g := fun _ h => h

theorem trans (h1 : Silent g g') (h2 : Silent g' g'') : Silent g g'' := fun x h => h1 x (h2 x h)

section

variable (hkeeps : Keeps g g')
  (hmemory : ∀ (y : NodeId) e', g'.memory[y]? = some e' → ∃ e, g.memory[y]? = some e)
include hkeeps hmemory

theorem of_keeps (hnew : ∀ y, g'.Acts y → g.Has y) : Silent g g' := by
  intro y hacts
  obtain ⟨node, hn⟩ := hnew y hacts
  obtain ⟨node', hn', hop, -⟩ := hkeeps.node hn
  obtain ⟨other, ho, hacts⟩ := hacts
  cases hn'.symm.trans ho
  rw [hop] at hacts
  exact ⟨node, hn, hacts.imp_right fun ⟨hcast, e', he'⟩ => ⟨hcast, hmemory y e' he'⟩⟩

theorem of_has (hhas : ∀ y, g'.Has y → g.Has y) : Silent g g' :=
  .of_keeps hkeeps hmemory fun y hacts => hhas y hacts.has

end

theorem of_enters {h : Graph} (he : Enters h g') (hslots : h.slots = g.slots)
    (hmemory : h.memory = g.memory) : Silent g g' := by
  have hget : ∀ y, h.get? y = g.get? y := fun y => by
    unfold get?
    rw [hslots]
  refine .of_has ⟨fun hn => ?_⟩ (fun y e' he' => ⟨e', ?_⟩) fun y ⟨node, hn⟩ => ?_
  · obtain ⟨us, hus, -⟩ := he.node ((hget _).trans hn)
    exact ⟨_, hus, rfl, rfl⟩
  · rwa [he.memory, hmemory] at he'
  · obtain ⟨other, ho⟩ := he.back hn
    exact ⟨other, (hget y).symm.trans ho⟩

theorem of_new (ho : g.Orderly) (hkeeps : Keeps g g') (hmemory : g'.memory = g.memory)
    (hhas : ∀ y, g'.Has y → y = id ∨ g.Has y) (hid : g'.At id fun op _ => op.acts = false) :
    Silent g g' := by
  refine .of_keeps hkeeps (fun y e' he' => ⟨e', hmemory ▸ he'⟩) fun y hacts => ?_
  rcases hhas y hacts.has with rfl | hy
  · obtain ⟨node, hn, hop⟩ := hid
    obtain ⟨other, hother, hacts | ⟨-, e, he⟩⟩ := hacts
    · cases hn.symm.trans hother
      rw [hop] at hacts
      contradiction
    · rw [hmemory] at he
      exact (ho.plain y e he).has
  · exact hy

theorem create {op : Op} (ho : g.Orderly) (hop : op.acts = false)
    (h : g.create op ty inputs = .ok (id, g')) : Silent g g' := by
  obtain ⟨-, us, hself⟩ := create_self ho.dense h
  exact .of_new ho (Retains.create ho.dense h).keeps (create_frame ho.dense h).2.1
    (fun y => (has_create ho.dense h).1) ⟨_, hself, hop⟩

theorem addPhi {region : NodeId} {cases : List NodeId} (ho : g.Orderly)
    (h : g.addPhi region cases ty = .ok (id, g')) : Silent g g' := by
  obtain ⟨⟨phi, g1⟩, h1, h⟩ := bind_eq_ok_iff.1 h
  obtain ⟨g2, h2, h⟩ := bind_eq_ok_iff.1 h
  cases Except.ok.inj h
  refine ((Silent.create ho rfl h1).trans (.of_enters (attachControl_spec h2).1 rfl rfl)).trans ?_
  exact .of_enters (.refl _) rfl rfl

theorem appendInput {input : NodeId} (h : g.appendInput id input = .ok g') : Silent g g' := by
  obtain ⟨node, hn, henters, -⟩ := appendInput_spec h
  refine .of_has (Retains.appendInput h).keeps (fun y e' he' => ⟨e', ?_⟩) fun y hy => ?_
  · exact henters.memory ▸ he'
  · obtain ⟨other, ho⟩ := hy
    exact (has_mapNode _ ⟨node, hn⟩).1 (henters.back ho)

theorem replace {old new : NodeId} (h : g.replace old new = .ok g') : Silent g g' := by
  by_cases hne : old = new
  · obtain rfl := replace_self h hne
    exact .refl _
  · refine .of_has (keeps_replace h) (fun y e' he' => ?_) fun y hy => ?_
    · obtain ⟨us, g1, -, hturned, -, rfl⟩ := replace_spec h hne
      obtain ⟨e, he, -⟩ := Option.map_eq_some_iff.1 ((hturned.memory y).symm.trans he')
      exact ⟨e, he⟩
    · obtain ⟨node', hn'⟩ := hy
      obtain ⟨node, hn, -⟩ := get?_of_replace h hne hn'
      exact ⟨node, hn⟩

end Silent

theorem Acts.of_create {op : Op} (hacts : g'.Acts x) (ho : g.Orderly)
    (h : g.create op ty inputs = .ok (id, g')) (hne : x ≠ id) : g.Acts x := by
  have hkeeps := (Retains.create ho.dense h).keeps
  obtain ⟨node, hn⟩ := ((has_create ho.dense h).1 hacts.has).resolve_left hne
  obtain ⟨node', hn', hop, -⟩ := hkeeps.node hn
  obtain ⟨other, hother, hacts⟩ := hacts
  cases hn'.symm.trans hother
  rw [hop, (create_frame ho.dense h).2.1] at hacts
  exact ⟨node, hn, hacts⟩

theorem Acts.of_attachMemory {e : MemoryEffect} (hacts : g'.Acts x)
    (h : g.attachMemory id e = .ok g') (hne : x ≠ id) : g.Acts x := by
  have henters := (attachMemory_spec h).1
  obtain ⟨node', hn', hacts⟩ := hacts
  obtain ⟨node, hn⟩ := henters.back hn'
  obtain ⟨us, hus, -⟩ := henters.node hn
  cases hus.symm.trans hn'
  refine ⟨node, hn, hacts.imp_right fun ⟨hcast, e', he'⟩ => ⟨hcast, e', ?_⟩⟩
  rwa [henters.memory, getElem?_insert_id, if_neg hne] at he'

end Graph

end SeaOfNodes
