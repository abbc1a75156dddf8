import Mathlib.Logic.Relation
import SeaOfNodes.Proofs.Graph.Orderly
import SeaOfNodes.Proofs.Graph.Sweep

/-!
What a state of memory comes from. A node sees the effects that steps back along the chain of memory
lead to; where paths joined, a step goes to any case of the phi, and from the entry of a function it
goes to the return of its body. An effect that a root sees stays when dead code is removed.

A change retains a graph if every node still sees what it saw. Adding nodes and inputs is such a
change. A phi that stands for one value can be replaced by it: whatever else is seen from anywhere is
seen from there (`reroutes_replace`).
-/
namespace SeaOfNodes

/-- The states of memory that a node names among its inputs: the cases of a phi, and the return of a
function. -/
def Node.memories (node : Node) : List NodeId :=
  match node.op with
  | .phi => node.inputs.tail
  | .function _ => node.inputs
  | _ => []

theorem Node.memories_map (node : Node) (f : NodeId → NodeId) (us : List User) (mark : Bool) :
    ({ node with inputs := node.inputs.map f, users := us, replaced := mark } : Node).memories =
      node.memories.map f := by
  unfold memories
  cases node.op <;> simp

theorem Node.memories_append (node : Node) (input : NodeId) :
    ∀ y ∈ node.memories, y ∈ (node.append input).memories := by
  unfold memories append
  intro y hy
  cases hop : node.op <;> simp only [hop] at hy ⊢ <;>
    first
    | exact List.mem_append_left _ hy
    | contradiction
    | skip
  cases hinputs : node.inputs <;> simp_all

namespace Graph

variable {g g' g'' : Graph} {a id x y r old new : NodeId} {node : Node} {phis : List NodeId}

/-- One step back from a node: to the effect before it, or to a state that it names. -/
def Back (g : Graph) (x y : NodeId) : Prop :=
  (∃ e, g.memory[x]? = some e ∧ e.previous = y) ∨ ∃ node, g.get? x = some node ∧ y ∈ node.memories

/-- Steps back lead from `a` to `x`. -/
def Sees (g : Graph) (a x : NodeId) : Prop := Relation.ReflTransGen g.Back a x

def Rooted (g : Graph) (x : NodeId) : Prop := ∃ r ∈ g.roots, g.Has r ∧ g.Sees r x

/-- A node is there and no load. Loads alone are left out of the chain by later ones. -/
def Firm (g : Graph) (x : NodeId) : Prop := g.At x fun op _ => ∀ offset, op ≠ .load offset

theorem Keeps.firm_iff (h : Keeps g g') (hx : g.Has x) : g'.Firm x ↔ g.Firm x := by
  obtain ⟨node, hn⟩ := hx
  obtain ⟨node', hn', hop, -⟩ := h.node hn
  simp [Firm, At, hn, hn', hop]

theorem Sees.refl (g : Graph) (x : NodeId) : g.Sees x x := Relation.ReflTransGen.refl

theorem Back.sees (h : g.Back x y) : g.Sees x y := Relation.ReflTransGen.single h

theorem Sees.trans (h1 : g.Sees a x) (h2 : g.Sees x y) : g.Sees a y := Relation.ReflTransGen.trans h1 h2

theorem Rooted.sees (h : g.Rooted x) (hy : g.Sees x y) : g.Rooted y := by
  obtain ⟨r, hr, hhas, hx⟩ := h
  exact ⟨r, hr, hhas, hx.trans hy⟩

theorem Back.refers (h : g.Back x y) : ∃ edge, g.Refers x edge y := by
  rcases h with ⟨e, he, hy⟩ | ⟨node, hn, hy⟩
  · exact ⟨.previous, e, he, hy⟩
  · refine ⟨.value 0, node, hn, ?_⟩
    unfold Node.memories at hy
    split at hy
    · exact List.mem_of_mem_tail hy
    · exact hy
    · contradiction

theorem Back.has (h : g.Back x y) (ho : g.Orderly) : g.Has y := by
  obtain ⟨edge, hrefers⟩ := h.refers
  obtain ⟨_, -, node, hn, -⟩ := ho.registered x edge y hrefers
  exact ⟨node, hn⟩

theorem Rooted.reaches (h : g.Rooted x) (ho : g.Orderly) : g.Reaches x := by
  obtain ⟨r, hr, hhas, hsees⟩ := h
  induction hsees with
  | refl => exact .root hr hhas
  | tail _ hback ih => exact .edge ih (.inl hback.refers) (hback.has ho)

/-! ### Changes that retain -/

structure Retains (g g' : Graph) : Prop where
  keeps : Keeps g g'
  back : ∀ {x y}, g.Back x y → ∃ z, g'.Back x z
  sees : ∀ {a x}, g.Has x → g.Sees a x → g'.Sees a x
  rooted : ∀ {x}, g.Has x → g.Rooted x → g'.Rooted x

namespace Retains

theorem refl (g : Graph) : Retains g g := ⟨.refl g, fun h => ⟨_, h⟩, fun _ h => h, fun _ h => h⟩

theorem trans (h1 : Retains g g') (h2 : Retains g' g'') : Retains g g'' where
  keeps := h1.keeps.trans h2.keeps
  back h := by
    obtain ⟨z, hz⟩ := h1.back h
    exact h2.back hz
  sees hx h := h2.sees (h1.keeps.has hx) (h1.sees hx h)
  rooted hx h := h2.rooted (h1.keeps.has hx) (h1.rooted hx h)

theorem sees_of (h : Retains g g') (ho : g.Orderly) (hsees : g.Sees a x) : g'.Sees a x := by
  rcases Relation.ReflTransGen.cases_tail hsees with rfl | ⟨y, -, hback⟩
  · exact .refl _ _
  · exact h.sees (hback.has ho) hsees

theorem of_back (hkeeps : Keeps g g') (hback : ∀ x y, g.Back x y → g'.Back x y)
    (hroots : ∀ r ∈ g.roots, r ∈ g'.roots) : Retains g g' := by
  have hsees : ∀ {a x}, g.Sees a x → g'.Sees a x := Relation.ReflTransGen.mono hback _ _
  refine ⟨hkeeps, fun h => ⟨_, hback _ _ h⟩, fun _ h => hsees h, ?_⟩
  rintro x - ⟨r, hr, hhas, h⟩
  exact ⟨r, hroots r hr, hkeeps.has hhas, hsees h⟩

theorem of_nodes (hnode : ∀ {x node}, g.get? x = some node → ∃ node', g'.get? x = some node' ∧
      node'.op = node.op ∧ node'.ty = node.ty ∧ ∀ y ∈ node.memories, y ∈ node'.memories)
    (hmemory : ∀ (x : NodeId) e, g.memory[x]? = some e → g'.memory[x]? = some e)
    (hroots : ∀ r ∈ g.roots, r ∈ g'.roots) : Retains g g' := by
  refine of_back ⟨fun hn => ?_⟩ ?_ hroots
  · obtain ⟨node', hn', hop, hty, -⟩ := hnode hn
    exact ⟨node', hn', hop, hty⟩
  · rintro x y (⟨e, he, hy⟩ | ⟨node, hn, hy⟩)
    · exact .inl ⟨e, hmemory x e he, hy⟩
    · obtain ⟨node', hn', -, -, hmemories⟩ := hnode hn
      exact .inr ⟨node', hn', hmemories y hy⟩

theorem of_enters {h : Graph} (he : Enters h g') (hslots : h.slots = g.slots)
    (hmemory : ∀ (x : NodeId) e, g.memory[x]? = some e → h.memory[x]? = some e)
    (hroots : ∀ r ∈ g.roots, r ∈ h.roots) : Retains g g' := by
  refine of_nodes ?_ (by rwa [he.memory]) (by rwa [he.roots])
  intro x node hn
  have hget : h.get? x = g.get? x := by
    unfold get?
    rw [hslots]
  obtain ⟨us, hus, -⟩ := he.node (hget.trans hn)
  exact ⟨_, hus, rfl, rfl, fun y hy => hy⟩

theorem create {op : Op} {ty : Ty} {inputs : List NodeId} (hd : g.Dense)
    (h : g.create op ty inputs = .ok (id, g')) : Retains g g' := by
  obtain ⟨-, henters, -⟩ := create_spec hd h
  refine of_nodes ?_ (by rw [henters.memory]; exact fun _ _ he => he)
    (by rw [henters.roots]; exact fun _ hr => hr)
  intro x node hn
  obtain ⟨us, hus⟩ := (Extends.create hd h).node hn
  exact ⟨_, hus, rfl, rfl, fun y hy => hy⟩

theorem attachControl {c : NodeId} (h : g.attachControl id c = .ok g') : Retains g g' :=
  of_enters (attachControl_spec h).1 rfl (fun _ _ he => he) fun _ hr => hr

theorem attachMemory {e : MemoryEffect} (hid : g.memory[id]? = none)
    (h : g.attachMemory id e = .ok g') : Retains g g' := by
  refine of_enters (attachMemory_spec h).1 rfl ?_ fun _ hr => hr
  intro x e' he'
  rw [getElem?_insert_id, if_neg, he']
  rintro rfl
  simp [hid] at he'

theorem addPhi {region phi : NodeId} {cases : List NodeId} {ty : Ty} (hd : g.Dense)
    (h : g.addPhi region cases ty = .ok (phi, g')) : Retains g g' := by
  obtain ⟨⟨phi', g1⟩, h1, h⟩ := bind_eq_ok_iff.1 h
  obtain ⟨g2, h2, h⟩ := bind_eq_ok_iff.1 h
  cases Except.ok.inj h
  refine ((create hd h1).trans (attachControl h2)).trans ?_
  exact of_enters (.refl _) rfl (fun _ _ he => he) fun _ hr => hr

theorem appendInput {input : NodeId} (h : g.appendInput id input = .ok g') : Retains g g' := by
  obtain ⟨node, hn, henters, -⟩ := appendInput_spec h
  refine of_nodes ?_ (by rw [henters.memory]; exact fun _ _ he => he)
    (by rw [henters.roots]; exact fun _ hr => hr)
  intro x other ho
  by_cases hx : x = id
  · subst hx
    cases hn.symm.trans ho
    obtain ⟨us, hus, -⟩ := henters.node (by rw [get?_mapNode _ ⟨node, hn⟩, if_pos rfl, hn]; rfl)
    exact ⟨_, hus, rfl, rfl, node.memories_append input⟩
  · obtain ⟨us, hus, -⟩ := henters.node (by rw [get?_mapNode _ ⟨node, hn⟩, if_neg hx, ho])
    exact ⟨_, hus, rfl, rfl, fun y hy => hy⟩

theorem of_slots (hslots : g'.slots = g.slots) (hmemory : g'.memory = g.memory)
    (hroots : ∀ r ∈ g.roots, r ∈ g'.roots) : Retains g g' :=
  of_enters (.refl g') hslots (fun _ _ he => hmemory ▸ he) hroots

theorem markRoot (id : NodeId) : Retains g (g.markRoot id) :=
  of_slots rfl rfl fun _ hr => Std.ExtTreeSet.mem_insert.2 (.inr hr)

end Retains

theorem rooted_markRoot (hid : g.Has id) : (g.markRoot id).Rooted id :=
  ⟨id, Std.ExtTreeSet.mem_insert_self, hid, .refl _ _⟩

/-! ### Phis that stand for one value -/

/-- `old` is a phi whose cases are itself and `new`. -/
structure Stands (g : Graph) (old new : NodeId) : Prop where
  ne : old ≠ new
  phi : g.IsPhi old
  back : g.Back old new
  only : ∀ y, g.Back old y → y = old ∨ y = new

theorem Stands.sees (h : g.Stands old new) (hx : x ≠ old) (hsees : g.Sees old x) : g.Sees new x := by
  obtain ⟨a, ha⟩ : ∃ a, a = old := ⟨old, rfl⟩
  rw [← ha] at hsees
  induction hsees using Relation.ReflTransGen.head_induction_on with
  | refl => exact absurd ha hx
  | head hback hsees ih =>
    subst ha
    rcases h.only _ hback with rfl | rfl
    · exact ih rfl
    · exact hsees

/-- What is seen, the nodes of a list apart, is the same in both graphs. -/
structure Reroutes (phis : List NodeId) (g g' : Graph) : Prop where
  keeps : Keeps g g'
  back : ∀ {x y}, g.Back x y → ∃ z, g'.Back x z
  sees : ∀ {a x}, x ∉ phis → (g'.Sees a x ↔ g.Sees a x)
  rooted : ∀ {x}, x ∉ phis → g.Rooted x → g'.Rooted x

theorem Reroutes.refl (phis : List NodeId) (g : Graph) : Reroutes phis g g :=
  ⟨.refl g, fun h => ⟨_, h⟩, fun _ => .rfl, fun _ h => h⟩

theorem Reroutes.trans (h1 : Reroutes phis g g') (h2 : Reroutes phis g' g'') :
    Reroutes phis g g'' where
  keeps := h1.keeps.trans h2.keeps
  back h := by
    obtain ⟨z, hz⟩ := h1.back h
    exact h2.back hz
  sees hx := (h2.sees hx).trans (h1.sees hx)
  rooted hx h := h2.rooted hx (h1.rooted hx h)

theorem Reroutes.mono {xs : List NodeId} (h : Reroutes phis g g') (hphis : phis ⊆ xs) :
    Reroutes xs g g' where
  keeps := h.keeps
  back := h.back
  sees hx := h.sees fun hmem => hx (hphis hmem)
  rooted hx := h.rooted fun hmem => hx (hphis hmem)

theorem Retains.reroutes (h : Retains g g') (h' : Reroutes phis g' g'')
    (hphis : ∀ x ∈ phis, ¬ g.Has x) : Retains g g'' where
  keeps := h.keeps.trans h'.keeps
  back hback := by
    obtain ⟨z, hz⟩ := h.back hback
    exact h'.back hz
  sees hx hsees := (h'.sees fun hmem => hphis _ hmem hx).2 (h.sees hx hsees)
  rooted hx hrooted := h'.rooted (fun hmem => hphis _ hmem hx) (h.rooted hx hrooted)

theorem Orderly.memory_phi (h : g.Orderly) (hphi : g.IsPhi x) : g.memory[x]? = none := by
  cases he : g.memory[x]? with
  | none => rfl
  | some e => exact (hphi.false_of (h.plain x e he) fun op ty hop hnot => hnot.2 hop).elim

theorem Orderly.sees_appendInput (h : g.Orderly) (hphi : g.IsPhi x) (hback : g.Back x y)
    (ha : g.appendInput x a = .ok g') : g'.Sees x a := by
  obtain ⟨node, hn, henters, -⟩ := appendInput_spec ha
  obtain ⟨us, hus, -⟩ := henters.node (by rw [get?_mapNode _ ⟨node, hn⟩, if_pos rfl, hn]; rfl)
  obtain ⟨other, ho, hop⟩ := hphi
  cases hn.symm.trans ho
  have hmem : y ∈ node.inputs.tail := by
    rcases hback with ⟨e, he, -⟩ | ⟨other, ho, hy⟩
    · simp [h.memory_phi ⟨node, hn, hop⟩] at he
    · cases hn.symm.trans ho
      simpa [Node.memories, hop] using hy
  refine Back.sees (.inr ⟨_, hus, ?_⟩)
  cases hinputs : node.inputs with
  | nil => simp [hinputs] at hmem
  | cons r cases => simp [Node.memories, Node.append, hop, hinputs]

theorem back_appendInput {name : String} (hx : g.At x fun op _ => op = .function name)
    (ha : g.appendInput x a = .ok g') : g'.Back x a := by
  obtain ⟨node, hn, henters, -⟩ := appendInput_spec ha
  obtain ⟨us, hus, -⟩ := henters.node (by rw [get?_mapNode _ ⟨node, hn⟩, if_pos rfl, hn]; rfl)
  obtain ⟨other, ho, hop⟩ := hx
  cases hn.symm.trans ho
  exact .inr ⟨_, hus, by simp [Node.memories, Node.append, hop]⟩

section Replace

variable (hr : g.replace old new = .ok g') (hne : old ≠ new) (hmemory : g.memory[old]? = none)
include hr hne hmemory

theorem memories_replace (hn : g.get? x = some node) : ∃ node', g'.get? x = some node' ∧
    (node'.memories = node.memories ∨
      node'.memories = node.memories.map fun y => if y = old then new else y) := by
  obtain ⟨us, es, -, hes⟩ := get?_replace hr hne hn
  have hstate : (g.turnOf old new).standIn node = new := by
    simp [Turn.standIn, turnOf, hmemory]
  refine ⟨_, hes, ?_⟩
  unfold Turn.inputs
  split
  · right
    rw [hstate]
    exact node.memories_map _ es _
  · exact .inl rfl

theorem memory_replace (x : NodeId) : ∃ f : MemoryEffect → MemoryEffect,
    g'.memory[x]? = g.memory[x]?.map f ∧ ∀ e, g.memory[x]? = some e →
      (f e).previous = e.previous ∨ e.previous = old ∧ (f e).previous = new := by
  obtain ⟨us, g1, hus, hturned, -, rfl⟩ := replace_spec hr hne
  refine ⟨_, hturned.memory x, fun e he => ?_⟩
  unfold Turn.effect
  split
  · rename_i hmem
    obtain ⟨-, other, ho, hprevious⟩ := edgeHolds_previous_iff.1 ((mem_users hus).1 hmem).2
    cases he.symm.trans ho
    exact .inr ⟨hprevious, by simp [turnOf, hmemory]⟩
  · exact .inl rfl

theorem back_replace (h : g.Back x y) : g'.Back x y ∨ y = old ∧ g'.Back x new := by
  rcases h with ⟨e, he, rfl⟩ | ⟨node, hn, hy⟩
  · obtain ⟨f, hf, hprevious⟩ := memory_replace hr hne hmemory x
    rw [he] at hf
    rcases hprevious e he with hsame | ⟨hold, hnew⟩
    · exact .inl (.inl ⟨f e, hf, hsame⟩)
    · exact .inr ⟨hold, .inl ⟨f e, hf, hnew⟩⟩
  · obtain ⟨node', hn', hmemories⟩ := memories_replace hr hne hmemory hn
    by_cases hold : y = old
    · subst hold
      rcases hmemories with hsame | hrenamed
      · exact .inl (.inr ⟨node', hn', hsame ▸ hy⟩)
      · exact .inr ⟨rfl, .inr ⟨node', hn', hrenamed ▸ List.mem_map.2 ⟨y, hy, if_pos rfl⟩⟩⟩
    · refine .inl (.inr ⟨node', hn', ?_⟩)
      rcases hmemories with hsame | hrenamed
      · exact hsame ▸ hy
      · exact hrenamed ▸ List.mem_map.2 ⟨y, hy, if_neg hold⟩

theorem back_of_replace (h : g'.Back x y) : g.Back x y ∨ y = new ∧ g.Back x old := by
  rcases h with ⟨e', he', rfl⟩ | ⟨node', hn', hy⟩
  · obtain ⟨f, hf, hprevious⟩ := memory_replace hr hne hmemory x
    obtain ⟨e, he, rfl⟩ := Option.map_eq_some_iff.1 (hf.symm.trans he')
    rcases hprevious e he with hsame | ⟨hold, hnew⟩
    · exact .inl (.inl ⟨e, he, hsame.symm⟩)
    · exact .inr ⟨hnew, .inl ⟨e, he, hold⟩⟩
  · obtain ⟨node, hn, -⟩ := get?_of_replace hr hne hn'
    obtain ⟨other, ho, hmemories⟩ := memories_replace hr hne hmemory hn
    cases hn'.symm.trans ho
    rcases hmemories with hsame | hrenamed
    · exact .inl (.inr ⟨node, hn, hsame ▸ hy⟩)
    · rw [hrenamed] at hy
      obtain ⟨z, hz, hzy⟩ := List.mem_map.1 hy
      split at hzy
      · rename_i hold
        exact .inr ⟨hzy.symm, .inr ⟨node, hn, hold ▸ hz⟩⟩
      · exact .inl (.inr ⟨node, hn, hzy ▸ hz⟩)

end Replace

theorem Stands.replace (h : g.Stands old new) (ho : g.Orderly) (hr : g.replace old new = .ok g') :
    g'.Stands old new := by
  have hmemory := ho.memory_phi h.phi
  refine ⟨h.ne, (keeps_replace hr).at h.phi, ?_, fun y hback => ?_⟩
  · rcases back_replace hr h.ne hmemory h.back with hback | ⟨-, hback⟩
    · exact hback
    · exact hback
  · rcases back_of_replace hr h.ne hmemory hback with hback | ⟨rfl, -⟩
    · exact h.only y hback
    · exact .inr rfl

theorem reroutes_replace (h : g.Stands old new) (ho : g.Orderly)
    (hr : g.replace old new = .ok g') : Reroutes [old] g g' := by
  have hmemory := ho.memory_phi h.phi
  have hstands := h.replace ho hr
  have hsees : ∀ {a x}, x ≠ old → g.Sees a x → g'.Sees a x := by
    intro a x hx hsees
    induction hsees using Relation.ReflTransGen.head_induction_on with
    | refl => exact .refl _ _
    | head hback _ ih =>
      rcases back_replace hr h.ne hmemory hback with hback | ⟨rfl, hback⟩
      · exact hback.sees.trans ih
      · exact hback.sees.trans (hstands.sees hx ih)
  refine ⟨keeps_replace hr, fun hback => ?_,
    fun hx => ⟨fun hsees' => ?_, hsees (by simpa using hx)⟩, ?_⟩
  · rcases back_replace hr h.ne hmemory hback with hback | ⟨-, hback⟩
    · exact ⟨_, hback⟩
    · exact ⟨_, hback⟩
  · induction hsees' using Relation.ReflTransGen.head_induction_on with
    | refl => exact .refl _ _
    | head hback _ ih =>
      rcases back_of_replace hr h.ne hmemory hback with hback | ⟨rfl, hback⟩
      · exact hback.sees.trans ih
      · exact (hback.sees.trans h.back.sees).trans ih
  · rintro x hx ⟨r, hroot, hhas, hsees'⟩
    have hx : x ≠ old := by simpa using hx
    have hkeeps := keeps_replace hr
    obtain ⟨us, g1, -, -, -, heq⟩ := replace_spec hr h.ne
    have hroots : g'.roots = g.rootsAfter old new := heq ▸ rfl
    unfold rootsAfter at hroots
    by_cases hr : r = old
    · subst hr
      rw [if_pos hroot] at hroots
      refine ⟨new, ?_, hkeeps.has (h.back.has ho), hstands.sees hx (hsees hx hsees')⟩
      rw [hroots]
      exact Std.ExtTreeSet.mem_insert_self
    · refine ⟨r, ?_, hkeeps.has hhas, hsees hx hsees'⟩
      rw [hroots]
      split
      · refine Std.ExtTreeSet.mem_insert.2 (.inr (Std.ExtTreeSet.mem_erase.2 ⟨?_, hroot⟩))
        simpa using fun heq => hr heq.symm
      · exact hroot

end Graph

end SeaOfNodes
