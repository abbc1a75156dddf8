import SeaOfNodes.Graph.Reach
import SeaOfNodes.Proofs.Graph.Change

/-!
Slots that are freed and used again. A node is looked up by its slot and its generation, so freeing
one node leaves all others where they are, and the handle of a new node is one that no node had
before. Free slots are empty, and each is listed once.
-/
namespace SeaOfNodes

/-- The node when no other stands for it. -/
def Node.unmark (node : Node) : Node := { node with replaced := false }

/-- The node with the entries of users that `keep` holds of. -/
def Node.filterUsers (keep : User → Bool) (node : Node) : Node :=
  { node with users := node.users.filter keep }

theorem getElem?_erase_id {α : Type} (m : Std.ExtTreeMap NodeId α) (k x : NodeId) :
    (m.erase k)[x]? = if x = k then none else m[x]? := by
  rw [Std.ExtTreeMap.getElem?_erase]
  by_cases h : x = k
  · simp [h]
  · have : ¬ k = x := fun he => h he.symm
    simp [h, this]

theorem mem_erase_id (s : Std.ExtTreeSet NodeId) (k x : NodeId) :
    x ∈ s.erase k ↔ x ≠ k ∧ x ∈ s := by
  rw [Std.ExtTreeSet.mem_erase, ne_eq, Std.LawfulEqOrd.compare_eq_iff_eq, eq_comm]

namespace Graph

variable {g g' : Graph} {id x y : NodeId} {node : Node} {slot : Slot} {index : Nat}

/-! ### Look-ups by slot -/

theorem get?_eq_some_iff : g.get? id = some node ↔
    ∃ slot, g.slots[id.index]? = some slot ∧ slot.generation = id.generation ∧
      slot.node = some node := by
  unfold get?
  cases g.slots[id.index]? with
  | none => simp
  | some slot =>
    by_cases hg : slot.generation = id.generation
    · simp
    · simp

theorem get?_of_slot (hs : g.slots[index]? = some slot) (hn : slot.node = some node) :
    g.get? ⟨index, slot.generation⟩ = some node :=
  get?_eq_some_iff.2 ⟨slot, hs, rfl, hn⟩

theorem Has.index_lt (h : g.Has x) : x.index < g.slots.size := by
  obtain ⟨_, hn⟩ := h
  obtain ⟨_, hs, -⟩ := get?_eq_some_iff.1 hn
  exact (Array.getElem?_eq_some_iff.1 hs).1

theorem Has.eq_of_index (hx : g.Has x) (hy : g.Has y) (h : x.index = y.index) : x = y := by
  obtain ⟨_, hx⟩ := hx
  obtain ⟨_, hy⟩ := hy
  obtain ⟨slot, hs, hg, -⟩ := get?_eq_some_iff.1 hx
  obtain ⟨slot', hs', hg', -⟩ := get?_eq_some_iff.1 hy
  rw [h] at hs
  cases x
  simp_all

theorem get?_of_setSlot (hlt : index < g.slots.size)
    (h : g'.slots = g.slots.setIfInBounds index slot) (x : NodeId) :
    g'.get? x = if x.index = index then
      (if slot.generation = x.generation then slot.node else none) else g.get? x := by
  unfold get?
  rw [h]
  by_cases hi : x.index = index
  · simp [hi, hlt]
  · have hi' : ¬ index = x.index := fun he => hi he.symm
    simp [hi, hi']

/-! ### The handles of all nodes -/

theorem mem_handlesFrom_iff {slots : List Slot} {start : Nat} :
    id ∈ handlesFrom start slots ↔ start ≤ id.index ∧
      ∃ slot, slots[id.index - start]? = some slot ∧ slot.generation = id.generation ∧
        slot.node.isSome = true := by
  constructor
  · intro h
    induction slots generalizing start with
    | nil => simp [handlesFrom] at h
    | cons s slots ih =>
      have hrest : id ∈ handlesFrom (start + 1) slots → start ≤ id.index ∧
          ∃ slot, (s :: slots)[id.index - start]? = some slot ∧ slot.generation = id.generation ∧
            slot.node.isSome = true := by
        intro h
        obtain ⟨hle, slot, hs, hslot⟩ := ih h
        have hi : id.index - start = id.index - (start + 1) + 1 := by omega
        exact ⟨by omega, slot, by rw [hi, List.getElem?_cons_succ, hs], hslot⟩
      rw [handlesFrom] at h
      split at h
      · rename_i hsome
        rcases List.mem_cons.1 h with rfl | h
        · exact ⟨Nat.le_refl _, s, by simp, rfl, hsome⟩
        · exact hrest h
      · exact hrest h
  · rintro ⟨hle, slot, hs, hg, hsome⟩
    obtain ⟨node, hn⟩ := Option.isSome_iff_exists.1 hsome
    exact mem_handlesFrom hs hle hg hn

theorem mem_ids_iff : x ∈ g.ids ↔ g.Has x := by
  unfold ids Has
  rw [mem_handlesFrom_iff]
  simp [get?_eq_some_iff, Option.isSome_iff_exists]
  grind

theorem nodup_handlesFrom (slots : List Slot) (start : Nat) : (handlesFrom start slots).Nodup := by
  induction slots generalizing start with
  | nil => exact List.nodup_nil
  | cons s slots ih =>
    rw [handlesFrom]
    split
    · refine List.nodup_cons.2 ⟨?_, ih _⟩
      intro h
      have hle : start + 1 ≤ start := (mem_handlesFrom_iff.1 h).1
      omega
    · exact ih _

theorem nodup_ids (g : Graph) : g.ids.Nodup := nodup_handlesFrom _ _

theorem length_ids_of_has {l : List NodeId} (hl : l.Nodup) (h : ∀ x, g.Has x ↔ x ∈ l) :
    g.ids.length = l.length := by
  refine List.Perm.length_eq ((List.perm_ext_iff_of_nodup (nodup_ids g) hl).2 ?_)
  intro x
  rw [mem_ids_iff, h]

/-! ### Freeing nodes -/

theorem remove_of_not_has (h : ¬ g.Has id) : g.remove id = g := by
  unfold remove
  split
  · rfl
  · rename_i node hn
    exact absurd ⟨node, hn⟩ h

theorem remove_of_has (h : g.Has id) : g.remove id =
    { g with
      slots := g.slots.setIfInBounds id.index ⟨id.generation + 1, none⟩
      free := id.index :: g.free
      size := g.size - 1
      control := g.control.erase id
      memory := g.memory.erase id
      phiRegion := g.phiRegion.erase id
      roots := g.roots.erase id } := by
  obtain ⟨node, hn⟩ := h
  unfold remove
  rw [hn]

theorem get?_remove (h : g.Has id) (x : NodeId) :
    (g.remove id).get? x = if x = id then none else g.get? x := by
  rw [get?_of_setSlot h.index_lt (by rw [remove_of_has h])]
  by_cases hx : x = id
  · simp [hx]
  · by_cases hi : x.index = id.index
    · -- Another handle of the slot is stale before and after.
      have hnone : g.get? x = none := by
        rw [← Option.not_isSome_iff_eq_none, ← has_iff_isSome]
        exact fun hhas => hx (hhas.eq_of_index h hi)
      simp [hx, hnone]
    · simp [hi, hx]

structure Without (dead : List NodeId) (g g' : Graph) : Prop where
  get? : ∀ x, g'.get? x = if x ∈ dead then none else g.get? x
  control : ∀ x, g'.control[x]? = if x ∈ dead then none else g.control[x]?
  memory : ∀ x, g'.memory[x]? = if x ∈ dead then none else g.memory[x]?
  phiRegion : ∀ x, g'.phiRegion[x]? = if x ∈ dead then none else g.phiRegion[x]?
  roots : ∀ x, x ∈ g'.roots ↔ x ∉ dead ∧ x ∈ g.roots
  size : g'.size = g.size - dead.length

theorem without_remove (h : g.Has id) : Without [id] g (g.remove id) where
  get? x := by rw [get?_remove h]; simp
  control x := by rw [remove_of_has h, getElem?_erase_id]; simp
  memory x := by rw [remove_of_has h, getElem?_erase_id]; simp
  phiRegion x := by rw [remove_of_has h, getElem?_erase_id]; simp
  roots x := by rw [remove_of_has h, mem_erase_id]; simp
  size := by rw [remove_of_has h]; rfl

theorem Without.trans {dead more : List NodeId} {g'' : Graph} (h1 : Without dead g g')
    (h2 : Without more g' g'') : Without (dead ++ more) g g'' where
  get? x := by rw [h2.get?, h1.get?]; grind
  control x := by rw [h2.control, h1.control]; grind
  memory x := by rw [h2.memory, h1.memory]; grind
  phiRegion x := by rw [h2.phiRegion, h1.phiRegion]; grind
  roots x := by rw [h2.roots, h1.roots]; grind
  size := by rw [h2.size, h1.size, List.length_append, Nat.sub_sub]

theorem Without.has {dead : List NodeId} (h : Without dead g g') :
    g'.Has x ↔ x ∉ dead ∧ g.Has x := by
  rw [has_iff_isSome, has_iff_isSome, h.get?]
  split <;> simp_all

theorem without_foldl_remove {dead : List NodeId} (hhas : ∀ x ∈ dead, g.Has x)
    (hnodup : dead.Nodup) : Without dead g (dead.foldl remove g) := by
  induction dead generalizing g with
  | nil => exact ⟨by simp, by simp, by simp, by simp, by simp, rfl⟩
  | cons id dead ih =>
    have hid : Without [id] g (g.remove id) := without_remove (hhas id List.mem_cons_self)
    obtain ⟨hnot, hnodup⟩ := List.nodup_cons.1 hnodup
    refine hid.trans (ih ?_ hnodup)
    intro x hx
    refine hid.has.2 ⟨?_, hhas x (List.mem_cons_of_mem _ hx)⟩
    rw [List.mem_singleton]
    rintro rfl
    exact hnot hx

/-! ### Marks and entries -/

theorem get?_clearMarks (x : NodeId) : g.clearMarks.get? x = (g.get? x).map Node.unmark := by
  unfold get? clearMarks
  rw [Array.getElem?_map]
  cases g.slots[x.index]? with
  | none => rfl
  | some slot =>
    by_cases hg : slot.generation = x.generation
    · simp only [hg, Option.map_some]
      rfl
    · simp [hg]

theorem get?_pruneUsers (x : NodeId) :
    g.pruneUsers.get? x = (g.get? x).map (Node.filterUsers (g.edgeHolds x)) := by
  unfold get? pruneUsers
  rw [Array.getElem?_mapIdx]
  cases g.slots[x.index]? with
  | none => rfl
  | some slot =>
    by_cases hg : slot.generation = x.generation
    · simp only [hg, Option.map_some]
      rfl
    · simp [hg]

theorem clearMarks_eq (h : ∀ x node, g.get? x = some node → node.replaced = false) :
    g.clearMarks = g := by
  have hslots : g.slots.map (fun slot =>
      { slot with node := slot.node.map fun node => { node with replaced := false } }) = g.slots := by
    refine Array.ext (by simp) ?_
    intro index hi hi'
    have hs : g.slots[index]? = some g.slots[index] := Array.getElem?_eq_getElem hi'
    generalize g.slots[index] = slot at hs
    cases hn : slot.node with
    | none => cases slot; simp_all
    | some node =>
      have hmark : node.replaced = false := h _ _ (get?_of_slot hs hn)
      cases slot
      cases node
      simp_all
  unfold clearMarks
  rw [hslots]

theorem pruneUsers_eq
    (h : ∀ x node, g.get? x = some node → ∀ u ∈ node.users, g.edgeHolds x u = true) :
    g.pruneUsers = g := by
  have hslots : g.slots.mapIdx (fun index slot => { slot with node := slot.node.map fun node =>
      { node with users := node.users.filter (g.edgeHolds ⟨index, slot.generation⟩) } }) =
      g.slots := by
    refine Array.ext (by simp) ?_
    intro index hi hi'
    have hs : g.slots[index]? = some g.slots[index] := Array.getElem?_eq_getElem hi'
    generalize g.slots[index] = slot at hs
    cases hn : slot.node with
    | none => cases slot; simp_all
    | some node =>
      have hkeep : node.users.filter (g.edgeHolds ⟨index, slot.generation⟩) = node.users :=
        List.filter_eq_self.2 (h _ _ (get?_of_slot hs hn))
      cases slot
      cases node
      simp_all
  unfold pruneUsers
  simp only [hslots]

/-! ### New nodes -/

/-- Free slots are empty, and each is listed once. -/
structure FreeSlots (g : Graph) : Prop where
  empty : ∀ {index}, index ∈ g.free → ∃ generation, g.slots[index]? = some ⟨generation, none⟩
  nodup : g.free.Nodup

/-- What adding a node does, before its inputs are entered: it has a handle that no node had. -/
structure Allocates (node : Node) (g : Graph) (id : NodeId) (g' : Graph) : Prop where
  new : ¬ g.Has id
  get? : ∀ x, g'.get? x = if x = id then some node else g.get? x
  frame : g' = { g with slots := g'.slots, free := g'.free, size := g.size + 1 }
  free : g'.FreeSlots

theorem Allocates.has (h : Allocates node g id g') : g'.Has x ↔ x = id ∨ g.Has x := by
  rw [has_iff_isSome, has_iff_isSome, h.get?]
  split <;> simp_all

theorem allocates (h : g.FreeSlots) (node : Node) :
    Allocates node g (g.allocate node).1 (g.allocate node).2 := by
  unfold allocate
  cases hfree : g.free with
  | nil =>
    -- A new slot is added at the end.
    have hget : ∀ x : NodeId, x.index = g.slots.size → g.get? x = none := by
      intro x hi
      simp [get?, hi]
    refine ⟨?_, ?_, rfl, by simp, by simp⟩
    · rintro ⟨other, ho⟩
      rw [hget _ rfl] at ho
      contradiction
    · intro x
      by_cases hi : x.index = g.slots.size
      · cases x
        simp_all [get?, eq_comm]
      · have hx : x ≠ ⟨g.slots.size, 0⟩ := by rintro rfl; exact hi rfl
        simp [get?, Array.getElem?_push, hi, hx]
  | cons index free =>
    obtain ⟨generation, hs⟩ := h.empty (hfree ▸ List.mem_cons_self)
    have hlt : index < g.slots.size := (Array.getElem?_eq_some_iff.1 hs).1
    obtain ⟨hnot, hnodup⟩ := List.nodup_cons.1 (hfree ▸ h.nodup)
    -- The slot is used again. All its handles are stale, whatever their generation.
    have hget : ∀ x : NodeId, x.index = index → g.get? x = none := by
      intro x hi
      simp [get?, hi, hs]
    simp only [hs, Option.map_some]
    refine ⟨?_, ?_, rfl, ?_, hnodup⟩
    · rintro ⟨other, ho⟩
      rw [hget _ rfl] at ho
      contradiction
    · intro x
      rw [get?_of_setSlot hlt rfl]
      by_cases hi : x.index = index
      · rw [hget x hi]
        cases x
        simp_all [eq_comm]
      · have hx : x ≠ ⟨index, generation⟩ := by rintro rfl; exact hi rfl
        simp [hi, hx]
    · intro other hother
      have hne : ¬ index = other := by rintro rfl; exact hnot hother
      obtain ⟨generation', hs'⟩ := h.empty (hfree ▸ List.mem_cons_of_mem _ hother)
      exact ⟨generation', by simp [hne, hs']⟩

theorem Dense.freeSlots (hd : g.Dense) : g.FreeSlots := by constructor <;> simp [hd.free]

variable {op : Op} {ty : Ty} {inputs : List NodeId}

theorem create_allocates (hf : g.FreeSlots) (h : g.create op ty inputs = .ok (id, g')) :
    ∃ g1, Allocates { op, ty := (ty.stamp g.origins).1, inputs }
        { g with origins := (ty.stamp g.origins).2 } id g1 ∧ Enters g1 g' ∧
      ∀ x ∈ inputs, ∃ p, g'.Entered x ⟨id, .value p⟩ := by
  have hf' : ({ g with origins := (ty.stamp g.origins).2 } : Graph).FreeSlots := ⟨hf.empty, hf.nodup⟩
  have hallocates := allocates hf' { op, ty := (ty.stamp g.origins).1, inputs }
  obtain ⟨g2, h2, h⟩ := bind_eq_ok_iff.1 h
  cases Except.ok.inj h
  obtain ⟨henters, hin⟩ := registerInputs_spec h2
  exact ⟨_, hallocates, henters, fun x hx => (hin x hx).resolve_left List.not_mem_nil⟩

/-- `g'` is `g` with more nodes. -/
structure Extends (g g' : Graph) : Prop where
  node : ∀ {x node}, g.get? x = some node → ∃ us, g'.get? x = some { node with users := us }
  control : ∀ {x : NodeId}, g.Has x → g'.control[x]? = g.control[x]?
  memory : ∀ {x}, g.Has x → g'.memory[x]? = g.memory[x]?
  phiRegion : ∀ {x}, g.Has x → g'.phiRegion[x]? = g.phiRegion[x]?

/-- `g'` is `g` with one more node, which has these inputs. -/
structure Joins (g g' : Graph) (id : NodeId) (op : Op) (ty : Ty) (inputs : List NodeId) : Prop where
  extend : Extends g g'
  new : ¬ g.Has id
  only : ∀ {x}, g'.Has x → g.Has x ∨ x = id
  node : ∃ us, g'.get? id = some ⟨op, ty, inputs, us, false⟩

theorem Joins.cases (h : Joins g g' id op ty inputs)
    (hn : g'.get? x = some node) : (∃ old us, g.get? x = some old ∧ node = { old with users := us }) ∨
      x = id ∧ ∃ us, node = ⟨op, ty, inputs, us, false⟩ := by
  rcases h.only ⟨node, hn⟩ with ⟨old, ho⟩ | rfl
  · obtain ⟨us, hus⟩ := h.extend.node ho
    exact .inl ⟨old, us, ho, Option.mem_unique hn hus⟩
  · obtain ⟨us, hus⟩ := h.node
    exact .inr ⟨rfl, us, Option.mem_unique hn hus⟩

theorem Joins.create (hf : g.FreeSlots) (h : g.create op ty inputs = .ok (id, g')) :
    Joins g g' id op (ty.stamp g.origins).1 inputs := by
  obtain ⟨g1, hnew, henters, -⟩ := create_allocates hf h
  refine ⟨⟨fun {x node} hn => ?_, ?_, ?_, ?_⟩, hnew.new, fun {x} hx => ?_, ?_⟩
  · have hn1 : g1.get? x = some node := by
      rw [hnew.get?, if_neg fun hx : x = id => hnew.new ⟨node, hx ▸ hn⟩]
      exact hn
    obtain ⟨us, hus, -⟩ := henters.node hn1
    exact ⟨us, hus⟩
  · exact fun _ => by rw [henters.control, hnew.frame]
  · exact fun _ => by rw [henters.memory, hnew.frame]
  · exact fun _ => by rw [henters.phiRegion, hnew.frame]
  · exact (hnew.has.1 (henters.has.1 hx)).symm
  · obtain ⟨us, hus, -⟩ := henters.node ((hnew.get? id).trans (if_pos rfl))
    exact ⟨us, hus⟩

section

variable (hd : g.Dense) (h : g.create op ty inputs = .ok (id, g'))
include hd h

theorem Extends.create : Extends g g' := (Joins.create hd.freeSlots h).extend

theorem create_self :
    ¬ g.Has id ∧ ∃ us, g'.get? id = some ⟨op, (ty.stamp g.origins).1, inputs, us, false⟩ :=
  ⟨(Joins.create hd.freeSlots h).new, (Joins.create hd.freeSlots h).node⟩

theorem has_create : g'.Has x ↔ x = id ∨ g.Has x := by
  obtain ⟨rfl, henters, -⟩ := create_spec hd h
  rw [henters.has, has_added]

theorem Dense.create : g'.Dense := (hd.added op ty inputs).enters (create_spec hd h).2.1

theorem create_frame :
    g'.control = g.control ∧ g'.memory = g.memory ∧ g'.phiRegion = g.phiRegion := by
  obtain ⟨-, henters, -⟩ := create_spec hd h
  exact ⟨henters.control, henters.memory, henters.phiRegion⟩

end

namespace FreeSlots

theorem of_empty : Graph.empty.FreeSlots := ⟨by simp [Graph.empty], by simp [Graph.empty]⟩

theorem of_has (h : g.FreeSlots) (hfree : g'.free = g.free) (hsize : g'.slots.size = g.slots.size)
    (hhas : ∀ x, g'.Has x → g.Has x) : g'.FreeSlots where
  empty {index} hi := by
    obtain ⟨generation, hs⟩ := h.empty (hfree ▸ hi)
    have hlt : index < g'.slots.size := hsize ▸ (Array.getElem?_eq_some_iff.1 hs).1
    have hs' : g'.slots[index]? = some g'.slots[index] := Array.getElem?_eq_getElem hlt
    generalize g'.slots[index] = slot at hs'
    cases hn : slot.node with
    | none => exact ⟨slot.generation, by rw [hs', ← hn]⟩
    | some node =>
      obtain ⟨_, ho⟩ := hhas _ ⟨node, get?_of_slot hs' hn⟩
      simp [get?, hs] at ho
  nodup := hfree ▸ h.nodup

theorem remove (h : g.FreeSlots) (id : NodeId) : (g.remove id).FreeSlots := by
  by_cases hid : g.Has id
  · rw [remove_of_has hid]
    obtain ⟨node, hn⟩ := hid
    obtain ⟨slot, hs, -, hnode⟩ := get?_eq_some_iff.1 hn
    have hlt : id.index < g.slots.size := (Array.getElem?_eq_some_iff.1 hs).1
    have hnot : id.index ∉ g.free := by
      intro hi
      obtain ⟨generation, hs'⟩ := h.empty hi
      cases hs.symm.trans hs'
      contradiction
    refine ⟨?_, List.nodup_cons.2 ⟨hnot, h.nodup⟩⟩
    intro index hi
    rcases List.mem_cons.1 hi with rfl | hi
    · exact ⟨id.generation + 1, by simp [hlt]⟩
    · have hne : ¬ id.index = index := by rintro rfl; exact hnot hi
      obtain ⟨generation, hs'⟩ := h.empty hi
      exact ⟨generation, by simp [hne, hs']⟩
  · rw [remove_of_not_has hid]
    exact h

theorem foldl_remove (h : g.FreeSlots) (dead : List NodeId) : (dead.foldl Graph.remove g).FreeSlots := by
  induction dead generalizing g with
  | nil => exact h
  | cons id dead ih => exact ih (h.remove id)

end FreeSlots

end Graph

end SeaOfNodes
