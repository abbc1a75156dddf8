import SeaOfNodes.Proofs.Graph.Made
import SeaOfNodes.Proofs.Ty.Meet

/-!
Handles are never revived. Slots are seen through their ages: how many nodes were freed in a slot,
and whether it holds one now. Adding a node and freeing one change the age of one slot, and no age
ever goes down; so a handle that was given once belongs to a node that is there, or to an age that
its slot has left for good.
-/
namespace SeaOfNodes

/-- The operations that take slots and free them. -/
inductive SlotOperation where
  | create (op : Op) (ty : Ty) (inputs : List NodeId)
  | remove (id : NodeId)

/-- What an operation did: a node was added under a handle, or a handle was to be freed. -/
inductive SlotEvent where
  | created (id : NodeId) (op : Op) (ty : Ty) (inputs : List NodeId)
  | removed (id : NodeId)

namespace SlotEvent

def handle? : SlotEvent → Option NodeId
  | .created id .. => some id
  | .removed _ => none

/-- Whether an event was to free a slot. -/
def frees (index : Nat) : SlotEvent → Bool
  | .created .. => false
  | .removed id => id.index == index

end SlotEvent

namespace SlotOperation

def run (g : Graph) : SlotOperation → Except Fault (SlotEvent × Graph)
  | .create op ty inputs => do
    let (id, g) ← g.create op ty inputs
    return (.created id op ty inputs, g)
  | .remove id => .ok (.removed id, g.remove id)

def runAll : List SlotOperation → Graph → Except Fault (List SlotEvent × Graph)
  | [], g => .ok ([], g)
  | o :: os, g => do
    let (event, g) ← o.run g
    let (events, g) ← runAll os g
    return (event :: events, g)

end SlotOperation

namespace Graph

variable {g g' : Graph} {id x : NodeId} {node : Node} {index n : Nat} {op : Op} {ty : Ty}
  {inputs : List NodeId}

/-! ### Ages -/

/-- The age of each slot, and whether it holds a node. -/
def ages (g : Graph) : List (Nat × Bool) :=
  g.slots.toList.map fun slot => (slot.generation, slot.node.isSome)

theorem getElem?_ages (index : Nat) : g.ages[index]? =
    g.slots[index]?.map fun slot => (slot.generation, slot.node.isSome) := by
  simp [ages]

theorem has_iff_ages : g.Has id ↔ g.ages[id.index]? = some (id.generation, true) := by
  rw [getElem?_ages]
  unfold Has
  simp only [get?_eq_some_iff, Option.map_eq_some_iff, Prod.mk.injEq, Option.isSome_iff_exists]
  grind

theorem empty_iff_ages : (∃ slot, g.slots[index]? = some slot ∧ slot.node = none) ↔
    ∃ n, g.ages[index]? = some (n, false) := by
  rw [getElem?_ages]
  simp only [Option.map_eq_some_iff, Prod.mk.injEq, Option.isSome_eq_false_iff,
    Option.isNone_iff_eq_none]
  grind

theorem ages_mapNode (f : Node → Node) : (g.mapNode id f).ages = g.ages := by
  refine List.ext_getElem? fun index => ?_
  rw [getElem?_ages, getElem?_ages, mapNode, Array.getElem?_modify]
  split
  · cases g.slots[index]? <;> simp
  · rfl

theorem ages_registerInputs {position : Nat} {seen : List NodeId}
    (h : registerInputs id position seen inputs g = .ok g') :
    g'.ages = g.ages ∧ g'.free = g.free ∧ g'.size = g.size := by
  induction inputs generalizing position seen g with
  | nil =>
    cases h
    exact ⟨rfl, rfl, rfl⟩
  | cons a inputs ih =>
    rw [registerInputs] at h
    split at h
    · exact ih h
    · obtain ⟨g1, h1, h⟩ := bind_eq_ok_iff.1 h
      obtain ⟨-, rfl⟩ := update_eq_ok_iff.1 h1
      obtain ⟨hages, hfree, hsize⟩ := ih h
      exact ⟨hages.trans (ages_mapNode _), hfree, hsize⟩

/-! ### Taking and freeing slots -/

/-- Empty slots are listed once, and nodes are counted. -/
structure Slotted (g : Graph) : Prop where
  free_iff : ∀ index, index ∈ g.free ↔ ∃ n, g.ages[index]? = some (n, false)
  nodup : g.free.Nodup
  size : g.size = g.ages.countP Prod.snd

theorem Slotted.freeSlots (h : g.Slotted) : g.FreeSlots where
  empty {index} hi := by
    obtain ⟨⟨generation, node⟩, hs, rfl⟩ := empty_iff_ages.2 ((h.free_iff index).1 hi)
    exact ⟨generation, hs⟩
  nodup := h.nodup

theorem slotted_empty : empty.Slotted :=
  ⟨by simp [empty, ages], by simp [empty], rfl⟩

/-- A node takes an empty slot at the age that the slot has, or a new one. -/
structure TakesSlot (id : NodeId) (g g' : Graph) : Prop where
  size : g'.size = g.size + 1
  slot : (g.free = id.index :: g'.free ∧ g.ages[id.index]? = some (id.generation, false) ∧
      g'.ages = g.ages.set id.index (id.generation, true)) ∨
    (g.free = [] ∧ g'.free = [] ∧ id = ⟨g.ages.length, 0⟩ ∧ g'.ages = g.ages ++ [(0, true)])

theorem create_takesSlot (hs : g.Slotted) (h : g.create op ty inputs = .ok (id, g')) :
    TakesSlot id g g' := by
  obtain ⟨g2, h2, h⟩ := bind_eq_ok_iff.1 h
  cases Except.ok.inj h
  obtain ⟨hages, hfree, hsize⟩ := ages_registerInputs h2
  constructor
  · rw [hsize]
    split <;> rfl
  · rw [hages, hfree]
    split
    · rename_i index rest hcons
      have hmem : index ∈ g.free := hcons ▸ List.mem_cons_self
      obtain ⟨slot, hslot, hnone⟩ := empty_iff_ages.2 ((hs.free_iff index).1 hmem)
      refine .inl ⟨hcons, ?_, ?_⟩
      · simp [getElem?_ages, hslot, hnone]
      · simp [ages, hslot]
    · rename_i hnil
      exact .inr ⟨hnil, hnil, by simp [ages], by simp [ages]⟩

structure FreesSlot (id : NodeId) (g g' : Graph) : Prop where
  has : g.ages[id.index]? = some (id.generation, true)
  size : g'.size = g.size - 1
  free : g'.free = id.index :: g.free
  ages : g'.ages = g.ages.set id.index (id.generation + 1, false)

theorem remove_freesSlot (h : g.Has id) : FreesSlot id g (g.remove id) := by
  refine ⟨has_iff_ages.1 h, ?_, ?_, ?_⟩
  · rw [remove_of_has h]
  · rw [remove_of_has h]
  · simp [remove_of_has h, Graph.ages]

theorem countP_set {l : List (Nat × Bool)} {a b : Nat × Bool} (h : l[index]? = some a) :
    (l.set index b).countP Prod.snd + (if a.2 then 1 else 0) =
      l.countP Prod.snd + (if b.2 then 1 else 0) := by
  induction l generalizing index with
  | nil => simp at h
  | cons c l ih =>
    cases index with
    | zero =>
      cases h
      simp only [List.set_cons_zero, List.countP_cons]
      omega
    | succ index =>
      have := ih h
      simp only [List.set_cons_succ, List.countP_cons]
      omega

theorem TakesSlot.slotted (h : TakesSlot id g g') (hs : g.Slotted) : g'.Slotted := by
  rcases h.slot with ⟨hfree, hage, hages⟩ | ⟨hnil, hnil', rfl, hages⟩
  · have hlt : id.index < g.ages.length := (List.getElem?_eq_some_iff.1 hage).1
    obtain ⟨hnot, hnodup⟩ := List.nodup_cons.1 (hfree ▸ hs.nodup)
    refine ⟨fun index => ?_, hnodup, ?_⟩
    · have hiff := hs.free_iff index
      rw [hfree, List.mem_cons] at hiff
      rw [hages]
      by_cases hi : id.index = index
      · subst hi
        simp [hlt, hnot]
      · have hi' : ¬ index = id.index := fun he => hi he.symm
        simpa [hi, hi'] using hiff
    · have := countP_set (b := (id.generation, true)) hage
      rw [h.size, hs.size, hages]
      simpa using this.symm
  · refine ⟨fun index => ?_, by simp [hnil'], ?_⟩
    · have hiff := hs.free_iff index
      rw [hnil] at hiff
      rw [hnil', hages, List.getElem?_append]
      split
      · exact hiff
      · cases hk : index - g.ages.length <;> simp
    · rw [h.size, hs.size, hages]
      simp

theorem FreesSlot.slotted (h : FreesSlot id g g') (hs : g.Slotted) : g'.Slotted := by
  have hlt : id.index < g.ages.length := (List.getElem?_eq_some_iff.1 h.has).1
  have hnot : id.index ∉ g.free := by
    intro hmem
    obtain ⟨n, hn⟩ := (hs.free_iff _).1 hmem
    rw [h.has] at hn
    simp at hn
  refine ⟨fun index => ?_, ?_, ?_⟩
  · rw [h.free, h.ages, List.mem_cons]
    by_cases hi : id.index = index
    · subst hi
      simp [hlt]
    · have hi' : ¬ index = id.index := fun he => hi he.symm
      simpa [hi, hi'] using hs.free_iff index
  · rw [h.free]
    exact List.nodup_cons.2 ⟨hnot, hs.nodup⟩
  · have := countP_set (b := (id.generation + 1, false)) h.has
    rw [h.size, hs.size, h.ages]
    simp only [if_true, Bool.false_eq_true, if_false] at this
    omega

/-! ### Handles of the past -/

/-- The slot of a handle has left the age that the handle names. -/
def Spent (g : Graph) (id : NodeId) : Prop :=
  ∃ n live, g.ages[id.index]? = some (n, live) ∧ id.generation < n

theorem Spent.get?_eq_none (h : g.Spent id) : g.get? id = none := by
  rw [← Option.not_isSome_iff_eq_none, ← has_iff_isSome, has_iff_ages]
  obtain ⟨n, live, hage, hlt⟩ := h
  rw [hage]
  simp only [Option.some.injEq, Prod.mk.injEq]
  omega

theorem TakesSlot.spent (h : TakesSlot id g g') (hx : g.Spent x) : g'.Spent x := by
  obtain ⟨n, live, hage, hlt⟩ := hx
  rcases h.slot with ⟨-, hid, hages⟩ | ⟨-, -, -, hages⟩
  · by_cases hi : id.index = x.index
    · rw [hi, hage] at hid
      cases Option.some.inj hid
      refine ⟨id.generation, true, ?_, hlt⟩
      rw [hages, hi, List.getElem?_set_self (List.getElem?_eq_some_iff.1 hage).1]
    · exact ⟨n, live, by rw [hages, List.getElem?_set_ne hi, hage], hlt⟩
  · refine ⟨n, live, ?_, hlt⟩
    rw [hages, List.getElem?_append_left (List.getElem?_eq_some_iff.1 hage).1, hage]

theorem FreesSlot.spent (h : FreesSlot id g g') (hx : g.Spent x) : g'.Spent x := by
  obtain ⟨n, live, hage, hlt⟩ := hx
  by_cases hi : id.index = x.index
  · have hhas := h.has
    rw [hi, hage] at hhas
    cases Option.some.inj hhas
    refine ⟨id.generation + 1, false, ?_, by omega⟩
    rw [h.ages, hi, List.getElem?_set_self (List.getElem?_eq_some_iff.1 hage).1]
  · exact ⟨n, live, by rw [h.ages, List.getElem?_set_ne hi, hage], hlt⟩

theorem FreesSlot.spent_self (h : FreesSlot id g g') : g'.Spent id := by
  refine ⟨id.generation + 1, false, ?_, Nat.lt_succ_self _⟩
  rw [h.ages, List.getElem?_set_self (List.getElem?_eq_some_iff.1 h.has).1]

/-- A handle that was given: its node is there, or its age is over. -/
def Issued (g : Graph) (id : NodeId) : Prop := g.Has id ∨ g.Spent id

theorem TakesSlot.not_issued (h : TakesSlot id g g') : ¬ g.Issued id := by
  rw [Issued, has_iff_ages]
  rintro (hage | ⟨n, live, hage, hlt⟩)
  · rcases h.slot with ⟨-, hid, -⟩ | ⟨-, -, rfl, -⟩
    · rw [hid] at hage
      simp at hage
    · simp at hage
  · rcases h.slot with ⟨-, hid, -⟩ | ⟨-, -, rfl, -⟩
    · rw [hid] at hage
      cases Option.some.inj hage
      omega
    · simp at hage

/-! ### What a node is -/

/-- A handle names a node with an operation, a type and inputs. -/
def Names (g : Graph) (id : NodeId) (op : Op) (ty : Ty) (inputs : List NodeId) : Prop :=
  ∃ node, g.get? id = some node ∧ node.op = op ∧ (node.ty == ty) = true ∧ node.inputs = inputs

theorem Names.has (h : g.Names id op ty inputs) : g.Has id := by
  obtain ⟨node, hn, -⟩ := h
  exact ⟨node, hn⟩

theorem create_names (hs : g.Slotted) (hc : g.create op ty inputs = .ok (id, g')) :
    g'.Names id op ty inputs := by
  obtain ⟨g1, ha, henters, -⟩ := create_allocates hs.freeSlots hc
  obtain ⟨us, hus, -⟩ := henters.node ((ha.get? id).trans (if_pos rfl))
  exact ⟨_, hus, rfl, Ty.beq_iff.2 (Ty.plain_stamp _ _), rfl⟩

theorem Names.create {op' : Op} {ty' : Ty} {inputs' : List NodeId}
    (h : g.Names x op' ty' inputs') (hs : g.Slotted)
    (hc : g.create op ty inputs = .ok (id, g')) : g'.Names x op' ty' inputs' := by
  obtain ⟨g1, ha, henters, -⟩ := create_allocates hs.freeSlots hc
  obtain ⟨node, hn, hnode⟩ := h
  have hne : x ≠ id := by
    rintro rfl
    exact ha.new ⟨node, hn⟩
  have hn1 : g1.get? x = some node := by
    rw [ha.get?, if_neg hne]
    exact hn
  obtain ⟨us, hus, -⟩ := henters.node hn1
  exact ⟨_, hus, hnode⟩

theorem Names.remove (h : g.Names x op ty inputs) (hne : x ≠ id) :
    (g.remove id).Names x op ty inputs := by
  by_cases hid : g.Has id
  · obtain ⟨node, hn, hnode⟩ := h
    exact ⟨node, by rw [get?_remove hid, if_neg hne, hn], hnode⟩
  · rw [remove_of_not_has hid]
    exact h

/-! ### Runs -/

/-- One operation, by what it does to the slots. -/
inductive SlotStep : SlotEvent → Graph → Graph → Prop
  | created {g g' : Graph} {id : NodeId} {op : Op} {ty : Ty} {inputs : List NodeId}
      (takes : TakesSlot id g g') (names : g'.Names id op ty inputs)
      (others : ∀ {x op ty inputs}, g.Names x op ty inputs → g'.Names x op ty inputs) :
      SlotStep (.created id op ty inputs) g g'
  | removed {g : Graph} {id : NodeId} (frees : FreesSlot id g (g.remove id)) :
      SlotStep (.removed id) g (g.remove id)
  | missed {g : Graph} {id : NodeId} (gone : ¬ g.Has id) : SlotStep (.removed id) g g

/-- Operations one after the other. -/
inductive SlotRun : List SlotEvent → Graph → Graph → Prop
  | nil (g : Graph) : SlotRun [] g g
  | cons {e : SlotEvent} {es : List SlotEvent} {g g₁ g' : Graph} (step : SlotStep e g g₁)
      (run : SlotRun es g₁ g') : SlotRun (e :: es) g g'

variable {e : SlotEvent} {es : List SlotEvent}

theorem SlotStep.slotted (h : SlotStep e g g') (hs : g.Slotted) : g'.Slotted := by
  cases h with
  | created takes => exact takes.slotted hs
  | removed frees => exact frees.slotted hs
  | missed => exact hs

theorem SlotRun.slotted (h : SlotRun es g g') (hs : g.Slotted) : g'.Slotted := by
  induction h with
  | nil => exact hs
  | cons step _ ih => exact ih (step.slotted hs)

theorem run_slotStep {o : SlotOperation} (hs : g.Slotted) (h : o.run g = .ok (e, g')) :
    SlotStep e g g' := by
  cases o with
  | create op ty inputs =>
    obtain ⟨⟨id, g1⟩, hc, h⟩ := bind_eq_ok_iff.1 h
    cases Except.ok.inj h
    exact .created (create_takesSlot hs hc) (create_names hs hc) fun h => h.create hs hc
  | remove id =>
    cases Except.ok.inj h
    by_cases hid : g.Has id
    · exact .removed (remove_freesSlot hid)
    · rw [remove_of_not_has hid]
      exact .missed hid

theorem runAll_slotRun {os : List SlotOperation} (hs : g.Slotted)
    (h : SlotOperation.runAll os g = .ok (es, g')) : SlotRun es g g' := by
  induction os generalizing g es with
  | nil =>
    obtain ⟨rfl, rfl⟩ := Prod.mk.inj (Except.ok.inj h)
    exact .nil g
  | cons o os ih =>
    obtain ⟨⟨event, g1⟩, h1, h⟩ := bind_eq_ok_iff.1 h
    obtain ⟨⟨events, g2⟩, h2, h⟩ := bind_eq_ok_iff.1 h
    cases Except.ok.inj h
    have step := run_slotStep hs h1
    exact .cons step (ih (step.slotted hs) h2)

theorem SlotRun.append {es1 es2 : List SlotEvent} (h : SlotRun (es1 ++ es2) g g') :
    ∃ g1, SlotRun es1 g g1 ∧ SlotRun es2 g1 g' := by
  induction es1 generalizing g with
  | nil => exact ⟨g, .nil g, h⟩
  | cons e es1 ih =>
    cases h with
    | cons step run =>
      obtain ⟨g1, h1, h2⟩ := ih run
      exact ⟨g1, .cons step h1, h2⟩

theorem SlotStep.spent (h : SlotStep e g g') (hx : g.Spent x) : g'.Spent x := by
  cases h with
  | created takes => exact takes.spent hx
  | removed frees => exact frees.spent hx
  | missed => exact hx

theorem SlotRun.spent (h : SlotRun es g g') (hx : g.Spent x) : g'.Spent x := by
  induction h with
  | nil => exact hx
  | cons step _ ih => exact ih (step.spent hx)

/-- A node stays as it is until an operation is to free it, and is gone from then on. -/
theorem SlotStep.names (h : SlotStep e g g') (hx : g.Names x op ty inputs) :
    (e ≠ .removed x → g'.Names x op ty inputs) ∧ (e = .removed x → g'.Spent x) := by
  cases h with
  | created _ _ others => exact ⟨fun _ => others hx, by simp⟩
  | @removed _ id frees =>
    constructor
    · intro hne
      refine hx.remove ?_
      rintro rfl
      exact hne rfl
    · intro he
      cases he
      exact frees.spent_self
  | missed gone =>
    refine ⟨fun _ => hx, fun he => ?_⟩
    cases he
    exact absurd hx.has gone

theorem SlotRun.names (h : SlotRun es g g') (hx : g.Names x op ty inputs) :
    (.removed x ∉ es → g'.Names x op ty inputs) ∧ (.removed x ∈ es → g'.Spent x) := by
  induction h with
  | nil => exact ⟨fun _ => hx, by simp⟩
  | @cons e es _ _ _ step run ih =>
    obtain ⟨hkeep, hfree⟩ := step.names hx
    by_cases he : e = .removed x
    · exact ⟨by simp [he], fun _ => run.spent (hfree he)⟩
    · have he' : SlotEvent.removed x ≠ e := fun h => he h.symm
      simpa [he'] using ih (hkeep he)

theorem SlotStep.issued (h : SlotStep e g g') (hx : g.Issued x) : g'.Issued x := by
  rcases hx with ⟨node, hn⟩ | hx
  · obtain ⟨hkeep, hfree⟩ := h.names ⟨node, hn, rfl, Ty.beq_iff.2 rfl, rfl⟩
    by_cases he : e = .removed x
    · exact .inr (hfree he)
    · exact .inl (hkeep he).has
  · exact .inr (h.spent hx)

theorem SlotRun.handles_nodup (h : SlotRun es g g') :
    (es.filterMap SlotEvent.handle?).Nodup ∧ ∀ x ∈ es.filterMap SlotEvent.handle?, ¬ g.Issued x := by
  induction h with
  | nil => simp
  | cons step _ ih =>
    obtain ⟨hnodup, hnew⟩ := ih
    have hold := fun x hx (hg : Issued _ x) => hnew x hx (step.issued hg)
    cases step with
    | @created _ _ id _ _ _ takes names =>
      simp only [List.filterMap_cons, SlotEvent.handle?, List.nodup_cons, List.mem_cons,
        forall_eq_or_imp]
      exact ⟨⟨fun hmem => hnew id hmem (.inl names.has), hnodup⟩, takes.not_issued, hold⟩
    | removed | missed => exact ⟨hnodup, hold⟩

/-- The age of a slot, and zero for a slot that was never taken. -/
def age (g : Graph) (index : Nat) : Nat :=
  (g.ages[index]?.map Prod.fst).getD 0

theorem SlotStep.age_le (h : SlotStep e g g') (index : Nat) :
    g'.age index ≤ g.age index + (if e.frees index then 1 else 0) := by
  unfold age
  cases h with
  | created takes =>
    rcases takes.slot with ⟨-, hage, hages⟩ | ⟨-, -, -, hages⟩
    · rw [hages, List.getElem?_set]
      split
      · rename_i hi
        subst hi
        rw [hage, if_pos (List.getElem?_eq_some_iff.1 hage).1]
        exact Nat.le_add_right _ _
      · omega
    · rw [hages, List.getElem?_append]
      split
      · omega
      · cases hk : index - g.ages.length <;> simp
  | @removed _ id frees =>
    rw [frees.ages, List.getElem?_set]
    by_cases hi : id.index = index
    · subst hi
      rw [frees.has, if_pos (List.getElem?_eq_some_iff.1 frees.has).1]
      simp [SlotEvent.frees]
    · simp [hi]
  | missed => omega

theorem SlotRun.age_le (h : SlotRun es g g') (index : Nat) :
    g'.age index ≤ g.age index + es.countP (·.frees index) := by
  induction h with
  | nil => exact Nat.le_add_right _ _
  | cons step _ ih =>
    have := step.age_le index
    rw [List.countP_cons]
    omega

theorem Has.age_eq (h : g.Has id) : g.age id.index = id.generation := by
  rw [age, has_iff_ages.1 h]
  rfl

end Graph

open SeaOfNodes.Graph in
/-- Over any run of slot operations on a new graph: no two nodes get the same handle; a handle
names the node it was given for until that node is freed, and nothing from then on, also when the
slot is taken again; the free list has each empty slot once and the counter the number of nodes;
freeing what is gone does nothing; and a generation fits its counter while its slot was freed fewer
times than the counter has values. -/
theorem runAll_handles {os : List SlotOperation} {es : List SlotEvent} {g : Graph}
    (h : SlotOperation.runAll os Graph.empty = .ok (es, g)) :
    (es.filterMap SlotEvent.handle?).Nodup ∧
    (∀ before after id op ty inputs, es = before ++ .created id op ty inputs :: after →
      (.removed id ∉ after → ∃ node, g.get? id = some node ∧ node.op = op ∧
        (node.ty == ty) = true ∧ node.inputs = inputs) ∧
      (.removed id ∈ after → g.get? id = none)) ∧
    (∀ index, index ∈ g.free ↔ ∃ slot, g.slots[index]? = some slot ∧ slot.node = none) ∧
    g.free.Nodup ∧
    g.size = g.slots.toList.countP (·.node.isSome) ∧
    (∀ id, g.get? id = none → g.remove id = g) ∧
    (∀ before after id op ty inputs, es = before ++ .created id op ty inputs :: after →
      before.countP (·.frees id.index) < 2 ^ 32 → id.generation < 2 ^ 32) := by
  have run := runAll_slotRun slotted_empty h
  have hs := run.slotted slotted_empty
  refine ⟨run.handles_nodup.1, ?_, ?_, hs.nodup, ?_, ?_, ?_⟩
  · rintro before after id op ty inputs rfl
    obtain ⟨g₁, -, h₁⟩ := run.append
    cases h₁ with
    | cons step run =>
      cases step with
      | created _ names =>
        obtain ⟨hkeep, hfree⟩ := run.names names
        exact ⟨hkeep, fun hmem => (hfree hmem).get?_eq_none⟩
  · intro index
    rw [hs.free_iff, empty_iff_ages]
  · rw [hs.size, ages, List.countP_map]
    rfl
  · intro id hid
    exact remove_of_not_has (by simp [has_iff_isSome, hid])
  · rintro before after id op ty inputs rfl hlt
    obtain ⟨g₁, h₀, h₁⟩ := run.append
    cases h₁ with
    | cons step run =>
      have hage := h₀.age_le id.index
      have hage' := step.age_le id.index
      cases step with
      | created _ names =>
        rw [names.has.age_eq] at hage'
        have hzero : Graph.empty.age id.index = 0 := rfl
        simp only [SlotEvent.frees, Bool.false_eq_true, if_false] at hage'
        omega

/-- A slot is freed and taken again, and its first handle is to be freed once more. -/
def takenAgain : List SlotOperation :=
  [.create .start (.control true) [], .create .constant .void [], .remove ⟨1, 0⟩,
    .create .constant (.control true) [⟨0, 0⟩], .remove ⟨1, 0⟩]

theorem runAll_handles_takenAgain :
    ∃ es g, SlotOperation.runAll takenAgain Graph.empty = .ok (es, g) ∧
    es.filterMap SlotEvent.handle? = [⟨0, 0⟩, ⟨1, 0⟩, ⟨1, 1⟩] ∧ g.size = 2 ∧
    g.get? ⟨1, 0⟩ = none ∧
    (∃ node, g.get? ⟨1, 1⟩ = some node ∧ node.inputs = [⟨0, 0⟩]) ∧
    g.remove ⟨1, 0⟩ = g := by
  have hok : passes (fun (es, g) =>
      es.filterMap SlotEvent.handle? = [⟨0, 0⟩, ⟨1, 0⟩, ⟨1, 1⟩] && g.size = 2 &&
        (g.get? ⟨1, 0⟩).isNone && (g.get? ⟨1, 1⟩).any (·.inputs = [⟨0, 0⟩]))
      (SlotOperation.runAll takenAgain Graph.empty) = true := by
    decide +kernel
  obtain ⟨⟨es, g⟩, hrun, hok⟩ := exists_ok_of_passes hok
  obtain ⟨⟨⟨hhandles, hsize⟩, hgone⟩, hthere⟩ : ((_ ∧ _) ∧ g.get? ⟨1, 0⟩ = none) ∧ _ := by
    simpa using hok
  obtain ⟨-, -, -, -, -, hremove, -⟩ := runAll_handles hrun
  have hnode : ∃ node, g.get? ⟨1, 1⟩ = some node ∧ node.inputs = [⟨0, 0⟩] := by
    simpa [Option.any_eq_true] using hthere
  exact ⟨es, g, hrun, hhandles, hsize, hgone, hnode, hremove _ hgone⟩

end SeaOfNodes
