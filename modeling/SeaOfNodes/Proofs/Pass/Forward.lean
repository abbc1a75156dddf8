import SeaOfNodes.Proofs.Build.Request
import SeaOfNodes.Proofs.Pass.Preserve
import SeaOfNodes.Proofs.Ty.Value

/-!
Loads that find what was stored. A load looks back along the chain of memory, past other loads, for a
store to its place: when it is built, and once more when the graph is simplified. Both walks come to
the same store. The loads between leave memory as it is, so that the value stored is the value that
the load would have read.
-/
namespace SeaOfNodes

open SeaOfNodes.BuildM

namespace Machine

variable {M : Machine} {has : Ty → M.Value → Prop} {ty ty' : Ty} {value : M.Value}

/-- What makes bytes stand for values: types of one shape read bytes alike, and a type reads the
bytes of its own values as these values. `has` says which values a type has. -/
structure ReadsBack (M : Machine) (has : Ty → M.Value → Prop) : Prop where
  decode_eq : ∀ {ty ty'}, ty'.sameShape ty = true → M.decode ty' = M.decode ty
  decode_encode : ∀ {ty value}, has ty value → M.decode ty (M.encode ty value) = value

def valueAt (M : Machine) (ty : Ty) (address : Nat) (m : M.Memory) : M.Value :=
  M.decode ty fun i => m (address + i)

theorem ReadsBack.valueAt_storing (h : M.ReadsBack has) (hshape : ty'.sameShape ty = true)
    (hvalue : has ty' value) (address : Nat) (m : M.Memory) :
    M.valueAt ty address ((M.storing address ty' value).act m) = value := by
  calc M.valueAt ty address ((M.storing address ty' value).act m)
    _ = M.valueAt ty' address ((M.storing address ty' value).act m) := by
      rw [valueAt, valueAt, h.decode_eq hshape]
    _ = M.decode ty' (M.encode ty' value) :=
      M.decode_congr fun i hi => by simp [Patch.act, storing, write, hi]
    _ = value := h.decode_encode hvalue

end Machine

namespace LoadSource

/-- The value that a walk found. -/
def stored? : LoadSource → Option NodeId
  | .stored value => some value
  | .after _ => none

theorem eq_stored {source : LoadSource} {value : NodeId} (h : source.stored? = some value) :
    source = .stored value := by
  cases source with
  | stored other => rw [Option.some.inj h]
  | after last => contradiction

/-- The effect where a walk stopped is there, or a value that it found has the right shape. -/
def Lies (g : Graph) (ty : Ty) : LoadSource → Prop
  | .stored value => g.At value fun _ t => t.sameShape ty = true
  | .after last => g.Has last

/-- What a walk says of the memory where it started: the value found is what memory has at the place
of the load, or memory is the same where the walk stopped. -/
def Fits {M : Machine} (v : Valuation M) (m : M.Memory) (found : M.Value) : LoadSource → Prop
  | .stored value => v.value value = found
  | .after last => v.memory last = m

end LoadSource

namespace Graph

variable {M : Machine} {has : Ty → M.Value → Prop} {g : Graph} {v : Valuation M} {b : Builder}
  {id x base effect value : NodeId} {node : Node} {e : MemoryEffect} {offset fuel : Nat} {ty t : Ty}

/-- All equations hold, also those of nodes that others stand for, and every value is one of the
node's type. -/
structure Models (has : Ty → M.Value → Prop) (g : Graph) (v : Valuation M) : Prop where
  equation : ∀ {x node}, g.get? x = some node → g.Equation v x node
  typed : ∀ {x node}, g.get? x = some node → has node.ty (v.value x)

/-- Loads and stores have their inputs, and what they name in the chain is their base. -/
structure Based (g : Graph) : Prop where
  shaped : ∀ {x node}, g.get? x = some node → node.op.isMemoryAccess = true → node.Shaped
  target : ∀ {x node e}, g.get? x = some node → node.op.isMemoryAccess = true →
    g.memory[x]? = some e → e.target = node.inputs[0]?

theorem Based.load (h : g.Based) (hn : g.get? x = some node) (hop : node.op = .load offset) :
    ∃ base, node.inputs[0]? = some base ∧ ∀ e, g.memory[x]? = some e → e.target = some base := by
  have haccess : node.op.isMemoryAccess = true := hop ▸ rfl
  have hshaped := h.shaped hn haccess
  simp only [Node.Shaped, hop] at hshaped
  have hbase := List.getElem?_eq_getElem hshaped
  exact ⟨_, hbase, fun e he => (h.target hn haccess he).trans hbase⟩

theorem Based.store (h : g.Based) (hmade : Made g) (hn : g.get? x = some node)
    (hop : node.op = .store offset) : ∃ value stored, g.input x 1 = .ok value ∧
      node.inputs[1]? = some value ∧ g.get? value = some stored := by
  have hshaped := h.shaped hn (hop ▸ rfl)
  simp only [Node.Shaped, hop] at hshaped
  obtain ⟨-, -, stored, hstored, -⟩ := hmade.keeps.2 x (.value 1) _
    ⟨node, hn, List.getElem_mem hshaped⟩
  exact ⟨_, stored, input_of_get? hn hshaped, List.getElem?_eq_getElem hshaped, hstored⟩

/-! ### One effect -/

theorem load_of_equation (heq : g.Equation v x node) (hop : node.op = .load offset)
    (hbase : node.inputs[0]? = some base) (he : g.memory[x]? = some e) :
    v.value x = M.valueAt node.ty (M.address (v.value base) + offset) (v.memory e.previous) ∧
      v.memory x = v.memory e.previous := by
  obtain ⟨rest, hinputs⟩ : ∃ rest, node.inputs = base :: rest := by
    cases hin : node.inputs <;> simp_all
  have hpatch : g.patch? v node = some (M.loading (M.address (v.value base) + offset) node.ty) := by
    simp [patch?, hop, hinputs]
  unfold Equation at heq
  rw [hpatch, before?_eq_some_iff.2 ⟨e, he, rfl⟩] at heq
  exact ⟨heq.1, heq.2.trans (Machine.act_loading _ _ _)⟩

theorem Models.store (h : g.Models has v) (hM : M.ReadsBack has) (hn : g.get? x = some node)
    (hop : node.op = .store offset) (hbase : node.inputs[0]? = some base)
    (hvalue : node.inputs[1]? = some value) {stored : Node} (hstored : g.get? value = some stored)
    (hshape : stored.ty.sameShape ty = true) (he : g.memory[x]? = some e) :
    v.value value = M.valueAt ty (M.address (v.value base) + offset) (v.memory x) := by
  have heq := h.equation hn
  obtain ⟨rest, hinputs⟩ : ∃ rest, node.inputs = base :: value :: rest := by
    rcases hin : node.inputs with _ | ⟨a, _ | ⟨b, rest⟩⟩ <;> simp_all
  have hpatch : g.patch? v node =
      some (M.storing (M.address (v.value base) + offset) stored.ty (v.value value)) := by
    simp [patch?, hop, hinputs, hstored]
  unfold Equation at heq
  rw [hpatch, before?_eq_some_iff.2 ⟨e, he, rfl⟩] at heq
  rw [heq.2, hM.valueAt_storing hshape (h.typed hstored)]

/-! ### The walks -/

/-- What both walks find, the one of a new load and the one of a pass over a load of the same type. -/
def Finds (g : Graph) (base : NodeId) (offset : Nat) (ty : Ty) (fuel : Nat) (effect : NodeId)
    (source : LoadSource) : Prop :=
  loadSource g base offset ty fuel effect = .ok source ∧ ∀ load, g.ty load = .ok ty →
    g.storedValue? load (some base) offset fuel effect = .ok source.stored?

theorem finds_cases (hmade : Made g) (hbased : g.Based) (hn : g.get? effect = some node)
    (base : NodeId) (offset : Nat) (ty : Ty) (fuel : Nat) :
    (∃ value stored e, node.op = .store offset ∧ node.inputs[1]? = some value ∧
      g.get? value = some stored ∧ stored.ty.sameShape ty = true ∧ g.memory[effect]? = some e ∧
      e.target = some base ∧ g.Finds base offset ty (fuel + 1) effect (.stored value)) ∨
    g.Finds base offset ty (fuel + 1) effect (.after effect) ∨
    ∃ at_ e, node.op = .load at_ ∧ g.memory[effect]? = some e ∧ ∀ source,
      g.Finds base offset ty fuel e.previous source →
      g.Finds base offset ty (fuel + 1) effect source := by
  unfold Finds
  simp only [loadSource, storedValue?, op_of_get? hn, bind, Except.bind]
  cases hop : node.op with
  | store at_ =>
    obtain ⟨value, stored, hinput, hvalue, hstored⟩ := hbased.store hmade hn hop
    by_cases hat : at_ = offset
    · subst hat
      rcases he : g.memory[effect]? with _ | e
      · simp [hinput, LoadSource.stored?, pure, Except.pure]
      · by_cases htarget : e.target = some base <;> cases hshape : stored.ty.sameShape ty <;>
          simp +contextual [hinput, hvalue, ty_of_get? hstored, hstored, htarget, hshape,
            LoadSource.stored?, pure, Except.pure]
    · rcases he : g.memory[effect]? with _ | e <;>
        simp [hat, LoadSource.stored?, pure, Except.pure]
  | load at_ =>
    rcases he : g.memory[effect]? with _ | e
    · exact .inr (.inl ⟨rfl, fun _ _ => rfl⟩)
    · exact .inr (.inr ⟨at_, e, rfl, rfl, fun _ h => h⟩)
  | _ => exact .inr (.inl ⟨rfl, fun _ _ => rfl⟩)

theorem exists_finds (hmade : Made g) (hends : g.ChainsEnd) (hbased : g.Based)
    (heffect : g.Has effect) (base : NodeId) (offset : Nat) (ty : Ty) : ∃ source,
      g.Finds base offset ty (g.slots.size + 1) effect source ∧ source.Lies g ty ∧
      ∀ (M : Machine) has (v : Valuation M),
        M.ReadsBack has → g.Models has v → source.Fits v (v.memory effect)
          (M.valueAt ty (M.address (v.value base) + offset) (v.memory effect)) := by
  obtain ⟨n, hn⟩ := hends effect
  have hle := endsIn_le_size (fun x e hx => hmade.keeps.1.memory hx) hn
  replace hle : n < g.slots.size + 1 := by omega
  generalize g.slots.size + 1 = fuel at hle
  induction fuel generalizing effect n with
  | zero => omega
  | succ fuel ih =>
    obtain ⟨node, hnode⟩ := heffect
    rcases finds_cases hmade hbased hnode base offset ty fuel with
      ⟨value, stored, e, hop, hvalue, hstored, hshape, he, htarget, hfinds⟩ | hfinds |
        ⟨at_, e, hop, he, hfinds⟩
    · refine ⟨_, hfinds, ⟨stored, hstored, hshape⟩, fun M has v hM hv => ?_⟩
      rw [hbased.target hnode (hop ▸ rfl) he] at htarget
      exact hv.store hM hnode hop htarget hvalue hstored hshape he
    · exact ⟨_, hfinds, ⟨node, hnode⟩, fun M has v _ _ => rfl⟩
    · obtain ⟨base', hbase', -⟩ := hbased.load hnode hop
      obtain ⟨-, -, previous, hprevious, -⟩ := hmade.keeps.2 effect .previous _ ⟨e, he, rfl⟩
      obtain ⟨m, rfl, htail⟩ := hn.tail (before?_eq_some_iff.2 ⟨e, he, rfl⟩)
      obtain ⟨source, hsource, hlast, hfits⟩ := ih ⟨previous, hprevious⟩ _ htail (by omega)
      refine ⟨source, hfinds source hsource, hlast, fun M has v hM hv => ?_⟩
      rw [(load_of_equation (hv.equation hnode) hop hbase' he).2]
      exact hfits M has v hM hv

/-! ### New nodes -/

/-- A node can be added wherever free slots are empty, and there is nothing else to change. -/
theorem FreeSlots.create_ok (hf : g.FreeSlots) (op : Op) (ty : Ty) {inputs : List NodeId}
    (hin : ∀ x ∈ inputs, g.Has x) : ∃ id g', g.create op ty inputs = .ok (id, g') ∧
      g'.FreeSlots ∧ g'.memory = g.memory ∧ Joins g g' id op (ty.stamp g.origins).1 inputs := by
  have hallocates := allocates (g := { g with origins := (ty.stamp g.origins).2 })
    ⟨hf.empty, hf.nodup⟩ { op, ty := (ty.stamp g.origins).1, inputs }
  obtain ⟨g', hg'⟩ := registerInputs_ok (fun x hx => hallocates.has.2 (.inr (hin x hx))) _ 0 []
  have hcreate : g.create op ty inputs = .ok (_, g') := bind_eq_ok_iff.2 ⟨g', hg', rfl⟩
  obtain ⟨g1, hnew, henters, -⟩ := create_allocates hf hcreate
  refine ⟨_, g', hcreate, ?_, ?_, .create hf hcreate⟩
  · exact hnew.free.of_has henters.free henters.size fun x hx => henters.has.1 hx
  · rw [henters.memory, hnew.frame]

/-- The graph was made by operations, and the new node has this place in the chain. -/
structure Grows (g g' : Graph) (id : NodeId) (op : Op) (ty : Ty) (inputs : List NodeId)
    (effect : Option MemoryEffect) : Prop extends Joins g g' id op ty inputs where
  made : Made g'
  effect : g'.memory[id]? = effect

theorem Made.create_ok (hmade : Made g) (op : Op) (ty : Ty) {inputs : List NodeId}
    (hin : ∀ x ∈ inputs, g.Has x) : ∃ id g', g.create op ty inputs = .ok (id, g') ∧
      Grows g g' id op (ty.stamp g.origins).1 inputs none := by
  obtain ⟨id, g', hcreate, -, hmemory, hjoins⟩ := hmade.keeps.1.free.create_ok op ty hin
  refine ⟨id, g', hcreate, hjoins, .step (.create op ty inputs) hmade hin ?_, ?_⟩
  · exact bind_eq_ok_iff.2 ⟨_, hcreate, rfl⟩
  · rw [hmemory]
    exact Option.eq_none_iff_forall_ne_some.2 fun e he => hjoins.new (hmade.keeps.1.memory he)

namespace Grows

variable {g' : Graph} {op : Op} {inputs : List NodeId} {effect : Option MemoryEffect}

theorem attachMemory (h : Grows g g' id op ty inputs none) (hprevious : g.Has e.previous)
    (htarget : ∀ t, e.target = some t → g.Has t) :
    ∃ g'', g'.attachMemory id e = .ok g'' ∧ Grows g g'' id op ty inputs (some e) := by
  have hhas := h.extend.keeps.has hprevious
  obtain ⟨g'', ha⟩ := attachMemory_ok hhas (fun t ht => h.extend.keeps.has (htarget t ht)) id
  have henters := (attachMemory_spec ha).1
  obtain ⟨us, hus⟩ := h.node
  obtain ⟨vs, hvs, -⟩ := henters.node hus
  refine ⟨g'', ha, ⟨h.extend.attachMemory h.new ha, h.new, fun hx => h.only (henters.has.1 hx),
    ⟨vs, hvs⟩⟩, .step (.attachMemory id e) h.made ?_ ha, ?_⟩
  · refine List.forall_mem_cons.2 ⟨⟨_, hus⟩, List.forall_mem_cons.2 ⟨hhas, fun t ht => ?_⟩⟩
    exact h.extend.keeps.has (htarget t (Option.mem_toList.1 ht))
  · rw [henters.memory]
    exact (getElem?_insert_id _ _ _ _).trans (if_pos rfl)

theorem chainsEnd (h : Grows g g' id op ty inputs effect) (hmade : Made g) (hends : g.ChainsEnd)
    (heffect : ∀ e, effect = some e → g.Has e.previous) : g'.ChainsEnd := by
  have hkept : ∀ x, ¬ x = id → g'.before? x = g.before? x := by
    intro x hx
    by_cases hhas : g.Has x
    · rw [before?, before?, h.extend.memory hhas]
    · have hnone : g.memory[x]? = none ∧ g'.memory[x]? = none := by
        refine ⟨Option.eq_none_iff_forall_ne_some.2 fun e he => hhas (hmade.keeps.1.memory he),
          Option.eq_none_iff_forall_ne_some.2 fun e he => ?_⟩
        exact (h.only (h.made.keeps.1.memory he)).elim hhas hx
      rw [before?, before?, hnone.1, hnone.2]
  have hleads : ∀ {a b}, Chain.Leads g.before? a b → g.Has a → g.Has b := by
    intro a b hab
    induction hab with
    | refl a => exact fun ha => ha
    | step hnext _ ih =>
      obtain ⟨e, he, rfl⟩ := before?_eq_some_iff.1 hnext
      obtain ⟨-, -, previous, hprevious, -⟩ := hmade.keeps.2 _ .previous _ ⟨e, he, rfl⟩
      exact fun _ => ih ⟨previous, hprevious⟩
  cases effect with
  | none =>
    have hsame : g'.before? = g.before? := by
      funext x
      by_cases hx : x = id
      · rw [hx, before?, before?, h.effect,
          Option.eq_none_iff_forall_ne_some.2 fun e he => h.new (hmade.keeps.1.memory he)]
      · exact hkept x hx
    exact fun x => hsame ▸ hends x
  | some e =>
    refine Chain.ends_of_moved hkept hends ?_
    rintro _ rfl
    refine ⟨e.previous, before?_eq_some_iff.2 ⟨e, h.effect, rfl⟩, ?_⟩
    obtain ⟨n, hn⟩ := hends e.previous
    refine ⟨n, hn.of_not_leads hkept ?_⟩
    rintro _ rfl hl
    exact h.new (hleads hl (heffect e rfl))

theorem based (h : Grows g g' id op ty inputs effect) (hbased : g.Based)
    (hop : op.isMemoryAccess = true → Node.Shaped ⟨op, ty, inputs, [], false⟩ ∧
      ∀ e, effect = some e → e.target = inputs[0]?) : g'.Based := by
  constructor
  · intro x node hn haccess
    rcases h.cases hn with ⟨old, us, hold, rfl⟩ | ⟨rfl, us, rfl⟩
    · have hshaped : old.Shaped := hbased.shaped hold haccess
      exact hshaped
    · exact (hop haccess).1
  · intro x node e hn haccess he
    rcases h.cases hn with ⟨old, us, hold, rfl⟩ | ⟨rfl, us, rfl⟩
    · rw [h.extend.memory ⟨_, hold⟩] at he
      have htarget : e.target = old.inputs[0]? := hbased.target hold haccess he
      exact htarget
    · exact (hop haccess).2 e (h.effect.symm.trans he)

end Grows

variable {F : Fault → Prop}

theorem create_does (hmade : Made b.graph) (op : Op) (ty : Ty) {inputs : List NodeId}
    (hin : ∀ x ∈ inputs, b.graph.Has x) : Does F b (BuildM.create op ty inputs) fun id b' =>
      b' = { b with graph := b'.graph } ∧
        Grows b.graph b'.graph id op (ty.stamp b.graph.origins).1 inputs none := by
  obtain ⟨id, g', hc, hg⟩ := hmade.create_ok op ty hin
  exact .editWith hc ⟨rfl, hg⟩

theorem memoryTag_does (h : b.graph.Has base) : Does F b (memoryTag base) fun _ b' => b' = b := by
  obtain ⟨node, hn⟩ := h
  refine look_bind (op_of_get? hn) ?_
  cases node.op <;> exact .pure rfl

theorem threadMemory_grows {op : Op} {inputs : List NodeId} {tag : MemoryTag}
    (h : Grows g b.graph id op ty inputs none) (hcursor : g.Has b.cursor.memory)
    (hbase : g.Has base) : Does F b (threadMemory id (some base) tag) fun _ b' =>
      b'.cursor.memory = id ∧
        Grows g b'.graph id op ty inputs (some ⟨b.cursor.memory, some base, tag⟩) := by
  obtain ⟨g', ha, hg⟩ := h.attachMemory (e := ⟨b.cursor.memory, some base, tag⟩) hcursor
    (by rintro _ ⟨⟩; exact hbase)
  exact threadMemory_ok ha ⟨rfl, hg⟩

/-- A new load gives a value that was stored, or it stands behind an effect. Its value is what memory
has at its place, and it leaves memory as it is. -/
theorem emitLoad_does (hmade : Made b.graph) (hends : b.graph.ChainsEnd) (hbased : b.graph.Based)
    (hbase : b.graph.Has base) (hcursor : b.graph.Has b.cursor.memory) (offset : Nat) (ty : Ty) :
    Does F b (emitLoad base offset ty) fun id b' =>
      ((b' = b ∧ b.graph.At id fun _ t => t.sameShape ty = true) ∨
        b'.cursor.memory = id ∧ ∃ last tag, b.graph.Has last ∧ Grows b.graph b'.graph id (.load offset)
          (ty.stamp b.graph.origins).1 [base] (some ⟨last, some base, tag⟩)) ∧
      ∀ (M : Machine) has (v : Valuation M), M.ReadsBack has → b.graph.Models has v →
        (∀ node, b'.graph.get? id = some node → b'.graph.Equation v id node) →
        v.value id = M.valueAt ty (M.address (v.value base) + offset) (v.memory b.cursor.memory) ∧
          v.memory b'.cursor.memory = v.memory b.cursor.memory := by
  obtain ⟨source, ⟨hsource, -⟩, hlies, hfits⟩ := exists_finds hmade hends hbased hcursor base offset ty
  refine Does.bind (Q := fun c b' => c = b.cursor ∧ b' = b) ⟨rfl, rfl⟩ ?_
  rintro _ b ⟨rfl, rfl⟩
  refine look_bind hsource ?_
  cases source with
  | stored value => exact .pure ⟨.inl ⟨rfl, hlies⟩, fun M has v hM hv _ => ⟨hfits M has v hM hv, rfl⟩⟩
  | after last =>
    refine (memoryTag_does hbase).bind ?_
    rintro tag b rfl
    refine (create_does hmade _ ty (List.forall_mem_singleton.2 hbase)).bind ?_
    rintro id b1 ⟨hb1, hg⟩
    refine Does.bind (Q := fun _ b' => b' = { b1 with cursor := { b.cursor with memory := last } })
      (.of_modify rfl) ?_
    rintro _ _ rfl
    refine (threadMemory_grows (b := { b1 with cursor := { b.cursor with memory := last } }) hg
      hlies hbase).bind fun _ b2 h2 => ?_
    obtain ⟨hid, hg⟩ := h2
    refine .pure ⟨.inr ⟨hid, last, tag, hlies, hg⟩, fun M has v hM hv heq => ?_⟩
    obtain ⟨us, hn⟩ := hg.node
    obtain ⟨hvalue, hmemory⟩ := load_of_equation (heq _ hn) rfl rfl hg.effect
    rw [hid, hvalue, hmemory, show v.memory last = _ from hfits M has v hM hv]
    refine ⟨?_, rfl⟩
    unfold Machine.valueAt
    rw [hM.decode_eq (Ty.sameShape_of_plain (Ty.plain_stamp _ ty))]

/-! ### Forwarding -/

/-- Loads that find what was stored are right. The node that a new load gives has the value that
memory has at the load's place where the builder stands, and memory there stays as it is; and a node
that a pass puts in the place of a load has the load's value. -/
theorem load_forwards (hM : M.ReadsBack has) (hmade : Made b.graph) (hends : b.graph.ChainsEnd)
    (hbased : b.graph.Based) (hbase : b.graph.Has base) (hcursor : b.graph.Has b.cursor.memory)
    (offset : Nat) (ty : Ty) :
    (∃ id b', emitLoad base offset ty b = .ok (id, b') ∧ ∀ v : Valuation M, b.graph.Models has v →
      (∀ node, b'.graph.get? id = some node → b'.graph.Equation v id node) →
      v.value id = M.valueAt ty (M.address (v.value base) + offset) (v.memory b.cursor.memory) ∧
        v.memory b'.cursor.memory = v.memory b.cursor.memory) ∧
    ∀ load, b.graph.Has load → ∃ found, b.graph.foldLoad load = .ok (found, b.graph) ∧
      ∀ v : Valuation M, b.graph.Models has v → ∀ value, found = some value →
        v.value value = v.value load := by
  constructor
  · obtain ⟨⟨id, b'⟩, hemit, -, hreads⟩ :=
      (emitLoad_does hmade hends hbased hbase hcursor offset ty).exists_ok
    exact ⟨id, b', hemit, fun v hv heq => hreads M has v hM hv heq⟩
  · rintro load ⟨node, hn⟩
    rw [foldLoad, op_of_get? hn]
    simp only [bind, Except.bind]
    cases hop : node.op with
    | load offset =>
      cases he : b.graph.memory[load]? with
      | none => exact ⟨none, rfl, by simp⟩
      | some e =>
        obtain ⟨base, hbase, htarget⟩ := hbased.load hn hop
        obtain ⟨-, -, previous, hprevious, -⟩ := hmade.keeps.2 load .previous _ ⟨e, he, rfl⟩
        obtain ⟨source, ⟨-, hsource⟩, -, hfits⟩ :=
          exists_finds hmade hends hbased ⟨previous, hprevious⟩ base offset node.ty
        dsimp only
        rw [htarget e he, hsource load (ty_of_get? hn)]
        refine ⟨source.stored?, rfl, fun v hv value hvalue => ?_⟩
        obtain rfl := LoadSource.eq_stored hvalue
        rw [(load_of_equation (hv.equation hn) hop hbase he).1]
        exact hfits M has v hM hv
    | _ => exact ⟨none, rfl, by simp⟩

/-! ### A load behind another load -/

/-- Words are kept in one byte of those that they have, other types have no value but zero, and what
is neither a load nor a store is seven. -/
def cellMachine : Machine :=
  { wordMachine with
    decode := fun ty f => if ty.sameShape (.int .i64 .bottom) then f 0 else (0 : Nat)
    decode_congr := fun {ty _ _} h => by
      refine ite_congr rfl (fun hword => h 0 ?_) fun _ => rfl
      cases ty <;> simp [Ty.sameShape_iff, Ty.shape, Ty.bottom, Ty.withLevel, Ty.plain] at hword
      rw [hword]
      exact Nat.zero_lt_succ 7
    other := fun _ _ _ _ _ => ((7 : Nat), fun _ => (0 : Nat)) }

def cellHas (ty : Ty) (value : Nat) : Prop := ty.sameShape (.int .i64 .bottom) = true ∨ value = 0

theorem cellMachine_readsBack : cellMachine.ReadsBack cellHas where
  decode_eq {ty ty'} h := by
    have hsame : ty'.sameShape (.int .i64 .bottom) = ty.sameShape (.int .i64 .bottom) := by
      rw [Bool.eq_iff_iff, Ty.sameShape_iff, Ty.sameShape_iff, Ty.sameShape_iff.1 h]
    simp only [cellMachine, hsame]
  decode_encode {ty value} h := by
    rcases h with h | rfl
    · exact if_pos h
    · exact ite_self (0 : Nat)

/-- A word is stored at the address that it is itself, and loaded. -/
def cellGraph : Except Fault Graph :=
  let word : Ty := .int .i64 .bottom
  Operation.runAll [.create .constant word [],
    .create (.store 0) .memory [⟨0, 0⟩, ⟨0, 0⟩], .attachMemory ⟨1, 0⟩ ⟨⟨0, 0⟩, some ⟨0, 0⟩, .unknown⟩,
    .create (.load 0) word [⟨0, 0⟩], .attachMemory ⟨2, 0⟩ ⟨⟨1, 0⟩, some ⟨0, 0⟩, .unknown⟩] .empty

/-- The nodes of the graph: operation, inputs, whether it is a word, and its place in the chain. -/
def cellNodes : List (NodeId × Op × List NodeId × Bool × Option MemoryEffect) :=
  [(⟨0, 0⟩, .constant, [], true, none),
   (⟨1, 0⟩, .store 0, [⟨0, 0⟩, ⟨0, 0⟩], false, some ⟨⟨0, 0⟩, some ⟨0, 0⟩, .unknown⟩),
   (⟨2, 0⟩, .load 0, [⟨0, 0⟩], true, some ⟨⟨1, 0⟩, some ⟨0, 0⟩, .unknown⟩)]

/-- The value of the word is seven, so that this is what the byte at seven is from the store on. -/
def cells : Valuation cellMachine where
  value x := (if x.index = 1 then 0 else 7 : Nat)
  memory x a := (if x.index ≠ 0 ∧ a = 7 then 7 else 0 : Nat)

theorem models_cells (hnodes : ∀ x ∈ g.ids, ∀ node ∈ g.get? x,
      (x, node.op, node.inputs, node.ty.sameShape (.int .i64 .bottom), g.memory[x]?) ∈ cellNodes)
    (hsize : (g.get? ⟨0, 0⟩).map (fun node => cellMachine.size node.ty) = some 8) :
    g.Models cellHas cells ∧ g.Based := by
  have hcases : ∀ {x node}, g.get? x = some node → _ := fun {x node} hn =>
    hnodes x (mem_ids hn) node hn
  simp only [cellNodes, List.mem_cons, Prod.mk.injEq, List.not_mem_nil, or_false] at hcases
  refine ⟨⟨?_, ?_⟩, ⟨?_, ?_⟩⟩
  · intro x node hn
    unfold Equation patch? before?
    rcases hcases hn with h | h | h <;> obtain ⟨rfl, hop, hinputs, hword, he⟩ := h <;>
      rw [hop, hinputs, he]
    · rfl
    · obtain ⟨stored, hstored, hsize⟩ := Option.map_eq_some_iff.1 hsize
      dsimp only
      rw [hstored]
      refine ⟨rfl, funext fun a => ?_⟩
      change (if 1 ≠ 0 ∧ a = 7 then 7 else 0 : Nat) =
        if 7 ≤ a ∧ a < 7 + cellMachine.size stored.ty then (if a - 7 = 0 then 7 else 0) else 0
      split <;> split <;> first | rfl | split <;> omega | omega
    · refine ⟨(if_pos hword).symm, funext fun a => ?_⟩
      rw [Machine.act_loading]
      change (if 2 ≠ 0 ∧ a = 7 then 7 else 0 : Nat) = if 1 ≠ 0 ∧ a = 7 then 7 else 0
      simp
  · intro x node hn
    rcases hcases hn with h | h | h <;> obtain ⟨rfl, hop, hinputs, hword, he⟩ := h
    · exact .inl hword
    · exact .inr rfl
    · exact .inl hword
  · intro x node hn _
    rcases hcases hn with h | h | h <;> obtain ⟨rfl, hop, hinputs, hword, he⟩ := h <;>
      simp [Node.Shaped, hop, hinputs]
  · intro x node e hn _ heffect
    rcases hcases hn with h | h | h <;> obtain ⟨rfl, hop, hinputs, hword, he⟩ := h <;>
      rw [heffect] at he
    · contradiction
    · rw [hinputs, Option.some.inj he]
      rfl
    · rw [hinputs, Option.some.inj he]
      rfl

def behindLoad (g : Graph) : Builder := { Builder.initial with graph := g, cursor := ⟨⟨0, 0⟩, ⟨2, 0⟩⟩ }

/-- A load of the word behind its store and another load gives the word, and so does a pass on that
other load. -/
theorem load_forwards_cells : ∃ g, cellGraph = .ok g ∧ cellMachine.ReadsBack cellHas ∧ Made g ∧
    g.ChainsEnd ∧ g.Based ∧ g.Models cellHas cells ∧
    (∃ b', emitLoad ⟨0, 0⟩ 0 (.int .i64 .bottom) (behindLoad g) = .ok (⟨0, 0⟩, b') ∧
      cells.value ⟨0, 0⟩ = cellMachine.valueAt (.int .i64 .bottom) 7 (cells.memory ⟨2, 0⟩)) ∧
    g.foldLoad ⟨2, 0⟩ = .ok (some ⟨0, 0⟩, g) ∧ cells.value ⟨0, 0⟩ = cells.value ⟨2, 0⟩ := by
  have hchecks : passes (fun g => decide (∀ x ∈ g.ids, ∀ node ∈ g.get? x,
        (x, node.op, node.inputs, node.ty.sameShape (.int .i64 .bottom), g.memory[x]?) ∈ cellNodes) &&
      decide ((g.get? ⟨0, 0⟩).map (fun node => cellMachine.size node.ty) = some 8) &&
      decide (∀ x ∈ g.ids, ∀ effect ∈ g.memory[x]?, effect.previous.index < x.index) &&
      decide ((g.get? ⟨2, 0⟩).isSome = true) &&
      decide ((g.foldLoad ⟨2, 0⟩).toOption.map Prod.fst = some (some ⟨0, 0⟩)) &&
      passes (fun r => r.1 == ⟨0, 0⟩ && (r.2.graph.get? ⟨0, 0⟩).all fun node => node.op == .constant)
        (emitLoad ⟨0, 0⟩ 0 (.int .i64 .bottom) (behindLoad g))) cellGraph = true := by
    decide +kernel
  obtain ⟨g, hg, hchecks⟩ := exists_ok_of_passes hchecks
  simp only [Bool.and_eq_true, decide_eq_true_eq, ← has_iff_isSome] at hchecks
  obtain ⟨⟨⟨⟨⟨hnodes, hsize⟩, hindex⟩, hload⟩, hfold⟩, hemit⟩ := hchecks
  have hmade : Made g := Made.empty.runAll hg
  have hends := chainsEnd_of_index hmade hindex
  obtain ⟨hmodels, hbased⟩ := models_cells hnodes hsize
  have hbase : g.Has ⟨0, 0⟩ := by
    obtain ⟨node, hn, -⟩ := Option.map_eq_some_iff.1 hsize
    exact ⟨node, hn⟩
  obtain ⟨⟨id, b', hnew, hvalue⟩, hpass⟩ := load_forwards (b := behindLoad g)
    cellMachine_readsBack hmade hends hbased hbase hload 0 (.int .i64 .bottom)
  obtain ⟨found, hfound, hsame⟩ := hpass ⟨2, 0⟩ hload
  refine ⟨g, hg, cellMachine_readsBack, hmade, hends, hbased, hmodels, ⟨b', ?_⟩, ?_⟩
  · rw [hnew] at hemit
    simp only [passes, Bool.and_eq_true, beq_iff_eq] at hemit
    obtain ⟨rfl, hop⟩ := hemit
    refine ⟨hnew, (hvalue cells hmodels fun node hn => ?_).1⟩
    rw [hn] at hop
    have hop : node.op = .constant := by simpa using hop
    unfold Equation patch?
    rw [hop]
    rfl
  · have hfound : g.foldLoad ⟨2, 0⟩ = .ok (found, g) := hfound
    rw [hfound] at hfold ⊢
    obtain rfl : found = some ⟨0, 0⟩ := by simpa [Except.toOption] using hfold
    exact ⟨rfl, hsame cells hmodels _ rfl⟩

end Graph

end SeaOfNodes
