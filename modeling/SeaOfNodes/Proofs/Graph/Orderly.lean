import SeaOfNodes.Proofs.Graph.Construct

/-!
Graphs that are in order: no slot is free, edges are entered where they point to, and the tables
name nodes of the right kinds. Every step of construction keeps this, and so does every change that
an optimization makes, whatever becomes of the phis.
-/
namespace SeaOfNodes

namespace Graph

variable {g g' : Graph} {id x phi region header : NodeId} {phis xs : List NodeId}

def IsDead (g : Graph) (id : NodeId) : Prop := g.At id fun op ty => op = .constant ∧ ty.isDead = true

/-- A graph without free slots whose edges are entered, in which effects are neither phis nor nodes
where paths join, only phis have regions, and the node for dead control is one. -/
structure Orderly (g : Graph) : Prop where
  dense : g.Dense
  registered : g.Registered
  plain : g.EffectsPlain
  entries : ∀ (x : NodeId) r, g.phiRegion[x]? = some r → g.IsPhi x
  dead : ∀ id, g.deadNode = some id → g.IsDead id

namespace Orderly

theorem change (h : g.Orderly) (hd : g'.Dense) (hreg : g'.Registered) (hkeeps : Keeps g g')
    (hmemory : ∀ (x : NodeId) e', g'.memory[x]? = some e' →
      (∃ e, g.memory[x]? = some e) ∨ g'.At x fun op _ => op.isMerge = false ∧ op ≠ .phi)
    (hregion : ∀ (x : NodeId) r', g'.phiRegion[x]? = some r' →
      (∃ r, g.phiRegion[x]? = some r) ∨ g'.IsPhi x)
    (hdead : g'.deadNode = g.deadNode) : g'.Orderly := by
  refine ⟨hd, hreg, ?_, ?_, ?_⟩
  · intro x e' he'
    rcases hmemory x e' he' with ⟨e, he⟩ | hat
    · exact hkeeps.at (h.plain x e he)
    · exact hat
  · intro x r' hr'
    rcases hregion x r' hr' with ⟨r, hr⟩ | hphi
    · exact hkeeps.at (h.entries x r hr)
    · exact hphi
  · intro id hid
    rw [hdead] at hid
    exact hkeeps.at (h.dead id hid)

theorem change_nodes (h : g.Orderly) (hd : g'.Dense) (hreg : g'.Registered) (hkeeps : Keeps g g')
    (hmemory : g'.memory = g.memory) (hregion : g'.phiRegion = g.phiRegion)
    (hdead : g'.deadNode = g.deadNode) : g'.Orderly := by
  refine h.change hd hreg hkeeps ?_ ?_ hdead
  · intro x e he
    exact .inl ⟨e, hmemory ▸ he⟩
  · intro x r hr
    exact .inl ⟨r, hregion ▸ hr⟩

/-! ### Construction -/

section

variable (h : g.Orderly)
include h

theorem create {op : Op} {ty : Ty} {inputs : List NodeId}
    (hc : g.create op ty inputs = .ok (id, g')) : g'.Orderly := by
  obtain ⟨-, henters, -⟩ := create_spec h.dense hc
  exact h.change_nodes (h.dense.create hc) (h.registered.create h.dense.freeSlots hc)
    (Persists.of_create h.dense hc).keeps henters.memory henters.phiRegion henters.deadNode

theorem of_same (hslots : g'.slots = g.slots) (hfree : g'.free = g.free)
    (hcontrol : g'.control = g.control) (hmemory : g'.memory = g.memory)
    (hregion : ∀ (x : NodeId) r', g'.phiRegion[x]? = some r' → (∃ r, g.phiRegion[x]? = some r) ∨ g.IsPhi x)
    (hdead : ∀ id, g'.deadNode = some id → g.IsDead id) : g'.Orderly := by
  have hget : ∀ x, g'.get? x = g.get? x := by
    intro x
    unfold get?
    rw [hslots]
  have hhas : ∀ x, g'.Has x ↔ g.Has x := by
    intro x
    unfold Has
    rw [hget]
  have hat : ∀ {x} {P : Op → Ty → Prop}, g.At x P → g'.At x P := by
    rintro x P ⟨node, hn, hP⟩
    exact ⟨node, (hget x).trans hn, hP⟩
  refine ⟨⟨by rw [hfree]; exact h.dense.free, ?_⟩, ?_, ?_, ?_, fun id hid => hat (hdead id hid)⟩
  · intro x
    rw [hhas, hslots]
    exact h.dense.has_iff x
  · refine h.registered.of_change ?_ ?_
    · rintro y u ⟨node, hn, hu⟩
      exact ⟨node, (hget y).trans hn, hu⟩
    · intro x edge y hr
      refine .inl ?_
      cases edge <;> simpa only [Refers, hget, hcontrol, hmemory] using hr
  · intro x e he
    rw [hmemory] at he
    exact hat (h.plain x e he)
  · intro x r' hr'
    rcases hregion x r' hr' with ⟨r, hr⟩ | hphi
    · exact hat (h.entries x r hr)
    · exact hat hphi

theorem attachControl {c : NodeId} (ha : g.attachControl id c = .ok g') : g'.Orderly := by
  obtain ⟨henters, -⟩ := attachControl_spec ha
  have hd : ({ g with control := g.control.insert id c } : Graph).Dense :=
    ⟨h.dense.free, h.dense.has_iff⟩
  exact h.change_nodes (hd.enters henters) (h.registered.attachControl ha) ⟨henters.keeps.node⟩
    henters.memory henters.phiRegion henters.deadNode

theorem attachMemory {effect : MemoryEffect}
    (hid : g.At id fun op _ => op.isMerge = false ∧ op ≠ .phi)
    (ha : g.attachMemory id effect = .ok g') : g'.Orderly := by
  obtain ⟨henters, -⟩ := attachMemory_spec ha
  have hd : ({ g with memory := g.memory.insert id effect } : Graph).Dense :=
    ⟨h.dense.free, h.dense.has_iff⟩
  refine h.change (hd.enters henters) (h.registered.attachMemory ha) ⟨henters.keeps.node⟩ ?_ ?_
    henters.deadNode
  · intro x e he
    rw [henters.memory, getElem?_insert_id] at he
    by_cases hx : x = id
    · exact .inr (henters.keeps.at (hx ▸ hid))
    · rw [if_neg hx] at he
      exact .inl ⟨e, he⟩
  · intro x r hr
    rw [henters.phiRegion] at hr
    exact .inl ⟨r, hr⟩

theorem addPhi {cases : List NodeId} {ty : Ty} (ha : g.addPhi region cases ty = .ok (phi, g')) :
    g'.Orderly := by
  have hadds := addPhi_spec h.dense ha
  obtain ⟨⟨phi', g1⟩, h1, ha⟩ := bind_eq_ok_iff.1 ha
  obtain ⟨g2, h2, ha⟩ := bind_eq_ok_iff.1 ha
  obtain ⟨rfl, rfl⟩ := Prod.mk.inj (Except.ok.inj ha)
  have h2 := (h.create h1).attachControl h2
  refine h2.of_same rfl rfl rfl rfl ?_ h2.dead
  intro x r hr
  have hr : (g2.phiRegion.insert phi' region)[x]? = some r := hr
  rw [getElem?_insert_id] at hr
  by_cases hx : x = phi'
  · exact .inr (hx ▸ hadds.isPhi)
  · rw [if_neg hx] at hr
    exact .inl ⟨r, hr⟩

theorem appendInput {input : NodeId} (ha : g.appendInput id input = .ok g') : g'.Orderly := by
  obtain ⟨node, hn, henters, -⟩ := appendInput_spec ha
  have happended := appended_one ha
  exact h.change_nodes (happended.dense h.dense) (h.registered.appendInput ha) happended.keeps
    henters.memory henters.phiRegion henters.deadNode

theorem opens (ho : Opens header phis g g') : g'.Orderly := by
  induction ho with
  | nil => exact h
  | phi hadd _ ih => exact ih (h.addPhi hadd)
  | @error id phis g g1 g2 hreports _ _ ih =>
    refine ih ?_
    rcases hreports with heq | ⟨origins, span, ty, id, hc⟩
    · rw [heq]
      exact h
    · have horigins : ({ g with origins := origins } : Graph).Orderly :=
        h.of_same rfl rfl rfl rfl (fun x r hr => .inl ⟨r, hr⟩) h.dead
      exact horigins.create hc

theorem appends (ha : Appends xs g g') : g'.Orderly := by
  induction ha with
  | nil => exact h
  | cons happend _ ih => exact ih (h.appendInput happend)

end

/-! ### Edges that are turned -/

theorem turned {t : Turn} {us : List User} (h : g.Orderly) (hturned : EdgesTurned t us g g')
    (hreg : g'.Registered)
    (hregion : ∀ (x : NodeId) r', g'.phiRegion[x]? = some r' → ∃ r, g.phiRegion[x]? = some r) :
    g'.Orderly := by
  have hd : g'.Dense := by
    refine ⟨?_, ?_⟩
    · rw [hturned.frame]
      exact h.dense.free
    · intro x
      rw [hturned.has, hturned.size]
      exact h.dense.has_iff x
  refine h.change hd hreg hturned.keeps ?_ (fun x r hr => .inl (hregion x r hr)) hturned.deadNode
  intro x e' he'
  rw [hturned.memory] at he'
  obtain ⟨e, he, -⟩ := Option.map_eq_some_iff.1 he'
  exact .inl ⟨e, he⟩

theorem replace {old new : NodeId} (h : g.Orderly) (hr : g.replace old new = .ok g') :
    g'.Orderly := by
  by_cases hne : old = new
  · obtain rfl := replace_self hr hne
    exact h
  have hreg := h.registered.replace hr
  have hd := h.dense.replace hr
  have hkeeps := keeps_replace hr
  obtain ⟨us, g1, -, hturned, -, rfl⟩ := replace_spec hr hne
  refine h.change hd hreg hkeeps ?_ ?_ hturned.deadNode
  · intro x e' he'
    have he1 : g1.memory[x]? = some e' := he'
    rw [hturned.memory] at he1
    obtain ⟨e, he, -⟩ := Option.map_eq_some_iff.1 he1
    exact .inl ⟨e, he⟩
  · intro x r' hr'
    have hr1 : g1.phiRegion[x]? = some r' := hr'
    rw [hturned.phiRegion] at hr1
    cases hr : g.phiRegion[x]? with
    | none => simp [Turn.region, hr] at hr1
    | some r => exact .inl ⟨r, rfl⟩

theorem setPrevious {previous : NodeId} (h : g.Orderly) (hs : g.setPrevious id previous = .ok g') :
    g'.Orderly := by
  have hreg := h.registered.setPrevious hs
  obtain ⟨e, he, henters, -⟩ := setPrevious_spec hs
  have hd : ({ g with memory := g.memory.insert id { e with previous := previous } } : Graph).Dense :=
    ⟨h.dense.free, h.dense.has_iff⟩
  refine h.change (hd.enters henters) hreg ⟨henters.keeps.node⟩ ?_ ?_ henters.deadNode
  · intro x e' he'
    rw [henters.memory, getElem?_insert_id] at he'
    by_cases hx : x = id
    · exact .inl ⟨e, hx ▸ he⟩
    · rw [if_neg hx] at he'
      exact .inl ⟨e', he'⟩
  · intro x r hr
    rw [henters.phiRegion] at hr
    exact .inl ⟨r, hr⟩

theorem collapses (h : g.Orderly) (hc : Collapses phis g g') : g'.Orderly := by
  induction hc with
  | nil => exact h
  | cons _ hr _ ih => exact ih (h.replace hr)

end Orderly

theorem Constructs.orderly (h : Constructs g g') (ho : g.Orderly) : g'.Orderly := by
  induction h with
  | refl g => exact ho
  | trans _ _ ih1 ih2 => exact ih2 (ih1 ho)
  | create _ hcreate => exact ho.create hcreate
  | control _ hattach => exact ho.attachControl hattach
  | memory hid hattach => exact ho.attachMemory hid hattach
  | root _ => exact ho.of_same rfl rfl rfl rfl (fun x r hr => .inl ⟨r, hr⟩) ho.dead
  | origins origins g => exact ho.of_same rfl rfl rfl rfl (fun x r hr => .inl ⟨r, hr⟩) ho.dead
  | dead hdead =>
    refine ho.of_same rfl rfl rfl rfl (fun x r hr => .inl ⟨r, hr⟩) ?_
    rintro _ ⟨⟩
    exact hdead
  | phi _ _ hadd => exact ho.addPhi hadd
  | body _ happend => exact ho.appendInput happend
  | loop hcreate hopens _ happends hcollapses ih =>
    exact ((ih ((ho.create hcreate).opens hopens)).appends happends).collapses hcollapses

end Graph

end SeaOfNodes
