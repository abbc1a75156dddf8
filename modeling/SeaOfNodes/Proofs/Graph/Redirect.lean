import SeaOfNodes.Proofs.Graph.Chain
import SeaOfNodes.Proofs.Graph.Made

/-!
Replacing a node turns every edge to it and no other. The edges of nodes that others stand for are no
longer part of the program; they stay.
-/
namespace SeaOfNodes

/-- What an edge to `y` becomes if `s` stands for the node that is replaced. -/
def Turn.turned (t : Turn) (s y : NodeId) : NodeId := if y = t.old then s else y

theorem Turn.ite_eq_map {t : Turn} {s : NodeId} {edge : Option NodeId} {P : Prop} [Decidable P]
    {live : Bool} (h : P ↔ live = true ∧ edge = some t.old) :
    (if P then some s else edge) = if live = true then edge.map (t.turned s) else edge := by
  by_cases hP : P
  · obtain ⟨rfl, rfl⟩ := h.1 hP
    simp [hP, turned]
  · rw [if_neg hP]
    split
    · rename_i hlive
      cases edge with
      | none => rfl
      | some y =>
        have hy : y ≠ t.old := fun hy => hP (h.2 ⟨hlive, by rw [hy]⟩)
        simp [turned, hy]
    · rfl

namespace Graph

variable {g g' : Graph} {x old new r : NodeId} {edge : Edge} {node node' : Node} {us : List User}

def address? (g : Graph) (x : NodeId) : Option NodeId := g.memory[x]?.bind MemoryEffect.target

/-- Every phi has its region as its first input, and no region is an effect. -/
structure Regional (g : Graph) : Prop where
  phi : ∀ {x node}, g.get? x = some node → node.op = .phi → g.phiRegion[x]? = node.inputs[0]?
  region : ∀ {x node r}, g.get? x = some node → g.phiRegion[x]? = some r →
    node.inputs[0]? = some r ∧ g.memory[r]? = none

/-- `g'` is `g` with all edges turned of nodes that no others stand for. In the chain of memory and
as a case of a memory phi `t.state` stands for the node that was replaced, and elsewhere `t.new`. -/
structure Redirected (t : Turn) (g g' : Graph) : Prop where
  node : ∀ x, (g'.get? x).map (fun n => (n.op, n.ty)) = (g.get? x).map fun n => (n.op, n.ty)
  isLive : ∀ x, g'.isLive x = true ↔ g.isLive x = true ∧ x ≠ t.old
  inputs : ∀ {x node node'}, g.get? x = some node → g'.get? x = some node' → ∀ i,
    node'.inputs[i]? = if node.replaced = true then node.inputs[i]? else
      node.inputs[i]?.map (t.turned
        (if node.op == .phi && node.ty == .memory && i != 0 then t.state else t.new))
  control : ∀ x, g'.control[x]? =
    if g.isLive x = true then g.control[x]?.map (t.turned t.new) else g.control[x]?
  previous : ∀ x, g'.before? x =
    if g.isLive x = true then (g.before? x).map (t.turned t.state) else g.before? x
  target : ∀ x, g'.address? x =
    if g.isLive x = true then (g.address? x).map (t.turned t.new) else g.address? x
  tag : ∀ x : NodeId, g'.memory[x]?.map MemoryEffect.tag = g.memory[x]?.map MemoryEffect.tag
  phiRegion : ∀ x, g'.phiRegion[x]? =
    if g.isLive x = true then g.phiRegion[x]?.map (t.turned t.new) else g.phiRegion[x]?
  roots : ∀ x, x ∈ g'.roots ↔ x = t.new ∧ t.old ∈ g.roots ∨ x ∈ g.roots ∧ x ≠ t.old

theorem Registered.mem_users_of_not_value (h : g.Registered) (hus : g.users old = .ok us)
    (hedge : edge.isValue = false) :
    (⟨x, edge⟩ : User) ∈ us ↔ g.isLive x = true ∧ g.Refers x edge old := by
  constructor
  · exact fun hu => edgeHolds_iff.1 ((mem_users hus).1 hu).2
  · rintro ⟨hlive, hrefers⟩
    obtain ⟨edge', ha, hu⟩ := h.exists_user hus hlive hrefers
    rcases ha with rfl | ⟨-, hvalue⟩
    · exact hu
    · simp [hedge] at hvalue

theorem Regional.state_eq (h : g.Regional) (hn : g.get? x = some node) (hop : node.op = .phi)
    (hold : node.inputs[0]? = some old) (new : NodeId) : (g.turnOf old new).state = new := by
  have hnone := (h.region hn ((h.phi hn hop).trans hold)).2
  simp [turnOf, hnone]

theorem redirected_replace (hreg : g.Registered) (hregional : g.Regional) (hne : old ≠ new)
    (hr : g.replace old new = .ok g') : Redirected (g.turnOf old new) g g' := by
  obtain ⟨us, g1, hus, hturned, hold, heq⟩ := replace_spec hr hne
  have hedge : ∀ {x edge}, edge.isValue = false → ((⟨x, edge⟩ : User) ∈ us ↔ _) :=
    fun hedge => hreg.mem_users_of_not_value hus hedge
  refine ⟨?_, fun x => isLive_replace hr hne, ?_, ?_, ?_, ?_, ?_, ?_, ?_⟩
  · intro x
    cases hn : g.get? x with
    | some node =>
      obtain ⟨node', hn', hop, hty, -⟩ := replaced_replace hr hne hn
      simp [hn', hop, hty]
    | none =>
      cases hn' : g'.get? x with
      | none => rfl
      | some node' =>
        obtain ⟨node, ho, -⟩ := get?_of_replace hr hne hn'
        simp [hn] at ho
  · intro x node node' hn hn' i
    obtain ⟨us', es, hus', hes⟩ := get?_replace hr hne hn
    cases hus.symm.trans hus'
    cases hn'.symm.trans hes
    cases hmark : node.replaced with
    | true =>
      have hnot : ¬ usesByValue us x = true := fun h => by
        simp [((hreg.usesByValue_iff hus hn).1 h).1] at hmark
      simp [Turn.inputs, hnot]
    | false =>
      rw [hreg.inputs_turnOf hus hn hmark, List.getElem?_map]
      cases hi : node.inputs[i]? with
      | none => rfl
      | some y =>
        by_cases hy : y = old
        · subst hy
          cases hphi : node.op == .phi && node.ty == .memory with
          | false => simp [Turn.turned, Turn.standIn, hphi, turnOf]
          | true =>
            by_cases hzero : i = 0
            · subst hzero
              have hop : node.op = .phi := by simp_all
              simpa [Turn.turned, Turn.standIn, hphi, turnOf] using hregional.state_eq hn hop hi new
            · simp [Turn.turned, Turn.standIn, hphi, hzero, turnOf]
        · simp [Turn.turned, turnOf, hy]
  · intro x
    rw [heq]
    change g1.control[x]? = _
    rw [hturned.control]
    exact Turn.ite_eq_map (hedge rfl)
  · intro x
    obtain ⟨us', hus', hbefore⟩ := before?_replace hr hne
    cases hus.symm.trans hus'
    rw [hbefore]
    exact Turn.ite_eq_map ((hedge rfl).trans (and_congr_right fun _ => before?_eq_some_iff.symm))
  · intro x
    have haddress : g'.address? x = if ⟨x, .target⟩ ∈ us then some new else g.address? x := by
      rw [heq]
      change g1.memory[x]?.bind _ = _
      rw [hturned.memory]
      cases he : g.memory[x]? with
      | none =>
        have hnot : ¬ (⟨x, .target⟩ : User) ∈ us := fun hu => by simpa [Refers, he] using (hedge rfl).1 hu
        simp [address?, he, hnot]
      | some e => simp [address?, he, Turn.effect, turnOf]
    rw [haddress]
    refine Turn.ite_eq_map ((hedge rfl).trans (and_congr_right fun _ => ?_))
    simp [Refers, address?, turnOf, Option.bind_eq_some_iff]
  · intro x
    rw [heq]
    change g1.memory[x]?.map _ = _
    rw [hturned.memory, Option.map_map]
    rfl
  · intro x
    rw [heq]
    change g1.phiRegion[x]? = _
    rw [hturned.phiRegion]
    refine Turn.ite_eq_map ?_
    rw [Bool.and_eq_true, beq_iff_eq]
    refine and_congr_left fun hregion => ⟨?_, fun hlive => ?_⟩
    · intro huses
      obtain ⟨⟨y, edge⟩, hu, hy⟩ := List.any_eq_true.1 huses
      obtain rfl : y = x := by simpa using hy
      exact (edgeHolds_iff.1 ((mem_users hus).1 hu).2).1
    · obtain ⟨node, hn, hmark⟩ := isLive_iff.1 hlive
      have hmem := List.mem_of_getElem? (hregional.region hn hregion).1
      obtain ⟨u, hu, hx⟩ := List.any_eq_true.1 ((hreg.usesByValue_iff hus hn).2 ⟨hmark, hmem⟩)
      exact List.any_eq_true.2 ⟨u, hu, (Bool.and_eq_true _ _ ▸ hx).1⟩
  · intro x
    rw [heq]
    change x ∈ g.rootsAfter old new ↔ x = new ∧ old ∈ g.roots ∨ x ∈ g.roots ∧ x ≠ old
    unfold rootsAfter
    split
    · rename_i hroot
      rw [Std.ExtTreeSet.mem_insert, mem_erase_id, Std.LawfulEqOrd.compare_eq_iff_eq]
      simp [hroot, eq_comm, and_comm]
    · rename_i hroot
      have hother : x ∈ g.roots → x ≠ old := by
        rintro hx rfl
        exact hroot hx
      simpa [hroot] using hother

theorem Redirected.not_refers {t : Turn} (h : Redirected t g g') (hnew : t.new ≠ t.old)
    (hstate : t.state ≠ t.old) (hx : g'.isLive x = true) :
    (∀ edge, ¬ g'.Refers x edge t.old) ∧ g'.phiRegion[x]? ≠ some t.old := by
  have hturned : ∀ {s : NodeId} {o : Option NodeId}, s ≠ t.old → o.map (t.turned s) ≠ some t.old := by
    intro s o hs heq
    obtain ⟨y, -, hy⟩ := Option.map_eq_some_iff.1 heq
    unfold Turn.turned at hy
    split at hy
    · exact hs hy
    · contradiction
  have hlive := ((h.isLive x).1 hx).1
  refine ⟨fun edge hrefers => ?_, ?_⟩
  · cases edge with
    | value position =>
      obtain ⟨node', hn', hmem⟩ := hrefers
      obtain ⟨node, hn, hmark⟩ := isLive_iff.1 hlive
      obtain ⟨i, hi⟩ := List.mem_iff_getElem?.1 hmem
      rw [h.inputs hn hn', hmark] at hi
      refine hturned ?_ hi
      split
      · exact hstate
      · exact hnew
    | control =>
      have hcontrol := (h.control x).trans (if_pos hlive)
      exact hturned hnew (hcontrol.symm.trans hrefers)
    | previous =>
      have hprevious := (h.previous x).trans (if_pos hlive)
      exact hturned hstate (hprevious.symm.trans (before?_eq_some_iff.2 hrefers))
    | target =>
      have htarget := (h.target x).trans (if_pos hlive)
      exact hturned hnew (htarget.symm.trans (Option.bind_eq_some_iff.2 hrefers))
  · rw [h.phiRegion, if_pos hlive]
    exact hturned hnew

/-- Replacing a node turns every edge to it of a node in the program, as a state of memory to the
effect before it, and no other edge; the node itself is marked and is no root any more. -/
theorem replace_redirects (hreg : g.Registered) (hregional : g.Regional) (hold : g.Has old)
    (hnew : g.Has new) (hne : old ≠ new) (hself : g.before? old ≠ some old) :
    ∃ g', g.replace old new = .ok g' ∧ Redirected ⟨old, new, (g.before? old).getD new⟩ g g' ∧
      ∀ x, g'.isLive x = true → (∀ edge, ¬ g'.Refers x edge old) ∧ g'.phiRegion[x]? ≠ some old := by
  have hstate : g.Has ((g.before? old).getD new) ∧ (g.before? old).getD new ≠ old := by
    cases hbefore : g.before? old with
    | none => exact ⟨hnew, hne.symm⟩
    | some previous =>
      obtain ⟨-, -, node, hn, -⟩ := hreg old .previous _ (before?_eq_some_iff.1 hbefore)
      exact ⟨⟨node, hn⟩, fun heq => hself (hbefore.trans (congrArg some heq))⟩
  obtain ⟨g', hr⟩ := replace_ok hold hnew hstate.1
  have hred := redirected_replace hreg hregional hne hr
  exact ⟨g', hr, hred, fun x hx => hred.not_refers hne.symm hstate.2 hx⟩

/-- Three effects, of which the last uses the one before it in every way that an effect can, and a
phi that merges the states after the first two. -/
def effectGraph : Except Fault Graph :=
  Operation.runAll [.create .start .live [], .create .region .live [⟨0, 0⟩, ⟨0, 0⟩],
    .create .constant .void [], .create .call .void [], .attachMemory ⟨3, 0⟩ ⟨⟨0, 0⟩, none, .unknown⟩,
    .create .call .void [], .attachMemory ⟨4, 0⟩ ⟨⟨3, 0⟩, none, .unknown⟩,
    .create .call .void [⟨4, 0⟩], .attachMemory ⟨5, 0⟩ ⟨⟨4, 0⟩, some ⟨4, 0⟩, .unknown⟩,
    .create .phi .memory [⟨1, 0⟩, ⟨4, 0⟩, ⟨3, 0⟩], .attachControl ⟨6, 0⟩ ⟨1, 0⟩,
    .setPhiRegion ⟨6, 0⟩ ⟨1, 0⟩] .empty

theorem replace_redirects_effect : ∃ g g', effectGraph = .ok g ∧ g.replace ⟨4, 0⟩ ⟨2, 0⟩ = .ok g' ∧
    g'.before? ⟨5, 0⟩ = some ⟨3, 0⟩ ∧ g'.address? ⟨5, 0⟩ = some ⟨2, 0⟩ := by
  have hchecks : passes (fun g =>
      decide (∀ x ∈ g.ids, ∀ node ∈ g.get? x, node.op = .phi → g.phiRegion[x]? = node.inputs[0]?) &&
      decide (∀ x ∈ g.ids, ∀ node ∈ g.get? x, ∀ r ∈ g.phiRegion[x]?,
        node.inputs[0]? = some r ∧ g.memory[r]? = none) &&
      decide ((g.get? ⟨4, 0⟩).isSome = true ∧ (g.get? ⟨2, 0⟩).isSome = true ∧
        g.isLive ⟨5, 0⟩ = true ∧ g.before? ⟨4, 0⟩ = some ⟨3, 0⟩ ∧ g.before? ⟨5, 0⟩ = some ⟨4, 0⟩ ∧
        g.address? ⟨5, 0⟩ = some ⟨4, 0⟩)) effectGraph = true := by
    decide +kernel
  obtain ⟨g, hg, hchecks⟩ := exists_ok_of_passes hchecks
  simp only [Bool.and_eq_true, decide_eq_true_eq, ← has_iff_isSome] at hchecks
  obtain ⟨⟨hphi, hregion⟩, hold, hnew, hlive, hbefore, hprevious, htarget⟩ := hchecks
  have hregional : g.Regional :=
    ⟨fun {x node} hn => hphi x (mem_ids hn) node hn, fun {x node r} hn => hregion x (mem_ids hn) node hn r⟩
  obtain ⟨g', hr, hred, -⟩ := replace_redirects (Made.empty.runAll hg).keeps.2 hregional hold hnew
    (by decide) (by rw [hbefore]; decide)
  rw [hbefore] at hred
  refine ⟨g, g', hg, hr, ?_, ?_⟩
  · rw [hred.previous, if_pos hlive, hprevious]
    rfl
  · rw [hred.target, if_pos hlive, htarget]
    rfl

end Graph

end SeaOfNodes
