import SeaOfNodes.Proofs.Graph.Registered
import SeaOfNodes.Proofs.Graph.Slots
import SeaOfNodes.Proofs.Graph.WellFormed

/-!
Phis and the nodes where their paths join. A phi fits if its three edges to a region, which are its
first input, its control edge and its entry in `phiRegion`, name one node, if that is a node where
paths join, and if the phi has one case a path.

A replacement keeps all phis fitting, unless it replaces the region of a phi by a node that does not
join as many paths (`phisFit_replace_iff`).
-/
namespace SeaOfNodes

/-! ### Turned inputs -/

namespace Turn

variable {t : Turn} {us : List User} {id y : NodeId} {node : Node}

@[simp] theorem length_inputs : (t.inputs us id node).length = node.inputs.length := by
  unfold inputs
  split
  · simp [Node.rename]
  · rfl

theorem head?_inputs (hy : node.inputs.head? = some y) (hne : y ≠ t.old) :
    (t.inputs us id node).head? = some y := by
  unfold inputs
  split
  · simp [Node.rename, hy, hne]
  · exact hy

theorem head?_inputs_old (hy : node.inputs.head? = some t.old) (hus : usesByValue us id = true) :
    (t.inputs us id node).head? = some (t.standIn node) := by
  unfold inputs
  rw [if_pos hus]
  simp [Node.rename, hy]

end Turn

namespace Graph

variable {g g' g'' : Graph} {id x phi region old new : NodeId} {node : Node} {n m : Nat}

/-! ### Phis that fit -/

def LivePhi (g : Graph) (phi : NodeId) : Prop :=
  ∃ node, g.get? phi = some node ∧ node.op = .phi ∧ node.replaced = false

/-- A node where `n` paths join. -/
def MergeOf (g : Graph) (region : NodeId) (n : Nat) : Prop :=
  ∃ node, g.get? region = some node ∧ node.op.isMerge = true ∧ node.inputs.length = n

instance {g : Graph} {region : NodeId} {n : Nat} : Decidable (g.MergeOf region n) :=
  match h : g.get? region with
  | some node =>
    decidable_of_iff (node.op.isMerge = true ∧ node.inputs.length = n) (by simp [MergeOf, h])
  | none => isFalse (by simp [MergeOf, h])

/-- The edges of a phi to its region all name `region`, and it has `n` cases. -/
structure PhiAt (g : Graph) (phi region : NodeId) (n : Nat) : Prop where
  input : ∃ node, g.get? phi = some node ∧ node.inputs.head? = some region ∧
    node.inputs.length = n + 1
  control : g.control[phi]? = some region
  entry : g.phiRegion[phi]? = some region

/-- Every phi that no other node stands for belongs to a node where paths join, and has one case a
path. -/
def PhisFit (g : Graph) : Prop :=
  ∀ phi, g.LivePhi phi → ∃ region n, g.PhiAt phi region n ∧ g.MergeOf region n

theorem LivePhi.has (h : g.LivePhi phi) : g.Has phi := by
  obtain ⟨node, hn, -⟩ := h
  exact ⟨node, hn⟩

theorem LivePhi.isPhi (h : g.LivePhi phi) : g.IsPhi phi := by
  obtain ⟨node, hn, hop, -⟩ := h
  exact ⟨node, hn, hop⟩

theorem LivePhi.isLive (h : g.LivePhi phi) : g.isLive phi = true := by
  obtain ⟨node, hn, -, hlive⟩ := h
  exact isLive_iff.2 ⟨node, hn, hlive⟩

theorem MergeOf.has (h : g.MergeOf region n) : g.Has region := by
  obtain ⟨node, hn, -⟩ := h
  exact ⟨node, hn⟩

theorem MergeOf.isMerge (h : g.MergeOf region n) : g.At region fun op _ => op.isMerge = true := by
  obtain ⟨node, hn, hop, -⟩ := h
  exact ⟨node, hn, hop⟩

theorem At.false_of {P Q : Op → Ty → Prop} (h : g.At x P) (h' : g.At x Q)
    (hPQ : ∀ op ty, P op ty → ¬ Q op ty) : False := by
  obtain ⟨node, hn, hp⟩ := h
  obtain ⟨other, ho, hq⟩ := h'
  cases hn.symm.trans ho
  exact hPQ _ _ hp hq

theorem MergeOf.not_isPhi (h : g.MergeOf region n) : ¬ g.IsPhi region := by
  intro hphi
  refine h.isMerge.false_of hphi ?_
  rintro op ty hmerge rfl
  contradiction

theorem PhiAt.unique (h : g.PhiAt phi region n) (h' : g.PhiAt phi id m) : region = id ∧ n = m := by
  refine ⟨Option.mem_unique h.entry h'.entry, ?_⟩
  obtain ⟨node, hn, -, hlength⟩ := h.input
  obtain ⟨other, ho, -, hlength'⟩ := h'.input
  cases hn.symm.trans ho
  omega

theorem PhisFit.mergeOf (h : g.PhisFit) (hphi : g.LivePhi phi) (hat : g.PhiAt phi region n) :
    g.MergeOf region n := by
  obtain ⟨r, m, hat', hmerge⟩ := h phi hphi
  obtain ⟨rfl, rfl⟩ := hat.unique hat'
  exact hmerge

/-- Whether a node fits, if it is a phi that no other stands for. -/
def fits (g : Graph) (phi : NodeId) : Bool :=
  (g.get? phi).all fun node =>
    node.op != .phi || node.replaced || node.inputs.head?.any fun region =>
      g.control[phi]? == some region && g.phiRegion[phi]? == some region &&
        (g.get? region).any fun merge =>
          merge.op.isMerge && merge.inputs.length + 1 == node.inputs.length

theorem fits_iff : g.fits phi = true ↔
    (g.LivePhi phi → ∃ region n, g.PhiAt phi region n ∧ g.MergeOf region n) := by
  constructor
  · rintro h ⟨node, hn, hop, hlive⟩
    simp only [fits, hn, hop, hlive, Option.all_some, bne_self_eq_false, Bool.false_or,
      Option.any_eq_true, Bool.and_eq_true, beq_iff_eq] at h
    obtain ⟨region, hhead, ⟨hcontrol, hentry⟩, merge, hmerge, hop', hlength⟩ := h
    exact ⟨region, _, ⟨⟨node, hn, hhead, hlength.symm⟩, hcontrol, hentry⟩, merge, hmerge, hop', rfl⟩
  · intro h
    cases hn : g.get? phi with
    | none => simp [fits, hn]
    | some node =>
      by_cases hlive : node.op = .phi ∧ node.replaced = false
      · obtain ⟨region, n, hat, merge, hmerge, hop, hlength⟩ := h ⟨node, hn, hlive⟩
        obtain ⟨other, ho, hhead, hcases⟩ := hat.input
        cases hn.symm.trans ho
        simp [fits, hn, hhead, hat.control, hat.entry, hmerge, hop, hlength, hcases]
      · rw [not_and] at hlive
        by_cases hop : node.op = .phi
        · simp [fits, hn, hlive hop]
        · simp [fits, hn, hop]

instance (g : Graph) : Decidable g.PhisFit :=
  decidable_of_iff (g.ids.all g.fits = true) <| by
    rw [List.all_eq_true]
    constructor
    · intro h phi hlive
      exact fits_iff.1 (h phi (mem_ids_iff.2 hlive.has)) hlive
    · intro h phi _
      exact fits_iff.2 (h phi)

/-! ### Edges that are turned -/

section Turned

variable {t : Turn} {us : List User}

theorem EdgesTurned.mergeOf (h : EdgesTurned t us g g') :
    g'.MergeOf region n ↔ g.MergeOf region n := by
  constructor
  · rintro ⟨node', hn', hop, hlength⟩
    obtain ⟨node, hn⟩ := h.back ⟨node', hn'⟩
    obtain ⟨es, hes, -⟩ := h.node hn
    cases hn'.symm.trans hes
    exact ⟨node, hn, hop, by simpa using hlength⟩
  · rintro ⟨node, hn, hop, hlength⟩
    obtain ⟨es, hes, -⟩ := h.node hn
    exact ⟨_, hes, hop, by simpa using hlength⟩

theorem EdgesTurned.livePhi (h : EdgesTurned t us g g') : g'.LivePhi phi ↔ g.LivePhi phi := by
  constructor
  · rintro ⟨node', hn', hop, hlive⟩
    obtain ⟨node, hn⟩ := h.back ⟨node', hn'⟩
    obtain ⟨es, hes, -⟩ := h.node hn
    cases hn'.symm.trans hes
    exact ⟨node, hn, hop, hlive⟩
  · rintro ⟨node, hn, hop, hlive⟩
    obtain ⟨es, hes, -⟩ := h.node hn
    exact ⟨_, hes, hop, hlive⟩

theorem EdgesTurned.phiAt (h : EdgesTurned t us g g') (hus : ∀ u ∈ us, g.edgeHolds t.old u = true)
    (hentry : g'.phiRegion[phi]? = g.phiRegion[phi]?) (hat : g.PhiAt phi region n)
    (hne : region ≠ t.old) : g'.PhiAt phi region n := by
  obtain ⟨node, hn, hhead, hlength⟩ := hat.input
  obtain ⟨es, hes, -⟩ := h.node hn
  refine ⟨⟨_, hes, Turn.head?_inputs hhead hne, by simpa using hlength⟩, ?_, ?_⟩
  · have hnot : (⟨phi, .control⟩ : User) ∉ us := by
      intro hmem
      have hcontrol := (edgeHolds_control_iff.1 (hus _ hmem)).2
      exact hne (Option.mem_unique hat.control hcontrol)
    rw [h.control, Turn.predecessor, if_neg hnot]
    exact hat.control
  · rw [hentry]
    exact hat.entry

end Turned

/-! ### Replacements -/

theorem mergeOf_replace (hr : g.replace old new = .ok g') (hne : old ≠ new) :
    g'.MergeOf region n ↔ g.MergeOf region n := by
  obtain ⟨us, g1, -, hturned, hold, rfl⟩ := replace_spec hr hne
  rw [← hturned.mergeOf]
  have hold : ({ g1 with roots := g.rootsAfter old new } : Graph).Has old := hold
  unfold MergeOf
  rw [get?_mapNode Node.mark hold]
  change (∃ node, (if region = old then (g1.get? region).map Node.mark else g1.get? region) =
    some node ∧ _) ↔ _
  by_cases hregion : region = old
  · cases g1.get? region <;> simp [hregion, Node.mark]
  · simp [hregion]

theorem livePhi_replace (hr : g.replace old new = .ok g') (hne : old ≠ new) :
    g'.LivePhi phi ↔ g.LivePhi phi ∧ phi ≠ old := by
  constructor
  · rintro ⟨node', hn', hop, hlive⟩
    obtain ⟨node, hn, hop', -, hmark⟩ := get?_of_replace hr hne hn'
    rw [hmark, Bool.or_eq_false_iff, beq_eq_false_iff_ne] at hlive
    exact ⟨⟨node, hn, hop' ▸ hop, hlive.1⟩, hlive.2⟩
  · rintro ⟨⟨node, hn, hop, hlive⟩, hphi⟩
    obtain ⟨node', hn', hop', -, hmark⟩ := replaced_replace hr hne hn
    exact ⟨node', hn', hop'.trans hop, by simp [hmark, hlive, hphi]⟩

theorem PhiAt.mark {roots : Std.ExtTreeSet NodeId} (h : g.PhiAt phi region n) (hold : g.Has old)
    (hphi : phi ≠ old) : (({ g with roots := roots } : Graph).mapNode old Node.mark).PhiAt phi region n := by
  obtain ⟨node, hn, hinput⟩ := h.input
  have hold : ({ g with roots := roots } : Graph).Has old := hold
  refine ⟨⟨node, ?_, hinput⟩, h.control, h.entry⟩
  rw [get?_mapNode Node.mark hold, if_neg hphi]
  exact hn

theorem phiAt_replace (hr : g.replace old new = .ok g') (hne : old ≠ new) (hphi : phi ≠ old)
    (hat : g.PhiAt phi region n) (hregion : region ≠ old) : g'.PhiAt phi region n := by
  obtain ⟨us, g1, hus, hturned, hold, rfl⟩ := replace_spec hr hne
  have hentry : g1.phiRegion[phi]? = g.phiRegion[phi]? := by
    rw [hturned.phiRegion, hat.entry]
    simp [Turn.region, turnOf, hregion]
  refine PhiAt.mark ?_ hold hphi
  exact hturned.phiAt (fun u hu => ((mem_users hus).1 hu).2) hentry hat hregion

/-- Effects are neither phis nor nodes where paths join. -/
def EffectsPlain (g : Graph) : Prop :=
  ∀ x e, g.memory[x]? = some e → g.At x fun op _ => op.isMerge = false ∧ op ≠ .phi

theorem phiAt_replace_old (hreg : g.Registered) (hr : g.replace old new = .ok g') (hne : old ≠ new)
    (hplain : g.memory[old]? = none) (hlive : g.LivePhi phi) (hphi : phi ≠ old)
    (hat : g.PhiAt phi old n) : g'.PhiAt phi new n := by
  obtain ⟨us, g1, hus, hturned, hold, rfl⟩ := replace_spec hr hne
  refine PhiAt.mark ?_ hold hphi
  obtain ⟨node, hn, hhead, hlength⟩ := hat.input
  -- Both edges are entered, so the replacement turns them.
  have hvalue : usesByValue us phi = true := by
    have hr : g.Refers phi (.value 0) old := ⟨node, hn, List.mem_of_head? hhead⟩
    obtain ⟨edge, ha, hu⟩ := hreg.exists_user hus hlive.isLive hr
    have hedge : edge.isValue = true := by
      rcases ha with rfl | ⟨hedge, -⟩
      · rfl
      · exact hedge
    exact List.any_eq_true.2 ⟨_, hu, by simp [hedge]⟩
  have hcontrol : (⟨phi, .control⟩ : User) ∈ us := by
    have hr : g.Refers phi .control old := hat.control
    obtain ⟨edge, ha, hu⟩ := hreg.exists_user hus hlive.isLive hr
    obtain rfl : edge = .control := by simpa [Edge.Alike, Edge.isValue] using ha
    exact hu
  have hstand : (g.turnOf old new).standIn node = new := by
    unfold Turn.standIn turnOf
    simp [hplain]
  obtain ⟨es, hes, -⟩ := hturned.node hn
  refine ⟨⟨_, hes, ?_, by simpa using hlength⟩, ?_, ?_⟩
  · exact (Turn.head?_inputs_old hhead hvalue).trans (congrArg some hstand)
  · rw [hturned.control, Turn.predecessor, if_pos hcontrol]
    rfl
  · have hany : usesAnyhow us phi = true := List.any_eq_true.2 ⟨_, hcontrol, by simp⟩
    rw [hturned.phiRegion, hat.entry]
    simp [Turn.region, hany, turnOf]

/-- Replacing `old` by `new` takes the region from a phi: the phi belongs to `old`, and `new` does
not join as many paths as the phi has cases. -/
def Strands (g : Graph) (old new : NodeId) : Prop :=
  old ≠ new ∧ ∃ phi n, g.LivePhi phi ∧ g.PhiAt phi old n ∧ ¬ g.MergeOf new n

theorem phisFit_replace_iff (hreg : g.Registered) (hplain : g.EffectsPlain) (hfit : g.PhisFit)
    (hr : g.replace old new = .ok g') : g'.PhisFit ↔ ¬ g.Strands old new := by
  by_cases hne : old = new
  · obtain rfl := replace_self hr hne
    exact iff_of_true hfit fun h => h.1 hne
  -- A phi at `old` is another node than `old`, where paths join.
  have hother : ∀ {phi n}, g.LivePhi phi → g.PhiAt phi old n → g'.PhiAt phi new n ∧ phi ≠ old := by
    intro phi n hlive hat
    have hmerge := hfit.mergeOf hlive hat
    have hphi : phi ≠ old := by
      rintro rfl
      exact hmerge.not_isPhi hlive.isPhi
    have hnone : g.memory[old]? = none := by
      cases he : g.memory[old]? with
      | none => rfl
      | some e =>
        refine (hmerge.isMerge.false_of (hplain old e he) ?_).elim
        intro op ty htrue
        simp [htrue]
    exact ⟨phiAt_replace_old hreg hr hne hnone hlive hphi hat, hphi⟩
  constructor
  · rintro hfit' ⟨-, phi, n, hlive, hat, hnot⟩
    obtain ⟨hat', hphi⟩ := hother hlive hat
    have hmerge' := hfit'.mergeOf ((livePhi_replace hr hne).2 ⟨hlive, hphi⟩) hat'
    exact hnot ((mergeOf_replace hr hne).1 hmerge')
  · intro hstrands phi hlive'
    obtain ⟨hlive, hphi⟩ := (livePhi_replace hr hne).1 hlive'
    obtain ⟨region, n, hat, hmerge⟩ := hfit phi hlive
    by_cases hregion : region = old
    · subst hregion
      have hnew : g.MergeOf new n :=
        Classical.byContradiction fun hnot => hstrands ⟨hne, phi, n, hlive, hat, hnot⟩
      exact ⟨new, n, (hother hlive hat).1, (mergeOf_replace hr hne).2 hnew⟩
    · exact ⟨region, n, phiAt_replace hr hne hphi hat hregion, (mergeOf_replace hr hne).2 hmerge⟩

end Graph

end SeaOfNodes
