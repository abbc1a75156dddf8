import SeaOfNodes.Proofs.Graph.Phi

/-!
What a change leaves of the phis of a graph. A change persists with them if the nodes where paths
join keep their predecessors and phis their cases, unless other nodes stand for them; so phis fit
after it if the new ones do. Adding nodes and edges is such a change, and so is replacing a node
where no paths join.
-/
namespace SeaOfNodes

namespace Graph

variable {g g' g'' : Graph} {id x phi region : NodeId} {node : Node} {n : Nat}
  {cases inputs : List NodeId} {input : NodeId} {op : Op} {ty : Ty}

/-! ### New nodes -/

theorem has_of_livePhi_create (hd : g.Dense) (hop : op ≠ .phi)
    (h : g.create op ty inputs = .ok (id, g')) (hlive : g'.LivePhi phi) : g.Has phi := by
  refine ((has_create hd h).1 hlive.has).resolve_left ?_
  rintro rfl
  obtain ⟨-, us, hself⟩ := create_self hd h
  obtain ⟨node, hn, hphi, -⟩ := hlive
  cases hself.symm.trans hn
  exact hop hphi

def addPhi (g : Graph) (region : NodeId) (cases : List NodeId) (ty : Ty) :
    Except Fault (NodeId × Graph) := do
  let (phi, g) ← g.create .phi ty (region :: cases)
  let g ← g.attachControl phi region
  return (phi, g.setPhiRegion phi region)

structure AddsPhi (g : Graph) (region : NodeId) (cases : List NodeId) (phi : NodeId) (g' : Graph) :
    Prop where
  fresh : ¬ g.Has phi
  dense : g'.Dense
  self : ∃ ty us, g'.get? phi =
    some { op := .phi, ty := ty, inputs := region :: cases, users := us }
  node : ∀ {x node}, g.get? x = some node → ∃ us, g'.get? x = some { node with users := us }
  has : ∀ {x}, g'.Has x ↔ x = phi ∨ g.Has x
  control : ∀ x, g'.control[x]? = if x = phi then some region else g.control[x]?
  entry : ∀ x, g'.phiRegion[x]? = if x = phi then some region else g.phiRegion[x]?

theorem addPhi_spec {cases : List NodeId} {ty : Ty} (hd : g.Dense)
    (h : g.addPhi region cases ty = .ok (phi, g')) : AddsPhi g region cases phi g' := by
  obtain ⟨⟨phi', g1⟩, h1, h⟩ := bind_eq_ok_iff.1 h
  obtain ⟨g2, h2, h⟩ := bind_eq_ok_iff.1 h
  obtain ⟨rfl, rfl⟩ := Prod.mk.inj (Except.ok.inj h)
  obtain ⟨hfresh, us, hself⟩ := create_self hd h1
  obtain ⟨hcontrol, -, hentry⟩ := create_frame hd h1
  obtain ⟨henters, -⟩ := attachControl_spec h2
  have hsame : ∀ {x node}, g1.get? x = some node → ∃ us, (g2.setPhiRegion phi' region).get? x =
      some { node with users := us } := by
    intro x node hn
    obtain ⟨us, hus, -⟩ := henters.node hn
    exact ⟨us, hus⟩
  refine ⟨hfresh, ?_, ?_, ?_, ?_, ?_, ?_⟩
  · have hd1 := hd.create h1
    have hd2 : ({ g1 with control := g1.control.insert phi' region } : Graph).Dense :=
      ⟨hd1.free, hd1.has_iff⟩
    have hd3 := hd2.enters henters
    exact ⟨hd3.free, hd3.has_iff⟩
  · obtain ⟨us', hus'⟩ := hsame hself
    exact ⟨_, us', hus'⟩
  · intro x node hn
    obtain ⟨us1, hus1⟩ := (Extends.create hd h1).node hn
    obtain ⟨us2, hus2⟩ := hsame hus1
    exact ⟨us2, hus2⟩
  · intro x
    rw [← has_create hd h1]
    exact henters.has
  · intro x
    change g2.control[x]? = _
    rw [henters.control, getElem?_insert_id, hcontrol]
  · intro x
    change (g2.phiRegion.insert phi' region)[x]? = _
    rw [getElem?_insert_id, henters.phiRegion]
    rw [hentry]

theorem AddsPhi.phiAt (h : AddsPhi g region cases phi g') : g'.PhiAt phi region cases.length := by
  obtain ⟨ty, us, hself⟩ := h.self
  refine ⟨⟨_, hself, rfl, rfl⟩, ?_, ?_⟩
  · rw [h.control, if_pos rfl]
  · rw [h.entry, if_pos rfl]

theorem AddsPhi.isPhi (h : AddsPhi g region cases phi g') : g'.IsPhi phi := by
  obtain ⟨ty, us, hself⟩ := h.self
  exact ⟨_, hself, rfl⟩

/-! ### What stays -/

/-- The nodes of `g` where paths join have the predecessors in `g'` that they have in `g`, and so
have its phis, unless other nodes stand for them. -/
structure Persists (g g' : Graph) : Prop where
  keeps : Keeps g g'
  merge : ∀ {region n}, g.MergeOf region n → g'.MergeOf region n
  live : ∀ {phi}, g.Has phi → g'.LivePhi phi → g.LivePhi phi
  phi : ∀ {phi region n}, g.LivePhi phi → g'.LivePhi phi → g.PhiAt phi region n →
    g'.PhiAt phi region n

namespace Persists

theorem refl (g : Graph) : Persists g g := ⟨.refl g, id, fun _ h => h, fun _ _ h => h⟩

theorem trans (h1 : Persists g g') (h2 : Persists g' g'') : Persists g g'' where
  keeps := h1.keeps.trans h2.keeps
  merge h := h2.merge (h1.merge h)
  live hx h := h1.live hx (h2.live (h1.keeps.has hx) h)
  phi hlive hlive'' hat := by
    have hlive' := h2.live (h1.keeps.has hlive.has) hlive''
    exact h2.phi hlive' hlive'' (h1.phi hlive hlive' hat)

theorem of_same
    (hnode : ∀ {x node}, g.get? x = some node → ∃ node', g'.get? x = some node' ∧
      node'.op = node.op ∧ node'.ty = node.ty ∧ node'.replaced = node.replaced ∧
      (node.op.isMerge = true ∨ node.op = .phi → node'.inputs = node.inputs))
    (hcontrol : ∀ {x}, g.IsPhi x → g'.control[x]? = g.control[x]?)
    (hentry : ∀ {x}, g.IsPhi x → g'.phiRegion[x]? = g.phiRegion[x]?) : Persists g g' where
  keeps := by
    constructor
    intro x node hn
    obtain ⟨node', hn', hop, hty, -⟩ := hnode hn
    exact ⟨node', hn', hop, hty⟩
  merge := by
    rintro region n ⟨node, hn, hop, hlength⟩
    obtain ⟨node', hn', hop', -, -, hinputs⟩ := hnode hn
    exact ⟨node', hn', hop' ▸ hop, hinputs (.inl hop) ▸ hlength⟩
  live := by
    rintro phi ⟨node, hn⟩ ⟨node', hn', hop, hlive⟩
    obtain ⟨other, ho, hop', -, hmark, -⟩ := hnode hn
    cases hn'.symm.trans ho
    exact ⟨node, hn, hop' ▸ hop, hmark ▸ hlive⟩
  phi := by
    intro phi region n hlive _ hat
    obtain ⟨node, hn, hhead, hlength⟩ := hat.input
    obtain ⟨other, ho, hop, -⟩ := hlive
    cases hn.symm.trans ho
    obtain ⟨node', hn', -, -, -, hinputs⟩ := hnode hn
    have hsame := hinputs (.inr hop)
    refine ⟨⟨node', hn', hsame ▸ hhead, hsame ▸ hlength⟩, ?_, ?_⟩
    · rw [hcontrol ⟨node, hn, hop⟩]
      exact hat.control
    · rw [hentry ⟨node, hn, hop⟩]
      exact hat.entry

theorem of_create (hd : g.Dense) (h : g.create op ty inputs = .ok (id, g')) : Persists g g' := by
  obtain ⟨hcontrol, -, hentry⟩ := create_frame hd h
  refine of_same ?_ (fun _ => by rw [hcontrol]) fun _ => by rw [hentry]
  intro x node hn
  obtain ⟨us, hus⟩ := (Extends.create hd h).node hn
  exact ⟨_, hus, rfl, rfl, rfl, fun _ => rfl⟩

theorem of_addsPhi (h : AddsPhi g region cases phi g') : Persists g g' := by
  have hne : ∀ {x}, g.IsPhi x → x ≠ phi := by
    rintro x hx rfl
    exact h.fresh hx.has
  refine of_same ?_ (fun hx => ?_) fun hx => ?_
  · intro x node hn
    obtain ⟨us, hus⟩ := h.node hn
    exact ⟨_, hus, rfl, rfl, rfl, fun _ => rfl⟩
  · rw [h.control, if_neg (hne hx)]
  · rw [h.entry, if_neg (hne hx)]

theorem of_enters {h : Graph} (he : Enters h g') (hslots : h.slots = g.slots)
    (hcontrol : ∀ {x}, g.IsPhi x → h.control[x]? = g.control[x]?)
    (hentry : h.phiRegion = g.phiRegion) : Persists g g' := by
  have hget : ∀ x, h.get? x = g.get? x := by
    intro x
    unfold get?
    rw [hslots]
  refine of_same ?_ (fun hx => ?_) fun hx => ?_
  · intro x node hn
    obtain ⟨us, hus, -⟩ := he.node ((hget x).trans hn)
    exact ⟨_, hus, rfl, rfl, rfl, fun _ => rfl⟩
  · rw [he.control]
    exact hcontrol hx
  · rw [he.phiRegion, hentry]

theorem of_append (hid : g.At id fun op _ => op.isMerge = false ∧ op ≠ .phi)
    (h : g.appendInput id input = .ok g') : Persists g g' := by
  obtain ⟨node, hn, henters, -⟩ := appendInput_spec h
  refine of_same ?_ (fun _ => by rw [henters.control]; rfl) fun _ => by rw [henters.phiRegion]; rfl
  intro x other ho
  by_cases hx : x = id
  · subst hx
    cases hn.symm.trans ho
    obtain ⟨us, hus, -⟩ := henters.node
      (by rw [get?_mapNode _ ⟨node, hn⟩, if_pos rfl, hn]; rfl)
    refine ⟨_, hus, rfl, rfl, rfl, ?_⟩
    rintro hop
    obtain ⟨third, ht, hmerge, hphi⟩ := hid
    cases hn.symm.trans ht
    rcases hop with hop | hop
    · simp [hmerge] at hop
    · exact absurd hop hphi
  · obtain ⟨us, hus, -⟩ := henters.node
      (by rw [get?_mapNode _ ⟨node, hn⟩, if_neg hx, ho])
    exact ⟨_, hus, rfl, rfl, rfl, fun _ => rfl⟩

theorem phiAt_back (h : Persists g g') (hfit : g.PhisFit) (hx : g.Has phi) (hlive' : g'.LivePhi phi)
    (hat' : g'.PhiAt phi region n) : g.LivePhi phi ∧ g.PhiAt phi region n := by
  have hlive := h.live hx hlive'
  obtain ⟨r, m, hat, -⟩ := hfit phi hlive
  obtain ⟨rfl, rfl⟩ := hat'.unique (h.phi hlive hlive' hat)
  exact ⟨hlive, hat⟩

end Persists

/-- What construction leaves of a graph: phis and the nodes where paths join stay, and no loop of
`g` gets a phi. -/
structure Spares (g g' : Graph) : Prop extends Persists g g' where
  fresh : ∀ {phi region n}, ¬ g.Has phi → g'.LivePhi phi → g'.PhiAt phi region n →
    ¬ g.At region fun op _ => op = .loop

namespace Spares

theorem refl (g : Graph) : Spares g g := ⟨.refl g, fun hx h => absurd h.has hx⟩

theorem trans (hfit : g'.PhisFit) (h1 : Spares g g') (h2 : Spares g' g'') : Spares g g'' where
  toPersists := h1.toPersists.trans h2.toPersists
  fresh := by
    intro phi region n hx hlive hat
    by_cases hx' : g'.Has phi
    · -- The phi came first, so that the second change left it where it was.
      obtain ⟨hlive', hat'⟩ := h2.phiAt_back hfit hx' hlive hat
      exact h1.fresh hx hlive' hat'
    · intro hloop
      exact h2.fresh hx' hlive hat (h1.keeps.at hloop)

end Spares

theorem PhisFit.persists (hfit : g.PhisFit) (h : Persists g g')
    (hnew : ∀ phi, ¬ g.Has phi → g'.LivePhi phi → ∃ region n, g'.PhiAt phi region n ∧
      g'.MergeOf region n) : g'.PhisFit := by
  intro phi hlive'
  by_cases hx : g.Has phi
  · have hlive := h.live hx hlive'
    obtain ⟨region, n, hat, hmerge⟩ := hfit phi hlive
    exact ⟨region, n, h.phi hlive hlive' hat, h.merge hmerge⟩
  · exact hnew phi hx hlive'

/-- The graph after a change of construction: it has no free slots, its phis fit, and what was there
is spared. -/
structure Fits (g g' : Graph) : Prop where
  dense : g'.Dense
  fit : g'.PhisFit
  spares : Spares g g'

theorem Fits.of_persists (hfit : g.PhisFit) (hd : g'.Dense) (h : Persists g g')
    (hold : ∀ phi, g'.LivePhi phi → g.Has phi) : Fits g g' where
  dense := hd
  fit := hfit.persists h fun phi hx hlive => absurd (hold phi hlive) hx
  spares := ⟨h, fun hx hlive => absurd (hold _ hlive) hx⟩

namespace Fits

theorem refl (hd : g.Dense) (hfit : g.PhisFit) : Fits g g := ⟨hd, hfit, .refl g⟩

theorem trans (h1 : Fits g g') (h2 : Fits g' g'') : Fits g g'' :=
  ⟨h2.dense, h2.fit, h1.spares.trans h1.fit h2.spares⟩

section

variable (hd : g.Dense) (hfit : g.PhisFit)
include hd hfit

theorem of_slots (hslots : g'.slots = g.slots) (hfree : g'.free = g.free)
    (hcontrol : g'.control = g.control) (hentry : g'.phiRegion = g.phiRegion) : Fits g g' := by
  have hhas : ∀ x, g'.Has x ↔ g.Has x := by
    intro x
    unfold Has get?
    rw [hslots]
  have hpersists : Persists g g' :=
    .of_enters (.refl g') hslots (fun _ => by rw [hcontrol]) hentry
  refine .of_persists hfit ⟨hfree.trans hd.free, fun x => ?_⟩ hpersists
    fun phi hlive => (hhas phi).1 hlive.has
  rw [hhas, hslots]
  exact hd.has_iff x

theorem create (hop : op ≠ .phi) (hc : g.create op ty inputs = .ok (id, g')) : Fits g g' :=
  .of_persists hfit (hd.create hc) (.of_create hd hc) fun _ => has_of_livePhi_create hd hop hc

theorem attachControl {c : NodeId} (hid : g.At id fun op _ => op ≠ .phi)
    (ha : g.attachControl id c = .ok g') : Fits g g' := by
  obtain ⟨henters, -⟩ := attachControl_spec ha
  have hd1 : ({ g with control := g.control.insert id c } : Graph).Dense := ⟨hd.free, hd.has_iff⟩
  refine .of_persists hfit (hd1.enters henters) (.of_enters henters rfl ?_ rfl)
    fun phi hlive => henters.has.1 hlive.has
  intro x hx
  have hne : x ≠ id := by
    rintro rfl
    exact hx.false_of hid fun op ty hphi hnot => hnot hphi
  rw [getElem?_insert_id, if_neg hne]

theorem attachMemory {effect : MemoryEffect} (ha : g.attachMemory id effect = .ok g') :
    Fits g g' := by
  obtain ⟨henters, -⟩ := attachMemory_spec ha
  have hd1 : ({ g with memory := g.memory.insert id effect } : Graph).Dense := ⟨hd.free, hd.has_iff⟩
  exact .of_persists hfit (hd1.enters henters) (.of_enters henters rfl (fun _ => rfl) rfl)
    fun phi hlive => henters.has.1 hlive.has

theorem addPhi {cases : List NodeId} {ty : Ty} (hmerge : g.MergeOf region cases.length)
    (hregion : g.At region fun op _ => op = .region)
    (ha : g.addPhi region cases ty = .ok (phi, g')) : Fits g g' := by
  have hadds := addPhi_spec hd ha
  have hpersists := Persists.of_addsPhi hadds
  have hnew : ∀ x, ¬ g.Has x → g'.LivePhi x → x = phi := fun x hx hlive =>
    (hadds.has.1 hlive.has).resolve_right hx
  refine ⟨hadds.dense, hfit.persists hpersists ?_, hpersists, ?_⟩
  · intro x hx hlive
    obtain rfl := hnew x hx hlive
    exact ⟨region, _, hadds.phiAt, hpersists.merge hmerge⟩
  · intro x r m hx hlive hat hloop
    obtain rfl := hnew x hx hlive
    obtain ⟨rfl, -⟩ := hat.unique hadds.phiAt
    refine hregion.false_of hloop ?_
    simp

theorem appendInput (hid : g.At id fun op _ => op.isMerge = false ∧ op ≠ .phi)
    (ha : g.appendInput id input = .ok g') : Fits g g' := by
  obtain ⟨node, hn, henters, -⟩ := appendInput_spec ha
  refine .of_persists hfit ((hd.mapNode ⟨node, hn⟩ _).enters henters) (.of_append hid ha) ?_
  intro phi hlive
  exact (has_mapNode _ ⟨node, hn⟩).1 (henters.has.1 hlive.has)

end

end Fits

/-! ### Replacing nodes where no paths join -/

theorem Persists.of_replace {old new : NodeId} (hfit : g.PhisFit)
    (hold : g.At old fun op _ => op.isMerge = false) (hr : g.replace old new = .ok g') :
    Persists g g' ∧ ∀ phi, g'.LivePhi phi → g.Has phi := by
  by_cases hne : old = new
  · obtain rfl := replace_self hr hne
    exact ⟨.refl g', fun phi hlive => hlive.has⟩
  refine ⟨⟨keeps_replace hr, (mergeOf_replace hr hne).2, ?_, ?_⟩, ?_⟩
  · intro phi _ hlive'
    exact ((livePhi_replace hr hne).1 hlive').1
  · intro phi region n hlive hlive' hat
    refine phiAt_replace hr hne ((livePhi_replace hr hne).1 hlive').2 hat ?_
    rintro rfl
    refine hold.false_of (hfit.mergeOf hlive hat).isMerge ?_
    intro op ty hfalse
    simp [hfalse]
  · intro phi hlive'
    exact ((livePhi_replace hr hne).1 hlive').1.has

end Graph

end SeaOfNodes
