import SeaOfNodes.Proofs.Scope.Head
import SeaOfNodes.Proofs.Ty.Value

/-!
Values where paths meet. When control comes to a region by one of its paths, a phi of the region
takes on the value of its case for this path. A request for a phi may give the node that all cases
are, or a constant; that node has the same value then (`Merged.arrival_eq`).
-/
namespace SeaOfNodes

open SeaOfNodes.Graph

/-! ### Arriving at a region -/

namespace Graph

variable {g0 g g' : Graph} {region v c : NodeId} {cases : List NodeId} {ty : Ty} {path : Nat}
  {ρ : NodeId → Value}

/-- The node whose value a node takes on when control comes to `region` by one of its paths. -/
def selected (g : Graph) (region : NodeId) (path : Nat) (id : NodeId) : NodeId :=
  match g.get? id with
  | some node =>
    if node.op = .phi ∧ node.inputs.head? = some region then node.inputs[path + 1]?.getD id else id
  | none => id

/-- The value of a node if other nodes than constants have the values `ρ`. -/
def valueIn (g : Graph) (ρ : NodeId → Value) (id : NodeId) : Value :=
  match g.get? id with
  | some node => if node.op = .constant then node.ty.value?.getD (ρ id) else ρ id
  | none => ρ id

/-- The value of a node when control comes to `region` by one of its paths. -/
def arrival (g : Graph) (region : NodeId) (path : Nat) (ρ : NodeId → Value) (id : NodeId) : Value :=
  g.valueIn ρ (g.selected region path id)

/-- The values `ρ` have the value of a node within its type. -/
def Admits (g : Graph) (ρ : NodeId → Value) (id : NodeId) : Prop :=
  g.At id fun _ ty => ty.Describes (ρ id)

theorem Admits.valueIn_eq (h : g0.Admits ρ v)
    (hshows : ∀ {node}, g0.get? v = some node → g.Shows v node) : g.valueIn ρ v = ρ v := by
  obtain ⟨node, hn, hdescribes⟩ := h
  obtain ⟨us, hus⟩ := hshows hn
  simp only [valueIn, hus]
  split
  · cases hv : node.ty.value? with
    | none => rfl
    | some value =>
      have hconst : node.ty.isConstant = true := by simp [← Ty.isSome_value?, hv]
      rw [hdescribes.value?_eq hconst] at hv
      cases hv
      rfl
  · rfl

/-- What a request for a phi of type `ty` gives: the node that all cases are, a constant, or a phi.
All but the first are nodes that `g₀` does not have. -/
inductive Merged (g₀ g : Graph) (region : NodeId) (cases : List NodeId) (ty : Ty) (v : NodeId) :
    Prop where
  | same (hmem : v ∈ cases) (hall : ∀ c ∈ cases, c = v)
  | constant {node : Node} (hfresh : ¬ g₀.Has v) (hshows : g.Shows v node)
    (hop : node.op = .constant) (hty : node.ty.plain = ty.plain) (hconst : ty.isConstant = true)
  | phi {node : Node} (hfresh : ¬ g₀.Has v) (hshows : g.Shows v node) (hop : node.op = .phi)
    (hinputs : node.inputs = region :: cases)

namespace Merged

theorem mono (h : Merged g0 g region cases ty v)
    (hshows : ∀ {x node}, g.Shows x node → g'.Shows x node) : Merged g0 g' region cases ty v := by
  cases h with
  | same hmem hall => exact .same hmem hall
  | constant hfresh hnode hop hty hconst => exact .constant hfresh (hshows hnode) hop hty hconst
  | phi hfresh hnode hop hinputs => exact .phi hfresh (hshows hnode) hop hinputs

theorem of_shows (h : Merged g g' region cases ty v)
    (hshows : ∀ {x node}, g0.Shows x node → g.Shows x node) : Merged g0 g' region cases ty v := by
  have hfresh : ¬ g.Has v → ¬ g0.Has v := by
    rintro hnot ⟨node, hn⟩
    exact hnot (hshows ⟨node.users, hn⟩).has
  cases h with
  | same hmem hall => exact .same hmem hall
  | constant hnot hnode hop hty hconst => exact .constant (hfresh hnot) hnode hop hty hconst
  | phi hnot hnode hop hinputs => exact .phi (hfresh hnot) hnode hop hinputs

theorem made (h : Merged g0 g region cases ty v) (hcases : ∀ c ∈ cases, g0.Has c)
    (hv : ¬ g0.Has v) : g.At v fun op _ => op = .constant ∨ op = .phi := by
  cases h with
  | same hmem _ => exact absurd (hcases v hmem) hv
  | constant _ hnode hop _ _ => exact hnode.kind.mono fun op _ hkind => .inl (hkind.trans hop)
  | phi _ hnode hop _ => exact hnode.kind.mono fun op _ hkind => .inr (hkind.trans hop)

structure Known (g₀ g : Graph) (region : NodeId) (cases : List NodeId) : Prop where
  fresh : ¬ g₀.Has region
  inputs : ∀ {x node}, g₀.get? x = some node → ∀ y ∈ node.inputs, g₀.Has y
  has : ∀ c ∈ cases, g₀.Has c
  shows : ∀ {x node}, g₀.get? x = some node → g.Shows x node

theorem Known.selected_eq (h : Known g0 g region cases) (hc : g0.Has c) :
    g.selected region path c = c := by
  obtain ⟨node, hn⟩ := hc
  obtain ⟨us, hus⟩ := h.shows hn
  simp only [selected, hus]
  rw [if_neg]
  rintro ⟨-, hhead⟩
  exact h.fresh (h.inputs hn region (List.mem_of_head? hhead))

theorem selected_phi {node : Node} (hshows : g.Shows v node) (hop : node.op = .phi)
    (hinputs : node.inputs = region :: cases) (hc : cases[path]? = some c) :
    g.selected region path v = c := by
  obtain ⟨us, hus⟩ := hshows
  simp [selected, hus, hop, hinputs, hc]

theorem selected_memory (h : Merged g0 g region cases .memory v) (hk : Known g0 g region cases)
    (hc : cases[path]? = some c) : g.selected region path v = c := by
  cases h with
  | same hmem hall =>
    obtain rfl := hall c (List.mem_of_getElem? hc)
    exact hk.selected_eq (hk.has c hmem)
  | constant _ _ _ _ hconst => contradiction
  | phi _ hshows hop hinputs => exact selected_phi hshows hop hinputs hc

/-- A merged value is the case of the path, if the type of the phi describes the values of its
cases. -/
theorem arrival_eq (h : Merged g0 g region cases ty v) (hk : Known g0 g region cases)
    (hc : cases[path]? = some c) (hρ : g0.Admits ρ c) (hty : ty.Describes (ρ c)) :
    g.arrival region path ρ v = ρ c := by
  have hmem := List.mem_of_getElem? hc
  have hvalue : g.valueIn ρ c = ρ c := hρ.valueIn_eq hk.shows
  unfold arrival
  cases h with
  | same hv hall =>
    obtain rfl := hall c hmem
    rw [hk.selected_eq (hk.has c hmem), hvalue]
  | @constant node _ hshows hop hplain hconst =>
    obtain ⟨us, hus⟩ := hshows
    have hself : g.selected region path v = v := by simp [selected, hus, hop]
    have hconst' : node.ty.isConstant = true := by
      rw [← Ty.isConstant_plain, hplain, Ty.isConstant_plain, hconst]
    have hdescribes : node.ty.Describes (ρ c) := (Ty.describes_congr hplain _).2 hty
    rw [hself]
    simp [valueIn, hus, hop, hdescribes.value?_eq hconst']
  | phi _ hshows hop hinputs => rw [selected_phi hshows hop hinputs hc, hvalue]

end Merged

/-- At most one node is added, and the others stay but for their users. -/
structure AddsOne (g : Graph) (v : NodeId) (g' : Graph) : Prop where
  dense : g'.Dense
  shows : ∀ {x node}, g.Shows x node → g'.Shows x node
  has : ∀ {x}, g'.Has x → g.Has x ∨ x = v

theorem Shows.refl {node : Node} (h : g.get? v = some node) : g.Shows v node := ⟨node.users, h⟩

theorem keeps_of_shows (h : ∀ {x node}, g.Shows x node → g'.Shows x node) : Keeps g g' := by
  constructor
  intro x node hn
  obtain ⟨us, hus⟩ := h (.refl hn)
  exact ⟨_, hus, rfl, rfl⟩

end Graph

/-! ### Requests -/

namespace BuildM

variable {F : Fault → Prop} {b : Builder} {g0 : Graph} {region : NodeId} {cases : List NodeId}
  {ty : Ty}

theorem create_addsOne {op : Op} {inputs : List NodeId} (hd : b.graph.Dense)
    (hin : ∀ x ∈ inputs, b.graph.Has x) :
    Does F b (create op ty inputs) fun id b' => AddsOne b.graph id b'.graph ∧
      ¬ b.graph.Has id ∧ ∃ node, b'.graph.Shows id node ∧ node.op = op ∧
        node.ty.plain = ty.plain ∧ node.inputs = inputs := by
  obtain ⟨g', hc⟩ := create_ok hd hin op ty
  refine .editWith hc ?_
  obtain ⟨hfresh, us, hself⟩ := create_self hd hc
  have hshows : g'.Shows _ { op, ty := (ty.stamp b.graph.origins).1, inputs, users := us } :=
    ⟨us, hself⟩
  exact ⟨⟨hd.create hc, fun h => h.create hd hc, fun hx => ((has_create hd hc).1 hx).symm⟩, hfresh,
    _, hshows, rfl, Ty.plain_stamp _ _, rfl⟩

theorem newPhi_addsOne (hd : b.graph.Dense) (hregion : b.graph.Has region)
    (hcases : ∀ c ∈ cases, b.graph.Has c) :
    Does F b (newPhi region cases ty) fun id b' => AddsOne b.graph id b'.graph ∧
      ¬ b.graph.Has id ∧ ∃ node, b'.graph.Shows id node ∧ node.op = .phi ∧
        node.inputs = region :: cases := by
  have hin : ∀ x ∈ region :: cases, b.graph.Has x := List.forall_mem_cons.2 ⟨hregion, hcases⟩
  obtain ⟨g1, hc⟩ := create_ok hd hin .phi ty
  have hregion1 : g1.Has region := (has_create hd hc).2 (.inr hregion)
  obtain ⟨g2, ha⟩ := attachControl_ok hregion1 b.graph.nextId
  have hadd : b.graph.addPhi region cases ty =
      .ok (b.graph.nextId, g2.setPhiRegion b.graph.nextId region) :=
    bind_eq_ok_iff.2 ⟨_, hc, bind_eq_ok_iff.2 ⟨g2, ha, rfl⟩⟩
  have hadds := addPhi_spec hd hadd
  obtain ⟨ty', us, hself⟩ := hadds.self
  have hshows : (g2.setPhiRegion b.graph.nextId region).Shows b.graph.nextId
    { op := .phi, ty := ty', inputs := region :: cases, users := us } := ⟨us, hself⟩
  refine Does.bind (Q := fun id b' => id = b.graph.nextId ∧ b'.graph = g1)
    (.editWith hc ⟨rfl, rfl⟩) ?_
  rintro _ b1 ⟨rfl, rfl⟩
  refine Does.bind (Q := fun _ b' => b'.graph = g2.setPhiRegion b.graph.nextId region)
    (.edit (bind_eq_ok_iff.2 ⟨g2, ha, rfl⟩) rfl) ?_
  intro _ b2 hb2
  refine .pure ?_
  rw [hb2]
  exact ⟨⟨hadds.dense, fun h => h.addsPhi hadds, fun hx => (hadds.has.1 hx).symm⟩, hadds.fresh, _,
    hshows, rfl, rfl⟩

theorem emitPhi_merges (kind : PhiKind) (hkind : ∀ ty, kind ≠ .loop ty) (hd : b.graph.Dense)
    (hregion : b.graph.Has region) (hcases : ∀ c ∈ cases, b.graph.Has c) :
    Does F b (emitPhi region cases kind ty) fun id b' => AddsOne b.graph id b'.graph ∧
      Merged b.graph b'.graph region cases ty id := by
  unfold emitPhi
  split
  · rename_i ty
    exact absurd rfl (hkind ty)
  · split
    · rename_i id hid
      obtain ⟨rest, rfl, hall⟩ := allSame_eq_some hid
      exact .pure ⟨⟨hd, fun h => h, .inl⟩, .same List.mem_cons_self (by simpa using hall)⟩
    · split
      · rename_i hconst
        refine (create_addsOne hd (by simp)).imp ?_
        rintro id b' ⟨hadds, hfresh, node, hshows, hop, hty, -⟩
        exact ⟨hadds, .constant hfresh hshows hop hty hconst⟩
      · refine (newPhi_addsOne hd hregion hcases).imp ?_
        rintro id b' ⟨hadds, hfresh, node, hshows, hop, hinputs⟩
        exact ⟨hadds, .phi hfresh hshows hop hinputs⟩

theorem make_phi_value_merges {shape : Ty} (hd : b.graph.Dense) (hregion : b.graph.Has region)
    (hshape : shape.isProper = true) (hne : cases ≠ [])
    (hcases : ∀ c ∈ cases, b.graph.At c fun _ ty => ty.sameShape shape = true) :
    Does F b (make (.phi region cases .value)) fun id b' => AddsOne b.graph id b'.graph ∧
      ∃ ty, Merged b.graph b'.graph region cases ty id ∧
        ∀ c ∈ cases, ∀ v, (b.graph.At c fun _ t => t.Describes v) → ty.Describes v := by
  have hhas : ∀ c ∈ cases, b.graph.Has c := fun c hc => (hcases c hc).has
  obtain ⟨tys, htys⟩ := exists_typed hhas
  have hshapes : ∀ t ∈ tys, t.shape = shape.shape :=
    htys.forall fun c hc => (hcases c hc).mono fun _ _ => Ty.sameShape_iff.1
  have hnetys : tys ≠ [] := by
    rintro rfl
    cases htys
    exact hne rfl
  obtain ⟨hinfer, hdescribes⟩ := Ty.describes_inferCases hshape hnetys hshapes
  refine make_emits (bind_eq_ok_iff.2 ⟨tys, htys.mapM, rfl⟩) ?_ ?_
  · have hproper := (Ty.isProper_congr hinfer).trans hshape
    cases hty : inferCases tys <;> first | rfl | simp [hty, Ty.isProper] at hproper
  · refine (emitPhi_merges .value (by simp) hd hregion hhas).imp ?_
    rintro id b' ⟨hadds, hmerged⟩
    refine ⟨hadds, _, hmerged, ?_⟩
    rintro c hc v ⟨node, hn, hv⟩
    obtain ⟨other, ho, hmem⟩ := htys.at c hc
    cases hn.symm.trans ho
    exact hdescribes node.ty hmem v hv

theorem make_phi_memory_merges (hd : b.graph.Dense) (hregion : b.graph.Has region)
    (hcases : ∀ c ∈ cases, b.graph.Has c) :
    Does F b (make (.phi region cases .memory)) fun id b' => AddsOne b.graph id b'.graph ∧
      Merged b.graph b'.graph region cases .memory id := by
  refine Does.bind (Q := fun ty b' => ty = .memory ∧ b' = b) (.look_ok rfl ⟨rfl, rfl⟩) ?_
  rintro _ _ ⟨rfl, rfl⟩
  exact emitPhi_merges .memory (by simp) hd hregion hcases

end BuildM

end SeaOfNodes
