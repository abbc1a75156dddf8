import SeaOfNodes.Proofs.Pass.Reorder

/-!
Folds. A fold keeps the graph well-formed, adds at most one node, a constant, and only if that is
to take the place of the node it looks at. What can go wrong is a phi that lacks a case and, at a
load, a chain of memory that has no end.
-/
namespace SeaOfNodes.Graph

variable {g g' : Graph} {id x old new : NodeId} {node : Node} {F : Fault → Prop}
  {phi : NodeId} {phis : List NodeId}

/-! ### Nodes that a fold may still look at -/

/-- Whether a handle has a node that no other stands for and that is no constant. -/
def isOpen (g : Graph) (id : NodeId) : Bool :=
  (g.get? id).any fun node => !node.replaced && node.op != .constant

theorem isOpen_iff : g.isOpen x = true ↔
    ∃ node, g.get? x = some node ∧ node.replaced = false ∧ node.op ≠ .constant := by
  unfold isOpen
  cases g.get? x <;> simp

theorem isOpen_replace (hr : g.replace old new = .ok g') (hne : old ≠ new) :
    g'.isOpen x = true ↔ g.isOpen x = true ∧ x ≠ old := by
  rw [isOpen_iff, isOpen_iff]
  constructor
  · rintro ⟨node', hn', hlive, hop⟩
    obtain ⟨node, hn, hop', -, hmark⟩ := get?_of_replace hr hne hn'
    rw [hmark] at hlive
    simp only [Bool.or_eq_false_iff, beq_eq_false_iff_ne] at hlive
    exact ⟨⟨node, hn, hlive.1, hop' ▸ hop⟩, hlive.2⟩
  · rintro ⟨⟨node, hn, hlive, hop⟩, hx⟩
    obtain ⟨node', hn', hop', -, hmark⟩ := replaced_replace hr hne hn
    exact ⟨node', hn', by simp [hmark, hlive, hx], hop' ▸ hop⟩

/-! ### What a fold expects -/

/-- Every operation of a graph is as `P` asks for. -/
def Ops (P : NodeId → Op → Prop) (g : Graph) : Prop := ∀ x node, g.get? x = some node → P x node.op

theorem Ops.added {P : NodeId → Op → Prop} (h : g.Ops P) (hconstant : ∀ x, P x .constant) (ty : Ty) :
    (g.added .constant ty []).Ops P := by
  intro x node hn
  rw [get?_added] at hn
  split at hn
  · cases hn
    exact hconstant x
  · exact h x node hn

theorem Ops.replace {P : NodeId → Op → Prop} (h : g.Ops P) (hr : g.replace old new = .ok g') :
    g'.Ops P := by
  by_cases hne : old = new
  · obtain rfl := replace_self hr hne
    exact h
  · intro x node' hn'
    obtain ⟨node, hn, hop, -⟩ := get?_of_replace hr hne hn'
    rw [hop]
    exact h x node hn

/-- `F` holds of the faults that a fold of an operation can have: a phi may lack a case, and the
memory before a load may have no end. -/
def Expected (F : Fault → Prop) (x : NodeId) : Op → Prop
  | .phi => ∀ position, F (.unevenPhi x position)
  | .load _ => F .endlessChain
  | _ => True

/-- What a fold expects of a graph, where `F` holds of the faults that it may have. -/
structure Sound (F : Fault → Prop) (g : Graph) : Prop where
  wellFormed : g.WellFormed
  registered : g.Registered
  faults : g.Ops (Expected F)

/-- What a fold leaves behind of a graph. -/
structure Leaves (F : Fault → Prop) (g g' : Graph) : Prop where
  sound : Sound F g'
  keeps : Keeps g g'

theorem Sound.replace (h : Sound F g) (hnew : g.Has new) (hr : g.replace old new = .ok g') :
    Leaves F g g' :=
  ⟨⟨h.wellFormed.replace h.registered hnew hr, h.registered.replace hr, h.faults.replace hr⟩,
    keeps_replace hr⟩

/-! ### What a fold finds -/

structure Found (F : Fault → Prop) (id : NodeId) (g : Graph) (r : Option NodeId × Graph) : Prop where
  leaves : Leaves F g r.2
  has : ∀ new, r.1 = some new → r.2.Has new
  isOpen : ∀ x, r.2.isOpen x = true → g.isOpen x = true
  isLive : g.isLive id = true → r.2.isLive id = true
  size : r.2.slots.size = g.slots.size ∨
    r.2.slots.size = g.slots.size + 1 ∧ ∃ new, r.1 = some new ∧ new ≠ id

theorem Sound.found (h : Sound F g) (id : NodeId) {found : Option NodeId}
    (hfound : ∀ new, found = some new → g.Has new) : Found F id g (found, g) where
  leaves := ⟨h, .refl g⟩
  has := hfound
  isOpen _ hx := hx
  isLive hid := hid
  size := .inl rfl

theorem Sound.keep (h : Sound F g) (id : NodeId) :
    Yields F g.keep (Found F id g) := .ok (h.found id (by simp))

theorem create_constant (hd : g.Dense) (ty : Ty) :
    g.create .constant ty [] = .ok (g.nextId, g.added .constant ty []) := by
  rw [create_eq hd]
  rfl

theorem Sound.added_constant (h : Sound F g) (ty : Ty) : Sound F (g.added .constant ty []) where
  wellFormed := by
    have hshaped : Node.Shaped ⟨.constant, (ty.stamp g.origins).1, [], [], false⟩ := trivial
    exact h.wellFormed.create h.registered hshaped (create_constant h.wellFormed.dense ty)
  registered := by
    have hd := h.wellFormed.dense
    exact h.registered.create hd.freeSlots (create_constant hd ty)
  faults := h.faults.added (fun _ => trivial) ty

theorem Sound.found_constant (h : Sound F g) (hid : g.Has id) (ty : Ty)
    (dead : Option NodeId) :
    Found F id g (some g.nextId, { g.added .constant ty [] with deadNode := dead }) := by
  have hadded := h.added_constant ty
  have hget : ∀ x, ({ g.added .constant ty [] with deadNode := dead } : Graph).get? x =
      if x = g.nextId then
        some { op := .constant, ty := (ty.stamp g.origins).1, inputs := [] } else g.get? x :=
    get?_added .constant ty []
  have hne : id ≠ g.nextId := h.wellFormed.dense.ne_nextId hid
  have hw := hadded.wellFormed
  refine ⟨⟨⟨⟨⟨hw.dense.free, hw.dense.has_iff⟩, hw.shaped, hw.inputs, hw.control, hw.memory,
    hw.phiRegion, hw.roots⟩, hadded.registered, hadded.faults⟩, ?_⟩, ?_, ?_, ?_, ?_⟩
  · have hd := h.wellFormed.dense
    exact ⟨(Extends.create hd (create_constant hd ty)).keeps.node⟩
  · intro new hnew
    cases hnew
    exact ⟨_, by rw [hget, if_pos rfl]⟩
  · intro x hx
    rw [isOpen_iff] at hx ⊢
    obtain ⟨node, hn, hlive, hop⟩ := hx
    rw [hget] at hn
    split at hn
    · cases hn
      exact absurd rfl hop
    · exact ⟨node, hn, hlive, hop⟩
  · intro hlive
    rw [isLive_iff] at hlive ⊢
    rw [hget, if_neg hne]
    exact hlive
  · refine .inr ⟨?_, g.nextId, rfl, hne.symm⟩
    simp [added]

theorem foldTo_yields (h : Sound F g) (hid : g.Has id) (ty : Ty) :
    Yields F (g.foldTo ty) (Found F id g) := by
  unfold foldTo
  rw [create_constant h.wellFormed.dense]
  exact h.found_constant hid ty g.deadNode

theorem foldToDead_yields (h : Sound F g) (hid : g.Has id) :
    Yields F g.foldToDead (Found F id g) := by
  unfold foldToDead deadControl
  simp only [create_constant h.wellFormed.dense]
  cases hdead : g.deadNode with
  | none => exact h.found_constant hid .dead (some g.nextId)
  | some dead =>
    dsimp only
    split
    · rename_i hlive
      obtain ⟨node, hn, -⟩ := isLive_iff.1 hlive
      refine .ok (h.found id ?_)
      intro new hnew
      cases hnew
      exact ⟨node, hn⟩
    · exact h.found_constant hid .dead (some g.nextId)

/-! ### Operators -/

theorem inputType_yields (h : g.WellFormed) (hn : g.get? id = some node) {position : Nat}
    (hposition : position < node.inputs.length) :
    Yields F (g.inputType id position) fun _ => True :=
  (input_yields h hn hposition).bind fun _ hx => ty_yields hx

theorem operatorType?_yields (h : g.WellFormed) (hn : g.get? id = some node) :
    Yields F (g.operatorType? id) fun _ => True := by
  have hshaped := h.shaped hn
  unfold operatorType?
  rw [node_of_get? hn]
  simp only [Bind.bind, Except.bind]
  unfold Node.Shaped at hshaped
  cases hop : node.op with
  | binary op | compare op =>
    simp only [hop] at hshaped
    refine (inputType_yields h hn (by omega)).bind fun lhs _ => ?_
    exact (inputType_yields h hn hshaped).bind fun rhs _ => .pure trivial
  | unary op | cast | projection index =>
    simp only [hop] at hshaped
    exact (inputType_yields h hn hshaped).bind fun operand _ => .pure trivial
  | build =>
    exact (Yields.mapM fun x hx => ty_yields (h.inputs hn hx)).bind fun tys _ => .pure trivial
  | _ => exact .pure trivial

section

variable (h : Sound F g) (hn : g.get? id = some node)
include h hn

theorem foldConstant_yields : Yields F (g.foldConstant id) (Found F id g) := by
  refine (operatorType?_yields h.wellFormed hn).bind fun ty _ => ?_
  split
  · split
    · exact foldTo_yields h ⟨node, hn⟩ _
    · exact h.keep id
  · exact h.keep id

theorem foldOperator_yields : Yields F (g.foldOperator id) (Found F id g) := by
  refine .bind_ok (op_of_get? hn) ?_
  split
  · rename_i index hop
    have hshaped := h.wellFormed.shaped hn
    simp only [Node.Shaped, hop] at hshaped
    refine (input_yields h.wellFormed hn hshaped).bind fun operand hoperand => ?_
    obtain ⟨built, hbuilt⟩ := hoperand
    refine .bind_ok (node_of_get? hbuilt) ?_
    split
    · refine .ok (h.found id fun new hnew => ?_)
      exact h.wellFormed.inputs hbuilt (List.mem_of_getElem? hnew)
    · exact foldConstant_yields h hn
  · exact foldConstant_yields h hn

theorem foldComparison_yields : Yields F (g.foldComparison id) (Found F id g) := by
  refine .bind_ok (op_of_get? hn) ?_
  split
  · rename_i op hop
    have hshaped := h.wellFormed.shaped hn
    simp only [Node.Shaped, hop] at hshaped
    refine (input_yields h.wellFormed hn (by omega)).bind fun lhs hlhs => ?_
    refine (input_yields h.wellFormed hn hshaped).bind fun rhs _ => ?_
    split
    · exact h.keep id
    · refine (ty_yields hlhs).bind fun ty _ => ?_
      split
      · exact h.keep id
      · exact foldTo_yields h ⟨node, hn⟩ _
  · exact h.keep id

end

/-! ### Control -/

theorem isDeadControl_yields (hid : g.Has id) : Yields F (g.isDeadControl id) fun _ => True :=
  (ty_yields hid).bind fun _ _ => .pure trivial

theorem foldBranch_yields (h : Sound F g) (hn : g.get? id = some node)
    (hinputs : 0 < node.inputs.length) (taken : Bool) :
    Yields F (g.foldBranch id taken) (Found F id g) := by
  refine (inputType_yields h.wellFormed hn hinputs).bind fun ty _ => ?_
  split
  · exact h.keep id
  · refine (isDeadControl_yields ⟨node, hn⟩).bind fun dead _ => ?_
    split
    · exact h.keep id
    · split
      · exact .ok (h.found id fun new hnew => (h.wellFormed.control hnew).2)
      · exact foldToDead_yields h ⟨node, hn⟩

theorem livePositions_yields {ids : List NodeId} (hids : ∀ x ∈ ids, g.Has x) (index : Nat)
    {F : Fault → Prop} : Yields F (g.livePositions index ids) fun _ => True := by
  induction ids generalizing index with
  | nil => exact trivial
  | cons x ids ih =>
    refine (isDeadControl_yields (hids x List.mem_cons_self)).bind fun dead _ => ?_
    exact (ih (fun y hy => hids y (List.mem_cons_of_mem _ hy)) _).bind fun rest _ => .pure trivial

theorem mem_phisOf {region : NodeId} (h : g.WellFormed) (hphis : g.phisOf region = .ok phis)
    (hx : x ∈ phis) : g.IsPhi x := by
  obtain ⟨us, -, hphis⟩ := bind_eq_ok_iff.1 hphis
  cases hphis
  rw [List.mem_eraseDups] at hx
  have hregion := (List.mem_filter.1 hx).2
  simp only [decide_eq_true_eq] at hregion
  exact (h.phiRegion hregion.1).1

theorem caseAt_yields (h : Sound F g) (hphi : g.IsPhi phi) (position : Nat) :
    Yields F (g.caseAt phi position) g.Has := by
  obtain ⟨node, hn, hop⟩ := hphi
  have hfaults := h.faults phi node hn
  rw [hop] at hfaults
  refine .bind_ok (node_of_get? hn) ?_
  split
  · rename_i hcase
    exact h.wellFormed.inputs hn (List.mem_of_getElem? hcase)
  · exact hfaults position

/-- What is left of a graph when some of its phis were replaced. -/
structure Selected (F : Fault → Prop) (g g' : Graph) : Prop where
  leaves : Leaves F g g'
  isOpen : ∀ x, g'.isOpen x = true → g.isOpen x = true
  isLive : ∀ x, ¬ g.IsPhi x → g.isLive x = true → g'.isLive x = true
  size : g'.slots.size = g.slots.size

theorem Selected.refl (h : Sound F g) : Selected F g g :=
  ⟨⟨h, .refl g⟩, fun _ hx => hx, fun _ _ hx => hx, rfl⟩

theorem Selected.of_replace (h : Leaves F g g') (hr : g.replace old new = .ok g')
    (hphi : g.IsPhi old) : Selected F g g' := by
  by_cases hne : old = new
  · obtain rfl := replace_self hr hne
    exact .refl h.sound
  refine ⟨h, fun x hx => ((isOpen_replace hr hne).1 hx).1, ?_, size_replace hr hne⟩
  intro x hx hlive
  exact (isLive_replace hr hne).2 ⟨hlive, fun heq => hx (heq ▸ hphi)⟩

theorem Keeps.isPhi_back (h : Keeps g g') (hx : g.Has x) (hphi : g'.IsPhi x) : g.IsPhi x := by
  obtain ⟨node, hn⟩ := hx
  obtain ⟨node', hn', hop, -⟩ := h.node hn
  obtain ⟨other, ho, hphi⟩ := hphi
  cases hn'.symm.trans ho
  exact ⟨node, hn, hop ▸ hphi⟩

theorem Selected.trans {g'' : Graph} (h1 : Selected F g g') (h2 : Selected F g' g'') :
    Selected F g g'' where
  leaves := ⟨h2.leaves.sound, h1.leaves.keeps.trans h2.leaves.keeps⟩
  isOpen x hx := h1.isOpen x (h2.isOpen x hx)
  isLive x hx hlive := by
    refine h2.isLive x ?_ (h1.isLive x hx hlive)
    obtain ⟨node, hn, -⟩ := isLive_iff.1 hlive
    exact fun hphi => hx (h1.leaves.keeps.isPhi_back ⟨node, hn⟩ hphi)
  size := h2.size.trans h1.size

theorem selectCase_yields (position : Nat) (h : Sound F g) (hphis : ∀ x ∈ phis, g.IsPhi x) :
    Yields F (selectCase position phis g) (Selected F g) := by
  induction phis generalizing g with
  | nil => exact .ok (.refl h)
  | cons phi phis ih =>
    have hphi := hphis phi List.mem_cons_self
    refine (caseAt_yields h hphi position).bind fun case hhas => ?_
    obtain ⟨g1, hr⟩ := h.wellFormed.replace_ok hphi.has hhas
    refine .bind_ok hr ?_
    have hleaves : Leaves F g g1 := h.replace hhas hr
    have hphis1 : ∀ x ∈ phis, g1.IsPhi x :=
      fun x hx => hleaves.keeps.at (hphis x (List.mem_cons_of_mem _ hx))
    exact (ih hleaves.sound hphis1).imp fun g' hg' => (Selected.of_replace hleaves hr hphi).trans hg'

theorem foldRegion_yields (h : Sound F g) (hn : g.get? id = some node)
    (hmerge : node.op.isMerge = true) : Yields F (g.foldRegion id) (Found F id g) := by
  refine .bind_ok (node_of_get? hn) ?_
  refine (livePositions_yields (fun x hx => h.wellFormed.inputs hn hx) 0).bind fun positions _ => ?_
  split
  · refine (isDeadControl_yields ⟨node, hn⟩).bind fun dead _ => ?_
    split
    · exact h.keep id
    · exact foldToDead_yields h ⟨node, hn⟩
  · rename_i only
    obtain ⟨us, hus⟩ := users_ok ⟨node, hn⟩
    obtain ⟨phis, hphis⟩ : ∃ phis, g.phisOf id = .ok phis := ⟨_, bind_eq_ok_iff.2 ⟨us, hus, rfl⟩⟩
    refine .bind_ok hphis ?_
    refine (selectCase_yields only h fun x hx => mem_phisOf h.wellFormed hphis hx).bind
      fun g1 hselected => ?_
    have hnot : ¬ g.IsPhi id := by
      rintro ⟨other, ho, hphi⟩
      cases hn.symm.trans ho
      rw [hphi] at hmerge
      contradiction
    refine .ok ⟨hselected.leaves, ?_, hselected.isOpen, hselected.isLive id hnot,
      .inl hselected.size⟩
    intro new hnew
    exact hselected.leaves.keeps.has (h.wellFormed.inputs hn (List.mem_of_getElem? hnew))
  · exact h.keep id

theorem takenCases_yields {cases : List (NodeId × NodeId)}
    (hcases : ∀ pair ∈ cases, g.Has pair.1 ∧ g.Has pair.2) :
    Yields F (g.takenCases phi cases) fun taken => ∀ x ∈ taken, g.Has x := by
  induction cases with
  | nil => exact .ok (by simp)
  | cons pair rest ih =>
    obtain ⟨case, predecessor⟩ := pair
    obtain ⟨hcase, hpredecessor⟩ := hcases _ List.mem_cons_self
    have hrest : ∀ left : Bool, Yields F (do
        let cases ← g.takenCases phi rest
        return if left then cases else case :: cases) fun taken => ∀ x ∈ taken, g.Has x := by
      intro left
      refine (ih fun other ho => hcases other (List.mem_cons_of_mem _ ho)).bind
        fun taken htaken => .pure ?_
      split
      · exact htaken
      · intro x hx
        rcases List.mem_cons.1 hx with rfl | hx
        · exact hcase
        · exact htaken x hx
    rw [takenCases]
    split
    · exact hrest true
    · exact (isDeadControl_yields hpredecessor).bind fun left _ => hrest left

theorem foldPhi_yields (h : Sound F g) (hn : g.get? id = some node)
    (hinputs : 0 < node.inputs.length) : Yields F (g.foldPhi id) (Found F id g) := by
  refine .bind_ok (node_of_get? hn) ?_
  split
  · rename_i hnil
    simp [hnil] at hinputs
  · rename_i region cases hcons
    have hin : ∀ x ∈ node.inputs, g.Has x := fun x hx => h.wellFormed.inputs hn hx
    rw [hcons] at hin
    obtain ⟨merge, hmerge⟩ := hin region List.mem_cons_self
    split
    · exact h.keep id
    · refine .bind_ok (node_of_get? hmerge) ?_
      refine (takenCases_yields ?_).bind fun taken htaken => ?_
      · intro pair hpair
        obtain ⟨case, predecessor⟩ := pair
        obtain ⟨hcase, hpredecessor⟩ := List.of_mem_zip hpair
        exact ⟨hin case (List.mem_cons_of_mem _ hcase), h.wellFormed.inputs hmerge hpredecessor⟩
      · split
        · exact h.keep id
        · rename_i first rest
          split
          · refine .ok (h.found id fun new hnew => ?_)
            cases hnew
            exact htaken _ List.mem_cons_self
          · refine (Yields.mapM fun x hx => ty_yields (htaken x (List.mem_cons_of_mem _ hx))).bind
              fun tys _ => ?_
            refine (ty_yields (htaken first List.mem_cons_self)).bind fun ty _ => ?_
            dsimp only
            split
            · exact foldTo_yields h ⟨node, hn⟩ _
            · exact h.keep id

theorem foldControl_yields (h : Sound F g) (hn : g.get? id = some node) :
    Yields F (g.foldControl id) (Found F id g) := by
  have hshaped := h.wellFormed.shaped hn
  refine .bind_ok (op_of_get? hn) ?_
  unfold Node.Shaped at hshaped
  cases hop : node.op with
  | branch taken =>
    simp only [hop] at hshaped
    exact foldBranch_yields h hn hshaped taken
  | region | loop => exact foldRegion_yields h hn (hop ▸ rfl)
  | phi =>
    simp only [hop] at hshaped
    exact foldPhi_yields h hn hshaped
  | _ => exact h.keep id

/-! ### Memory -/

theorem storedValue?_yields {load effect : NodeId} (h : Sound F g) (hload : g.Has load)
    (heffect : g.Has effect) (target : Option NodeId) (offset fuel : Nat) (hendless : F .endlessChain) :
    Yields F (g.storedValue? load target offset fuel effect)
      fun found => ∀ value, found = some value → g.Has value := by
  induction fuel generalizing effect with
  | zero => exact hendless
  | succ fuel ih =>
    obtain ⟨node, hn⟩ := heffect
    refine .bind_ok (op_of_get? hn) ?_
    split
    · rename_i at_ e hop he
      have hshaped := h.wellFormed.shaped hn
      simp only [Node.Shaped, hop] at hshaped
      split
      · exact .pure (by simp)
      · refine (input_yields h.wellFormed hn hshaped).bind fun value hvalue => ?_
        refine (ty_yields hvalue).bind fun ty _ => ?_
        refine (ty_yields hload).bind fun ty' _ => ?_
        split
        · refine .pure fun other ho => ?_
          cases ho
          exact hvalue
        · exact .pure (by simp)
    · rename_i at_ e hop he
      exact ih (h.wellFormed.memory he).2.1
    · exact .pure (by simp)

theorem foldLoad_yields (h : Sound F g) (hn : g.get? id = some node) :
    Yields F (g.foldLoad id) (Found F id g) := by
  refine .bind_ok (op_of_get? hn) ?_
  split
  · rename_i offset e hop he
    have hfaults := h.faults id node hn
    rw [hop] at hfaults
    exact (storedValue?_yields h ⟨node, hn⟩ (h.wellFormed.memory he).2.1 _ _ _ hfaults).bind
      fun found hfound => .ok (h.found id hfound)
  · exact h.keep id

/-! ### All folds -/

theorem fold_yields (fold : Fold) (h : Sound F g) (hn : g.get? id = some node) :
    Yields F (fold.run g id) (Found F id g) := by
  cases fold with
  | operator => exact foldOperator_yields h hn
  | comparison => exact foldComparison_yields h hn
  | control => exact foldControl_yields h hn
  | load => exact foldLoad_yields h hn

/-- What trying folds on `id` leaves behind: the graph has as many nodes as before, or another node
took the place of `id` and at most one was added. -/
structure Tried (F : Fault → Prop) (id : NodeId) (g : Graph) (r : Option NodeId × Graph) : Prop where
  leaves : Leaves F g r.2
  has : ∀ new, r.1 = some new → r.2.Has new
  isOpen : ∀ x, r.2.isOpen x = true → g.isOpen x = true
  size : (r.1 = none ∧ r.2.slots.size = g.slots.size) ∨
    (r.2.slots.size ≤ g.slots.size + 1 ∧ r.2.isOpen id = false)

theorem simplifyBy_yields {folds : List Fold} (h : Sound F g) (hlive : g.isLive id = true) :
    Yields F (simplifyBy id folds g) (Tried F id g) := by
  induction folds generalizing g with
  | nil => exact .ok ⟨⟨h, .refl g⟩, by simp, fun _ hx => hx, .inl ⟨rfl, rfl⟩⟩
  | cons fold folds ih =>
    obtain ⟨node, hn, -⟩ := isLive_iff.1 hlive
    refine (fold_yields fold h hn).bind fun r hfound => ?_
    obtain ⟨found, g1⟩ := r
    -- A fold that found nothing new has added no node, and the next one is tried.
    have hnext : (∀ new, found = some new → new = id ∨ g1.isLive id = false) →
        Yields F (simplifyBy id folds g1) (Tried F id g) := by
      intro hnone
      have hlive1 : g1.isLive id = true := hfound.isLive hlive
      have hsize : g1.slots.size = g.slots.size := by
        rcases hfound.size with hsize | ⟨-, new, hnew, hne⟩
        · exact hsize
        · rcases hnone new hnew with heq | hdead
          · exact absurd heq hne
          · simp [hlive1] at hdead
      refine (ih hfound.leaves.sound hlive1).imp fun r' hr' => ?_
      refine ⟨⟨hr'.leaves.sound, hfound.leaves.keeps.trans hr'.leaves.keeps⟩, hr'.has,
        fun x hx => hfound.isOpen x (hr'.isOpen x hx), ?_⟩
      rw [← hsize]
      exact hr'.size
    cases found with
    | none => exact hnext (by simp)
    | some new =>
      dsimp only
      split
      · rename_i hsame
        refine hnext fun other ho => ?_
        cases ho
        exact hsame
      · rename_i hdiffers
        have hne : id ≠ new := fun heq => hdiffers (.inl heq.symm)
        have hnew : g1.Has new := hfound.has new rfl
        have hid : g1.Has id := hfound.leaves.keeps.has ⟨node, hn⟩
        obtain ⟨g2, hr2⟩ := hfound.leaves.sound.wellFormed.replace_ok hid hnew
        refine .bind_ok hr2 ?_
        have hleaves : Leaves F g1 g2 := hfound.leaves.sound.replace hnew hr2
        refine .ok ⟨⟨hleaves.sound, hfound.leaves.keeps.trans hleaves.keeps⟩, ?_, ?_, .inr ⟨?_, ?_⟩⟩
        · intro other ho
          cases ho
          exact hleaves.keeps.has hnew
        · intro x hx
          exact hfound.isOpen x ((isOpen_replace hr2 hne).1 hx).1
        · have hsize1 : g1.slots.size ≤ g.slots.size + 1 := by
            rcases hfound.size with hsize | ⟨hsize, -⟩
            · exact Nat.le_succ_of_le (Nat.le_of_eq hsize)
            · exact Nat.le_of_eq hsize
          exact (size_replace hr2 hne).trans_le hsize1
        · refine Bool.eq_false_iff.2 fun hopen => ?_
          exact ((isOpen_replace hr2 hne).1 hopen).2 rfl

end SeaOfNodes.Graph
