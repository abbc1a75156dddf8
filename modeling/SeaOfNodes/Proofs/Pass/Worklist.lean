import SeaOfNodes.Proofs.Pass.Settle

/-!
The worklist of a simplification. As long as it runs, the operators that compute a value from
constants are on it or have nothing left to fold, and those that use the value keep using it. When
it is empty, the value is a constant.
-/
namespace SeaOfNodes

open SeaOfNodes.Ty

namespace Graph

variable {R : Ty → Ty → Prop} {V : NodeId → Option Ty} {e : Ty} {F : Fault → Prop}
  {uses : NodeId → Nat → Prop} {stays : NodeId → Prop} {g g' : Graph} {id x y old new : NodeId} {node : Node}
  {queue queue' L L' : List NodeId} {L0 fresh : List NodeId} {args : List Ty} {c : NodeId} {p : Nat}
  {queued : Std.ExtTreeSet NodeId}

/-! ### Nodes that use a value -/

/-- A node takes `x` as its input at the place `p`. Of a memory phi the inputs are states. -/
def Takes (g : Graph) (c : NodeId) (p : Nat) (x : NodeId) : Prop :=
  ∃ node, g.get? c = some node ∧ node.isMemoryPhi = false ∧ node.inputs[p]? = some x

/-- A node takes `x` as its input at the place `p`, as long as no other stands for it. -/
def Uses (g : Graph) (c : NodeId) (p : Nat) (x : NodeId) : Prop :=
  ∃ node, g.get? c = some node ∧ node.isMemoryPhi = false ∧
    (node.replaced = false → node.inputs[p]? = some x)

theorem Uses.of_takes (h : g.Takes c p x) : g.Uses c p x := by
  obtain ⟨node, hn, hphi, hinput⟩ := h
  exact ⟨node, hn, hphi, fun _ => hinput⟩

theorem Uses.takes (h : g.Uses c p x) (hlive : g.isLive c = true) : g.Takes c p x := by
  obtain ⟨node, hn, hphi, hinput⟩ := h
  obtain ⟨other, ho, hfalse⟩ := isLive_iff.1 hlive
  cases hn.symm.trans ho
  exact ⟨node, hn, hphi, hinput hfalse⟩

theorem Uses.extend (h : g.Uses c p x) (hext : Extends g g') : g'.Uses c p x := by
  obtain ⟨node, hn, hphi, hinput⟩ := h
  obtain ⟨us, hus⟩ := hext.node hn
  exact ⟨_, hus, hphi, hinput⟩

theorem Uses.replace {c : NodeId} {p : Nat} (h : g.Uses c p x) (hreg : g.Registered)
    (hr : g.replace old new = .ok g') (hne : old ≠ new) :
    g'.Uses c p (if x = old then new else x) := by
  obtain ⟨node, hn, hphi, hinput⟩ := h
  have hphi' : ∀ node' : Node, node'.op = node.op → node'.ty = node.ty → node'.isMemoryPhi = false := by
    intro node' hop hty
    unfold Node.isMemoryPhi
    rw [hop, hty]
    exact hphi
  cases hlive : node.replaced with
  | false =>
    obtain ⟨node', hn', hop, hty, -, hinputs⟩ :=
      inputs_replace_of_registered hr hne hreg hn hlive hphi
    refine ⟨node', hn', hphi' node' hop hty, fun _ => ?_⟩
    rw [hinputs, List.getElem?_map, hinput hlive]
    rfl
  | true =>
    obtain ⟨node', hn', hop, hty, hmark⟩ := replaced_replace hr hne hn
    refine ⟨node', hn', hphi' node' hop hty, fun hnot => ?_⟩
    simp [hmark, hlive] at hnot

/-! ### Operators on the worklist -/

/-- What a run keeps of the operators `L` by which `x` computes `e` from constants. `uses` are the
places of inputs at which the value is used, and `stays` holds of nodes that no fold looks at. -/
structure Tracks (R : Ty → Ty → Prop) (V : NodeId → Option Ty) (e : Ty)
    (uses : NodeId → Nat → Prop) (stays : NodeId → Prop) (g : Graph) (queue : List NodeId)
    (x : NodeId) (L : List NodeId) : Prop where
  registered : g.Registered
  gone : Gone V g
  computes : Computes R V g [x] [e] L
  nodup : L.Nodup
  idle : ∀ y ∈ L, y ∈ queue ∨ g.Idle y
  used : ∀ {c p}, uses c p → g.Uses c p x
  kept : ∀ {c}, stays c → g.isLive c = true ∧ g.At c fun op _ => foldsFor op = []

theorem isLive_extend (h : Extends g g') (hx : g.Has x) : g'.isLive x = g.isLive x := by
  obtain ⟨node, hn⟩ := hx
  obtain ⟨us, hus⟩ := h.node hn
  simp [isLive, hn, hus]

theorem Computes.typed_of_mem {xs : List NodeId} {es : List Ty} (h : Computes R V g xs es L)
    (hy : y ∈ L) : ∃ node ts, g.get? y = some node ∧ node.replaced = false ∧
      node.isMemoryPhi = false ∧ g.Typed node.inputs ts := by
  obtain ⟨node, e, args, L', hn, -, -, hinputs, hop, -⟩ := h.operates_of_mem hy
  obtain ⟨other, ho, hlive⟩ := isLive_iff.1 (h.isLive_of_mem hy)
  cases hn.symm.trans ho
  obtain ⟨ts, htyped, -⟩ := hinputs.typed
  refine ⟨node, ts, hn, hlive, ?_, htyped⟩
  obtain ⟨op, ty, inputs, users, replaced⟩ := node
  cases hop <;> rfl

namespace Tracks

section

variable (h : Tracks R V e uses stays g queue x L)
include h

theorem weaken (hqueue : ∀ y ∈ L, y ∈ queue → y ∈ queue') : Tracks R V e uses stays g queue' x L :=
  { h with idle := fun y hy => (h.idle y hy).imp_left (hqueue y hy) }

theorem extend (hext : Extends g g') (hreg : g'.Registered) :
    Tracks R V e uses stays g' queue x L where
  registered := hreg
  gone y f hf := by
    obtain ⟨hhas, hdead⟩ := h.gone y f hf
    exact ⟨hext.keeps.has hhas, (isLive_extend hext hhas).trans hdead⟩
  computes := h.computes.extend hext
  nodup := h.nodup
  idle y hy := by
    refine (h.idle y hy).imp_right fun hidle => ?_
    obtain ⟨node, ts, hn, -, -, htyped⟩ := h.computes.typed_of_mem hy
    obtain ⟨us, hus⟩ := hext.node hn
    exact hidle.keep hext.keeps hn hus rfl rfl rfl htyped
  used hc := (h.used hc).extend hext
  kept hc := by
    obtain ⟨hlive, hfolds⟩ := h.kept hc
    exact ⟨(isLive_extend hext hfolds.has).trans hlive, hext.keeps.at hfolds⟩

/-- A node takes the place of another that a fold looks at. Operators that use the new node are on the
worklist afterwards. -/
theorem replace (hr : g.replace old new = .ok g') (hne : old ≠ new)
    (hfolds : g.At old fun op _ => foldsFor op ≠ [])
    (hcomputes : Computes R V g' [if x = old then new else x] [e] L') (hsub : L'.Sublist L)
    (hqueue : ∀ y ∈ L', y ∈ queue → y ∈ queue')
    (husers : ∀ y ∈ L', ∀ node, g.get? y = some node → old ∈ node.inputs → y ∈ queue') :
    Tracks R V e uses stays g' queue' (if x = old then new else x) L' where
  registered := h.registered.replace hr
  gone y f hf := by
    obtain ⟨hhas, hdead⟩ := h.gone y f hf
    refine ⟨(keeps_replace hr).has hhas, Bool.eq_false_iff.2 fun hlive => ?_⟩
    simp [((isLive_replace hr hne).1 hlive).1] at hdead
  computes := hcomputes
  nodup := h.nodup.sublist hsub
  idle y hy := by
    have hyL := hsub.subset hy
    obtain ⟨node, ts, hn, hlive, hphi, htyped⟩ := h.computes.typed_of_mem hyL
    rcases h.idle y hyL with hq | hidle
    · exact .inl (hqueue y hy hq)
    · by_cases hold : old ∈ node.inputs
      · exact .inl (husers y hy node hn hold)
      · obtain ⟨node', hn', hop, hty, -, hinputs⟩ :=
          inputs_replace_of_registered hr hne h.registered hn hlive hphi
        have hsame : node'.inputs = node.inputs :=
          hinputs.trans (congrArg Node.inputs (Node.rename_of_not_mem hold new))
        exact .inr (hidle.keep (keeps_replace hr) hn hn' hop hty hsame htyped)
  used hc := (h.used hc).replace h.registered hr hne
  kept {c} hc := by
    obtain ⟨hlive, hnone⟩ := h.kept hc
    refine ⟨(isLive_replace hr hne).2 ⟨hlive, ?_⟩, (keeps_replace hr).at hnone⟩
    rintro rfl
    obtain ⟨node, hn, hfolds⟩ := hfolds
    obtain ⟨other, ho, hnone⟩ := hnone
    cases hn.symm.trans ho
    exact hfolds hnone

theorem replace_other (hr : g.replace old new = .ok g')
    (hfolds : g.At old fun op _ => foldsFor op ≠ []) (hold : old ∉ L) :
    ∃ x' L', L'.Sublist L ∧ Tracks R V e uses stays g' queue x' L' := by
  by_cases hne : old = new
  · obtain rfl := replace_self hr hne
    exact ⟨x, L, List.Sublist.refl L, h⟩
  have hconstant : g.At old fun op _ => op ≠ .constant := hfolds.mono fun op _ hop hconst => by
    rw [hconst] at hop
    exact hop rfl
  have hleaf : ∀ f, V old = some f → g.isLive old = true → Computes R V g' [new] [f] [] := by
    intro f hf hlive
    simp [h.gone.none_of_isLive hlive] at hf
  obtain ⟨L', hsub, hcomputes⟩ := h.computes.replace hr hne h.registered (fun _ => hconstant) hleaf
    fun hmem => absurd hmem hold
  refine ⟨_, L', hsub, h.replace hr hne hfolds hcomputes hsub (fun _ _ hq => hq) ?_⟩
  -- No operator of the value uses a node that is none.
  intro y hy node hn hinput
  obtain ⟨other, f, args, L'', ho, -, -, hinputs, -, hsub'⟩ :=
    h.computes.operates_of_mem (hsub.subset hy)
  cases hn.symm.trans ho
  rcases hinputs.mem_cases hinput with ⟨hV, hlive⟩ | ⟨other, ho, hconst, -⟩ | hmem
  · exact absurd (h.gone.none_of_isLive hlive) hV
  · obtain ⟨other', ho', hnot⟩ := hconstant
    cases ho.symm.trans ho'
    exact absurd hconst hnot
  · exact absurd (hsub'.subset (List.mem_cons_of_mem _ hmem)) hold

theorem addsConstant (hd : g.Dense) (ha : g.AddsConstant g') :
    Tracks R V e uses stays g' queue x L := by
  cases ha with
  | none => exact h
  | constant hc => exact h.extend (.create hd hc) (h.registered.create hd.freeSlots hc)
  | dead hc =>
    have hadded := h.extend (.create hd hc) (h.registered.create hd.freeSlots hc)
    refine hadded.extend ?_ hadded.registered
    exact ⟨fun hn => ⟨_, hn⟩, fun _ => rfl, fun _ => rfl, fun _ => rfl⟩

theorem not_isPhi_of_mem (hy : y ∈ L) : ¬ g.IsPhi y := by
  rintro ⟨other, ho, hphi⟩
  obtain ⟨node, f, args, L', hn, -, -, -, hop, -⟩ := h.computes.operates_of_mem hy
  cases hn.symm.trans ho
  rw [hphi] at hop
  contradiction

theorem selectCase {position : Nat} {phis : List NodeId} (hphis : ∀ phi ∈ phis, g.IsPhi phi)
    (hs : selectCase position phis g = .ok g') :
    ∃ x' L', L'.Sublist L ∧ Tracks R V e uses stays g' queue x' L' := by
  induction phis generalizing g x L with
  | nil =>
    cases hs
    exact ⟨x, L, List.Sublist.refl L, h⟩
  | cons phi phis ih =>
    obtain ⟨case, -, hs⟩ := bind_eq_ok_iff.1 hs
    obtain ⟨g1, hr, hs⟩ := bind_eq_ok_iff.1 hs
    rw [List.forall_mem_cons] at hphis
    have hfolds : g.At phi fun op _ => foldsFor op ≠ [] := hphis.1.mono fun op _ hop => by
      rw [hop]
      decide
    obtain ⟨x1, L1, hsub1, h1⟩ :=
      h.replace_other hr hfolds fun hmem => h.not_isPhi_of_mem hmem hphis.1
    obtain ⟨x2, L2, hsub2, h2⟩ := ih h1 (fun phi' hphi' => (keeps_replace hr).at (hphis.2 phi' hphi')) hs
    exact ⟨x2, L2, hsub2.trans hsub1, h2⟩

theorem run (hw : g.WellFormed) {fold : Fold} {r : Option NodeId × Graph}
    (hr : fold.run g id = .ok r) :
    ∃ x' L', L'.Sublist L ∧ Tracks R V e uses stays r.2 queue x' L' := by
  rcases run_adds hr with hadds | ⟨-, node, only, phis, -, -, -, hphis, hselect⟩
  · exact ⟨x, L, List.Sublist.refl L, h.addsConstant hw.dense hadds⟩
  · exact h.selectCase (fun phi hphi => mem_phisOf hw hphis hphi) hselect

theorem simplifyBy_other (hs : Sound F g) (hid : g.At id fun op _ => foldsFor op ≠ [])
    (hnot : id ∉ L) {folds : List Fold} {found : Option NodeId}
    (hr : simplifyBy id folds g = .ok (found, g')) :
    ∃ x' L', L'.Sublist L ∧ Tracks R V e uses stays g' queue x' L' := by
  induction folds generalizing g x L with
  | nil =>
    cases Except.ok.inj hr
    exact ⟨x, L, List.Sublist.refl L, h⟩
  | cons fold folds ih =>
    obtain ⟨⟨found1, g1⟩, hrun, hr⟩ := bind_eq_ok_iff.1 hr
    obtain ⟨x1, L1, hsub1, h1⟩ := h.run hs.wellFormed hrun
    obtain ⟨node, hn⟩ := hid.has
    have hleaves := ((fold_yields fold hs hn).result hrun).leaves
    have hid1 := hleaves.keeps.at hid
    have hnot1 : id ∉ L1 := fun hmem => hnot (hsub1.subset hmem)
    have hnext : simplifyBy id folds g1 = .ok (found, g') →
        ∃ x' L', L'.Sublist L ∧ Tracks R V e uses stays g' queue x' L' := by
      intro hr
      obtain ⟨x2, L2, hsub2, h2⟩ := ih h1 hleaves.sound hid1 hnot1 hr
      exact ⟨x2, L2, hsub2.trans hsub1, h2⟩
    cases found1 with
    | none => exact hnext hr
    | some new =>
      dsimp only at hr
      split at hr
      · exact hnext hr
      · obtain ⟨g2, hreplace, hr⟩ := bind_eq_ok_iff.1 hr
        cases Except.ok.inj hr
        obtain ⟨x2, L2, hsub2, h2⟩ := h1.replace_other hreplace hid1 hnot1
        exact ⟨x2, L2, hsub2.trans hsub1, h2⟩

end

theorem skip (h : Tracks R V e uses stays g (id :: queue) x L)
    (hlive : g.isLive id = false) : Tracks R V e uses stays g queue x L := by
  refine h.weaken fun y hy hmem => (List.mem_cons.1 hmem).resolve_left fun heq => ?_
  simp [← heq, h.computes.isLive_of_mem hy] at hlive

/-! ### Operators of the value -/

theorem replace_listed (h : Tracks R V e uses stays g queue x L)
    (hr : g.replace id new = .ok g') (hne : new ≠ id) (hid : id ∈ L)
    (hnew : ∀ node f args L0 L', g.get? id = some node → R node.ty f →
      Computes R V g node.inputs args L0 → Op.Operates node.ty node.op args f →
      Computes R V g' (node.inputs.map fun y => if y = id then new else y) args L' →
      ∃ L'', L''.Sublist (id :: L') ∧ Computes R V g' [new] [f] L'')
    (hqueue : ∀ y ∈ L, y ≠ id → y ∈ queue → y ∈ queue')
    (husers : ∀ y node, g'.get? y = some node → node.replaced = false → new ∈ node.inputs →
      y ∈ queue') : ∃ x' L', Tracks R V e uses stays g' queue' x' L' := by
  obtain ⟨node, f, args, L0, hn, hVid, -, -, hop, -⟩ := h.computes.operates_of_mem hid
  have hfolds : g.At id fun op _ => foldsFor op ≠ [] :=
    ⟨node, hn, fun hnil => List.cons_ne_nil _ _ ((foldsFor_operates hop).symm.trans hnil)⟩
  have hconstant : V id = none → g.At id fun op _ => op ≠ .constant := by
    refine fun _ => ⟨node, hn, fun hconst => ?_⟩
    rw [hconst] at hop
    contradiction
  have hleaf : ∀ f, V id = some f → g.isLive id = true → Computes R V g' [new] [f] [] := by
    intro f hf
    simp [hVid] at hf
  obtain ⟨L', hsub, hcomputes⟩ :=
    h.computes.replace hr hne.symm h.registered hconstant hleaf fun _ => hnew
  have hother : ∀ y ∈ L', y ≠ id := fun y hy =>
    ((isLive_replace hr hne.symm).1 (hcomputes.isLive_of_mem hy)).2
  refine ⟨_, L', h.replace hr hne.symm hfolds hcomputes hsub ?_ ?_⟩
  · exact fun y hy => hqueue y (hsub.subset hy) (hother y hy)
  · intro y hy other ho hinput
    obtain ⟨node, ts, hn, hlive, hphi, -⟩ := h.computes.typed_of_mem (hsub.subset hy)
    cases hn.symm.trans ho
    obtain ⟨node', hn', -, -, hmark, hinputs⟩ :=
      inputs_replace_of_registered hr hne.symm h.registered hn hlive hphi
    refine husers y node' hn' ?_ ?_
    · rw [hmark]
      simp [hother y hy]
    · rw [hinputs]
      exact List.mem_map.2 ⟨id, hinput, if_pos rfl⟩

theorem replace_member (hR : Reading R) (h : Tracks R V e uses stays g queue x L) (hid : id ∈ L)
    {built : Node} {index : Nat} {z : NodeId} (hn : g.get? id = some node)
    (hproj : node.op = .projection index) (hz : node.inputs = [z]) (hbuilt : g.get? z = some built)
    (hbuild : built.op = .build) (hmember : built.inputs[index]? = some new) (hne : new ≠ id)
    (hr : g.replace id new = .ok g') (hqueue : ∀ y ∈ L, y ≠ id → y ∈ queue → y ∈ queue')
    (husers : ∀ y node, g'.get? y = some node → node.replaced = false → new ∈ node.inputs →
      y ∈ queue') : ∃ x' L', Tracks R V e uses stays g' queue' x' L' := by
  refine h.replace_listed hr hne hid ?_ hqueue husers
  intro other f args L0 L' ho hread hinputs hop hcomputes
  cases hn.symm.trans ho
  have hzid : z ≠ id := by
    rintro rfl
    cases hn.symm.trans hbuilt
    simp [hproj] at hbuild
  rw [hz] at hinputs hcomputes
  rw [List.map_singleton, if_neg hzid] at hcomputes
  cases hinputs.reads with | @cons _ a _ args hreads hrest =>
  cases hrest
  obtain rfl : f = a.element index := by
    rw [hproj] at hop
    cases hop
    rfl
  obtain ⟨other, ho, hlive, -⟩ := hreads
  cases hbuilt.symm.trans ho
  have hphi : built.isMemoryPhi = false := by
    unfold Node.isMemoryPhi
    rw [hbuild]
    rfl
  obtain ⟨built', hbuilt', hop', -, -, hinputs'⟩ :=
    inputs_replace_of_registered hr hne.symm h.registered hbuilt hlive hphi
  have hVz : V z = none := h.gone.none_of_isLive (isLive_iff.2 ⟨built, hbuilt, hlive⟩)
  obtain ⟨new', L'', hnew', hcomputes', hsub⟩ := hcomputes.member hR hVz hbuilt'
    (hop'.trans hbuild) (isError_of_isDatum (hR.isDatum hread))
  rw [hinputs', List.getElem?_map, hmember] at hnew'
  obtain rfl : new = new' := (if_neg hne).symm.trans (Option.some.inj hnew')
  exact ⟨L'', hsub.cons id, hcomputes'⟩

section

variable (hR : Reading R) (h : Tracks R V e uses stays g queue x L) (hd : g.Dense) (hid : id ∈ L)
  (hn : g.get? id = some node) (hinputs : Computes R V g node.inputs args L0)
  (hop : Op.Operates node.ty node.op args f)
include hR h hd hid hn hinputs hop

theorem replace_constant (hconst : f.isConstant = true) (hne : g.nextId ≠ id)
    (hr : (g.added .constant f []).replace id g.nextId = .ok g')
    (hqueue : ∀ y ∈ L, y ≠ id → y ∈ queue → y ∈ queue')
    (husers : ∀ y node, g'.get? y = some node → node.replaced = false → g.nextId ∈ node.inputs → y ∈ queue') :
    ∃ x' L', Tracks R V e uses stays g' queue' x' L' := by
  have hc : g.create .constant f [] = .ok (g.nextId, g.added .constant f []) := create_constant hd f
  have hext : Extends g (g.added .constant f []) := .create hd hc
  refine (h.extend hext (h.registered.create hd.freeSlots hc)).replace_listed hr hne hid ?_ hqueue husers
  intro other f' args' L1 L' ho hread hinputs' hop' _
  obtain ⟨us, hus⟩ := hext.node hn
  cases hus.symm.trans ho
  obtain rfl := (hinputs.extend hext).unique hR hinputs'
  obtain rfl := hop.unique hop'
  have hV : V g.nextId = none := by
    cases hV : V g.nextId with
    | none => rfl
    | some v => exact absurd rfl (hd.ne_nextId (h.gone _ _ hV).1)
  exact ⟨[], List.nil_sublist _, .of_added hR hV (hR.isDatum hread) hconst hne hr⟩

theorem fold {g1 : Graph} (hfold : FoldsTo g id f new g1) (hne : new ≠ id)
    (hr : g1.replace id new = .ok g') (hqueue : ∀ y ∈ L, y ≠ id → y ∈ queue → y ∈ queue')
    (husers : ∀ y node, g'.get? y = some node → node.replaced = false → new ∈ node.inputs → y ∈ queue') :
    ∃ x' L', Tracks R V e uses stays g' queue' x' L' := by
  cases hfold with
  | member ho hproj hz hbuilt hbuild hmember =>
    exact h.replace_member hR hid ho hproj hz hbuilt hbuild hmember hne hr hqueue husers
  | constant hconst =>
    exact h.replace_constant hR hd hid hn hinputs hop hconst hne hr hqueue husers

end

/-- A node is taken from the worklist. The users of a node that stands for it have to be put on it. -/
theorem step (hR : Reading R) (h : Tracks R V e uses stays g (id :: queue) x L) (hs : Sound F g)
    (hn : g.get? id = some node) {found : Option NodeId} (hr : g.simplify id = .ok (found, g'))
    (hqueue : ∀ y ∈ queue, y ∈ queue')
    (husers : ∀ new, found = some new → ∀ y node, g'.get? y = some node → node.replaced = false →
      new ∈ node.inputs → y ∈ queue') :
    ∃ x' L', Tracks R V e uses stays g' queue' x' L' := by
  have hrest : ∀ y, y ≠ id → y ∈ id :: queue → y ∈ queue' := fun y hne hy =>
    hqueue y ((List.mem_cons.1 hy).resolve_left hne)
  by_cases hid : id ∈ L
  · rcases simplify_listed hR hs.wellFormed.dense h.computes h.nodup h.gone hid hr with
      ⟨rfl, rfl, hidle⟩ | ⟨node, f, args, L0, new, g1, hn, hinputs, hop, hfold, rfl, hne, hreplace⟩
    · refine ⟨x, L, { h with idle := fun y hy => ?_ }⟩
      by_cases hy' : y = id
      · exact .inr (hy' ▸ hidle)
      · exact (h.idle y hy).imp_left (hrest y hy')
    · exact h.fold hR hs.wellFormed.dense hid hn hinputs hop hfold hne hreplace
        (fun y _ => hrest y) (husers new rfl)
  · have hother : ∀ y ∈ L, y ∈ id :: queue → y ∈ queue' := fun y hy =>
      hrest y fun heq => hid (heq ▸ hy)
    unfold simplify at hr
    rw [op_of_get? hn] at hr
    change simplifyBy id (foldsFor node.op) g = _ at hr
    by_cases hfolds : foldsFor node.op = []
    · rw [hfolds] at hr
      cases Except.ok.inj hr
      exact ⟨x, L, h.weaken hother⟩
    · obtain ⟨x', L', hsub, h'⟩ := h.simplifyBy_other hs ⟨node, hn, hfolds⟩ hid hr
      exact ⟨x', L', h'.weaken fun y hy => hother y (hsub.subset hy)⟩

end Tracks

/-- A node is taken from the worklist, and the users of what took its place are put on it. -/
theorem Tracks.simplify (hR : Reading R) (h : Tracks R V e uses stays g (id :: queue) x L)
    (hs : Sound F g) (hn : g.get? id = some node) {found : Option NodeId}
    (hr : g.simplify id = .ok (found, g')) (hqueue : queue ⊆ queue')
    (husers : ∀ new us, found = some new → g'.users new = .ok us → ∀ u ∈ us, u.node ∈ queue') :
    ∃ x' L', Tracks R V e uses stays g' queue' x' L' := by
  have hreg : g'.Registered := by
    obtain ⟨x', L', h'⟩ := h.step hR hs hn hr (fun y hy => List.mem_append_left g'.ids hy)
      fun _ _ y other hy _ _ => List.mem_append_right queue (mem_ids hy)
    exact h'.registered
  refine h.step hR hs hn hr (fun y hy => hqueue hy) ?_
  intro new heq y other hy hlive hinput
  have hrefers : g'.Refers y (.value 0) new := ⟨other, hy, hinput⟩
  obtain ⟨-, -, target, htarget, -⟩ := hreg y _ new hrefers
  obtain ⟨us, hus⟩ := users_ok ⟨target, htarget⟩
  obtain ⟨edge, -, hmem⟩ := hreg.exists_user hus (isLive_iff.2 ⟨other, hy, hlive⟩) hrefers
  exact husers new us heq hus _ hmem

/-- When a simplification is over, what takes a value that constants compute takes a constant, and
nodes that no fold looks at are still there. -/
theorem simplifyAll_settles (hR : Reading R) (h : Computes R V g [x] [e] L) (hnodup : L.Nodup)
    (hs : Sound F g) (hreg : g.Registered) (hgone : Gone V g) (he : e.isConstant = true) {n : Nat}
    (hr : g.simplifyAll = .ok (n, g')) :
    (∀ c p, g.Uses c p x → g'.isLive c = true →
      ∃ y, g'.Takes c p y ∧ g'.At y fun op ty => op = .constant ∧ ty = e) ∧
    ∀ c, g.isLive c = true → (g.At c fun op _ => foldsFor op = []) → g'.isLive c = true := by
  have htracks : Tracks R V e (fun c p => g.Uses c p x)
      (fun c => g.isLive c = true ∧ g.At c fun op _ => foldsFor op = []) g g.liveIds x L :=
    ⟨hreg, hgone, h, hnodup, fun y hy => .inl (mem_liveIds (h.isLive_of_mem hy)), id, id⟩
  obtain ⟨-, x', L', htracks'⟩ := simplifyQueue_induct
    (P := fun queue g' => Sound F g' ∧ ∃ x' L', Tracks R V e (fun c p => g.Uses c p x)
      (fun c => g.isLive c = true ∧ g.At c fun op _ => foldsFor op = []) g' queue x' L')
    (fun ⟨hs, x', L', h⟩ hlive => ⟨hs, x', L', h.skip hlive⟩)
    (fun ⟨hs, x', L', h⟩ hlive hn _ hr hqueue husers =>
      ⟨((simplify_yields hs hlive hn).result hr).leaves.sound,
        h.simplify hR hs hn hr hqueue husers⟩)
    ⟨hs, x, L, htracks⟩ (fun _ => mem_liveIds_of_queued) (fun _ _ => trivial) hr
  have hidle : ∀ y ∈ L', g'.Idle y := fun y hy =>
    (htracks'.idle y hy).resolve_left List.not_mem_nil
  cases htracks'.computes.rests hR (fun y f hf => (htracks'.gone y f hf).2) hidle with | cons hrests _ =>
  refine ⟨fun c p hc hlive => ?_, fun c hlive hfolds => (htracks'.kept ⟨hlive, hfolds⟩).1⟩
  exact ⟨x', (htracks'.used hc).takes hlive, hrests.constant he⟩

end Graph

end SeaOfNodes
