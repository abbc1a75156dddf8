import SeaOfNodes.Proofs.Graph.Computes
import SeaOfNodes.Proofs.Graph.Persist
import SeaOfNodes.Proofs.Pass.Invariant

/-!
Simplification evaluates what is computed from constants. An operator that is not on the worklist has
nothing left to fold; so when the worklist is empty, a node that computes a constant is that constant.
-/
namespace SeaOfNodes

open SeaOfNodes.Ty

namespace Graph

variable {R : Ty → Ty → Prop} {V : NodeId → Option Ty} {g g' : Graph} {x y id old new : NodeId}
  {node node' : Node} {xs L : List NodeId} {t e : Ty} {ts us es args : List Ty} {fold : Fold}
  {folds : List Fold} {found : Option NodeId} {g1 : Graph} {op : CompareOp} {z : NodeId}

/-! ### Operators with nothing to fold -/

theorem Typed.keeps (h : g.Typed xs ts) (hkeeps : Keeps g g') : g'.Typed xs ts := by
  refine h.imp fun x t hx => ?_
  obtain ⟨node, hn, rfl⟩ := ty_eq_ok_iff.1 hx
  obtain ⟨node', hn', -, hty⟩ := hkeeps.node hn
  exact ty_eq_ok_iff.2 ⟨node', hn', hty⟩

theorem Typed.unique (h : g.Typed xs ts) (h' : g.Typed xs us) : ts = us := by
  have hmapM := h.mapM
  rw [h'.mapM] at hmapM
  exact (Except.ok.inj hmapM).symm

/-- An operator that has no constant to stand for it and that takes no member of a new aggregate. -/
structure Idle (g : Graph) (y : NodeId) : Prop where
  vague : ∀ {node ts t}, g.get? y = some node → g.Typed node.inputs ts →
    Op.Operates node.ty node.op ts t → t.isConstant = false
  apart : ∀ {node index z}, g.get? y = some node → node.op = .projection index → z ∈ node.inputs →
    g.At z fun op _ => op ≠ .build

theorem Idle.keep (h : g.Idle y) (hkeeps : Keeps g g') (hn : g.get? y = some node)
    (hn' : g'.get? y = some node') (hop : node'.op = node.op) (hty : node'.ty = node.ty)
    (hinputs : node'.inputs = node.inputs) (htyped : g.Typed node.inputs ts) : g'.Idle y where
  vague := by
    intro other us t hother hus ht
    cases hother.symm.trans hn'
    rw [hop, hty] at ht
    rw [hinputs] at hus
    rw [hus.unique (htyped.keeps hkeeps)] at ht
    exact h.vague hn htyped ht
  apart := by
    intro other index z hother hproj hz
    cases hother.symm.trans hn'
    exact hkeeps.at (h.apart hn (hop ▸ hproj) (hinputs ▸ hz))

/-- A node that has come to its end: a constant, or a new aggregate of which not everything is
known. -/
structure Rests (g : Graph) (x : NodeId) (e : Ty) : Prop where
  constant : e.isConstant = true → g.At x fun op ty => op = .constant ∧ ty = e
  build : e.isConstant = false → e.isAggregate = true → g.At x fun op _ => op = .build

/-- Of operands at their end everything is known, but for the members of aggregates. -/
theorem eq_of_rests (hR : Reading R) (htyped : g.Typed xs ts) (hreads : List.Forall₂ R ts args)
    (hrests : List.Forall₂ g.Rests xs args)
    (hargs : ∀ a ∈ args, a.isConstant = true ∨ a.isAggregate = false) : ts = args := by
  induction htyped generalizing args with
  | nil =>
    cases hreads
    rfl
  | @cons x t xs ts ht _ ih =>
    cases hreads with | @cons _ a _ args hread hreads =>
    cases hrests with | cons hrest hrests =>
    rw [List.forall_mem_cons] at hargs
    rw [ih hreads hrests hargs.2]
    have heq : t = a := by
      cases hconst : a.isConstant with
      | true =>
        obtain ⟨node, hn, -, hty⟩ := hrest.constant hconst
        obtain ⟨other, ho, rfl⟩ := ty_eq_ok_iff.1 ht
        cases hn.symm.trans ho
        exact hty
      | false =>
        exact hR.eq_of_scalar hread hconst (hargs.1.resolve_left (Bool.eq_false_iff.1 hconst))
    rw [heq]

theorem rests_of_scalar (hidle : g.Idle x) (hn : g.get? x = some node)
    (htyped : g.Typed node.inputs args) (hop : Op.Operates node.ty node.op args e)
    (hscalar : e.isAggregate = false) : g.Rests x e := by
  have hconst := hidle.vague hn htyped hop
  constructor
  · intro h
    simp [hconst] at h
  · intro _ h
    simp [hscalar] at h

theorem rests_of_idle (hR : Reading R) (hidle : g.Idle x) (hn : g.get? x = some node)
    (hread : R node.ty e) (htyped : g.Typed node.inputs ts) (hreads : List.Forall₂ R ts args)
    (hop : Op.Operates node.ty node.op args e) (hrests : List.Forall₂ g.Rests node.inputs args) :
    g.Rests x e := by
  have hdatum : ∀ a ∈ args, a.isDatum = true := isDatum_of_forall₂ hR.isDatum hreads
  have he : e.isError = false := isError_of_isDatum (hR.isDatum hread)
  have heq := eq_of_rests hR htyped hreads hrests
  have hscalar := @rests_of_scalar g x node e args hidle hn
  have hvague := @Idle.vague g x hidle node ts
  have hapart := @Idle.apart g x hidle node
  obtain ⟨op, ty, inputs, users, replaced⟩ := node
  cases hop with
  | binary op a b =>
    obtain ⟨ha, hb, hr⟩ := isAggregate_of_binary he
    exact hscalar (heq (by simp [ha, hb]) ▸ htyped) (.binary op a b) hr
  | compare op a b =>
    obtain ⟨ha, hb, hr⟩ := isAggregate_of_compare he
    exact hscalar (heq (by simp [ha, hb]) ▸ htyped) (.compare op a b) hr
  | unary op a =>
    obtain ⟨ha, hr⟩ := (turns_unary he).isAggregate
    exact hscalar (heq (by simp [ha]) ▸ htyped) (.unary op a) hr
  | cast a ha =>
    exact hscalar (heq (by simp [ha]) ▸ htyped) (.cast a ha)
      (isAggregate_cast (hdatum a (by simp)) ha he)
  | build _ haggregate hlength =>
    refine ⟨?_, fun _ _ => ⟨_, hn, rfl⟩⟩
    intro hconst
    have hmembers := members_withMembers haggregate
      (isErrorFree_of_isDatum (hR.isDatum_left hread)) hlength
    have hconsts := (isConstant_iff_members (isAggregate_withMembers haggregate args)).1 hconst
    rw [hmembers] at hconsts
    obtain rfl := heq fun a ha => .inl (hconsts a ha)
    simp [hvague hn htyped (.build ts haggregate hlength)] at hconst
  | projection index a =>
    have hmember := List.mem_of_getElem?
      (getElem?_members_of_element (isError_of_isDatum (hdatum a (by simp))) he)
    have haggregate := isAggregate_of_mem_members hmember
    cases hconst : a.isConstant with
    | true =>
      -- A member of a constant is a constant.
      obtain rfl := heq (by simp [hconst])
      have hnot := hvague hn htyped (.projection index a)
      simp [(isConstant_iff_members haggregate).1 hconst _ hmember] at hnot
    | false =>
      cases hrests with | cons hrest hrests =>
      obtain ⟨built, hbuilt, hop⟩ := hrest.build hconst haggregate
      obtain ⟨other, hother, hnot⟩ := hapart hn rfl List.mem_cons_self
      cases hbuilt.symm.trans hother
      exact absurd hop hnot

theorem Computes.rests (hR : Reading R) (h : Computes R V g xs es L)
    (hV : ∀ y e, V y = some e → g.isLive y = false) (hidle : ∀ y ∈ L, g.Idle y) :
    List.Forall₂ g.Rests xs es := by
  induction h with
  | nil => exact .nil
  | leaf hleaf hn hlive _ _ _ =>
    have hdead := hV _ _ hleaf
    simp [isLive_iff.2 ⟨_, hn, hlive⟩] at hdead
  | constant _ hn _ hread hop hconst _ ih =>
    have heq := hR.eq_of_isConstant hread hconst
    refine .cons ⟨fun _ => ⟨_, hn, hop, heq⟩, fun hnot => ?_⟩ (ih hidle)
    simp [← heq, hconst] at hnot
  | operator _ hn _ hread hinputs hop _ ih' ih =>
    obtain ⟨hx, hidle⟩ := List.forall_mem_cons.1 hidle
    obtain ⟨hidle', hidle⟩ := List.forall_mem_append.1 hidle
    obtain ⟨ts, htyped, hreads⟩ := hinputs.typed
    exact .cons (rests_of_idle hR hx hn hread htyped hreads hop (ih' hidle')) (ih hidle)

/-! ### Folding an operator -/

theorem isError_of_isConstant (h : t.isConstant = true) : t.isError = false := by
  cases t <;> first | rfl | contradiction

section

variable (hn : g.get? id = some node)
include hn

theorem foldConstant_eq (htyped : g.Typed node.inputs ts) (hop : Op.Operates node.ty node.op ts t) :
    g.foldConstant id = if t.isConstant then g.foldTo t else g.keep := by
  have htest : (!t.isError && t.isConstant) = t.isConstant := by
    cases h : t.isConstant with
    | true => rw [isError_of_isConstant h]; rfl
    | false => rw [Bool.and_false]
  unfold foldConstant
  rw [operatorType?_eq hn htyped hop]
  change (if !t.isError && t.isConstant then g.foldTo t else g.keep) = _
  rw [htest]

theorem foldOperator_projection {index : Nat} {built : Node} (hop : node.op = .projection index)
    (hinput : node.inputs[0]? = some z) (hbuilt : g.get? z = some built) :
    g.foldOperator id =
      if built.op = .build then pure (built.inputs[index]?, g) else g.foldConstant id := by
  unfold foldOperator
  rw [op_of_get? hn, hop]
  rw [input_of_getElem? hn hinput]
  change (g.node z >>= fun built =>
    if built.op = .build then pure (built.inputs[index]?, g) else g.foldConstant id) = _
  rw [node_of_get? hbuilt]
  rfl

theorem foldOperator_build {index : Nat} {built : Node} (hop : node.op = .projection index)
    (hinputs : node.inputs = [z]) (hbuilt : g.get? z = some built) (hbuild : built.op = .build) :
    g.foldOperator id = .ok (built.inputs[index]?, g) :=
  (foldOperator_projection hn hop (hinputs ▸ rfl) hbuilt).trans (if_pos hbuild)

theorem foldOperator_apart (htyped : g.Typed node.inputs ts)
    (hop : Op.Operates node.ty node.op ts t)
    (hapart : ∀ index z, node.op = .projection index → z ∈ node.inputs → g.At z fun op _ => op ≠ .build) :
    g.foldOperator id = g.foldConstant id := by
  obtain ⟨op, ty, inputs, users, replaced⟩ := node
  cases hop with
  | projection index a =>
    cases htyped with | @cons z _ xs _ hz htyped =>
    obtain ⟨built, hbuilt, hnot⟩ := hapart index z rfl List.mem_cons_self
    exact (foldOperator_projection hn rfl rfl hbuilt).trans (if_neg hnot)
  | _ =>
    unfold foldOperator
    rw [op_of_get? hn]
    rfl

theorem foldComparison_eq {lhs rhs : NodeId} (hop : node.op = .compare op)
    (hinputs : node.inputs = [lhs, rhs]) (h : lhs = rhs → g.At lhs fun _ ty => ty.isFloat = true) :
    g.foldComparison id = g.keep := by
  unfold foldComparison
  rw [op_of_get? hn, hop]
  have hlhs : g.input id 0 = .ok lhs := input_of_getElem? hn (hinputs ▸ rfl)
  have hrhs : g.input id 1 = .ok rhs := input_of_getElem? hn (hinputs ▸ rfl)
  rw [hlhs, hrhs]
  change (if lhs ≠ rhs then g.keep else g.ty lhs >>= fun ty => if ty.isFloat then g.keep
    else g.foldTo (.bool (.const (op.holds .eq)))) = _
  by_cases hsame : lhs = rhs
  · obtain ⟨other, ho, hfloat⟩ := h hsame
    rw [if_neg (not_not_intro hsame), ty_of_get? ho]
    exact if_pos hfloat
  · exact if_pos hsame

end

theorem simplifyBy_found (hrun : fold.run g id = .ok (some new, g1)) (hne : new ≠ id)
    (hlive : g1.isLive id = true) (hs : simplifyBy id (fold :: folds) g = .ok (found, g')) :
    found = some new ∧ g1.replace id new = .ok g' := by
  obtain ⟨⟨found1, g2⟩, hrun', hs⟩ := bind_eq_ok_iff.1 hs
  cases Except.ok.inj (hrun.symm.trans hrun')
  have htest : ¬ (new = id ∨ g1.isLive id = false) := by
    rw [hlive]
    simp [hne]
  dsimp only at hs
  rw [if_neg htest] at hs
  obtain ⟨g2, hr, hs⟩ := bind_eq_ok_iff.1 hs
  cases Except.ok.inj hs
  exact ⟨rfl, hr⟩

theorem simplifyBy_kept (hrun : fold.run g id = .ok (none, g1)) :
    simplifyBy id (fold :: folds) g = simplifyBy id folds g1 := by
  rw [simplifyBy, hrun]
  rfl

theorem foldsFor_operates {op : Op} {ty : Ty} (h : Op.Operates ty op args e) :
    foldsFor op = .operator :: if op.kind = .compare then [.comparison] else [] := by
  cases h <;> rfl

/-! ### Operators that are looked at -/

/-- Leaves whose values are given are there and have been replaced. -/
def Gone (V : NodeId → Option Ty) (g : Graph) : Prop :=
  ∀ y e, V y = some e → g.Has y ∧ g.isLive y = false

theorem Gone.none_of_isLive (h : Gone V g) (hlive : g.isLive x = true) : V x = none := by
  cases hx : V x with
  | none => rfl
  | some e =>
    simp [(h x e hx).2] at hlive

theorem Computes.at_of_twice {a b : Ty} (h : Computes R V g [x, x] [a, b] L) (hnodup : L.Nodup)
    (hV : Gone V g) : g.At x fun op ty => op = .constant ∧ ty.isConstant = true := by
  cases h with
  | leaf hleaf hn hlive _ _ =>
    simp [hV.none_of_isLive (isLive_iff.2 ⟨_, hn, hlive⟩)] at hleaf
  | constant _ hn _ _ hop hconst _ => exact ⟨_, hn, hop, hconst⟩
  | operator _ _ _ _ _ _ hrest =>
    rcases hrest.mem_cases List.mem_cons_self with ⟨hleaf, hlive⟩ | hconst | hmem
    · exact absurd (hV.none_of_isLive hlive) hleaf
    · exact hconst
    · exact absurd (List.mem_append_right _ hmem) (List.nodup_cons.1 hnodup).1

theorem isConstant_compare_twice {a b : Ty} (hR : Reading R) (h : Computes R V g [z, z] [a, b] L)
    (hnodup : L.Nodup) (hV : Gone V g) (htyped : g.Typed [z, z] ts)
    (hop : Op.Operates t (.compare op) ts e) (he : e.isError = false)
    (hfloat : ¬ g.At z fun _ ty => ty.isFloat = true) : e.isConstant = true := by
  obtain ⟨node, hn, -, hconst⟩ := h.at_of_twice hnodup hV
  cases hop with
  | compare _ c d =>
    cases htyped with | cons hc htyped =>
    cases htyped with | cons hd _ =>
    rw [ty_of_get? hn] at hc hd
    cases hc
    cases hd
    cases h.reads with | cons hz _ =>
    obtain ⟨other, ho, -, hread⟩ := hz
    cases hn.symm.trans ho
    have hnot : node.ty.isFloat = false := Bool.eq_false_iff.2 fun h => hfloat ⟨node, hn, h⟩
    rw [compare_self (hR.isDatum_left hread) hconst hnot he]
    rfl

theorem foldComparison_keep (hR : Reading R) (hn : g.get? id = some node)
    (hop : node.op = .compare op) (hinputs : Computes R V g node.inputs args L) (hnodup : L.Nodup)
    (hV : Gone V g) (htyped : g.Typed node.inputs ts) (hopt : Op.Operates node.ty node.op ts t)
    (ht : t.isError = false) (hconst : t.isConstant = false) : g.foldComparison id = g.keep := by
  rw [hop] at hopt
  have hlength : ts.length = 2 := by
    cases hopt
    rfl
  obtain ⟨lhs, rhs, hpair⟩ := List.length_eq_two.1 (htyped.length_eq.trans hlength)
  obtain ⟨a, b, rfl⟩ := List.length_eq_two.1
    (hinputs.reads.length_eq.symm.trans (htyped.length_eq.trans hlength))
  rw [hpair] at htyped hinputs
  refine foldComparison_eq hn hop hpair ?_
  intro hsame
  subst hsame
  by_contra hfloat
  simp [isConstant_compare_twice hR hinputs hnodup hV htyped hopt ht hfloat] at hconst

/-- What stands for an operator that is folded: a member of a new aggregate, or a new constant. -/
inductive FoldsTo (g : Graph) (id : NodeId) (e : Ty) : NodeId → Graph → Prop where
  | member {node built : Node} {index : Nat} {z new : NodeId} : g.get? id = some node →
    node.op = .projection index → node.inputs = [z] → g.get? z = some built → built.op = .build →
    built.inputs[index]? = some new → FoldsTo g id e new g
  | constant : e.isConstant = true → FoldsTo g id e g.nextId (g.added .constant e [])

theorem simplify_listed (hR : Reading R) (hd : g.Dense) (h : Computes R V g xs es L)
    (hnodup : L.Nodup) (hV : Gone V g) (hid : id ∈ L) {found : Option NodeId}
    (hs : g.simplify id = .ok (found, g')) : (found = none ∧ g' = g ∧ g.Idle id) ∨
      ∃ node e args L0 new g1, g.get? id = some node ∧ Computes R V g node.inputs args L0 ∧
        Op.Operates node.ty node.op args e ∧ FoldsTo g id e new g1 ∧ found = some new ∧ new ≠ id ∧
        g1.replace id new = .ok g' := by
  obtain ⟨node, e, args, L', hn, hVid, hread, hinputs, hop, hsub⟩ := h.operates_of_mem hid
  obtain ⟨hmem, hnodup'⟩ := List.nodup_cons.1 (hnodup.sublist hsub)
  obtain ⟨ts, htyped, hreads⟩ := hinputs.typed
  have he : e.isError = false := isError_of_isDatum (hR.isDatum hread)
  obtain ⟨t, hopt, hreadt⟩ := hop.reads hR (isErrorFree_of_isDatum (hR.isDatum_left hread)) hreads he
  have hlive := h.isLive_of_mem hid
  unfold simplify at hs
  rw [op_of_get? hn] at hs
  change simplifyBy id (foldsFor node.op) g = _ at hs
  rw [foldsFor_operates hop] at hs
  by_cases hbuild : ∃ index z built, node.op = .projection index ∧ node.inputs = [z] ∧
      g.get? z = some built ∧ built.op = .build
  · obtain ⟨index, z, built, hproj, hz, hbuilt, hbuild⟩ := hbuild
    obtain ⟨a, rfl, hz', rfl⟩ : ∃ a, args = [a] ∧ Computes R V g [z] [a] L' ∧
        e = a.element index := by
      rw [hproj] at hop
      cases hop with | projection _ a =>
      exact ⟨a, rfl, hz ▸ hinputs, rfl⟩
    have hVz : V z = none := by
      cases hz'.reads with | cons hreads _ =>
      obtain ⟨other, ho, hlive, -⟩ := hreads
      exact hV.none_of_isLive (isLive_iff.2 ⟨other, ho, hlive⟩)
    obtain ⟨new, L'', hnew, hcomputes, hsub'⟩ := hz'.member hR hVz hbuilt hbuild he
    have hne : new ≠ id := by
      rintro rfl
      rcases hcomputes.mem_cases List.mem_cons_self with ⟨hleaf, -⟩ | ⟨other, ho, hop, -⟩ | hmem'
      · exact hleaf hVid
      · cases hn.symm.trans ho
        simp [hproj] at hop
      · exact hmem (hsub'.subset hmem')
    have hrun : Fold.run .operator g id = .ok (some new, g) := by
      rw [← hnew]
      exact foldOperator_build hn hproj hz hbuilt hbuild
    obtain ⟨rfl, hr⟩ := simplifyBy_found hrun hne hlive hs
    exact .inr ⟨node, _, [a], L', new, g, hn, hinputs, hop,
      .member hn hproj hz hbuilt hbuild hnew, rfl, hne, hr⟩
  · have hapart : ∀ index z, node.op = .projection index → z ∈ node.inputs →
        g.At z fun op _ => op ≠ .build := by
      intro index z hproj hz
      obtain ⟨y, hy⟩ : ∃ y, node.inputs = [y] := by
        rw [hproj] at hop
        cases hop with | projection _ a =>
        exact List.length_eq_one_iff.1 hinputs.reads.length_eq
      rw [hy, List.mem_singleton] at hz
      obtain rfl := hz
      rw [hy] at htyped
      cases htyped with | cons hz _ =>
      obtain ⟨built, hbuilt, -⟩ := ty_eq_ok_iff.1 hz
      exact ⟨built, hbuilt, fun hop => hbuild ⟨index, z, built, hproj, hy, hbuilt, hop⟩⟩
    have hrun : Fold.run .operator g id = if t.isConstant then g.foldTo t else g.keep :=
      (foldOperator_apart hn htyped hopt hapart).trans (foldConstant_eq hn htyped hopt)
    cases hconst : t.isConstant with
    | true =>
      obtain rfl := hR.eq_of_isConstant hreadt hconst
      have hne : g.nextId ≠ id := (hd.ne_nextId ⟨node, hn⟩).symm
      have hrun : Fold.run .operator g id = .ok (some g.nextId, g.added .constant t []) := by
        rw [hrun, if_pos hconst]
        unfold foldTo
        rw [create_constant hd]
        rfl
      have hlive' : (g.added .constant t []).isLive id = true := by
        obtain ⟨other, ho, hfalse⟩ := isLive_iff.1 hlive
        exact isLive_iff.2 ⟨other, by rw [get?_added, if_neg hne.symm]; exact ho, hfalse⟩
      obtain ⟨rfl, hr⟩ := simplifyBy_found hrun hne hlive' hs
      exact .inr ⟨node, t, args, L', g.nextId, _, hn, hinputs, hop, .constant hconst, rfl, hne, hr⟩
    | false =>
      rw [hconst] at hrun
      rw [simplifyBy_kept hrun] at hs
      have hidle : g.Idle id := by
        refine ⟨?_, ?_⟩
        · intro other us t' hother hus hop'
          cases hn.symm.trans hother
          obtain rfl := htyped.unique hus
          obtain rfl := hopt.unique hop'
          exact hconst
        · intro other index z hother hproj hz
          cases hn.symm.trans hother
          exact hapart index z hproj hz
      refine .inl ?_
      suffices hkept : (none, g) = (found, g') by
        cases hkept
        exact ⟨rfl, rfl, hidle⟩
      split at hs
      · rename_i hkind
        obtain ⟨op, hcompare⟩ : ∃ op, node.op = .compare op := by
          cases h : node.op <;> rw [h] at hkind <;> first | exact ⟨_, rfl⟩ | contradiction | skip
          rename_i taken
          cases taken <;> contradiction
        have hrun : Fold.run .comparison g id = g.keep :=
          foldComparison_keep hR hn hcompare hinputs hnodup' hV htyped hopt
            (isError_of_isDatum (hR.isDatum_left hreadt)) hconst
        rw [simplifyBy_kept hrun] at hs
        exact Except.ok.inj hs
      · exact Except.ok.inj hs

end Graph

end SeaOfNodes
