import SeaOfNodes.Pass.Fold
import SeaOfNodes.Proofs.Graph.Later
import SeaOfNodes.Proofs.Pass.Valuation
import SeaOfNodes.Proofs.Ty.Reading

/-!
Nodes that compute data from leaves whose values are given. `Computes` follows the inputs of nodes
down to leaves and constants and lists the operators on the way; it is kept while nodes are added,
and when a node takes the place of another that computes the same.
-/
namespace SeaOfNodes

open SeaOfNodes.Ty

/-- What an operator of a graph, with the type `ty`, gives for the types of its operands. Only
scalars are converted. -/
inductive Op.Operates (ty : Ty) : Op → List Ty → Ty → Prop where
  | binary (op : BinaryOp) (a b : Ty) : Op.Operates ty (.binary op) [a, b] (.binary op a b)
  | unary (op : UnaryOp) (a : Ty) : Op.Operates ty (.unary op) [a] (.unary op a)
  | compare (op : CompareOp) (a b : Ty) : Op.Operates ty (.compare op) [a, b] (.compare op a b)
  | cast (a : Ty) : a.isAggregate = false → Op.Operates ty .cast [a] (a.cast ty)
  | build (args : List Ty) : ty.isAggregate = true → args.length = ty.members.length →
    Op.Operates ty .build args (ty.withMembers args)
  | projection (index : Nat) (a : Ty) : Op.Operates ty (.projection index) [a] (a.element index)

theorem Ty.isAggregate_bottom (t : Ty) : t.bottom.isAggregate = t.isAggregate := by
  cases t <;> rfl

theorem Op.Operates.reads {R : Ty → Ty → Prop} {op : Op} {ty e : Ty} {ts args : List Ty}
    (hR : Reading R) (h : Op.Operates ty op args e) (hty : ty.isErrorFree = true)
    (hargs : List.Forall₂ R ts args) (he : e.isError = false) :
    ∃ t, Op.Operates ty op ts t ∧ R t e := by
  cases h with
  | binary op a b =>
    cases hargs with | cons ha hargs =>
    cases hargs with | cons hb hargs =>
    cases hargs
    exact ⟨_, .binary op _ _, hR.binary ha hb he⟩
  | unary op a =>
    cases hargs with | cons ha hargs =>
    cases hargs
    exact ⟨_, .unary op _, hR.unary ha he⟩
  | compare op a b =>
    cases hargs with | cons ha hargs =>
    cases hargs with | cons hb hargs =>
    cases hargs
    exact ⟨_, .compare op _ _, hR.compare ha hb he⟩
  | cast a hscalar =>
    cases hargs with | cons ha hargs =>
    cases hargs
    refine ⟨_, .cast _ ?_, hR.cast ha he⟩
    rw [← hscalar, ← isAggregate_bottom, hR.bottom_eq ha, isAggregate_bottom]
  | build args haggregate hlength =>
    exact ⟨_, .build ts haggregate (hargs.length_eq.trans hlength),
      hR.withMembers haggregate hty hlength hargs⟩
  | projection index a =>
    cases hargs with | cons ha hargs =>
    cases hargs
    exact ⟨_, .projection index _, hR.element ha he⟩

theorem Op.Operates.unique {op : Op} {ty e e' : Ty} {args : List Ty}
    (h : Op.Operates ty op args e) (h' : Op.Operates ty op args e') : e = e' := by
  cases h <;> cases h' <;> rfl

namespace Graph

variable {R : Ty → Ty → Prop} {V : NodeId → Option Ty} {g g' : Graph} {x y old new : NodeId}
  {node : Node} {xs ys L : List NodeId} {t e : Ty} {ts es args : List Ty}

theorem input_of_getElem? (hn : g.get? x = some node) {position : Nat}
    (hy : node.inputs[position]? = some y) : g.input x position = .ok y := by
  unfold input
  rw [node_of_get? hn]
  simp only [Except.bind, bind, hy]

theorem Typed.inputType (h : g.Typed node.inputs ts) (hn : g.get? x = some node) {position : Nat}
    (ht : ts[position]? = some t) : g.inputType x position = .ok t := by
  obtain ⟨y, hy, hty⟩ := h.getElem? ht
  unfold Graph.inputType
  rw [input_of_getElem? hn hy]
  exact hty

theorem operatorType?_eq (hn : g.get? x = some node) (ht : g.Typed node.inputs ts)
    (h : Op.Operates node.ty node.op ts t) : g.operatorType? x = .ok (some t) := by
  have hinput := fun position t => @Typed.inputType g x node t ts ht hn position
  have hmapM := ht.mapM
  unfold operatorType?
  rw [node_of_get? hn]
  obtain ⟨op, ty, inputs, users, replaced⟩ := node
  cases h with
  | binary op a b =>
    rw [hinput 0 a rfl, hinput 1 b rfl]
    rfl
  | unary op a =>
    rw [hinput 0 a rfl]
    rfl
  | compare op a b =>
    rw [hinput 0 a rfl, hinput 1 b rfl]
    rfl
  | cast a _ =>
    rw [hinput 0 a rfl]
    rfl
  | build _ _ _ =>
    change (inputs.mapM g.ty >>= fun ts => pure (some (ty.withMembers ts))) = _
    rw [hmapM]
    rfl
  | projection index a =>
    rw [hinput 0 a rfl]
    rfl

/-! ### What nodes compute -/

/-- The nodes `xs` compute the values `es`: leaves are given their values by `V`, constants are
themselves, and operators are evaluated. `L` lists the operators. -/
inductive Computes (R : Ty → Ty → Prop) (V : NodeId → Option Ty) (g : Graph) :
    List NodeId → List Ty → List NodeId → Prop where
  | nil : Computes R V g [] [] []
  | leaf {x : NodeId} {e : Ty} {node : Node} {xs L : List NodeId} {es : List Ty} :
    V x = some e → g.get? x = some node → node.replaced = false → R node.ty e →
    Computes R V g xs es L → Computes R V g (x :: xs) (e :: es) L
  | constant {x : NodeId} {e : Ty} {node : Node} {xs L : List NodeId} {es : List Ty} :
    V x = none → g.get? x = some node → node.replaced = false → R node.ty e →
    node.op = .constant → node.ty.isConstant = true → Computes R V g xs es L →
    Computes R V g (x :: xs) (e :: es) L
  | operator {x : NodeId} {e : Ty} {node : Node} {xs L L' : List NodeId} {es args : List Ty} :
    V x = none → g.get? x = some node → node.replaced = false → R node.ty e →
    Computes R V g node.inputs args L' → Op.Operates node.ty node.op args e →
    Computes R V g xs es L → Computes R V g (x :: xs) (e :: es) (x :: (L' ++ L))

namespace Computes

section

variable (h : Computes R V g xs es L)
include h

/-- The nodes are part of the program, and their types are read as what they compute. -/
theorem reads :
    List.Forall₂ (fun x e => ∃ node, g.get? x = some node ∧ node.replaced = false ∧ R node.ty e)
      xs es := by
  induction h with
  | nil => exact .nil
  | leaf _ hn hlive hread _ ih | constant _ hn hlive hread _ _ _ ih =>
    exact .cons ⟨_, hn, hlive, hread⟩ ih
  | operator _ hn hlive hread _ _ _ _ ih => exact .cons ⟨_, hn, hlive, hread⟩ ih

theorem typed : ∃ ts, g.Typed xs ts ∧ List.Forall₂ R ts es := by
  have hreads := h.reads
  clear h
  induction hreads with
  | nil => exact ⟨[], .nil, .nil⟩
  | cons hx _ ih =>
    obtain ⟨node, hn, -, hread⟩ := hx
    obtain ⟨ts, htyped, hts⟩ := ih
    exact ⟨node.ty :: ts, .cons (ty_of_get? hn) htyped, .cons hread hts⟩

theorem isLive_of_mem (hx : x ∈ L) : g.isLive x = true := by
  induction h with
  | nil => contradiction
  | leaf _ _ _ _ _ ih => exact ih hx
  | constant _ _ _ _ _ _ _ ih => exact ih hx
  | operator _ hn hlive _ _ _ _ ih' ih =>
    rcases List.mem_cons.1 hx with rfl | hx
    · exact isLive_iff.2 ⟨_, hn, hlive⟩
    · rcases List.mem_append.1 hx with hx | hx
      · exact ih' hx
      · exact ih hx

theorem has_of_mem (hx : x ∈ L) : g.Has x := by
  obtain ⟨node, hn, -⟩ := isLive_iff.1 (h.isLive_of_mem hx)
  exact ⟨node, hn⟩

theorem operates_of_mem (hx : x ∈ L) :
    ∃ node e args L', g.get? x = some node ∧ V x = none ∧ R node.ty e ∧
      Computes R V g node.inputs args L' ∧ Op.Operates node.ty node.op args e ∧
      (x :: L').Sublist L := by
  induction h with
  | nil => contradiction
  | leaf _ _ _ _ _ ih => exact ih hx
  | constant _ _ _ _ _ _ _ ih => exact ih hx
  | operator hV hn hlive hread hinputs hop _ ih' ih =>
    rcases List.mem_cons.1 hx with rfl | hx
    · exact ⟨_, _, _, _, hn, hV, hread, hinputs, hop, (List.sublist_append_left _ _).cons_cons _⟩
    · rcases List.mem_append.1 hx with hx | hx
      · obtain ⟨node, e, args, L', hfacts, hV', hread', hinputs', hop', hsub⟩ := ih' hx
        exact ⟨node, e, args, L', hfacts, hV', hread', hinputs', hop',
          (hsub.trans (List.sublist_append_left _ _)).cons _⟩
      · obtain ⟨node, e, args, L', hfacts, hV', hread', hinputs', hop', hsub⟩ := ih hx
        exact ⟨node, e, args, L', hfacts, hV', hread', hinputs', hop',
          (hsub.trans (List.sublist_append_right _ _)).cons _⟩

theorem mem_cases (hx : x ∈ xs) :
    V x ≠ none ∧ g.isLive x = true ∨ g.At x (fun op ty => op = .constant ∧ ty.isConstant = true) ∨
      x ∈ L := by
  induction h with
  | nil => contradiction
  | leaf hV hn hlive _ _ ih =>
    rcases List.mem_cons.1 hx with rfl | hx
    · exact .inl ⟨by rw [hV]; exact Option.some_ne_none _, isLive_iff.2 ⟨_, hn, hlive⟩⟩
    · exact ih hx
  | constant _ hn _ _ hop hconst _ ih =>
    rcases List.mem_cons.1 hx with rfl | hx
    · exact .inr (.inl ⟨_, hn, hop, hconst⟩)
    · exact ih hx
  | operator _ _ _ _ _ _ _ _ ih =>
    rcases List.mem_cons.1 hx with rfl | hx
    · exact .inr (.inr List.mem_cons_self)
    · rcases ih hx with h | h | h
      · exact .inl h
      · exact .inr (.inl h)
      · exact .inr (.inr (List.mem_cons_of_mem _ (List.mem_append_right _ h)))

theorem append {ys L' : List NodeId} {fs : List Ty} (h' : Computes R V g ys fs L') :
    Computes R V g (xs ++ ys) (es ++ fs) (L ++ L') := by
  induction h with
  | nil => exact h'
  | leaf hV hn hlive hread _ ih => exact .leaf hV hn hlive hread ih
  | constant hV hn hlive hread hop hconst _ ih => exact .constant hV hn hlive hread hop hconst ih
  | @operator x e node xs L L1 es args hV hn hlive hread hinputs hop _ _ ih =>
    simp only [List.cons_append, List.append_assoc]
    exact .operator hV hn hlive hread hinputs hop ih

end

theorem cons {L' : List NodeId} (h : Computes R V g [x] [e] L) (h' : Computes R V g xs es L') :
    Computes R V g (x :: xs) (e :: es) (L ++ L') :=
  h.append h'

theorem getElem? (h : Computes R V g xs es L) {i : Nat} (hi : es[i]? = some e) :
    ∃ x L', xs[i]? = some x ∧ Computes R V g [x] [e] L' ∧ L'.Sublist L := by
  induction h generalizing i with
  | nil => contradiction
  | leaf hV hn hlive hread _ ih =>
    cases i with
    | zero =>
      cases hi
      exact ⟨_, [], rfl, .leaf hV hn hlive hread .nil, List.nil_sublist _⟩
    | succ i => exact ih hi
  | constant hV hn hlive hread hop hconst _ ih =>
    cases i with
    | zero =>
      cases hi
      exact ⟨_, [], rfl, .constant hV hn hlive hread hop hconst .nil, List.nil_sublist _⟩
    | succ i => exact ih hi
  | @operator x e node xs L L1 es args hV hn hlive hread hinputs hop _ _ ih =>
    cases i with
    | zero =>
      cases hi
      refine ⟨_, _, rfl, .operator hV hn hlive hread hinputs hop .nil, ?_⟩
      rw [List.append_nil]
      exact (List.sublist_append_left _ _).cons_cons _
    | succ i =>
      obtain ⟨y, L', hy, hcomputes, hsub⟩ := ih hi
      exact ⟨y, L', hy, hcomputes, (hsub.trans (List.sublist_append_right _ _)).cons _⟩

theorem unique {L' : List NodeId} {fs : List Ty} (hR : Reading R) (h : Computes R V g xs es L)
    (h' : Computes R V g xs fs L') : es = fs := by
  induction h generalizing fs L' with
  | nil =>
    cases h'
    rfl
  | leaf hV _ _ _ _ ih =>
    cases h' with
    | leaf hV' _ _ _ h' => rw [Option.mem_unique hV hV', ih h']
    | constant hV' | operator hV' =>
      simp [hV] at hV'
  | constant hV hn _ hread hop hconst _ ih =>
    cases h' with
    | leaf hV' =>
      simp [hV] at hV'
    | constant _ hn' _ hread' _ _ h' =>
      cases hn.symm.trans hn'
      rw [← hR.eq_of_isConstant hread hconst, ← hR.eq_of_isConstant hread' hconst, ih h']
    | operator _ hn' _ _ _ hop' =>
      cases hn.symm.trans hn'
      rw [hop] at hop'
      contradiction
  | operator hV hn _ _ _ hop _ ih1 ih =>
    cases h' with
    | leaf hV' =>
      simp [hV] at hV'
    | constant _ hn' _ _ hop' =>
      cases hn.symm.trans hn'
      rw [hop'] at hop
      contradiction
    | operator _ hn' _ _ hinputs' hop' h' =>
      cases hn.symm.trans hn'
      obtain rfl := ih1 hinputs'
      rw [hop.unique hop', ih h']

theorem member {built : Node} {z : NodeId} {a : Ty} {index : Nat} (hR : Reading R)
    (h : Computes R V g [z] [a] L) (hV : V z = none) (hz : g.get? z = some built)
    (hbuild : built.op = .build) (he : (a.element index).isError = false) :
    ∃ new L', built.inputs[index]? = some new ∧ Computes R V g [new] [a.element index] L' ∧
      L'.Sublist L := by
  cases h with
  | leaf hV' =>
    simp [hV] at hV'
  | constant _ hn _ _ hop =>
    cases hz.symm.trans hn
    simp [hbuild] at hop
  | @operator _ _ _ _ _ L1 _ args _ hn _ hread hinputs hop hnil =>
    cases hz.symm.trans hn
    have hmember := getElem?_members_of_element (isError_of_isDatum (hR.isDatum hread)) he
    have hmembers : a.members = args := by
      rw [hbuild] at hop
      cases hop with
      | build _ haggregate hlength =>
        exact members_withMembers haggregate (isErrorFree_of_isDatum (hR.isDatum_left hread)) hlength
    rw [hmembers] at hmember
    obtain ⟨new, L', hnew, hcomputes, hsub⟩ := hinputs.getElem? hmember
    exact ⟨new, L', hnew, hcomputes, (hsub.trans (List.sublist_append_left _ _)).cons _⟩

theorem extend (h : Computes R V g xs es L) (hext : Extends g g') : Computes R V g' xs es L := by
  induction h with
  | nil => exact .nil
  | leaf hV hn hlive hread _ ih =>
    obtain ⟨us, hus⟩ := hext.node hn
    exact .leaf hV hus hlive hread ih
  | constant hV hn hlive hread hop hconst _ ih =>
    obtain ⟨us, hus⟩ := hext.node hn
    exact .constant hV hus hlive hread hop hconst ih
  | operator hV hn hlive hread _ hop _ ih' ih =>
    obtain ⟨us, hus⟩ := hext.node hn
    exact .operator hV hus hlive hread ih' hop ih

end Computes

/-! ### Replacing nodes -/

/-- A node that takes the values of its inputs, when one node takes the place of another. -/
theorem inputs_replace_of_registered (hr : g.replace old new = .ok g') (hne : old ≠ new)
    (hreg : g.Registered) (hn : g.get? x = some node) (hlive : node.replaced = false)
    (hphi : node.isMemoryPhi = false) : ∃ node', g'.get? x = some node' ∧ node'.op = node.op ∧
      node'.ty = node.ty ∧ node'.replaced = (x == old) ∧
      node'.inputs = node.inputs.map fun y => if y = old then new else y := by
  obtain ⟨us, es, hus, hes⟩ := get?_replace hr hne hn
  have hstandIn : (g.turnOf old new).standIn node = new := if_neg (Bool.eq_false_iff.1 hphi)
  refine ⟨_, hes, rfl, rfl, by simp [hlive], ?_⟩
  simp only [hreg.inputs_turnOf hus hn hlive, hstandIn]

/-- What is computed stays when a node takes the place of another that computes the same with no
more operators. -/
theorem Computes.replace (h : Computes R V g xs es L) (hr : g.replace old new = .ok g')
    (hne : old ≠ new) (hreg : g.Registered)
    (hconstant : V old = none → g.At old fun op _ => op ≠ .constant)
    (hleaf : ∀ e, V old = some e → g.isLive old = true → Computes R V g' [new] [e] [])
    (hoperator : old ∈ L → ∀ node e args L0 L', g.get? old = some node → R node.ty e →
      Computes R V g node.inputs args L0 → Op.Operates node.ty node.op args e →
      Computes R V g' (node.inputs.map fun y => if y = old then new else y) args L' →
      ∃ L'', L''.Sublist (old :: L') ∧ Computes R V g' [new] [e] L'') :
    ∃ L', L'.Sublist L ∧
      Computes R V g' (xs.map fun y => if y = old then new else y) es L' := by
  induction h with
  | nil => exact ⟨[], .slnil, .nil⟩
  | @leaf x e node xs L es hV hn hlive hread _ ih =>
    obtain ⟨L', hsub, hcomputes⟩ := ih hoperator
    rw [List.map_cons]
    by_cases hx : x = old
    · subst hx
      rw [if_pos rfl]
      exact ⟨L', hsub, (hleaf e hV (isLive_iff.2 ⟨node, hn, hlive⟩)).cons hcomputes⟩
    · rw [if_neg hx]
      obtain ⟨node', hn', -, hty, hmark⟩ := replaced_replace hr hne hn
      exact ⟨L', hsub, .leaf hV hn' (by simp [hmark, hlive, hx]) (hty ▸ hread) hcomputes⟩
  | @constant x e node xs L es hV hn hlive hread hop hconst _ ih =>
    obtain ⟨L', hsub, hcomputes⟩ := ih hoperator
    have hx : x ≠ old := by
      rintro rfl
      obtain ⟨node', hn', hop'⟩ := hconstant hV
      cases hn.symm.trans hn'
      exact hop' hop
    rw [List.map_cons, if_neg hx]
    obtain ⟨node', hn', hop', hty, hmark⟩ := replaced_replace hr hne hn
    exact ⟨L', hsub, .constant hV hn' (by simp [hmark, hlive, hx]) (hty ▸ hread) (hop'.trans hop)
      (hty ▸ hconst) hcomputes⟩
  | @operator x e node xs L L1 es args hV hn hlive hread hinputs hop _ ih1 ih =>
    have hsub1 : L1.Sublist (x :: (L1 ++ L)) := (List.sublist_append_left _ _).cons _
    have hsub2 : L.Sublist (x :: (L1 ++ L)) := (List.sublist_append_right _ _).cons _
    obtain ⟨L1', hL1, hcomputes1⟩ := ih1 fun hold => hoperator (hsub1.subset hold)
    obtain ⟨L', hL, hcomputes⟩ := ih fun hold => hoperator (hsub2.subset hold)
    rw [List.map_cons]
    by_cases hx : x = old
    · subst hx
      rw [if_pos rfl]
      obtain ⟨L'', hL'', hnew⟩ :=
        hoperator List.mem_cons_self node e args L1 L1' hn hread hinputs hop hcomputes1
      refine ⟨L'' ++ L', ?_, hnew.cons hcomputes⟩
      exact (hL''.trans (hL1.cons_cons x)).append hL
    · rw [if_neg hx]
      have hphi : node.isMemoryPhi = false := by
        obtain ⟨op, ty, inputs, users, replaced⟩ := node
        cases hop <;> rfl
      obtain ⟨node', hn', hop', hty, hmark, hinputs'⟩ :=
        inputs_replace_of_registered hr hne hreg hn hlive hphi
      refine ⟨x :: (L1' ++ L'), (hL1.append hL).cons_cons x, ?_⟩
      refine .operator hV hn' (by simp [hmark, hx]) (hty ▸ hread) (hinputs' ▸ hcomputes1) ?_
        hcomputes
      rw [hop', hty]
      exact hop

theorem Computes.of_added (hR : Reading R) (hV : V g.nextId = none) (hdatum : e.isDatum = true)
    (hconst : e.isConstant = true) (hne : g.nextId ≠ old)
    (hr : (g.added .constant e []).replace old g.nextId = .ok g') :
    Computes R V g' [g.nextId] [e] [] := by
  have hnew : (g.added .constant e []).get? g.nextId = some ⟨.constant, e, [], [], false⟩ := by
    rw [get?_added, if_pos rfl, stamp_of_isErrorFree _ (isErrorFree_of_isDatum hdatum)]
  obtain ⟨node, hn, hop, hty, hmark⟩ := replaced_replace hr hne.symm hnew
  refine .constant hV hn ?_ ?_ hop ?_ .nil
  · simp [hmark, hne]
  · rw [hty]
    exact hR.refl hdatum
  · rw [hty]
    exact hconst

end Graph

end SeaOfNodes
