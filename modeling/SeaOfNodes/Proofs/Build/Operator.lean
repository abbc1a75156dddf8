import SeaOfNodes.Proofs.Build.Request
import SeaOfNodes.Proofs.Graph.Computes

/-!
Requests for operators. Whatever identities a request makes use of, the node that it finds or adds
computes what the operator gives for what its operands compute.
-/
namespace SeaOfNodes

open SeaOfNodes.Graph SeaOfNodes.Ty

variable {R : Ty → Ty → Prop} {V : NodeId → Option Ty} {F : Fault → Prop} {b b' : Builder}
  {g g' : Graph} {id x y : NodeId} {op : Op} {ty t e : Ty} {inputs L L' : List NodeId}
  {ts args es : List Ty} {shape target : Ty}

/-- A builder to which operators can be added. -/
structure Builder.Open (b : Builder) : Prop where
  built : b.graph.Built
  memory : b.graph.IsState b.cursor.memory
  reported : ∀ entry ∈ b.reported,
    b.graph.At entry.2 fun op ty => op.isError = true ∧ ty.isError = true

/-- Leaves have known values, and requests do not look through them. -/
def Graph.Given (V : NodeId → Option Ty) (g : Graph) : Prop :=
  ∀ x e, V x = some e → e.isConstant = true ∧
    g.At x fun op _ => op ≠ .build ∧ ∀ unary, op ≠ .unary unary

theorem Graph.Given.extend (h : Given V g) (hext : Extends g g') : Given V g' := by
  intro x e hx
  obtain ⟨hconst, hop⟩ := h x e hx
  exact ⟨hconst, hext.keeps.at hop⟩

theorem Graph.Given.none_of_new (h : Given V g) (hx : ¬ g.Has x) : V x = none := by
  cases hV : V x with
  | none => rfl
  | some e => exact absurd (h x e hV).2.has hx

/-- A request was met by a node for `e`. The operators it depends on are among those of its operands,
or the node is a new operator of them. -/
structure Meets (R : Ty → Ty → Prop) (V : NodeId → Option Ty) (b : Builder) (L : List NodeId)
    (e : Ty) (x : NodeId) (b' : Builder) : Prop where
  isOpen : b'.Open
  graph : Extends b.graph b'.graph
  computes : ∃ L', Computes R V b'.graph [x] [e] L' ∧
    (L'.Sublist L ∨ ¬ b.graph.Has x ∧ L' = x :: L)

theorem Builder.Open.meets (hb : b.Open) (h : Computes R V b.graph [x] [e] L') (hsub : L'.Sublist L) :
    Meets R V b L e x b :=
  ⟨hb, .refl _, L', h, .inl hsub⟩

theorem Builder.Open.adds (hb : b.Open) (ha : Adds b.graph g' id op ty inputs) :
    { b with graph := g' }.Open where
  built := ha.built
  memory := ha.extend.isState hb.memory
  reported entry hentry := ha.extend.keeps.at (hb.reported entry hentry)

theorem Graph.Computes.inputs_has {xs : List NodeId} (h : Computes R V g xs es L) :
    ∀ x ∈ xs, g.Has x := by
  have hreads := h.reads
  clear h
  induction hreads with
  | nil => exact List.forall_mem_nil _
  | cons hx _ ih =>
    obtain ⟨node, hn, -⟩ := hx
    exact List.forall_mem_cons.2 ⟨⟨node, hn⟩, ih⟩

theorem Graph.Computes.type (h : Computes R V g [x] [e] L) : ∃ t, g.ty x = .ok t ∧ R t e := by
  cases h.reads with | cons hx _ =>
  obtain ⟨node, hn, -, hread⟩ := hx
  exact ⟨node.ty, ty_of_get? hn, hread⟩

theorem Graph.Computes.types {a c : Ty} (h : Computes R V g [x, y] [a, c] L) :
    ∃ t s, g.ty x = .ok t ∧ g.ty y = .ok s ∧ R t a ∧ R s c := by
  obtain ⟨x', L1, hx, h1, -⟩ := h.getElem? (i := 0) rfl
  obtain ⟨y', L2, hy, h2, -⟩ := h.getElem? (i := 1) rfl
  cases hx
  cases hy
  obtain ⟨t, ht, hta⟩ := h1.type
  obtain ⟨s, hs, hsc⟩ := h2.type
  exact ⟨t, s, ht, hs, hta, hsc⟩

theorem Op.Operates.shaped (h : Op.Operates ty op args e) (hlength : inputs.length = args.length) :
    Node.Shaped { op, ty, inputs } := by
  cases h with
  | build _ _ hmembers => exact Nat.le_of_eq (hmembers.symm.trans hlength.symm)
  | _ => exact Nat.le_of_eq hlength.symm

theorem Graph.Computes.adds (h : Computes R V g inputs args L) (hg : Given V g)
    (ha : Adds g g' id op ty inputs) (hread : R ty e) (hop : Op.Operates ty op args e) :
    Computes R V g' [id] [e] (id :: L) := by
  obtain ⟨us, hn⟩ := ha.node
  have hnew := Computes.operator (hg.none_of_new ha.new) hn rfl hread (h.extend ha.extend) hop .nil
  rwa [List.append_nil] at hnew

theorem Graph.Computes.eq_of_twice {a c : Ty} (hR : Reading R) (h : Computes R V g [x, x] [a, c] L)
    (hnodup : L.Nodup) (hg : Given V g) : a = c ∧ a.isConstant = true := by
  constructor
  · obtain ⟨y, L1, hy, h1, -⟩ := h.getElem? (i := 0) rfl
    obtain ⟨z, L2, hz, h2, -⟩ := h.getElem? (i := 1) rfl
    cases hy
    cases hz
    exact List.head_eq_of_cons_eq (h1.unique hR h2)
  · cases h with
    | leaf hV => exact (hg x a hV).1
    | constant _ _ _ hread _ hconst => exact hR.eq_of_isConstant hread hconst ▸ hconst
    | operator hV hn _ _ _ hop hrest =>
      rcases hrest.mem_cases List.mem_cons_self with ⟨hleaf, -⟩ | ⟨other, ho, hconst, -⟩ | hmem
      · exact absurd hV hleaf
      · cases hn.symm.trans ho
        rw [hconst] at hop
        contradiction
      · exact absurd (List.mem_append_right _ hmem) (List.nodup_cons.1 hnodup).1

/-! ### Identities -/

theorem Ty.isIntegral_of_bottom (h : t.bottom = e.bottom) : t.isIntegral = e.isIntegral := by
  have hbottom : ∀ t : Ty, t.bottom.isIntegral = t.isIntegral := by
    intro t
    cases t <;> rfl
  rw [← hbottom t, ← hbottom e, h]

theorem Ty.isFloat_of_bottom (h : t.bottom = e.bottom) : t.isFloat = e.isFloat := by
  have hbottom : ∀ t : Ty, t.bottom.isFloat = t.isFloat := by
    intro t
    cases t <;> rfl
  rw [← hbottom t, ← hbottom e, h]

theorem Ty.isFloat_unary {op : UnaryOp} (h : (t.unary op).isError = false) :
    (t.unary op).isFloat = t.isFloat := by
  have hturns := turns_unary h
  generalize t.unary op = r at hturns ⊢
  cases hturns <;> rfl

theorem Ty.sameShape_congr {s f : Ty} (ht : t.bottom = e.bottom) (hs : s.bottom = f.bottom) :
    t.sameShape s = e.sameShape f := by
  unfold sameShape
  rw [ht, hs]

theorem Ty.isAggregate_of_cast (ht : t.isDatum = true) (h : (t.cast target).isError = false)
    (hshape : t.sameShape target = false) : t.isAggregate = false := by
  obtain ⟨kind, -, hconverts⟩ := converts_cast ht h hshape
  generalize t.cast target = r at hconverts
  cases hconverts <;> rfl

theorem Ty.withMembers_withMembers (h : t.isAggregate = true) (hts : ts.length = t.members.length)
    (hes : es.length = t.members.length) :
    (t.withMembers ts).withMembers es = t.withMembers es := by
  cases t with
  | struct name labels members =>
    have hlengths : es.length = ts.length := hes.trans hts.symm
    have htake : es.take (min ts.length labels.length) = es.take labels.length :=
      List.take_eq_take_iff.2 (by omega)
    simp only [withMembers, List.take_take, List.length_take, hlengths, Nat.min_self, htake]
  | array | tuple => rfl
  | _ => contradiction

theorem Ty.isConstant_zero (h : t.isIntegral = true) : t.zero.isConstant = true := by
  cases t <;> first | rfl | contradiction

theorem simplifyBinary_eq_constant {op : BinaryOp} {lhs rhs : NodeId × Ty}
    (h : simplifyBinary op lhs rhs ty = .constant t) : ty.isIntegral = true ∧ lhs.1 = rhs.1 ∧
      (op = .subtract ∨ op = .bitwiseXor) ∧ t = ty.zero := by
  unfold simplifyBinary at h
  split at h
  · contradiction
  · rename_i hintegral
    split at h
    · rename_i hsame
      injection h with h
      exact ⟨by simpa using hintegral, hsame.1, hsame.2, h.symm⟩
    · split at h
      · split at h <;> contradiction
      · contradiction

theorem simplifyBinary_eq_operand {op : BinaryOp} {lhs rhs : NodeId × Ty}
    (h : simplifyBinary op lhs rhs ty = .operand x) : ty.isIntegral = true ∧
      ∃ t, neutralOperand? op lhs rhs = some (x, t) ∧ t.sameShape ty = true := by
  unfold simplifyBinary at h
  split at h
  · contradiction
  · rename_i hintegral
    split at h
    · contradiction
    · split at h
      · rename_i operand hoperand
        split at h
        · rename_i hshape
          injection h with h
          exact ⟨by simpa using hintegral, operand.2, by rw [hoperand, ← h], hshape⟩
        · contradiction
      · contradiction

/-- The operand that a request finds in place of an operator is what the operator gives, however the
types of the operands are read. -/
theorem Ty.reading_operand {op : BinaryOp} {tl tr a c : Ty} {lhs rhs : NodeId} (hR : Reading R)
    (hl : R tl a) (hr : R tr c) (hread : R ty (binary op a c))
    (hs : simplifyBinary op (lhs, tl) (rhs, tr) ty = .operand id) :
    id = lhs ∧ binary op a c = a ∨ id = rhs ∧ binary op a c = c := by
  obtain ⟨hintegral, t, hneutral, hshape⟩ := simplifyBinary_eq_operand hs
  rw [isIntegral_of_bottom (hR.bottom_eq hread)] at hintegral
  rcases neutralOperand?_eq_some hneutral with ⟨hx, n, hop, hn⟩ | ⟨hx, n, hop, hn⟩ <;> cases hx <;>
    obtain ⟨w, rfl⟩ := int?_eq_some hn
  · obtain rfl := hR.eq_of_isConstant hr rfl
    rw [sameShape_congr (hR.bottom_eq hl) (hR.bottom_eq hread)] at hshape
    exact .inl ⟨rfl, binary_rightNeutral (hR.isDatum hl) hop hintegral hshape⟩
  · obtain rfl := hR.eq_of_isConstant hl rfl
    rw [sameShape_congr (hR.bottom_eq hr) (hR.bottom_eq hread)] at hshape
    exact .inr ⟨rfl, binary_leftNeutral (hR.isDatum hr) hop hintegral hshape⟩

/-- The constant for an operator on one operand twice is what the operator gives. -/
theorem Ty.reading_zero {op : BinaryOp} {tl tr a : Ty} {lhs rhs : NodeId} (hR : Reading R)
    (hl : R tl a) (hconst : a.isConstant = true) (hread : R ty (binary op a a))
    (hs : simplifyBinary op (lhs, tl) (rhs, tr) ty = .constant t) :
    t = binary op a a ∧ t.isConstant = true := by
  obtain ⟨hintegral, -, hop, rfl⟩ := simplifyBinary_eq_constant hs
  have hintegral' := (isIntegral_of_bottom (hR.bottom_eq hread)).symm.trans hintegral
  refine ⟨?_, isConstant_zero hintegral⟩
  rw [zero_eq_of_bottom hintegral (hR.bottom_eq hread)]
  exact (binary_self (hR.isDatum hl) hconst hop hintegral').symm

namespace BuildM

/-! ### Adding nodes -/

theorem create_meets (hR : Reading R) (hb : b.Open) (hg : Given V b.graph)
    (h : Computes R V b.graph inputs args L) (hread : R ty e) (hop : Op.Operates ty op args e) :
    Does F b (create op ty inputs) fun x b' => Meets R V b L e x b' := by
  obtain ⟨g', hc⟩ := create_ok hb.built.wellFormed.dense h.inputs_has op ty
  have hstamp := stamp_of_isErrorFree b.graph.origins (isErrorFree_of_isDatum (hR.isDatum_left hread))
  have ha := Adds.create hb.built (by rw [hstamp]; exact hop.shaped h.reads.length_eq) hc
  rw [hstamp] at ha
  exact .editWith hc ⟨hb.adds ha, ha.extend, _, h.adds hg ha hread hop, .inr ⟨ha.new, rfl⟩⟩

theorem constant_meets (hR : Reading R) (hb : b.Open) (hg : Given V b.graph) (hty : ty.isDatum = true)
    (hconst : ty.isConstant = true) : Does F b (constant ty) fun x b' => Meets R V b L ty x b' := by
  obtain ⟨g', hc⟩ := create_ok hb.built.wellFormed.dense (List.forall_mem_nil _) .constant ty
  have hshaped : Node.Shaped ⟨.constant, (ty.stamp b.graph.origins).1, [], [], false⟩ := trivial
  have ha := Adds.create hb.built hshaped hc
  rw [stamp_of_isErrorFree _ (isErrorFree_of_isDatum hty)] at ha
  obtain ⟨us, hn⟩ := ha.node
  have hcomputes : Computes R V g' [b.graph.nextId] [ty] [] :=
    .constant (hg.none_of_new ha.new) hn rfl (hR.refl hty) rfl hconst .nil
  unfold constant
  exact .editWith hc ⟨hb.adds ha, ha.extend, [], hcomputes, .inl (List.nil_sublist _)⟩

theorem constant_of_reads (hR : Reading R) (hb : b.Open) (hg : Given V b.graph) (hread : R ty e)
    (hconst : ty.isConstant = true) : Does F b (constant ty) fun x b' => Meets R V b L e x b' := by
  obtain rfl := hR.eq_of_isConstant hread hconst
  exact constant_meets hR hb hg (hR.isDatum hread) hconst

/-! ### Operators -/

section

variable {a c : Ty} {lhs rhs value : NodeId} (hR : Reading R) (hb : b.Open) (hg : Given V b.graph)

include hR hb hg

section

variable (h : Computes R V b.graph [lhs, rhs] [a, c] L)
include h

theorem make_binary_meets {op : BinaryOp} (hnodup : L.Nodup)
    (he : (binary op a c).isError = false) :
    Does F b (make (.binary op lhs rhs)) fun x b' => Meets R V b L (binary op a c) x b' := by
  obtain ⟨tl, tr, hlhs, hrhs, hl, hr⟩ := h.types
  have hread := hR.binary hl hr he
  refine make_emits ?_ (isError_of_isDatum (hR.isDatum_left hread)) ?_
  · exact bind_eq_ok_iff.2 ⟨tl, hlhs, bind_eq_ok_iff.2 ⟨tr, hrhs, rfl⟩⟩
  change Does F b (emitBinary op lhs rhs (binary op tl tr)) _
  unfold emitBinary
  split
  · exact constant_of_reads hR hb hg hread (by assumption)
  · refine look_bind hlhs (look_bind hrhs ?_)
    split
    · rename_i t hs
      obtain ⟨-, hsame, -, -⟩ := simplifyBinary_eq_constant hs
      obtain rfl : lhs = rhs := hsame
      obtain ⟨rfl, hconst⟩ := h.eq_of_twice hR hnodup hg
      obtain ⟨rfl, hconst⟩ := reading_zero hR hl hconst hread hs
      exact constant_meets hR hb hg (hR.isDatum hread) hconst
    · rename_i hs
      refine .pure ?_
      obtain ⟨rfl, heq⟩ | ⟨rfl, heq⟩ := reading_operand hR hl hr hread hs <;> rw [heq]
      · obtain ⟨y, L', hy, hcomputes, hsub⟩ := h.getElem? (i := 0) rfl
        cases hy
        exact hb.meets hcomputes hsub
      · obtain ⟨y, L', hy, hcomputes, hsub⟩ := h.getElem? (i := 1) rfl
        cases hy
        exact hb.meets hcomputes hsub
    · exact create_meets hR hb hg h hread (.binary op a c)

theorem make_compare_meets {op : CompareOp} (hnodup : L.Nodup)
    (he : (compare op a c).isError = false) :
    Does F b (make (.compare op lhs rhs)) fun x b' => Meets R V b L (compare op a c) x b' := by
  obtain ⟨tl, tr, hlhs, hrhs, hl, hr⟩ := h.types
  have hread := hR.compare hl hr he
  refine make_emits ?_ (isError_of_isDatum (hR.isDatum_left hread)) ?_
  · exact bind_eq_ok_iff.2 ⟨tl, hlhs, bind_eq_ok_iff.2 ⟨tr, hrhs, rfl⟩⟩
  change Does F b (emitCompare op lhs rhs (compare op tl tr)) _
  unfold emitCompare
  split
  · exact constant_of_reads hR hb hg hread (by assumption)
  · refine look_bind hlhs ?_
    split
    · rename_i hsame
      obtain ⟨rfl, hfloat⟩ := hsame
      obtain ⟨rfl, hconst⟩ := h.eq_of_twice hR hnodup hg
      rw [isFloat_of_bottom (hR.bottom_eq hl)] at hfloat
      have heq := compare_self (hR.isDatum hl) hconst hfloat he
      have hdatum := hR.isDatum hread
      rw [heq] at hdatum ⊢
      exact constant_meets hR hb hg hdatum rfl
    · exact create_meets hR hb hg h hread (.compare op a c)

end

omit hb hg in
theorem undone {op : UnaryOp} (h : Computes R V g [value] [a] L) (hg : Given V g)
    {node : Node} (hn : g.get? value = some node) (hop : node.op = .unary op)
    (hread : R ty (a.unary op)) (hfloat : ty.isFloat = false) :
    ∃ z L', g.input value 0 = .ok z ∧ Computes R V g [z] [a.unary op] L' ∧ L'.Sublist L := by
  cases h with
  | leaf hV =>
    obtain ⟨other, ho, -, hnot⟩ := (hg value a hV).2
    cases hn.symm.trans ho
    exact absurd hop (hnot op)
  | constant _ hn' _ _ hconst =>
    cases hn.symm.trans hn'
    simp [hop] at hconst
  | @operator _ _ _ _ _ L1 _ args _ hn' _ hread' hinputs hoperates hnil =>
    cases hn.symm.trans hn'
    obtain ⟨z, hz⟩ : ∃ z, node.inputs = [z] := by
      rw [hop] at hoperates
      cases hoperates
      exact List.length_eq_one_iff.1 hinputs.reads.length_eq
    rw [hz] at hinputs
    obtain ⟨d, rfl, rfl⟩ : ∃ d, args = [d] ∧ a = d.unary op := by
      rw [hop] at hoperates
      cases hoperates
      exact ⟨_, rfl, rfl⟩
    obtain ⟨t, -, ht⟩ := hinputs.type
    have hd : d.isFloat = false := by
      rw [← isFloat_unary (isError_of_isDatum (hR.isDatum hread')),
        ← isFloat_unary (isError_of_isDatum (hR.isDatum hread)),
        ← isFloat_of_bottom (hR.bottom_eq hread)]
      exact hfloat
    have hundone := unary_unary (hR.isDatum ht) hd (isError_of_isDatum (hR.isDatum hread'))
    exact ⟨z, L1, input_of_getElem? hn (hz ▸ rfl), hundone.symm ▸ hinputs,
      (List.sublist_append_left _ _).cons _⟩

section

variable (h : Computes R V b.graph [value] [a] L)
include h

theorem make_unary_meets {op : UnaryOp} (he : (a.unary op).isError = false) :
    Does F b (make (.unary op value)) fun x b' => Meets R V b L (a.unary op) x b' := by
  obtain ⟨t, ht, hta⟩ := h.type
  have hread := hR.unary hta he
  refine make_emits ?_ (isError_of_isDatum (hR.isDatum_left hread)) ?_
  · exact bind_eq_ok_iff.2 ⟨t, ht, rfl⟩
  change Does F b (emitUnary op value (t.unary op)) _
  unfold emitUnary
  split
  · exact constant_of_reads hR hb hg hread (by assumption)
  · obtain ⟨node, hn⟩ := h.inputs_has value List.mem_cons_self
    refine look_bind (op_of_get? hn) ?_
    split
    · rename_i hundo
      obtain ⟨hundo, hfloat⟩ := hundo
      obtain ⟨z, L', hz, hcomputes, hsub⟩ := undone hR h hg hn hundo hread hfloat
      exact .look_ok hz (hb.meets hcomputes hsub)
    · exact create_meets hR hb hg h hread (.unary op a)

/-- A conversion is a node of its own. One to a string is part of the chain of memory. -/
theorem cast_meets (hread : R ty e) (hop : Op.Operates ty .cast [a] e) (materializes : Bool) :
    Does F b (do
      let cast ← create .cast ty [value]
      if materializes then threadMemory cast none .heap
      return cast) fun x b' => Meets R V b L e x b' := by
  cases materializes with
  | false => exact (create_meets hR hb hg h hread hop).bind fun x b' hx => .pure hx
  | true =>
    obtain ⟨g1, hc⟩ := create_ok hb.built.wellFormed.dense h.inputs_has .cast ty
    have hstamp :=
      stamp_of_isErrorFree b.graph.origins (isErrorFree_of_isDatum (hR.isDatum_left hread))
    have ha := Adds.create hb.built (by rw [hstamp]; exact hop.shaped h.reads.length_eq) hc
    rw [hstamp] at ha
    obtain ⟨g2, hg2⟩ := attachMemory_ok (e := ⟨b.cursor.memory, none, .heap⟩)
      (ha.extend.keeps.has hb.memory.has) nofun b.graph.nextId
    have ha2 := ha.attachMemory ⟨nofun, rfl⟩ hb.memory hg2
    obtain ⟨us, hn⟩ := ha2.node
    refine .bind (.editWith (Q := fun x b' => x = b.graph.nextId ∧ b' = { b with graph := g1 }) hc
      ⟨rfl, rfl⟩) ?_
    rintro x b1 ⟨rfl, rfl⟩
    refine .bind (threadMemory_ok (Q := fun _ b' => Meets R V b L e b.graph.nextId b') hg2 ?_)
      fun _ b' hmeets => .pure hmeets
    exact ⟨⟨ha2.built, .node hn nofun rfl, (hb.adds ha2).reported⟩, ha2.extend, _,
      h.adds hg ha2 hread hop, .inr ⟨ha2.new, rfl⟩⟩

theorem make_cast_meets (he : (a.cast target).isError = false) :
    Does F b (make (.cast value target)) fun x b' => Meets R V b L (a.cast target) x b' := by
  obtain ⟨t, ht, hta⟩ := h.type
  have hread := hR.cast hta he
  have hdatum := hR.isDatum_left hta
  have hbottom := hR.bottom_eq hta
  have hnot := isError_of_isDatum (hR.isDatum_left hread)
  refine make_emits ?_ hnot ?_
  · exact bind_eq_ok_iff.2 ⟨t, ht, rfl⟩
  change Does F b (emitCast value (t.cast target)) _
  unfold emitCast
  split
  · exact constant_of_reads hR hb hg hread (by assumption)
  · refine look_bind ht ?_
    split
    · rename_i hshape
      rw [cast_eq_self hdatum (hR.isDatum hta) hbottom hnot hshape]
      exact .pure (hb.meets h (List.Sublist.refl L))
    · rename_i hshape
      have hshape := Bool.eq_false_iff.2 hshape
      have hcast := cast_cast_target hdatum (hR.isDatum hta) hbottom hnot he hshape
      refine cast_meets hR hb hg h hread ?_ _
      rw [← hcast]
      refine .cast a (isAggregate_of_cast (hR.isDatum hta) (hcast ▸ he) ?_)
      rw [← sameShape_of_bottom hbottom]
      exact hshape

end

theorem make_build_meets {members : List NodeId} (h : Computes R V b.graph members es L)
    (haggregate : shape.isAggregate = true) (hshape : shape.isErrorFree = true)
    (he : (inferBuild shape es).isError = false) :
    Does F b (make (.build shape members)) fun x b' => Meets R V b L (inferBuild shape es) x b' := by
  obtain ⟨ts, htyped, hreads⟩ := h.typed
  obtain ⟨-, hlength, heq⟩ := inferBuild_of_not_error he
  have hlength' : ts.length = shape.members.length := hreads.length_eq.trans hlength
  have hdatum := isDatum_of_forall₂ hR.isDatum_left (List.Forall₂.flip hreads)
  have hread := hR.withMembers haggregate hshape hlength hreads
  rw [heq]
  refine make_emits ?_ (isError_of_isDatum (hR.isDatum_left hread)) ?_
  · refine bind_eq_ok_iff.2 ⟨ts, htyped.mapM, congrArg Except.ok (inferBuild_eq ?_ hlength')⟩
    exact firstError?_eq_none_iff.2 (List.any_eq_false.2 fun t ht => by
      rw [isError_of_isDatum (hdatum t ht)]
      exact Bool.false_ne_true)
  change Does F b (if (shape.withMembers ts).isConstant then constant (shape.withMembers ts)
    else create .build (shape.withMembers ts) members) _
  split
  · exact constant_of_reads hR hb hg hread (by assumption)
  · refine create_meets hR hb hg h hread ?_
    rw [← withMembers_withMembers haggregate hlength' hlength]
    refine .build es (isAggregate_withMembers haggregate ts) ?_
    rw [members_withMembers haggregate hshape hlength', hlength']
    exact hlength

theorem make_projection_meets {index : Nat} (h : Computes R V b.graph [value] [a] L)
    (he : (a.element index).isError = false) :
    Does F b (make (.projection value index)) fun x b' => Meets R V b L (a.element index) x b' := by
  obtain ⟨t, ht, hta⟩ := h.type
  have hread := hR.element hta he
  refine make_emits ?_ (isError_of_isDatum (hR.isDatum_left hread)) ?_
  · exact bind_eq_ok_iff.2 ⟨t, ht, rfl⟩
  change Does F b (emitProjection value index (t.element index)) _
  unfold emitProjection
  split
  · exact constant_of_reads hR hb hg hread (by assumption)
  · obtain ⟨node, hn⟩ := h.inputs_has value List.mem_cons_self
    refine look_bind (op_of_get? hn) ?_
    split
    · rename_i hbuild
      have hV : V value = none := by
        cases hV : V value with
        | none => rfl
        | some f =>
          obtain ⟨other, ho, hnot, -⟩ := (hg value f hV).2
          cases hn.symm.trans ho
          exact absurd hbuild hnot
      obtain ⟨new, L', hnew, hcomputes, hsub⟩ := h.member hR hV hn hbuild he
      exact .look_ok (input_of_getElem? hn hnew) (hb.meets hcomputes hsub)
    · exact create_meets hR hb hg h hread (.projection index a)

end

end BuildM

end SeaOfNodes
