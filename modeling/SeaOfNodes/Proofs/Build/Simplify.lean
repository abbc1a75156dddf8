import SeaOfNodes.Proofs.Build.Error
import SeaOfNodes.Proofs.Build.Operator
import SeaOfNodes.Proofs.Ty.Known
import SeaOfNodes.Proofs.Ty.Merge

/-!
Simplification keeps values. A meaning gives the nodes of a graph values that their types describe and
that the operators among them give for the values of their inputs. A request for an operator, an
aggregate or a phi may find a constant, one of its operands, an operand of an operand, a member of an
aggregate or a new node; in every meaning that the graph allows, this node has the value that the plain
operator gives for the values of the operands (`make_answers`).

Structs of one name have one list of fields. Without this the merge of two structs drops the members
that only one of them has, and a phi of constants is a constant that is none of its cases
(`not_make_answers`).
-/
namespace SeaOfNodes

open SeaOfNodes.Graph

/-! ### Meanings of graphs -/

/-- What the nodes of a graph stand for while a program runs: their values, where the state of memory
is a value like others, and the predecessor from which control comes to a region. -/
structure Meaning where
  value : NodeId → Value
  arrival : NodeId → Nat

/-- The type of a node that knows the value of the node. -/
def Graph.known? (g : Graph) (σ : Meaning) (x : NodeId) : Option Ty :=
  (g.get? x).map fun node => node.ty.knowing (σ.value x)

/-- What the operator of a request gives for the values of its operands, by its own rule alone. -/
def Request.plain? (g : Graph) (σ : Meaning) : Request → Option Value
  | .constant ty => ty.value?
  | .binary op x y => do op.result? (← g.known? σ x) (← g.known? σ y)
  | .unary op x => do op.result? (← g.known? σ x)
  | .compare op x y =>
    match σ.value x, σ.value y with
    | .pointer a, .pointer b => op.onAddresses? a b
    | _, _ => do op.result? (← g.known? σ x) (← g.known? σ y)
  | .cast x target => do (← g.get? x).ty.castValue? target (σ.value x)
  | .build _ members => some (.aggregate (members.map σ.value))
  | .projection x i =>
    match σ.value x with
    | .aggregate vs => vs[i]?
    | _ => none
  | .phi merge cases _ => cases[σ.arrival merge]?.map σ.value
  | _ => none

/-- The request that the node of an operator stands for. -/
def Node.request? (node : Node) : Option Request :=
  match node.op, node.inputs with
  | .constant, _ => some (.constant node.ty)
  | .binary op, [x, y] => some (.binary op x y)
  | .unary op, [x] => some (.unary op x)
  | .compare op, [x, y] => some (.compare op x y)
  | .cast, [x] => some (.cast x node.ty)
  | .build, members => some (.build node.ty members)
  | .projection i, [x] => some (.projection x i)
  | .phi, merge :: cases => some (.phi merge cases .value)
  | _, _ => none

/-- The values of nodes are among those that their types stand for, and those of operators are what
these give for the values of their inputs. -/
structure Graph.Allows (g : Graph) (σ : Meaning) : Prop where
  admits : ∀ {x node}, g.get? x = some node → node.ty.isValued = true →
    node.ty.Admits (σ.value x)
  plain : ∀ {x node r v}, g.get? x = some node → node.request? = some r →
    r.plain? g σ = some v → σ.value x = v

/-- `P` holds of every meaning that a graph allows and the value that a request has in it. -/
def Request.Entails (r : Request) (g : Graph) (P : Meaning → Value → Prop) : Prop :=
  ∀ ⦃σ v⦄, g.Allows σ → r.plain? g σ = some v → P σ v

/-- The node `x` of `g'` has the value of a request to `g`, in every meaning of `g`: it is a node of
`g`, or a new one whose operator gives the value. -/
def Request.AnsweredBy (r : Request) (g g' : Graph) (x : NodeId) : Prop :=
  r.Entails g fun σ v => g.Has x ∧ σ.value x = v ∨ ¬ g.Has x ∧
    ∃ node r', g'.get? x = some node ∧ node.request? = some r' ∧ r'.plain? g σ = some v

/-- A builder that requests can be made to, where aggregates and operators are typed. -/
structure Builder.Typed (b : Builder) : Prop where
  dense : b.graph.Dense
  memory : b.graph.Has b.cursor.memory
  builds : b.graph.TypedBuilds
  unaries : b.graph.TypedUnaries

theorem Builder.Reached.typed {b : Builder} (h : b.Reached) (hmemory : b.graph.Has b.cursor.memory) :
    b.Typed where
  dense := h.attributed.dense
  memory := hmemory
  builds {x node} hn hop := by
    have htypes := h.attributed.types hn
    rw [hop] at htypes
    exact @htypes
  unaries hn hop := by
    have htypes := h.attributed.types hn
    rwa [hop] at htypes

/-- The requests for operators, for aggregates and for phis. Structs of one name have one list of
fields. -/
def Request.IsPlain (fields : String → List String) (g : Graph) : Request → Prop
  | .binary .. | .unary .. | .compare .. | .cast .. | .projection .. => True
  | .build shape _ => shape.isAggregate = true ∧ shape.HasFields fields
  | .phi merge cases _ => g.Has merge ∧
    ∀ x ∈ cases, g.At x fun _ t => t.Throughout (Ty.HasFields fields)
  | _ => False

namespace Graph

variable {g : Graph} {σ : Meaning} {x : NodeId} {node : Node} {xs : List NodeId} {ts : List Ty}

theorem allows_of_ids (h : ∀ x ∈ g.ids, ∀ node, g.get? x = some node →
    (node.ty.isValued = true → node.ty.Admits (σ.value x)) ∧
    ∀ r v, node.request? = some r → r.plain? g σ = some v → σ.value x = v) : g.Allows σ where
  admits hn := (h _ (mem_ids hn) _ hn).1
  plain hn := (h _ (mem_ids hn) _ hn).2 _ _

theorem Allows.knows (hσ : g.Allows σ) (hn : g.get? x = some node) (h : node.ty.Scalar) :
    node.ty.Knows (σ.value x) (node.ty.knowing (σ.value x)) :=
  (hσ.admits hn h.isValued).knows h

theorem Allows.describesAll (hσ : g.Allows σ) (h : g.Typed xs ts)
    (hconst : ∀ t ∈ ts, t.isConstant = true) : Ty.DescribesAll ts (xs.map σ.value) := by
  induction h with
  | nil => trivial
  | cons hx _ ih =>
    rw [List.forall_mem_cons] at hconst
    obtain ⟨node, hn, rfl⟩ := ty_eq_ok_iff.1 hx
    exact ⟨(hσ.admits hn (Ty.isValued_of_isConstant hconst.1)).1, ih hconst.2⟩

end Graph

namespace BuildM

variable {F : Fault → Prop} {b : Builder} {r : Request} {x y : NodeId} {node left right : Node}
  {ty target : Ty} {fields : String → List String} {cases : List NodeId} {ts : List Ty}

/-! ### Answers -/

theorem answered_of_has (hx : b.graph.Has x) (h : r.Entails b.graph fun σ v => σ.value x = v) :
    r.AnsweredBy b.graph b.graph x :=
  fun _ _ hσ hv => .inl ⟨hx, h hσ hv⟩

section

variable {op : Op} {inputs : List NodeId} (hd : b.graph.Dense) (hin : ∀ x ∈ inputs, b.graph.Has x)
include hd hin

/-- A new node answers a request, and still does when it has been put in its place. -/
theorem create_answers (h : ∀ ty' us, ty'.plain = ty.plain →
      ∃ r', Node.request? ⟨op, ty', inputs, us, false⟩ = some r' ∧
        r.Entails b.graph fun σ v => r'.plain? b.graph σ = some v) :
    Does F b (create op ty inputs) fun x b' => b'.cursor = b.cursor ∧ Keeps b.graph b'.graph ∧
      ∀ g, (∀ {y node}, b'.graph.get? y = some node →
        ∃ us, g.get? y = some { node with users := us }) → r.AnsweredBy b.graph g x := by
  obtain ⟨g', hc⟩ := create_ok hd hin op ty
  obtain ⟨-, henters, -⟩ := create_spec hd hc
  refine .editWith hc ⟨rfl, (Extends.create hd hc).keeps, fun g hg σ v hσ hv => .inr ⟨?_, ?_⟩⟩
  · exact fun hhas => hd.ne_nextId hhas rfl
  · obtain ⟨us, hn, -⟩ := henters.node ((get?_added op ty inputs _).trans (if_pos rfl))
    obtain ⟨vs, hn⟩ := hg hn
    obtain ⟨r', hr', hplain⟩ := h _ vs (Ty.plain_stamp b.graph.origins ty)
    exact ⟨_, r', hn, hr', hplain hσ hv⟩

theorem operator_answers (h : ∀ ty' us, Node.request? ⟨op, ty', inputs, us, false⟩ = some r) :
    Does F b (create op ty inputs) fun x b' => r.AnsweredBy b.graph b'.graph x :=
  (create_answers hd hin fun ty' us _ => ⟨r, h ty' us, fun _ _ _ hv => hv⟩).imp
    fun _ _ h => h.2.2 _ fun hn => ⟨_, hn⟩

end

theorem constant_answers (hd : b.graph.Dense) (h : r.Entails b.graph fun _ v => ty.value? = some v) :
    Does F b (constant ty) fun x b' => r.AnsweredBy b.graph b'.graph x := by
  refine (create_answers hd (List.forall_mem_nil _) fun ty' us hty => ⟨.constant ty', rfl, ?_⟩).imp
    fun _ _ h => h.2.2 _ fun hn => ⟨_, hn⟩
  intro σ v hσ hv
  rw [Request.plain?, ← Ty.value?_plain, hty, Ty.value?_plain]
  exact h hσ hv

/-! ### Operators -/

section

variable (hb : b.Typed)
include hb

section

variable (hleft : b.graph.get? x = some left) (hright : b.graph.get? y = some right)
include hleft hright

theorem emitBinary_answers {op : BinaryOp} (hno : (Ty.binary op left.ty right.ty).isError = false) :
    Does F b (emitBinary op x y (.binary op left.ty right.ty)) fun z b' =>
      (Request.binary op x y).AnsweredBy b.graph b'.graph z := by
  obtain ⟨hs, ht⟩ := Ty.scalar_of_binary hno
  -- What becomes known of the operands, and of the result.
  have hknown : (Request.binary op x y).Entails b.graph fun σ v => ∃ a c,
      left.ty.Knows (σ.value x) a ∧ right.ty.Knows (σ.value y) c ∧ (x = y → a = c) ∧
      (Ty.binary op a c).Admits v ∧ Ty.Vague (.binary op left.ty right.ty) (.binary op a c) ∧
      (Ty.binary op a c).isDatum = true := by
    intro σ v hσ hv
    have ha := hσ.knows hleft hs
    have hc := hσ.knows hright ht
    rw [Request.plain?, known?, known?, hleft, hright] at hv
    have hz := Ty.admits_apply_binary (ha.scalar hs) ha.isDatum (hc.scalar ht) hc.isDatum hv
    refine ⟨_, _, ha, hc, ?_, hz, Ty.vague_binary ha.vague hc.vague hz.isError,
      Ty.isDatum_binary ha.isDatum hc.isDatum hz.isError⟩
    rintro rfl
    cases hleft.symm.trans hright
    rfl
  unfold emitBinary
  split
  · rename_i hconst
    refine constant_answers hb.dense fun σ v hσ hv => ?_
    obtain ⟨a, c, -, -, -, hz, hvague, -⟩ := hknown hσ hv
    exact Ty.value?_of_vague hvague hz hconst
  · refine look_bind (ty_of_get? hleft) (look_bind (ty_of_get? hright) ?_)
    split
    · rename_i zero hs
      refine constant_answers hb.dense fun σ v hσ hv => ?_
      obtain ⟨a, c, ha, -, hsame, hz, hvague, hdatum⟩ := hknown hσ hv
      obtain ⟨-, heq, -, -⟩ := simplifyBinary_eq_constant hs
      obtain rfl := hsame heq
      obtain ⟨rfl, hconst⟩ := Ty.reading_zero Ty.reading_vague ⟨ha.vague, ha.isDatum⟩ ha.isConstant
        ⟨hvague, hdatum⟩ hs
      exact hz.1.value?_eq hconst
    · rename_i id hs
      have hid : b.graph.Has id := by
        obtain ⟨-, t, hneutral, -⟩ := simplifyBinary_eq_operand hs
        rcases Ty.neutralOperand?_eq_some hneutral with ⟨heq, -⟩ | ⟨heq, -⟩ <;> cases heq
        · exact ⟨_, hleft⟩
        · exact ⟨_, hright⟩
      refine .pure (answered_of_has hid fun σ v hσ hv => ?_)
      obtain ⟨a, c, ha, hc, -, hz, hvague, hdatum⟩ := hknown hσ hv
      rcases Ty.reading_operand Ty.reading_vague ⟨ha.vague, ha.isDatum⟩ ⟨hc.vague, hc.isDatum⟩
        ⟨hvague, hdatum⟩ hs with ⟨rfl, heq⟩ | ⟨rfl, heq⟩ <;> rw [heq] at hz
      · exact ha.eq_of_admits hz
      · exact hc.eq_of_admits hz
    · refine operator_answers hb.dense ?_ fun _ _ => rfl
      exact List.forall_mem_cons.2 ⟨⟨_, hleft⟩, List.forall_mem_singleton.2 ⟨_, hright⟩⟩

omit hb in
theorem plain_compare {op : CompareOp} (hno : (Ty.compare op left.ty right.ty).isError = false) :
    (Request.compare op x y).Entails b.graph fun _ v =>
      ((Ty.compare op left.ty right.ty).isConstant = true →
        (Ty.compare op left.ty right.ty).value? = some v) ∧
      (x = y → left.ty.isFloat = false → v = .bool (op.holds .eq)) := by
  intro σ v hσ hv
  rcases Ty.scalar_of_compare hno with ⟨hs, ht⟩ | ⟨p, l, q, m, hs, ht⟩
  · have ha := hσ.knows hleft hs
    have hc := hσ.knows hright ht
    have happly : op.result? (left.ty.knowing (σ.value x)) (right.ty.knowing (σ.value y)) = some v := by
      rw [Request.plain?] at hv
      split at hv
      · rename_i hpointer _
        exact absurd hpointer (ha.ne_pointer hs _)
      · simpa [known?, hleft, hright] using hv
    have hz := Ty.admits_apply_compare (ha.scalar hs) ha.isDatum (hc.scalar ht) hc.isDatum happly
    refine ⟨Ty.value?_of_vague (Ty.vague_compare ha.vague hc.vague hz.isError) hz, ?_⟩
    rintro rfl hfloat
    cases hleft.symm.trans hright
    rw [Ty.isFloat_of_bottom ha.vague.bottom_eq] at hfloat
    rw [Ty.compare_self ha.isDatum ha.isConstant hfloat hz.isError] at hz
    exact (Option.some.inj (hz.1.value?_eq rfl)).symm
  · have hi := (hσ.admits hleft (by rw [hs]; rfl)).1
    have hj := (hσ.admits hright (by rw [ht]; rfl)).1
    rw [hs] at hi
    rw [ht] at hj
    cases hvx : σ.value x <;> rw [hvx] at hi <;> try exact hi.elim
    cases hvy : σ.value y <;> rw [hvy] at hj <;> try exact hj.elim
    simp only [Request.plain?, hvx, hvy] at hv
    rw [hs, ht]
    refine ⟨fun hconst => Ty.value?_pointerCompare hconst hi hj hv, ?_⟩
    rintro rfl -
    cases hvx.symm.trans hvy
    cases op <;> cases hv <;> simp [CompareOp.holds]

theorem emitCompare_answers {op : CompareOp}
    (hno : (Ty.compare op left.ty right.ty).isError = false) :
    Does F b (emitCompare op x y (.compare op left.ty right.ty)) fun z b' =>
      (Request.compare op x y).AnsweredBy b.graph b'.graph z := by
  have hplain := plain_compare hleft hright hno
  unfold emitCompare
  split
  · exact constant_answers hb.dense fun _ _ hσ hv => (hplain hσ hv).1 ‹_›
  · refine look_bind (ty_of_get? hleft) ?_
    split
    · rename_i hsame
      refine constant_answers hb.dense fun σ v hσ hv => ?_
      rw [(hplain hσ hv).2 hsame.1 hsame.2]
      rfl
    · refine operator_answers hb.dense ?_ fun _ _ => rfl
      exact List.forall_mem_cons.2 ⟨⟨_, hleft⟩, List.forall_mem_singleton.2 ⟨_, hright⟩⟩

end

section

variable (hn : b.graph.get? x = some node)
include hn

theorem emitUnary_answers {op : UnaryOp} (hno : (node.ty.unary op).isError = false) :
    Does F b (emitUnary op x (node.ty.unary op)) fun z b' =>
      (Request.unary op x).AnsweredBy b.graph b'.graph z := by
  have hs := Ty.scalar_of_unary hno
  have hknown : (Request.unary op x).Entails b.graph fun σ v =>
      ((node.ty.knowing (σ.value x)).unary op).Admits v := by
    intro σ v hσ hv
    have ha := hσ.knows hn hs
    rw [Request.plain?, known?, hn] at hv
    exact Ty.admits_apply_unary (ha.scalar hs) ha.isDatum hv
  unfold emitUnary
  split
  · rename_i hconst
    refine constant_answers hb.dense fun σ v hσ hv => ?_
    have hz : ((node.ty.knowing (σ.value x)).unary op).Admits v := hknown hσ hv
    exact Ty.value?_of_vague (Ty.vague_unary (hσ.knows hn hs).vague hz.isError) hz hconst
  · refine look_bind (op_of_get? hn) ?_
    split
    · rename_i hundo
      obtain ⟨y, hinputs, inner, hinner, htype⟩ := hb.unaries hn hundo.1
      have hinnerNo : (inner.ty.unary op).isError = false :=
        htype ▸ Ty.isError_of_isValued hs.isValued
      have ht := Ty.scalar_of_unary hinnerNo
      refine .look_ok (input_of_getElem? hn (by rw [hinputs]; rfl))
        (answered_of_has ⟨_, hinner⟩ fun σ v hσ hv => ?_)
      have hz : ((node.ty.knowing (σ.value x)).unary op).Admits v := hknown hσ hv
      have ha := hσ.knows hinner ht
      -- The operand has the value that its own operator gives, and the operator undoes that.
      obtain ⟨z, happly, hknows⟩ := ha.unary ht hinnerNo
      have hvalue : σ.value x = z := by
        refine hσ.plain (r := .unary op y) hn ?_ ?_
        · rw [Node.request?, hundo.1, hinputs]
        · rw [Request.plain?, known?, hinner]
          exact happly
      have hfloat : (inner.ty.knowing (σ.value y)).isFloat = false := by
        rw [← Ty.isFloat_of_bottom ha.vague.bottom_eq, ← Ty.isFloat_unary hinnerNo, ← htype,
          ← Ty.isFloat_unary hno]
        exact hundo.2
      rw [hvalue, htype, ← hknows.eq_knowing (htype ▸ hs),
        Ty.unary_unary ha.isDatum hfloat (Ty.isError_of_isDatum hknows.isDatum)] at hz
      exact ha.eq_of_admits hz
    · exact operator_answers hb.dense (List.forall_mem_singleton.2 ⟨_, hn⟩) fun _ _ => rfl

omit hb in
theorem plain_cast (hno : (node.ty.cast target).isError = false) :
    (Request.cast x target).Entails b.graph fun σ v =>
      ((node.ty.cast target).isConstant = true → (node.ty.cast target).value? = some v) ∧
      (node.ty.sameShape (node.ty.cast target) = true → σ.value x = v) ∧
      (node.ty.sameShape (node.ty.cast target) = false →
        ∀ t, t.plain = (node.ty.cast target).plain → node.ty.castValue? t (σ.value x) = some v) := by
  intro σ v hσ hv
  rw [Request.plain?, hn] at hv
  change node.ty.castValue? target (σ.value x) = some v at hv
  unfold Ty.castValue? at hv
  split at hv
  · rename_i hshape
    cases hv
    rw [Ty.cast_self hno hshape]
    refine ⟨fun hconst => ?_, fun _ => rfl, fun hself => ?_⟩
    · exact (hσ.admits hn (Ty.isValued_of_isConstant hconst)).1.value?_eq hconst
    · rw [Ty.sameShape_iff.2 rfl] at hself
      contradiction
  · rename_i hshape
    rw [Bool.not_eq_true] at hshape
    have hplain : ∀ {t : Ty}, t.plain = (node.ty.cast target).plain →
        node.ty.sameShape t = node.ty.sameShape (node.ty.cast target) := fun h => by
      rw [Bool.eq_iff_iff, Ty.sameShape_iff, Ty.sameShape_iff, Ty.shape_congr h]
    rcases Ty.scalar_of_cast hno hshape with hs | ⟨p, l, q, m, hs, ht, hcast⟩
    · have ha := hσ.knows hn hs
      have hdatum := ha.vague.isDatum ha.isDatum
      split at hv
      · rename_i hpointer
        exact absurd hpointer (ha.ne_pointer hs _)
      · rename_i hnot
        obtain ⟨q, hq, happly⟩ := Option.bind_eq_some_iff.1 hv
        have hz := Ty.admits_apply_cast (ha.scalar hs) ha.isDatum hq
          ((ha.vague.sameShape_eq target).symm.trans hshape) happly
        refine ⟨Ty.value?_of_vague (Ty.vague_cast ha.vague ha.isDatum hz.isError) hz, fun hself => ?_,
          fun hself t ht => ?_⟩
        · rw [Ty.cast_eq_self hdatum ha.isDatum ha.vague.bottom_eq hno hself] at hz
          exact ha.eq_of_admits hz
        · obtain ⟨kind, hkind, hconverts⟩ := Ty.converts_cast hdatum hno hshape
          cases hq.symm.trans hkind
          have hprimitive : ∀ t : Ty, t.plain.primitive? = t.primitive? := fun t => by cases t <;> rfl
          rw [Ty.castValue?, (hplain ht).trans hself, if_neg Bool.false_ne_true, ← hprimitive, ht,
            hprimitive, hconverts.primitive?]
          · exact happly
          · exact hnot
    · have hi := (hσ.admits hn (by rw [hs]; rfl)).1
      rw [hs] at hi
      cases hvx : σ.value x <;> rw [hvx] at hi <;> try exact hi.elim
      rw [hvx] at hv
      cases hv
      refine ⟨fun hconst => ?_, fun _ => rfl, fun hself t ht => ?_⟩
      · rw [hcast] at hconst ⊢
        exact Ty.Describes.value?_eq (t := .pointer q l) hi hconst
      · rw [Ty.castValue?, (hplain ht).trans hself, if_neg Bool.false_ne_true]

theorem emitCast_answers (hno : (node.ty.cast target).isError = false) :
    Does F b (emitCast x (node.ty.cast target)) fun z b' =>
      (Request.cast x target).AnsweredBy b.graph b'.graph z := by
  have hplain := plain_cast hn hno
  unfold emitCast
  split
  · exact constant_answers hb.dense fun _ _ hσ hv => (hplain hσ hv).1 ‹_›
  · refine look_bind (ty_of_get? hn) ?_
    split
    · exact .pure (answered_of_has ⟨_, hn⟩ fun _ _ hσ hv => (hplain hσ hv).2.1 ‹_›)
    · rename_i hshape
      rw [Bool.not_eq_true] at hshape
      refine (create_answers (r := .cast x target) hb.dense (List.forall_mem_singleton.2 ⟨_, hn⟩)
        fun ty' us hty => ⟨.cast x ty', rfl, fun σ v hσ hv => ?_⟩).bind ?_
      · change (do (← b.graph.get? x).ty.castValue? ty' (σ.value x)) = some v
        rw [hn]
        exact (hplain hσ hv).2.2 hshape ty' hty
      · rintro cast b' ⟨hcursor, hkeeps, hanswers⟩
        split
        · obtain ⟨g, hg⟩ := attachMemory_ok (e := ⟨b'.cursor.memory, none, .heap⟩)
            (hcursor ▸ hkeeps.has hb.memory) nofun cast
          refine Does.bind (threadMemory_ok hg (Q := fun _ b'' => b''.graph = g) rfl) ?_
          rintro _ b'' rfl
          refine .pure (hanswers _ fun hn => ?_)
          obtain ⟨us, hus, -⟩ := (attachMemory_spec hg).1.node hn
          exact ⟨us, hus⟩
        · exact .pure (hanswers _ fun hn => ⟨_, hn⟩)

/-! ### Aggregates -/

theorem projection_answers {i : Nat} (hno : (node.ty.element i).isError = false) :
    Does F b (make (.projection x i)) fun z b' =>
      (Request.projection x i).AnsweredBy b.graph b'.graph z := by
  have herror : node.ty.isError = false := by
    cases hty : node.ty <;> rw [hty] at hno <;> first | rfl | contradiction
  have hm := Ty.getElem?_members_of_element herror hno
  refine make_projection_does hn hm hno (fun hconst => ?_) (fun hop => ?_) ?_
  · refine constant_answers hb.dense fun σ v hσ hv => ?_
    rw [Request.plain?] at hv
    split at hv
    · rename_i vs hvs
      have haggregate := Ty.isAggregate_of_mem_members (List.mem_of_getElem? hm)
      have hdescribes := (hσ.admits hn (Ty.isValued_of_isAggregate haggregate)).1
      rw [hvs, Ty.describes_aggregate_iff haggregate] at hdescribes
      exact (hdescribes.getElem? hm hv).value?_eq hconst
    · contradiction
  · obtain ⟨y, hy, hat⟩ := hb.builds hn hop hm
    refine ⟨y, hy, answered_of_has hat.has fun σ v hσ hv => ?_⟩
    have hvalue : σ.value x = .aggregate (node.inputs.map σ.value) := by
      refine hσ.plain (r := .build node.ty node.inputs) hn ?_ rfl
      rw [Node.request?, hop]
    rw [Request.plain?, hvalue] at hv
    simpa [hy] using hv
  · exact operator_answers hb.dense (List.forall_mem_singleton.2 ⟨_, hn⟩) fun _ _ => rfl

end

theorem build_answers {shape : Ty} {members : List NodeId} (haggregate : shape.isAggregate = true)
    (hfields : shape.HasFields fields) (hts : b.graph.Typed members ts)
    (hno : (inferBuild shape ts).isError = false) :
    Does F b (emit (.build shape members) (inferBuild shape ts)) fun x b' =>
      (Request.build shape members).AnsweredBy b.graph b'.graph x := by
  obtain ⟨-, hlength, heq⟩ := inferBuild_of_not_error hno
  have hmembers := hfields.members_withMembers haggregate hlength
  have haggregate := Ty.isAggregate_withMembers haggregate ts
  rw [heq]
  unfold emit
  dsimp only
  split
  · rename_i hconst
    refine constant_answers hb.dense fun σ v hσ hv => ?_
    cases hv
    refine Ty.Describes.value?_eq ?_ hconst
    rw [Ty.isConstant_iff_members haggregate, hmembers] at hconst
    rw [Ty.describes_aggregate_iff haggregate, hmembers]
    exact hσ.describesAll hts hconst
  · refine (create_answers hb.dense (fun x hx => (hts.at x hx).has) fun ty' us _ =>
      ⟨.build ty' members, rfl, fun _ _ _ hv => hv⟩).imp fun _ _ h => h.2.2 _ fun hn => ⟨_, hn⟩

/-! ### Phis -/

theorem newPhi_answers {kind : PhiKind} (hx : b.graph.Has x) (hcases : ∀ y ∈ cases, b.graph.Has y)
    (ty : Ty) : Does F b (newPhi x cases ty) fun z b' =>
      (Request.phi x cases kind).AnsweredBy b.graph b'.graph z := by
  refine (create_answers hb.dense (List.forall_mem_cons.2 ⟨hx, hcases⟩) fun ty' us _ =>
    ⟨.phi x cases .value, rfl, fun _ _ _ hv => hv⟩).bind ?_
  rintro phi b' ⟨-, hkeeps, hanswers⟩
  obtain ⟨g, hg⟩ := attachControl_ok (hkeeps.has hx) phi
  refine Does.bind (.edit (bind_eq_ok_iff.2 ⟨g, hg, rfl⟩)
    (Q := fun _ b'' => b''.graph = g.setPhiRegion phi x) rfl) ?_
  rintro _ b'' hb''
  refine .pure (hanswers _ fun hn => ?_)
  obtain ⟨us, hus, -⟩ := (attachControl_spec hg).1.node hn
  rw [hb'']
  exact ⟨us, hus⟩

theorem emitPhi_answers {kind : PhiKind} (hx : b.graph.Has x) (hcases : ∀ y ∈ cases, b.graph.Has y)
    (hconst : (∀ ty, kind ≠ .loop ty) → ty.isConstant = true → ∀ {σ}, b.graph.Allows σ →
      ∀ y ∈ cases, ty.value? = some (σ.value y)) :
    Does F b (emitPhi x cases kind ty) fun z b' =>
      (Request.phi x cases kind).AnsweredBy b.graph b'.graph z := by
  unfold emitPhi
  split
  · exact newPhi_answers hb hx hcases ty
  · rename_i hkind
    split
    · rename_i id hid
      obtain ⟨rest, rfl, hrest⟩ := allSame_eq_some hid
      refine .pure (answered_of_has (hcases id (.head _)) fun σ v hσ hv => ?_)
      obtain ⟨y, hy, rfl⟩ := Option.map_eq_some_iff.1 hv
      rcases List.mem_cons.1 (List.mem_of_getElem? hy) with rfl | hmem
      · rfl
      · rw [hrest y hmem]
    · split
      · refine constant_answers hb.dense fun σ v hσ hv => ?_
        obtain ⟨y, hy, rfl⟩ := Option.map_eq_some_iff.1 hv
        exact hconst hkind ‹_› hσ y (List.mem_of_getElem? hy)
      · exact newPhi_answers hb hx hcases ty

end

theorem value?_inferCases (hts : b.graph.Typed cases ts)
    (hfields : ∀ t ∈ ts, t.Throughout (Ty.HasFields fields)) (hno : (inferCases ts).isError = false)
    (hconst : (inferCases ts).isConstant = true) {σ : Meaning} (hσ : b.graph.Allows σ)
    (hx : x ∈ cases) : (inferCases ts).value? = some (σ.value x) := by
  obtain ⟨node, hn, hmem⟩ := hts.at x hx
  have hadmits := fun h => (hσ.admits hn h).1
  cases ts with
  | nil => simp at hmem
  | cons t ts =>
    refine (Ty.permits_inferCases hfields hno ?_ (Ty.isValued_of_isConstant hconst)).value?_eq hconst
    rcases List.mem_cons.1 hmem with rfl | hmem
    · exact .inl fun h => (hadmits h).permits
    · exact .inr ⟨_, hmem, hadmits⟩

/-- Simplification keeps values: a request for an operator, an aggregate or a phi that is no error is
answered by a node with the value that the plain operator gives. -/
theorem make_answers (hb : b.Typed) (hr : r.IsPlain fields b.graph)
    (hinfer : r.infer b.graph = .ok ty) (hno : ty.isError = false) :
    ∃ x b', make r b = .ok (x, b') ∧ r.AnsweredBy b.graph b'.graph x := by
  suffices hdoes : Does (fun _ => False) b (make r) fun x b' => r.AnsweredBy b.graph b'.graph x by
    obtain ⟨⟨x, b'⟩, hrun, hanswers⟩ := hdoes.exists_ok
    exact ⟨x, b', hrun, hanswers⟩
  cases r with
  | binary op x y | compare op x y =>
    obtain ⟨s, hs, h⟩ := bind_eq_ok_iff.1 hinfer
    obtain ⟨t, ht, h⟩ := bind_eq_ok_iff.1 h
    obtain ⟨left, hleft, rfl⟩ := ty_eq_ok_iff.1 hs
    obtain ⟨right, hright, rfl⟩ := ty_eq_ok_iff.1 ht
    cases h
    refine make_emits hinfer hno ?_
    first
      | exact emitBinary_answers hb hleft hright hno
      | exact emitCompare_answers hb hleft hright hno
  | unary op x | cast x target | projection x i =>
    obtain ⟨s, hs, h⟩ := bind_eq_ok_iff.1 hinfer
    obtain ⟨node, hn, rfl⟩ := ty_eq_ok_iff.1 hs
    cases h
    first
      | exact make_emits hinfer hno (emitUnary_answers hb hn hno)
      | exact make_emits hinfer hno (emitCast_answers hb hn hno)
      | exact projection_answers hb hn hno
  | build shape members =>
    obtain ⟨ts, hts, h⟩ := bind_eq_ok_iff.1 hinfer
    cases h
    exact make_emits hinfer hno (build_answers hb hr.1 hr.2 (.of_mapM hts) hno)
  | phi x cases kind =>
    obtain ⟨hx, hcases⟩ := hr
    refine make_emits hinfer hno (emitPhi_answers hb hx (fun y hy => (hcases y hy).has) ?_)
    intro hkind hconst σ hσ y hy
    cases kind with
    | memory =>
      cases hinfer
      contradiction
    | loop ty => exact absurd rfl (hkind ty)
    | value =>
      obtain ⟨ts, hts, h⟩ := bind_eq_ok_iff.1 hinfer
      cases h
      have htyped := Typed.of_mapM hts
      exact value?_inferCases htyped (htyped.forall hcases) hno hconst hσ hy
  | _ => exact hr.elim

/-- The negation of a number that is loaded from memory. -/
def negation : BuildM NodeId := do
  let base ← make (.alloca (.int .int .bottom))
  let x ← make (.load base 0 (.int .int .bottom))
  make (.unary .negate x)

/-- The number is 5. -/
def negationMeaning : Meaning where
  value x := match x.index with
    | 1 => .pointer (some 0)
    | 2 => .int 5
    | _ => .int (-5)
  arrival _ := 0

/-- The negation of a negation is found to be the number itself. -/
theorem make_answers_negation : ∃ b x b', negation .initial = .ok (⟨3, 0⟩, b) ∧ b.Reached ∧
    b.graph.Allows negationMeaning ∧ make (.unary .negate ⟨3, 0⟩) b = .ok (x, b') ∧
    b.graph.Has x ∧ negationMeaning.value x = .int 5 := by
  have hrun : ∃ b x b', negation .initial = .ok (⟨3, 0⟩, b) ∧
      b.graph.ids = [⟨0, 0⟩, ⟨1, 0⟩, ⟨2, 0⟩, ⟨3, 0⟩] ∧
      (∃ us, b.graph.get? ⟨0, 0⟩ = some ⟨.start, .live, [], us, false⟩) ∧
      (∃ us, b.graph.get? ⟨1, 0⟩ =
        some ⟨.alloca 0, .pointer (.int .int .bottom) .bottom, [], us, false⟩) ∧
      (∃ us, b.graph.get? ⟨2, 0⟩ = some ⟨.load 0, .int .int .bottom, [⟨1, 0⟩], us, false⟩) ∧
      (∃ us, b.graph.get? ⟨3, 0⟩ = some ⟨.unary .negate, .int .int .bottom, [⟨2, 0⟩], us, false⟩) ∧
      b.graph.Has b.cursor.memory ∧ make (.unary .negate ⟨3, 0⟩) b = .ok (x, b') ∧ b.graph.Has x :=
    ⟨_, _, _, rfl, rfl, ⟨_, rfl⟩, ⟨_, rfl⟩, ⟨_, rfl⟩, ⟨_, rfl⟩, ⟨_, rfl⟩, rfl, ⟨_, rfl⟩⟩
  obtain ⟨b, x, b', hb, hids, ⟨_, h0⟩, ⟨_, h1⟩, ⟨_, h2⟩, ⟨_, h3⟩, hmemory, hmake, hx⟩ := hrun
  have hsteps : Does AnyFault .initial negation fun _ b' => b'.Reached :=
    (Builder.Reached.initial.makes rfl).bind fun _ _ h => (h.makes rfl).bind fun _ _ h => h.makes rfl
  have hreached : b.Reached := hsteps.result hb
  have hallows : b.graph.Allows negationMeaning := by
    refine allows_of_ids fun x hx node hn => ?_
    rw [hids] at hx
    simp only [List.mem_cons, List.not_mem_nil, or_false] at hx
    obtain rfl | rfl | rfl | rfl := hx
    · cases h0.symm.trans hn
      exact ⟨nofun, nofun⟩
    · cases h1.symm.trans hn
      exact ⟨fun _ => ⟨trivial, trivial⟩, nofun⟩
    · cases h2.symm.trans hn
      exact ⟨fun _ => Ty.admits_int_iff.2 ⟨by decide, trivial⟩, nofun⟩
    · cases h3.symm.trans hn
      refine ⟨fun _ => Ty.admits_int_iff.2 ⟨by decide, trivial⟩, fun r v hr hv => ?_⟩
      cases hr
      have hvalue : UnaryOp.result? .negate (.int .int (.const 5)) = some (.int (-5)) := rfl
      rw [Request.plain?, known?, h2] at hv
      exact Option.some.inj (hvalue.symm.trans hv)
  have hplain : (Request.unary .negate ⟨3, 0⟩).IsPlain (fun _ => []) b.graph := trivial
  obtain ⟨y, c, hrun, hanswers⟩ := make_answers (hreached.typed hmemory) hplain
    (bind_eq_ok_iff.2 ⟨_, ty_of_get? h3, rfl⟩) rfl
  cases hmake.symm.trans hrun
  refine ⟨b, x, b', hb, hreached, hallows, hmake, hx, ?_⟩
  have hvalue : (Request.unary .negate ⟨3, 0⟩).plain? b.graph negationMeaning = some (.int 5) := by
    rw [Request.plain?, known?, h3]
    rfl
  rcases hanswers hallows hvalue with ⟨-, hvalue⟩ | ⟨hnot, -⟩
  · exact hvalue
  · exact absurd hx hnot

/-- Two structs of one name, where the second has one more field, and a place where paths meet. -/
def unevenStructs : BuildM NodeId := do
  let _ ← make (.constant (.struct "S" ["a"] [.int .int (.const 1)]))
  let _ ← make (.constant (.struct "S" ["a", "b"] [.int .int (.const 1), .int .int (.const 2)]))
  make (.region [⟨0, 0⟩])

/-- Control comes from the path of the second struct. -/
def unevenMeaning : Meaning where
  value x := match x.index with
    | 1 => .aggregate [.int 1]
    | _ => .aggregate [.int 1, .int 2]
  arrival _ := 1

/-- The phi of two structs of one name with different fields is found to be a constant without the
field that only one of them has. -/
theorem not_make_answers : ∃ b ty x b', b.Typed ∧
    (Request.phi ⟨3, 0⟩ [⟨1, 0⟩, ⟨2, 0⟩] .value).infer b.graph = .ok ty ∧ ty.isError = false ∧
    make (.phi ⟨3, 0⟩ [⟨1, 0⟩, ⟨2, 0⟩] .value) b = .ok (x, b') ∧
    ¬ (Request.phi ⟨3, 0⟩ [⟨1, 0⟩, ⟨2, 0⟩] .value).AnsweredBy b.graph b'.graph x := by
  have hrun : ∃ b b', unevenStructs .initial = .ok (⟨3, 0⟩, b) ∧
      b.graph.ids = [⟨0, 0⟩, ⟨1, 0⟩, ⟨2, 0⟩, ⟨3, 0⟩] ∧
      (∃ us, b.graph.get? ⟨0, 0⟩ = some ⟨.start, .live, [], us, false⟩) ∧
      (∃ us, b.graph.get? ⟨1, 0⟩ =
        some ⟨.constant, .struct "S" ["a"] [.int .int (.const 1)], [], us, false⟩) ∧
      (∃ us, b.graph.get? ⟨2, 0⟩ = some ⟨.constant,
        .struct "S" ["a", "b"] [.int .int (.const 1), .int .int (.const 2)], [], us, false⟩) ∧
      (∃ us, b.graph.get? ⟨3, 0⟩ = some ⟨.region, .live, [⟨0, 0⟩], us, false⟩) ∧
      b.graph.Has b.cursor.memory ∧
      make (.phi ⟨3, 0⟩ [⟨1, 0⟩, ⟨2, 0⟩] .value) b = .ok (⟨4, 0⟩, b') ∧ ¬ b.graph.Has ⟨4, 0⟩ ∧
      (∃ us, b'.graph.get? ⟨4, 0⟩ =
        some ⟨.constant, .struct "S" ["a"] [.int .int (.const 1)], [], us, false⟩) :=
    ⟨_, _, rfl, rfl, ⟨_, rfl⟩, ⟨_, rfl⟩, ⟨_, rfl⟩, ⟨_, rfl⟩, ⟨_, rfl⟩, rfl, by decide, ⟨_, rfl⟩⟩
  obtain ⟨b, b', hb, hids, ⟨_, h0⟩, ⟨_, h1⟩, ⟨_, h2⟩, ⟨_, h3⟩, hmemory, hmake, hnot, _, h4⟩ := hrun
  have hsteps : Does AnyFault .initial unevenStructs fun _ b' => b'.Reached :=
    (Builder.Reached.initial.makes rfl).bind fun _ _ h => (h.makes rfl).bind fun _ _ h => h.makes rfl
  have hallows : b.graph.Allows unevenMeaning := by
    refine allows_of_ids fun x hx node hn => ?_
    rw [hids] at hx
    simp only [List.mem_cons, List.not_mem_nil, or_false] at hx
    obtain rfl | rfl | rfl | rfl := hx
    · cases h0.symm.trans hn
      exact ⟨nofun, nofun⟩
    · cases h1.symm.trans hn
      refine ⟨fun _ => ⟨⟨⟨by decide, rfl⟩, trivial⟩, trivial⟩, fun r v hr hv => ?_⟩
      cases hr
      exact Option.some.inj hv
    · cases h2.symm.trans hn
      refine ⟨fun _ => ⟨⟨⟨by decide, rfl⟩, ⟨by decide, rfl⟩, trivial⟩, trivial⟩, fun r v hr hv => ?_⟩
      cases hr
      exact Option.some.inj hv
    · cases h3.symm.trans hn
      exact ⟨nofun, nofun⟩
  have htypes : b.graph.Typed [⟨1, 0⟩, ⟨2, 0⟩] _ :=
    .cons (ty_of_get? h1) (.cons (ty_of_get? h2) .nil)
  refine ⟨b, _, _, b', (hsteps.result hb).typed hmemory, bind_eq_ok_iff.2 ⟨_, htypes.mapM, rfl⟩, rfl,
    hmake, fun hanswers => ?_⟩
  rcases hanswers hallows rfl with ⟨hhas, -⟩ | ⟨-, node, r', hn, hr', hplain⟩
  · exact hnot hhas
  · cases h4.symm.trans hn
    cases hr'
    cases hplain

end BuildM

end SeaOfNodes
