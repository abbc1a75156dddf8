import SeaOfNodes.Proofs.Build.Operator

/-!
Formulas of operators over shared leaves. Requests build the nodes of a formula, and types evaluate
it. However many identities the requests make use of, the node at the root computes what the formula
is evaluated to (`make_forms`). Over leaves that are constants, a formula whose value is an error
becomes the node of an error (`make_leads`).
-/
namespace SeaOfNodes

open SeaOfNodes.Graph SeaOfNodes.Ty

inductive Formula (n : Nat) where
  | leaf (i : Fin n)
  | binary (op : BinaryOp) (lhs rhs : Formula n)
  | unary (op : UnaryOp) (operand : Formula n)
  | compare (op : CompareOp) (lhs rhs : Formula n)
  | cast (value : Formula n) (target : Ty)
  | build (shape : Ty) (members : List (Formula n))
  | projection (value : Formula n) (index : Nat)

namespace Formula

variable {n : Nat}

mutual

/-- The node of a formula over nodes. -/
def make (leaves : Fin n → NodeId) : Formula n → BuildM NodeId
  | leaf i => return leaves i
  | binary op lhs rhs => do
    let lhs ← lhs.make leaves
    let rhs ← rhs.make leaves
    BuildM.make (.binary op lhs rhs)
  | unary op operand => do
    let operand ← operand.make leaves
    BuildM.make (.unary op operand)
  | compare op lhs rhs => do
    let lhs ← lhs.make leaves
    let rhs ← rhs.make leaves
    BuildM.make (.compare op lhs rhs)
  | cast value target => do
    let value ← value.make leaves
    BuildM.make (.cast value target)
  | build shape members => do
    let members ← makeAll leaves members
    BuildM.make (.build shape members)
  | projection value index => do
    let value ← value.make leaves
    BuildM.make (.projection value index)

def makeAll (leaves : Fin n → NodeId) : List (Formula n) → BuildM (List NodeId)
  | [] => return []
  | t :: ts => do
    let x ← t.make leaves
    let xs ← makeAll leaves ts
    return x :: xs

end

mutual

def eval (values : Fin n → Ty) : Formula n → Ty
  | leaf i => values i
  | binary op lhs rhs => .binary op (lhs.eval values) (rhs.eval values)
  | unary op operand => .unary op (operand.eval values)
  | compare op lhs rhs => .compare op (lhs.eval values) (rhs.eval values)
  | cast value target => (value.eval values).cast target
  | build shape members => inferBuild shape (evalAll values members)
  | projection value index => (value.eval values).element index

def evalAll (values : Fin n → Ty) : List (Formula n) → List Ty
  | [] => []
  | t :: ts => t.eval values :: evalAll values ts

end

mutual

/-- Whether a formula builds aggregates only, of types that are no errors. -/
def isShaped : Formula n → Bool
  | leaf _ => true
  | binary _ lhs rhs | compare _ lhs rhs => lhs.isShaped && rhs.isShaped
  | unary _ operand => operand.isShaped
  | cast value _ | projection value _ => value.isShaped
  | build shape members => shape.isAggregate && shape.isErrorFree && allShaped members

def allShaped : List (Formula n) → Bool
  | [] => true
  | t :: ts => t.isShaped && allShaped ts

end

end Formula

variable {R : Ty → Ty → Prop} {V : NodeId → Option Ty} {F : Fault → Prop} {b b' b'' : Builder}
  {g g' : Graph} {x : NodeId} {xs ys L : List NodeId} {e : Ty} {es fs args : List Ty} {n : Nat}

/-! ### Values that are no errors -/

/-- Nodes were built that compute `es`, by new operators that are each used once. -/
structure Forms (R : Ty → Ty → Prop) (V : NodeId → Option Ty) (b : Builder) (es : List Ty)
    (xs : List NodeId) (b' : Builder) : Prop where
  isOpen : b'.Open
  graph : Extends b.graph b'.graph
  computes : ∃ L, Computes R V b'.graph xs es L ∧ L.Nodup ∧ ∀ y ∈ L, ¬ b.graph.Has y

namespace Forms

theorem operator {m : BuildM NodeId} (h : Forms R V b args xs b')
    (hm : ∀ L, Computes R V b'.graph xs args L → L.Nodup →
      Does F b' m fun x b'' => Meets R V b' L e x b'') :
    Does F b' m fun x b'' => Forms R V b [e] [x] b'' := by
  obtain ⟨L, hcomputes, hnodup, hnew⟩ := h.computes
  refine (hm L hcomputes hnodup).imp fun x b'' hx => ?_
  refine ⟨hx.isOpen, h.graph.trans hx.graph, ?_⟩
  obtain ⟨L', hcomputes', hsub | ⟨hfresh, rfl⟩⟩ := hx.computes
  · exact ⟨L', hcomputes', hnodup.sublist hsub, fun y hy => hnew y (hsub.subset hy)⟩
  · have hmem : x ∉ L := fun hmem => hfresh (hcomputes.has_of_mem hmem)
    refine ⟨x :: L, hcomputes', List.nodup_cons.2 ⟨hmem, hnodup⟩, ?_⟩
    exact List.forall_mem_cons.2 ⟨fun hhas => hfresh (h.graph.keeps.has hhas), hnew⟩

theorem nil (hb : b.Open) : Forms R V b [] [] b :=
  ⟨hb, .refl _, [], .nil, List.nodup_nil, List.forall_mem_nil _⟩

theorem append (h : Forms R V b es xs b') (h' : Forms R V b' fs ys b'') :
    Forms R V b (es ++ fs) (xs ++ ys) b'' := by
  obtain ⟨L, hcomputes, hnodup, hnew⟩ := h.computes
  obtain ⟨L', hcomputes', hnodup', hnew'⟩ := h'.computes
  refine ⟨h'.isOpen, h.graph.trans h'.graph, L ++ L', (hcomputes.extend h'.graph).append hcomputes', ?_,
    ?_⟩
  · refine List.nodup_append.2 ⟨hnodup, hnodup', ?_⟩
    intro y hy z hz heq
    exact hnew' z hz (heq ▸ hcomputes.has_of_mem hy)
  · intro y hy hhas
    rcases List.mem_append.1 hy with hy | hy
    · exact hnew y hy hhas
    · exact hnew' y hy (h.graph.keeps.has hhas)

end Forms

namespace Ty

variable {a c t target : Ty} {ts : List Ty}

theorem not_error_of_unary {op : UnaryOp} (h : (a.unary op).isError = false) : a.isError = false := by
  cases a <;> first | rfl | contradiction

theorem not_error_of_cast (h : (a.cast target).isError = false) : a.isError = false := by
  cases a <;> first | rfl | contradiction

theorem not_error_of_element {index : Nat} (h : (a.element index).isError = false) :
    a.isError = false := by
  cases a <;> first | rfl | contradiction

theorem not_error_of_firstError? (h : firstError? ts = none) : ∀ t ∈ ts, t.isError = false := by
  intro t ht
  exact Bool.eq_false_iff.2 (List.any_eq_false.1 (firstError?_eq_none_iff.1 h) t ht)

end Ty

/-- The leaves of a formula compute its values, as far as they are known. -/
structure Leaves (R : Ty → Ty → Prop) (V : NodeId → Option Ty) (leaves : Fin n → NodeId)
    (values : Fin n → Ty) (b : Builder) : Prop where
  isOpen : b.Open
  given : Given V b.graph
  computes : ∀ i, Computes R V b.graph [leaves i] [values i] []

theorem Leaves.extend {leaves : Fin n → NodeId} {values : Fin n → Ty} (h : Leaves R V leaves values b)
    (hb : b'.Open) (hext : Extends b.graph b'.graph) : Leaves R V leaves values b' :=
  ⟨hb, h.given.extend hext, fun i => (h.computes i).extend hext⟩

namespace Formula

variable {leaves : Fin n → NodeId} {values : Fin n → Ty}

mutual

theorem make_forms (hR : Reading R) {b : Builder} (hb : Leaves R V leaves values b) :
    (t : Formula n) → t.isShaped = true → (t.eval values).isError = false →
      Does F b (t.make leaves) fun x b' => Forms R V b [t.eval values] [x] b'
  | leaf i, _, _ =>
    .pure ⟨hb.isOpen, .refl _, [], hb.computes i, List.nodup_nil, List.forall_mem_nil _⟩
  | binary op lhs rhs, ht, he => by
    rw [isShaped, Bool.and_eq_true] at ht
    rw [eval] at he
    obtain ⟨hl, hr⟩ := not_error_of_binary he
    refine (make_forms hR hb lhs ht.1 hl).bind fun x b1 h1 => ?_
    refine (make_forms hR (hb.extend h1.isOpen h1.graph) rhs ht.2 hr).bind fun y b2 h2 => ?_
    have h := h1.append h2
    exact h.operator fun L hc hnodup =>
      BuildM.make_binary_meets hR h.isOpen (hb.given.extend h.graph) hc hnodup he
  | compare op lhs rhs, ht, he => by
    rw [isShaped, Bool.and_eq_true] at ht
    obtain ⟨hl, hr⟩ := not_error_of_compare he
    refine (make_forms hR hb lhs ht.1 hl).bind fun x b1 h1 => ?_
    refine (make_forms hR (hb.extend h1.isOpen h1.graph) rhs ht.2 hr).bind fun y b2 h2 => ?_
    have h := h1.append h2
    exact h.operator fun L hc hnodup =>
      BuildM.make_compare_meets hR h.isOpen (hb.given.extend h.graph) hc hnodup he
  | unary op operand, ht, he => by
    refine (make_forms hR hb operand ht (not_error_of_unary he)).bind fun x b1 h => ?_
    exact h.operator fun L hc _ => BuildM.make_unary_meets hR h.isOpen (hb.given.extend h.graph) hc he
  | cast value target, ht, he => by
    refine (make_forms hR hb value ht (not_error_of_cast he)).bind fun x b1 h => ?_
    exact h.operator fun L hc _ => BuildM.make_cast_meets hR h.isOpen (hb.given.extend h.graph) hc he
  | build shape members, ht, he => by
    rw [isShaped, Bool.and_eq_true, Bool.and_eq_true] at ht
    have hmembers := not_error_of_firstError? (inferBuild_of_not_error he).1
    refine (makeAll_forms hR hb members ht.2 hmembers).bind fun xs b1 h => ?_
    exact h.operator fun L hc _ =>
      BuildM.make_build_meets hR h.isOpen (hb.given.extend h.graph) hc ht.1.1 ht.1.2 he
  | projection value index, ht, he => by
    refine (make_forms hR hb value ht (not_error_of_element he)).bind fun x b1 h => ?_
    exact h.operator fun L hc _ => BuildM.make_projection_meets hR h.isOpen (hb.given.extend h.graph) hc he

theorem makeAll_forms (hR : Reading R) {b : Builder} (hb : Leaves R V leaves values b) :
    (ts : List (Formula n)) → allShaped ts = true → (∀ e ∈ evalAll values ts, e.isError = false) →
      Does F b (makeAll leaves ts) fun xs b' => Forms R V b (evalAll values ts) xs b'
  | [], _, _ => .pure (.nil hb.isOpen)
  | t :: ts, ht, he => by
    rw [allShaped, Bool.and_eq_true] at ht
    rw [evalAll, List.forall_mem_cons] at he
    refine (make_forms hR hb t ht.1 he.1).bind fun x b1 h1 => ?_
    refine (makeAll_forms hR (hb.extend h1.isOpen h1.graph) ts ht.2 he.2).bind fun xs b2 h2 => ?_
    exact .pure (h1.append h2)

end

end Formula

/-! ### Errors -/

/-- One type, or two errors. -/
def Ty.Agree (t e : Ty) : Prop := t = e ∨ t.isError = true ∧ e.isError = true

namespace Ty.Agree

variable {t s e f : Ty} {ts es : List Ty}

theorem isError_eq (h : Agree t e) : t.isError = e.isError := by
  rcases h with rfl | ⟨ht, he⟩
  · rfl
  · rw [ht, he]

theorem map {f : Ty → Ty} (hf : ∀ {a}, (f a).isError = false → a.isError = false)
    (h : Agree t e) : Agree (f t) (f e) := by
  have herror : ∀ a, a.isError = true → (f a).isError = true := by
    intro a ha
    by_contra hnot
    simp [hf (Bool.eq_false_iff.2 hnot)] at ha
  rcases h with rfl | ⟨ht, he⟩
  · exact .inl rfl
  · exact .inr ⟨herror t ht, herror e he⟩

theorem map₂ {op : Ty → Ty → Ty}
    (hop : ∀ {a c}, (op a c).isError = false → a.isError = false ∧ c.isError = false)
    (h : Agree t e) (h' : Agree s f) : Agree (op t s) (op e f) := by
  have hleft : Agree (op t s) (op e s) := h.map fun h => (hop h).1
  have hright : Agree (op e s) (op e f) := h'.map fun h => (hop h).2
  rcases hleft with heq | ⟨hts, hes⟩
  · rw [heq]
    exact hright
  · exact .inr ⟨hts, hright.isError_eq ▸ hes⟩

theorem inferBuild {shape : Ty} (h : List.Forall₂ Agree ts es) :
    Agree (SeaOfNodes.inferBuild shape ts) (SeaOfNodes.inferBuild shape es) := by
  have hall : ts = es ∨ (∃ t ∈ ts, t.isError = true) ∧ ∃ e ∈ es, e.isError = true := by
    induction h with
    | nil => exact .inl rfl
    | @cons t e ts es hagree _ ih =>
      rcases hagree with rfl | ⟨ht, he⟩
      · rcases ih with rfl | ⟨⟨t', ht', herror⟩, e', he', herror'⟩
        · exact .inl rfl
        · exact .inr ⟨⟨t', List.mem_cons_of_mem _ ht', herror⟩, e', List.mem_cons_of_mem _ he', herror'⟩
      · exact .inr ⟨⟨t, List.mem_cons_self, ht⟩, e, List.mem_cons_self, he⟩
  have herror : ∀ us : List Ty, (∃ t ∈ us, t.isError = true) →
      (SeaOfNodes.inferBuild shape us).isError = true := by
    intro us hus
    obtain ⟨t, ht, herror⟩ := hus
    by_contra hnot
    have hfirst := (inferBuild_of_not_error (Bool.eq_false_iff.2 hnot)).1
    simp [not_error_of_firstError? hfirst t ht] at herror
  rcases hall with rfl | ⟨hts, hes⟩
  · exact .inl rfl
  · exact .inr ⟨herror ts hts, herror es hes⟩

end Ty.Agree

/-- A node was built for `e`, which is the node of an error if `e` is one. -/
structure Leads (b : Builder) (e : Ty) (x : NodeId) (b' : Builder) : Prop where
  isOpen : b'.Open
  graph : Extends b.graph b'.graph
  node : b'.graph.At x fun op ty => ty.Agree e ∧ (e.isError = true → op.isError = true)

theorem Leads.type (h : Leads b e x b') (hext : Extends b'.graph g) :
    ∃ t, g.ty x = .ok t ∧ t.Agree e := by
  obtain ⟨node, hn, hagree, -⟩ := hext.keeps.at h.node
  exact ⟨node.ty, ty_of_get? hn, hagree⟩

theorem Forms.leads (h : Forms (fun t e => t = e ∧ e.isDatum = true) V b [e] [x] b') :
    Leads b e x b' := by
  obtain ⟨L, hcomputes, -⟩ := h.computes
  cases hcomputes.reads with | cons hx _ =>
  obtain ⟨node, hn, -, hty, hdatum⟩ := hx
  refine ⟨h.isOpen, h.graph, node, hn, .inl hty, fun herror => ?_⟩
  simp [isError_of_isDatum hdatum] at herror

namespace BuildM

theorem newError_leads (hb : b.Open) (blame : Blame) :
    Does F b (newError blame) fun x b' => b'.Open ∧ Extends b.graph b'.graph ∧
      b'.graph.At x fun op ty => op.isError = true ∧ ty.isError = true := by
  unfold Does newError
  generalize blame.stamp b.graph.origins = stamped
  obtain ⟨blame, origins⟩ := stamped
  have hbuilt := hb.built.beside origins b.graph.deadNode
  obtain ⟨g', hg'⟩ := create_ok hbuilt.wellFormed.dense (List.forall_mem_nil _) (.error b.span)
    (.error blame)
  have hshaped : Node.Shaped ⟨.error b.span, ((error blame).stamp origins).1, [], [], false⟩ :=
    trivial
  have ha := Adds.create hbuilt hshaped hg'
  have hext : Extends b.graph g' :=
    ⟨ha.extend.node, ha.extend.control, ha.extend.memory, ha.extend.phiRegion⟩
  obtain ⟨us, hn⟩ := ha.node
  have herror : g'.At _ fun op ty => op.isError = true ∧ ty.isError = true := ⟨_, hn, rfl, rfl⟩
  refine Yields.bind_ok hg' ⟨⟨ha.built, hext.isState hb.memory, ?_⟩, hext, herror⟩
  intro entry hentry
  rcases List.mem_cons.1 hentry with rfl | hentry
  · exact herror
  · exact hext.keeps.at (hb.reported entry hentry)

theorem errorNode_leads (hb : b.Open) (blame : Blame) :
    Does F b (errorNode blame) fun x b' => b'.Open ∧ Extends b.graph b'.graph ∧
      b'.graph.At x fun op ty => op.isError = true ∧ ty.isError = true := by
  refine Does.get.bind ?_
  rintro b' _ ⟨rfl, rfl⟩
  dsimp only
  split
  · rename_i id hid
    obtain ⟨origin, -, hlookup⟩ := Option.bind_eq_some_iff.1 hid
    obtain ⟨l1, l2, heq, -⟩ := List.lookup_eq_some_iff.1 hlookup
    exact .pure ⟨hb, .refl _, hb.reported (origin, id) (by simp [heq])⟩
  · exact newError_leads hb blame

theorem make_error_leads {r : Request} {ty : Ty} (hb : b'.Open) (hext : Extends b.graph b'.graph)
    (hinfer : r.infer b'.graph = .ok ty) (hagree : ty.Agree e) (he : e.isError = true) :
    Does F b' (make r) fun x b'' => Leads b e x b'' := by
  have hty : ty.isError = true := hagree.isError_eq.trans he
  refine look_bind hinfer ?_
  split
  · refine (errorNode_leads hb _).imp fun x b'' hx => ⟨hx.1, hext.trans hx.2.1, ?_⟩
    exact hx.2.2.mono fun op ty hop => ⟨.inr ⟨hop.2, he⟩, fun _ => hop.1⟩
  · rename_i hnot
    cases ty <;> first | contradiction | exact absurd rfl (hnot _)

end BuildM

namespace Formula

variable {leaves : Fin n → NodeId} {values : Fin n → Ty}

mutual

theorem make_leads {b : Builder} (hb : Leaves (fun t e => t = e ∧ e.isDatum = true) V leaves values b)
    (t : Formula n) (ht : t.isShaped = true) :
    Does F b (t.make leaves) fun x b' => Leads b (t.eval values) x b' := by
  cases he : (t.eval values).isError with
  | false => exact (make_forms reading_eq hb t ht he).imp fun x b' h => h.leads
  | true =>
    match t with
    | leaf i =>
      obtain ⟨t, -, -, hdatum⟩ := (hb.computes i).type
      simp [eval, isError_of_isDatum hdatum] at he
    | binary op lhs rhs =>
      rw [isShaped, Bool.and_eq_true] at ht
      refine (make_leads hb lhs ht.1).bind fun x b1 h1 => ?_
      refine (make_leads (hb.extend h1.isOpen h1.graph) rhs ht.2).bind fun y b2 h2 => ?_
      obtain ⟨t, hx, hxt⟩ := h1.type h2.graph
      obtain ⟨s, hy, hys⟩ := h2.type (.refl _)
      exact BuildM.make_error_leads h2.isOpen (h1.graph.trans h2.graph)
        (bind_eq_ok_iff.2 ⟨t, hx, bind_eq_ok_iff.2 ⟨s, hy, rfl⟩⟩) (hxt.map₂ not_error_of_binary hys) he
    | compare op lhs rhs =>
      rw [isShaped, Bool.and_eq_true] at ht
      refine (make_leads hb lhs ht.1).bind fun x b1 h1 => ?_
      refine (make_leads (hb.extend h1.isOpen h1.graph) rhs ht.2).bind fun y b2 h2 => ?_
      obtain ⟨t, hx, hxt⟩ := h1.type h2.graph
      obtain ⟨s, hy, hys⟩ := h2.type (.refl _)
      exact BuildM.make_error_leads h2.isOpen (h1.graph.trans h2.graph)
        (bind_eq_ok_iff.2 ⟨t, hx, bind_eq_ok_iff.2 ⟨s, hy, rfl⟩⟩) (hxt.map₂ not_error_of_compare hys) he
    | unary op operand =>
      refine (make_leads hb operand ht).bind fun x b1 h1 => ?_
      obtain ⟨t, hx, hxt⟩ := h1.type (.refl _)
      exact BuildM.make_error_leads h1.isOpen h1.graph (bind_eq_ok_iff.2 ⟨t, hx, rfl⟩)
        (hxt.map not_error_of_unary) he
    | cast value target =>
      refine (make_leads hb value ht).bind fun x b1 h1 => ?_
      obtain ⟨t, hx, hxt⟩ := h1.type (.refl _)
      exact BuildM.make_error_leads h1.isOpen h1.graph (bind_eq_ok_iff.2 ⟨t, hx, rfl⟩)
        (hxt.map not_error_of_cast) he
    | projection value index =>
      refine (make_leads hb value ht).bind fun x b1 h1 => ?_
      obtain ⟨t, hx, hxt⟩ := h1.type (.refl _)
      exact BuildM.make_error_leads h1.isOpen h1.graph (bind_eq_ok_iff.2 ⟨t, hx, rfl⟩)
        (hxt.map not_error_of_element) he
    | build shape members =>
      rw [isShaped, Bool.and_eq_true] at ht
      refine (makeAll_leads hb members ht.2).bind fun xs b1 h1 => ?_
      obtain ⟨hopen, hext, ts, htyped, hagree⟩ := h1
      exact BuildM.make_error_leads hopen hext (bind_eq_ok_iff.2 ⟨ts, htyped.mapM, rfl⟩)
        (.inferBuild hagree) he

theorem makeAll_leads {b : Builder}
    (hb : Leaves (fun t e => t = e ∧ e.isDatum = true) V leaves values b) :
    (ts : List (Formula n)) → allShaped ts = true →
      Does F b (makeAll leaves ts) fun xs b' => b'.Open ∧ Extends b.graph b'.graph ∧
        ∃ us, b'.graph.Typed xs us ∧ List.Forall₂ Ty.Agree us (evalAll values ts)
  | [], _ => .pure ⟨hb.isOpen, .refl _, [], .nil, .nil⟩
  | t :: ts, ht => by
    rw [allShaped, Bool.and_eq_true] at ht
    refine (make_leads hb t ht.1).bind fun x b1 h1 => ?_
    refine (makeAll_leads (hb.extend h1.isOpen h1.graph) ts ht.2).bind fun xs b2 h2 => ?_
    obtain ⟨hopen, hext, us, htyped, hagree⟩ := h2
    obtain ⟨u, hu, hagree1⟩ := h1.type hext
    exact .pure ⟨hopen, h1.graph.trans hext, u :: us, .cons hu htyped, .cons hagree1 hagree⟩

end

end Formula

end SeaOfNodes
