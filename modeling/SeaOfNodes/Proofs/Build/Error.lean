import Mathlib.Data.List.Dedup
import SeaOfNodes.Compile
import SeaOfNodes.Proofs.Build.Construct
import SeaOfNodes.Proofs.Ty.Blame

/-!
Errors are reported once. Every error that is the type of a node has a number, and the builder knows
the node of that number. So a request with an operand that is an error finds the node of the error,
whatever it asks for, and a graph has one diagnostic for each error (`make_error_operand`).
-/
namespace SeaOfNodes

open SeaOfNodes.Graph

theorem Ty.parts_unary {t : Ty} {op : UnaryOp} (h : (t.unary op).isError = false) :
    (t.unary op).parts = [] := by
  have hturns := turns_unary h
  generalize t.unary op = r at hturns
  cases hturns <;> rfl

/-- The node of an aggregate or of a unary operator has the type that its inputs give. -/
def Graph.Types (g : Graph) (op : Op) (ty : Ty) (inputs : List NodeId) : Prop :=
  match op with
  | .build => ∀ {i : Nat} {m : Ty}, ty.members[i]? = some m →
    ∃ y, inputs[i]? = some y ∧ g.At y fun _ t => t.plain = m.plain
  | .unary op => ∃ y, inputs = [y] ∧ g.At y fun _ t => ty = t.unary op
  | _ => True

theorem Graph.Types.keeps {g g' : Graph} {op : Op} {ty : Ty} {inputs : List NodeId}
    (h : g.Types op ty inputs) (hkeeps : Keeps g g') : g'.Types op ty inputs := by
  cases op with
  | build =>
    intro i m hm
    obtain ⟨y, hy, hat⟩ := h hm
    exact ⟨y, hy, hkeeps.at hat⟩
  | unary op =>
    obtain ⟨y, hy, hat⟩ := h
    exact ⟨y, hy, hkeeps.at hat⟩
  | _ => trivial

/-- The operators of nodes with any types. -/
def Op.isLoose : Op → Bool
  | .error _ | .build | .unary _ => false
  | _ => true

theorem Op.isError_of_isLoose {op : Op} (h : op.isLoose = true) : op.isError = false := by
  cases op <;> first | rfl | contradiction

theorem Graph.types_of_isLoose {op : Op} (h : op.isLoose = true) (g : Graph) (ty : Ty)
    (inputs : List NodeId) : g.Types op ty inputs := by
  cases op <;> trivial

namespace Builder

/-- The node of an error is in the table of errors, by its number. -/
def Tabled (reported : List (Nat × NodeId)) (id : NodeId) (node : Node) : Prop :=
  ∃ span e k, node.op = .error span ∧ node.ty = .error e ∧ e.origin = some k ∧ (k, id) ∈ reported

/-- All errors among the nodes are in the table, which has one entry for each number, and the other
nodes are typed. -/
structure Attributed (b : Builder) : Prop where
  dense : b.graph.Dense
  node : ∀ {id node}, b.graph.get? id = some node → node.replaced = false ∧
    node.ty.Below b.graph.origins ∧
      (node.op.isError = false ∧ node.ty.isError = false ∨ Tabled b.reported id node)
  types : ∀ {id node}, b.graph.get? id = some node → b.graph.Types node.op node.ty node.inputs
  counted : ∀ entry ∈ b.reported, entry.1 < b.graph.origins ∧
    b.graph.At entry.2 fun _ ty => ty.isError = true
  keys : (b.reported.map Prod.fst).Nodup

namespace Attributed

variable {b b' : Builder} {id x : NodeId} {node : Node} {g : Graph}

theorem initial : Builder.initial.Attributed where
  dense := Dense.added ⟨rfl, fun x => by simp [Has, get?, empty]⟩ .start .live []
  node h := by
    rw [show Builder.initial.graph = empty.added .start .live [] from rfl, get?_added] at h
    split at h
    · cases h
      exact ⟨rfl, Ty.below_of_isNew rfl, .inl ⟨rfl, rfl⟩⟩
    · simp [get?, empty] at h
  types h := by
    rw [show Builder.initial.graph = empty.added .start .live [] from rfl, get?_added] at h
    split at h
    · cases h
      trivial
    · simp [get?, empty] at h
  counted := nofun
  keys := .nil

theorem change (h : b.Attributed) (hreported : b'.reported = b.reported) (hd : b'.graph.Dense)
    (hle : b.graph.origins ≤ b'.graph.origins) (hkeeps : Keeps b.graph b'.graph)
    (hnode : ∀ {id node}, b'.graph.get? id = some node →
      (∃ users, b.graph.get? id = some { node with users := users }) ∨
      node.replaced = false ∧ node.ty.Below b'.graph.origins ∧
        node.op.isError = false ∧ node.ty.isError = false ∧
        b'.graph.Types node.op node.ty node.inputs) : b'.Attributed where
  dense := hd
  node hn := by
    rcases hnode hn with ⟨users, hold⟩ | ⟨hlive, hbelow, hop, hty, -⟩
    · obtain ⟨hlive, hbelow, herror⟩ := h.node hold
      exact ⟨hlive, hbelow.mono hle, by rwa [hreported]⟩
    · exact ⟨hlive, hbelow, .inl ⟨hop, hty⟩⟩
  types hn := by
    rcases hnode hn with ⟨users, hold⟩ | ⟨-, -, -, -, htypes⟩
    · exact (h.types hold).keeps hkeeps
    · exact htypes
  counted entry hentry := by
    obtain ⟨hlt, hat⟩ := h.counted entry (hreported ▸ hentry)
    exact ⟨Nat.lt_of_lt_of_le hlt hle, hkeeps.at hat⟩
  keys := by rw [hreported]; exact h.keys

theorem enters {c : Builder} (h : b.Attributed) (hreported : c.reported = b.reported)
    (he : Enters g c.graph) (hslots : g.slots = b.graph.slots) (hfree : g.free = b.graph.free)
    (horigins : g.origins = b.graph.origins) : c.Attributed := by
  have hget : ∀ x, g.get? x = b.graph.get? x := fun x => by simp only [get?, hslots]
  have hd : g.Dense := by
    refine ⟨hfree.trans h.dense.free, fun x => ?_⟩
    rw [has_iff_isSome, hget, ← has_iff_isSome, h.dense.has_iff, hslots]
  refine h.change hreported (hd.enters he) (by rw [he.frame, horigins]) ?_ fun {id node} hn => .inl ?_
  · exact Keeps.trans ⟨fun {x node} hn => ⟨node, (hget x).trans hn, rfl, rfl⟩⟩ he.keeps
  · obtain ⟨users, hn⟩ := he.node_back hn
    exact ⟨users, hget id ▸ hn⟩

theorem eq_of_mem (h : b.Attributed) {k : Nat} (hx : (k, x) ∈ b.reported)
    (hid : (k, id) ∈ b.reported) : x = id :=
  congrArg Prod.snd (List.inj_on_of_nodup_map h.keys hx hid rfl)

theorem lookup_eq (h : b.Attributed) {k : Nat} (hid : (k, id) ∈ b.reported) :
    b.reported.lookup k = some id := by
  cases hlookup : b.reported.lookup k with
  | none => exact absurd rfl (bne_iff_ne.1 (List.lookup_eq_none_iff.1 hlookup _ hid))
  | some x =>
    obtain ⟨l1, l2, heq, -⟩ := List.lookup_eq_some_iff.1 hlookup
    rw [h.eq_of_mem (x := x) (by simp [heq]) hid]

end Attributed

end Builder

open SeaOfNodes.Builder

/-- A step keeps the table of errors complete when the errors it is given have numbers below `n`. -/
def Accounts {α : Type} (n : Nat) (m : BuildM α) : Prop :=
  ∀ b, b.Attributed → n ≤ b.graph.origins →
    Does AnyFault b m fun _ b' => b'.Attributed ∧ n ≤ b'.graph.origins

namespace Accounts

variable {α β : Type} {m : BuildM α} {f : α → BuildM β} {n : Nat}

@[simp] theorem pure (a : α) : Accounts n (Pure.pure a : BuildM α) := fun _ h hn => ⟨h, hn⟩

@[simp] theorem bind (hm : Accounts n m) (hf : ∀ a, Accounts n (f a)) : Accounts n (m >>= f) :=
  fun b hb hn => (hm b hb hn).bind fun a b' h => hf a b' h.1 h.2

@[simp] theorem map {f : α → β} (hm : Accounts n m) : Accounts n (f <$> m) := fun b hb hn =>
  Does.map (hm b hb hn)

@[simp] theorem look (f : Graph → Except Fault α) : Accounts n (BuildM.look f) := by
  intro b hb hn
  refine (Does.look_same f).imp ?_
  rintro _ _ rfl
  exact ⟨hb, hn⟩

@[simp] theorem get : Accounts n (MonadState.get : BuildM Builder) := fun _ hb hn => ⟨hb, hn⟩

@[simp] theorem ite {c : Prop} [Decidable c] {m' : BuildM α} (hm : Accounts n m)
    (hm' : Accounts n m') : Accounts n (if c then m else m') := by
  split
  · exact hm
  · exact hm'

theorem of_modify {f : Builder → Builder} (hgraph : ∀ b, (f b).graph = b.graph)
    (hreported : ∀ b, (f b).reported = b.reported) : Accounts n (modify f) := by
  refine fun b hb hn => .of_modify ⟨?_, by rwa [hgraph]⟩
  refine hb.change (hreported b) (hgraph b ▸ hb.dense) (by rw [hgraph]) ?_ fun {id node} h => .inl ?_
  · rw [hgraph]
    exact .refl _
  · exact ⟨node.users, by rw [hgraph] at h; exact h⟩

end Accounts

namespace BuildM

variable {n : Nat} {op : Op} {ty : Ty} {inputs : List NodeId} {b : Builder}

theorem attributed_create (hb : b.Attributed) (hn : n ≤ b.graph.origins) (hop : op.isError = false)
    (ht : ty.Below n) (hno : ty.isError = false)
    (htypes : ∀ ty', ty'.plain = ty.plain → b.graph.Types op ty' inputs) :
    Does AnyFault b (create op ty inputs) fun _ b' => b'.Attributed ∧ n ≤ b'.graph.origins := by
  refine (create_creates op ty inputs).imp ?_
  rintro id b' ⟨hb', hc⟩
  obtain ⟨-, henters, -⟩ := create_spec hb.dense hc
  obtain ⟨hle, hbelow⟩ := Ty.below_stamp (ht.mono hn)
  have hplain := Ty.plain_stamp b.graph.origins ty
  have hkeeps := (Extends.create hb.dense hc).keeps
  have horigins : b'.graph.origins = (ty.stamp b.graph.origins).2 := by rw [henters.frame]; rfl
  rw [← horigins] at hle hbelow
  refine ⟨hb.change (by rw [hb']) ((hb.dense.added op ty inputs).enters henters) hle hkeeps ?_,
    Nat.le_trans hn hle⟩
  intro id node hnode
  obtain ⟨users, hnode⟩ := henters.node_back hnode
  rw [get?_added] at hnode
  split at hnode
  · obtain ⟨rfl, hty, rfl, -, hlive⟩ := Node.mk.inj (Option.some.inj hnode)
    rw [← hty, ← hlive]
    exact .inr ⟨rfl, hbelow, hop, (Ty.isError_of_plain hplain).trans hno, (htypes _ hplain).keeps hkeeps⟩
  · exact .inl ⟨users, hnode⟩

@[simp] theorem accounts_create (hop : op.isLoose = true) (ht : ty.Below n)
    (hno : ty.isError = false) : Accounts n (create op ty inputs) := fun _ hb hn =>
  attributed_create hb hn (Op.isError_of_isLoose hop) ht hno fun ty' _ => types_of_isLoose hop _ ty' _

@[simp] theorem accounts_constant (ht : ty.Below n) (hno : ty.isError = false) :
    Accounts n (constant ty) := accounts_create rfl ht hno

@[simp] theorem accounts_attachControl (id c : NodeId) :
    Accounts n (edit fun g => g.attachControl id c) := by
  refine fun b hb hn => .of_edit fun g hg => ?_
  have henters := (attachControl_spec hg).1
  exact ⟨hb.enters rfl henters rfl rfl rfl, by rwa [henters.frame]⟩

@[simp] theorem accounts_attachMemory (id : NodeId) (e : MemoryEffect) :
    Accounts n (edit fun g => g.attachMemory id e) := by
  refine fun b hb hn => .of_edit fun g hg => ?_
  have henters := (attachMemory_spec hg).1
  exact ⟨hb.enters rfl henters rfl rfl rfl, by rwa [henters.frame]⟩

@[simp] theorem accounts_threadMemory (id : NodeId) (target : Option NodeId) (tag : MemoryTag) :
    Accounts n (threadMemory id target tag) := by
  refine .bind (.bind .get fun _ => .pure _) fun c => .bind (accounts_attachMemory _ _) fun _ => ?_
  exact .of_modify (fun _ => rfl) fun _ => rfl

@[simp] theorem accounts_setCursor (c : Cursor) : Accounts n (setCursor c) :=
  .of_modify (fun _ => rfl) fun _ => rfl

@[simp] theorem accounts_markRoot (id : NodeId) : Accounts n (markRoot id) := by
  refine fun b hb hn => .of_edit fun g hg => ?_
  cases hg
  exact ⟨hb.enters rfl (.refl _) rfl rfl rfl, hn⟩

@[simp] theorem accounts_newSlot (ty : Ty) : Accounts n (newSlot ty) := fun _ hb hn =>
  ⟨hb.enters rfl (.refl _) rfl rfl rfl, hn⟩

@[simp] theorem accounts_memoryTag (base : NodeId) : Accounts n (memoryTag base) := by
  intro b hb hn
  refine (memoryTag_same base).imp ?_
  rintro _ _ rfl
  exact ⟨hb, hn⟩

@[simp] theorem accounts_newPhi (region : NodeId) (cases : List NodeId) (ht : ty.Below n)
    (hno : ty.isError = false) : Accounts n (newPhi region cases ty) := by
  refine .bind (accounts_create rfl ht hno) fun phi => .bind (fun b hb hn => ?_) fun _ => .pure _
  refine .of_edit fun g hg => ?_
  obtain ⟨g1, hg1, hg⟩ := bind_eq_ok_iff.1 hg
  cases hg
  have henters := (attachControl_spec hg1).1
  have h1 := hb.enters (c := { b with graph := g1 }) rfl henters rfl rfl rfl
  exact ⟨h1.enters rfl (.refl _) rfl rfl rfl, by rwa [henters.frame]⟩

@[simp] theorem accounts_cursor : Accounts n cursor := .bind .get fun _ => .pure _

theorem accounts_terminate (hop : op.isLoose = true) (ht : ty.Below n) (hno : ty.isError = false) :
    Accounts n (terminate op ty inputs) := by
  refine .bind (accounts_create hop ht hno) fun _ => .bind accounts_cursor fun _ => ?_
  simp

/-- The steps of a request whose type is no error, but for those whose nodes are typed. -/
theorem accounts_emit {r : Request} (hunary : ∀ op x, r ≠ .unary op x)
    (hbuild : ∀ shape members, r ≠ .build shape members) (ht : ty.Below n)
    (hno : ty.isError = false) : Accounts n (emit r ty) := by
  have hcreate : ∀ {op : Op} {inputs : List NodeId}, op.isLoose = true →
      Accounts n (create op ty inputs) := fun hop => accounts_create hop ht hno
  have hconstant := accounts_constant ht hno
  cases r with
  | binary op lhs rhs =>
    refine .ite hconstant (.bind (.look _) fun l => .bind (.look _) fun r => ?_)
    split
    · rename_i zero hzero
      obtain ⟨hnew, hzero⟩ : zero.isNew = true ∧ zero.isError = false := by
        unfold simplifyBinary at hzero
        split at hzero
        · contradiction
        · rename_i hintegral
          split at hzero
          · cases hzero
            cases ty <;> first | exact ⟨rfl, rfl⟩ | simp [Ty.isIntegral] at hintegral
          · repeat' split at hzero
            all_goals contradiction
      exact accounts_constant (Ty.below_of_isNew hnew) hzero
    · exact .pure _
    · exact hcreate rfl
  | unary op operand => exact absurd rfl (hunary op operand)
  | build shape members => exact absurd rfl (hbuild shape members)
  | compare op lhs rhs =>
    refine .ite hconstant (.bind (.look _) fun _ => .ite ?_ (hcreate rfl))
    exact accounts_constant (Ty.below_of_isNew rfl) rfl
  | cast value target =>
    refine .ite hconstant (.bind (.look _) fun _ => .ite (.pure _) (.bind (hcreate rfl) fun _ => ?_))
    split <;> simp
  | coerce value target =>
    exact .bind (.look _) fun _ => .ite (.pure _) (.ite hconstant (hcreate rfl))
  | projection value index =>
    refine .ite hconstant (.bind (.look _) fun _ => ?_)
    split
    · exact .look _
    · exact hcreate rfl
  | alloca declared =>
    refine .bind (accounts_newSlot _) fun _ => .bind (hcreate rfl) fun _ => ?_
    simp
  | load base offset target =>
    refine .bind accounts_cursor fun _ => .bind (.look _) fun _ => ?_
    split
    · exact .pure _
    · refine .bind (accounts_memoryTag _) fun _ => .bind (hcreate rfl) fun _ => ?_
      simp
  | store base offset value =>
    refine .bind (accounts_memoryTag _) fun _ => .bind (hcreate rfl) fun _ => ?_
    simp
  | addressOf base offset target => exact .bind (.look _) fun _ => .ite (.pure _) (hcreate rfl)
  | branch condition control taken =>
    refine .bind (hcreate rfl) fun _ => ?_
    simp
  | phi region cases kind =>
    have hphi := accounts_newPhi region cases ht hno
    unfold emit emitPhi
    dsimp only
    split
    · exact hphi
    · split
      · exact .pure _
      · exact .ite hconstant hphi
  | call callee arguments =>
    refine .bind (hcreate rfl) fun _ => .bind accounts_cursor fun _ => ?_
    simp
  | return_ value => exact accounts_terminate rfl ht hno
  | exit value =>
    refine .bind (accounts_terminate rfl ht hno) fun _ => ?_
    simp
  | function name declared =>
    refine .bind (hcreate rfl) fun _ => ?_
    simp
  | constant _ => exact hconstant
  | parameter | region | loop => exact hcreate rfl

theorem attributed_emit {r : Request} (hb : b.Attributed) (hinfer : r.infer b.graph = .ok ty)
    (ht : ty.Below b.graph.origins) (hno : ty.isError = false) :
    Does AnyFault b (emit r ty) fun _ b' => b'.Attributed := by
  have hstep : ∀ {m : BuildM NodeId}, Accounts b.graph.origins m →
      Does AnyFault b m fun _ b' => b'.Attributed := fun h =>
    (h b hb (Nat.le_refl _)).imp fun _ _ h => h.1
  have hcreate : ∀ {op : Op} {inputs : List NodeId}, op.isError = false →
      (∀ ty', ty'.plain = ty.plain → b.graph.Types op ty' inputs) →
      Does AnyFault b (create op ty inputs) fun _ b' => b'.Attributed := fun hop htypes =>
    (attributed_create hb (Nat.le_refl _) hop ht hno htypes).imp fun _ _ h => h.1
  cases r with
  | unary op x =>
    obtain ⟨t, hx, h⟩ := bind_eq_ok_iff.1 hinfer
    obtain ⟨node, hn, rfl⟩ := ty_eq_ok_iff.1 hx
    cases h
    unfold emit emitUnary
    dsimp only
    split
    · exact hstep (accounts_constant ht hno)
    · refine look_bind (op_of_get? hn) ?_
      split
      · exact hstep (.look _)
      · exact hcreate rfl fun ty' hty =>
          ⟨x, rfl, node, hn, Ty.eq_of_plain (Ty.parts_unary hno) hno hty⟩
  | build shape members =>
    obtain ⟨ts, hts, h⟩ := bind_eq_ok_iff.1 hinfer
    cases h
    obtain ⟨-, -, heq⟩ := inferBuild_of_not_error hno
    unfold emit
    dsimp only
    split
    · exact hstep (accounts_constant ht hno)
    · refine hcreate rfl fun ty' hty => ?_
      intro i m hm
      obtain ⟨u, hu, hplain⟩ := Ty.getElem?_members Ty.members_plain hty.symm hm
      rw [heq, Ty.getElem?_members_withMembers (heq ▸ (List.getElem?_eq_some_iff.1 hu).1)] at hu
      obtain ⟨y, hy, hty⟩ := (Typed.of_mapM hts).getElem? hu
      obtain ⟨node, hn, rfl⟩ := ty_eq_ok_iff.1 hty
      exact ⟨y, hy, node, hn, hplain⟩
  | _ => exact hstep (accounts_emit (by simp) (by simp) ht hno)

/-! ### Errors -/

theorem attributed_report {blame : Blame} {g : Graph} {id : NodeId} {k : Nat} (hb : b.Attributed)
    (hk : blame.origin = some k) (hlt : k < n) (hle : b.graph.origins ≤ n)
    (hnew : ∀ entry ∈ b.reported, entry.1 ≠ k)
    (hc : { b.graph with origins := n }.create (.error b.span) (.error blame) [] = .ok (id, g)) :
    { b with graph := g, reported := (k, id) :: b.reported }.Attributed := by
  have hstamp : (Ty.error blame).stamp n = (.error blame, n) := by
    simp only [Ty.stamp, Blame.stamp, hk]
  have hd : ({ b.graph with origins := n } : Graph).Dense := ⟨hb.dense.free, hb.dense.has_iff⟩
  obtain ⟨rfl, henters, -⟩ := create_spec hd hc
  have hkeeps : Keeps b.graph g := ⟨(Extends.create hd hc).keeps.node⟩
  have horigins : g.origins = n := by
    rw [henters.frame]
    exact congrArg Prod.snd hstamp
  refine ⟨(hd.added _ _ _).enters henters, fun {x node} hn => ?_, fun {x node} hn => ?_, ?_, ?_⟩
  · obtain ⟨users, hn⟩ := henters.node_back hn
    rw [get?_added] at hn
    split at hn
    · obtain ⟨hop, hty, -, -, hlive⟩ := Node.mk.inj (Option.some.inj hn)
      rw [hstamp] at hty
      rw [← hty, ← hlive, horigins]
      refine ⟨rfl, .of_origin fun j hj => Option.some.inj (hk.symm.trans hj) ▸ hlt, .inr ?_⟩
      exact ⟨_, _, k, hop.symm, hty.symm, hk, ‹x = _› ▸ .head _⟩
    · obtain ⟨hlive, hbelow, herror⟩ := hb.node hn
      refine ⟨hlive, hbelow.mono (horigins ▸ hle), herror.imp_right ?_⟩
      rintro ⟨span, e, j, hop, hty, hj, hmem⟩
      exact ⟨span, e, j, hop, hty, hj, .tail _ hmem⟩
  · obtain ⟨users, hn⟩ := henters.node_back hn
    rw [get?_added] at hn
    split at hn
    · rw [← (Node.mk.inj (Option.some.inj hn)).1]
      trivial
    · exact (hb.types hn).keeps hkeeps
  · refine List.forall_mem_cons.2 ⟨⟨Nat.lt_of_lt_of_eq hlt horigins.symm, ?_⟩, fun entry hentry => ?_⟩
    · obtain ⟨us, hn, -⟩ := henters.node ((get?_added _ _ _ _).trans (if_pos rfl))
      exact ⟨_, hn, congrArg (Ty.isError ∘ Prod.fst) hstamp⟩
    · obtain ⟨hentry, hat⟩ := hb.counted entry hentry
      exact ⟨Nat.lt_of_lt_of_le hentry (Nat.le_trans hle horigins.ge), hkeeps.at hat⟩
  · refine List.nodup_cons.2 ⟨fun hmem => ?_, hb.keys⟩
    obtain ⟨entry, hentry, heq⟩ := List.mem_map.1 hmem
    exact hnew entry hentry heq

theorem attributed_newError {blame : Blame} (hb : b.Attributed)
    (hblame : ∀ k, blame.origin = some k → k < b.graph.origins ∧ ∀ entry ∈ b.reported, entry.1 ≠ k) :
    Does AnyFault b (newError blame) fun _ b' => b'.Attributed := by
  refine .of_ok fun id b' h => ?_
  obtain ⟨⟨id', g⟩, hc, h⟩ := bind_eq_ok_iff.1 h
  cases Except.ok.inj h
  obtain ⟨message, _ | k⟩ := blame
  · refine attributed_report hb rfl (Nat.lt_succ_self _) (Nat.le_succ _) (fun entry hentry heq => ?_) hc
    exact Nat.lt_irrefl _ (heq ▸ (hb.counted entry hentry).1)
  · exact attributed_report hb rfl (hblame k rfl).1 (Nat.le_refl _) (hblame k rfl).2 hc

theorem attributed_fail (message : String) (hb : b.Attributed) :
    Does AnyFault b (fail message) fun _ b' => b'.Attributed :=
  attributed_newError hb nofun

theorem attributed_make {r : Request} (hb : b.Attributed)
    (hr : ∀ t ∈ r.types, t.Below b.graph.origins) :
    Does AnyFault b (make r) fun _ b' => b'.Attributed := by
  refine (Does.look_eq _).bind ?_
  rintro ty b ⟨rfl, hinfer⟩
  have hty := (below_infer (fun hn => (hb.node hn).2.1) hr).result hinfer
  split
  · unfold errorNode
    refine Does.get.bind ?_
    rintro b _ ⟨rfl, rfl⟩
    dsimp only
    split
    · exact .pure hb
    · rename_i hnone
      refine attributed_newError hb fun k hk => ⟨hty.origin k hk, fun entry hentry heq => ?_⟩
      rw [hk, Option.bind_some, List.lookup_eq_none_iff] at hnone
      exact bne_iff_ne.1 (hnone entry hentry) heq.symm
  · rename_i hno
    refine attributed_emit hb hinfer hty ?_
    cases ty <;> first | rfl | exact absurd rfl (hno _)

end BuildM

/-! ### Requests with errors -/

/-- The operands of a request whose errors it hands on: values, the base of an access, the condition
of a branch. -/
def Request.operands : Request → List NodeId
  | .binary _ x y | .compare _ x y => [x, y]
  | .unary _ x | .cast x _ | .coerce x _ | .projection x _ | .load x _ _ | .addressOf x _ _
  | .branch x _ _ | .return_ (some x) | .exit x => [x]
  | .build _ members => members
  | _ => []

/-- The builders that requests and new errors make from the first one. The errors in the types that
a request is given are new, or they have numbers: those of the graph, and those that several requests
share. -/
inductive Builder.Reached : Builder → Prop where
  | initial : Reached Builder.initial
  | make {b b' : Builder} {r : Request} {id : NodeId} : Reached b →
    (∀ t ∈ r.types, t.Below b.graph.origins) → BuildM.make r b = .ok (id, b') → Reached b'
  | fail {b b' : Builder} {message : String} {id : NodeId} : Reached b →
    BuildM.fail message b = .ok (id, b') → Reached b'
  | moved {b : Builder} (cursor : Cursor) (span : Span) : Reached b → Reached { b with cursor, span }
  | shared {b : Builder} {n : Nat} : Reached b → b.graph.origins ≤ n →
    Reached { b with graph := { b.graph with origins := n } }

theorem Builder.Reached.attributed {b : Builder} (h : b.Reached) : b.Attributed := by
  induction h with
  | initial => exact .initial
  | make _ hr hmake ih => exact (BuildM.attributed_make ih hr).result hmake
  | fail _ hfail ih => exact (BuildM.attributed_fail _ ih).result hfail
  | moved _ _ _ ih =>
    exact ih.change rfl ih.dense (Nat.le_refl _) (.refl _) fun {_ node} h => .inl ⟨node.users, h⟩
  | shared _ hn ih =>
    exact ih.change rfl ⟨ih.dense.free, ih.dense.has_iff⟩ hn ⟨fun h => ⟨_, h, rfl, rfl⟩⟩
      fun {_ node} h => .inl ⟨node.users, h⟩

theorem Builder.Reached.makes {b : Builder} {r : Request} (hb : b.Reached)
    (hr : r.types.all Ty.isErrorFree = true) :
    Does AnyFault b (BuildM.make r) fun _ b' => b'.Reached :=
  .of_ok fun _ _ h => hb.make (fun t ht => Ty.below_of_isErrorFree (List.all_eq_true.1 hr t ht)) h

/-- The text of the error with a number. -/
def Builder.errorText (b : Builder) (k : Nat) : String :=
  ((b.reported.lookup k).bind fun id => (b.graph.get? id).bind fun node =>
    (Ty.firstError? [node.ty]).map Blame.message).getD ""

/-- Whatever requests were made, values can be converted: a text is what the node of its error has. -/
theorem Builder.Reached.coherent {b : Builder} (h : b.Reached) : ∃ texts, b.Coherent texts := by
  have hb := h.attributed
  have hfree : b.graph.FreeSlots := by
    constructor <;> simp [hb.dense.free]
  have hbuilds : b.graph.TypedBuilds := by
    intro x node hn hop
    have htypes := hb.types hn
    rw [hop] at htypes
    exact @htypes
  refine ⟨b.errorText, ⟨hfree, hbuilds⟩, fun k id hid => ?_⟩
  obtain ⟨l1, l2, heq, -⟩ := List.lookup_eq_some_iff.1 hid
  obtain ⟨node, hn, herror⟩ := (hb.counted (k, id) (by simp [heq])).2
  obtain ⟨e, he⟩ := Ty.isError_iff.1 herror
  refine ⟨node, hn, e, he, ?_⟩
  simp [errorText, hid, hn, he, Ty.firstError?]

variable {g : Graph} {xs : List NodeId}

theorem mapM_ty_error (hhas : ∀ x ∈ xs, g.Has x)
    (herror : ∃ x ∈ xs, g.At x fun _ ty => ty.isError = true) : ∃ x ∈ xs, ∃ e ts,
      g.ty x = .ok (.error e) ∧ xs.mapM g.ty = .ok ts ∧ Ty.firstError? ts = some e := by
  induction xs with
  | nil => simp at herror
  | cons x xs ih =>
    obtain ⟨⟨node, hn⟩, hhas⟩ := List.forall_mem_cons.1 hhas
    have hty := ty_of_get? hn
    rw [List.mapM_cons]
    cases hnode : node.ty.isError with
    | true =>
      obtain ⟨e, he⟩ := Ty.isError_iff.1 hnode
      obtain ⟨ts, hts, -⟩ := (Yields.mapM fun y hy => by
        obtain ⟨node, hn⟩ := hhas y hy
        exact .of_eq (ty_of_get? hn) trivial).exists_ok
      rw [he] at hty
      exact ⟨x, .head _, e, _, hty, bind_eq_ok_iff.2 ⟨_, hty, bind_eq_ok_iff.2 ⟨ts, hts, rfl⟩⟩, rfl⟩
    | false =>
      have hrest : ∃ y ∈ xs, g.At y fun _ ty => ty.isError = true := by
        obtain ⟨y, hy, node', hn', herror⟩ := herror
        rcases List.mem_cons.1 hy with rfl | hy
        · simp [Option.some.inj (hn.symm.trans hn'), herror] at hnode
        · exact ⟨y, hy, node', hn', herror⟩
      obtain ⟨y, hy, e, ts, hye, hts, hfirst⟩ := ih hhas hrest
      refine ⟨y, .tail _ hy, e, _, hye,
        bind_eq_ok_iff.2 ⟨_, hty, bind_eq_ok_iff.2 ⟨ts, hts, rfl⟩⟩, ?_⟩
      cases hty : node.ty <;> first | exact hfirst | simp [hty, Ty.isError] at hnode

theorem infer_firstError {r : Request} {ts : List Ty} {e : Blame}
    (hts : r.operands.mapM g.ty = .ok ts) (he : Ty.firstError? ts = some e) :
    r.infer g = .ok (.error e) := by
  have hone : ∀ {x : NodeId}, r.operands = [x] → g.ty x = .ok (.error e) := by
    intro x hx
    rw [hx] at hts
    obtain ⟨t, ht, hts⟩ := bind_eq_ok_iff.1 hts
    cases hts
    rwa [← List.mem_singleton.1 (Ty.mem_of_firstError? he)] at ht
  have htwo : ∀ {x y : NodeId}, r.operands = [x, y] → ∃ a b, g.ty x = .ok a ∧ g.ty y = .ok b ∧
      (a = .error e ∨ a.isError = false ∧ b = .error e) := by
    intro x y hxy
    simp only [hxy, List.mapM_cons] at hts
    obtain ⟨a, ha, hts⟩ := bind_eq_ok_iff.1 hts
    obtain ⟨_, hbs, hts⟩ := bind_eq_ok_iff.1 hts
    obtain ⟨b, hb, hbs⟩ := bind_eq_ok_iff.1 hbs
    cases hbs
    cases hts
    refine ⟨a, b, ha, hb, ?_⟩
    cases a with
    | error e' => exact .inl (congrArg Ty.error (Option.some.inj he))
    | _ =>
      have hmem : Ty.error e ∈ [b] := Ty.mem_of_firstError? he
      exact .inr ⟨rfl, (List.mem_singleton.1 hmem).symm⟩
  cases r with
  | build shape members =>
    refine bind_eq_ok_iff.2 ⟨ts, hts, ?_⟩
    simp [inferBuild, he, pure, Except.pure]
  | binary op lhs rhs | compare op lhs rhs =>
    obtain ⟨a, b, ha, hb, rfl | ⟨hno, rfl⟩⟩ := htwo rfl
    · exact bind_eq_ok_iff.2 ⟨_, ha, bind_eq_ok_iff.2 ⟨b, hb, rfl⟩⟩
    · refine bind_eq_ok_iff.2 ⟨a, ha, bind_eq_ok_iff.2 ⟨_, hb, ?_⟩⟩
      cases a <;> first | rfl | contradiction
  | unary | cast | coerce | projection | branch => exact bind_eq_ok_iff.2 ⟨_, hone rfl, rfl⟩
  | load | addressOf => exact bind_eq_ok_iff.2 ⟨_, bind_eq_ok_iff.2 ⟨_, hone rfl, rfl⟩, rfl⟩
  | exit => exact hone rfl
  | return_ value =>
    cases value with
    | none =>
      cases hts
      contradiction
    | some value => exact hone rfl
  | _ =>
    cases hts
    contradiction

/-- The numbers of the errors that are types of nodes. -/
def Graph.errorOrigins (g : Graph) : List Nat :=
  g.ids.filterMap fun id => (g.get? id).bind fun node =>
    match node.ty with
    | .error e => e.origin
    | _ => none

variable {b : Builder}

theorem Builder.Attributed.error (h : b.Attributed) {id : NodeId} {node : Node} {e : Blame}
    (hn : b.graph.get? id = some node) (he : node.ty = .error e) :
    ∃ span k, node.op = .error span ∧ e.origin = some k ∧ (k, id) ∈ b.reported := by
  rcases (h.node hn).2.2 with ⟨-, hno⟩ | ⟨span, e', k, hop, hty, hk, hmem⟩
  · rw [he] at hno
    contradiction
  · cases he.symm.trans hty
    exact ⟨span, k, hop, hk, hmem⟩

theorem Builder.Attributed.nodup_errorOrigins (h : b.Attributed) : b.graph.errorOrigins.Nodup := by
  refine List.Nodup.filterMap (fun x y k hx hy => ?_) (nodup_ids _)
  have hmem : ∀ {id}, (k ∈ (b.graph.get? id).bind fun node => match node.ty with
      | .error e => e.origin
      | _ => none) → (k, id) ∈ b.reported := by
    intro id hid
    obtain ⟨node, hn, hk⟩ := Option.bind_eq_some_iff.1 hid
    split at hk
    · obtain ⟨_, j, -, hj, hmem⟩ := h.error hn ‹_›
      rwa [Option.some.inj (hj.symm.trans hk)] at hmem
    · contradiction
  exact h.eq_of_mem (hmem hx) (hmem hy)

theorem Builder.Attributed.length_diagnostics (h : b.Attributed) :
    b.graph.diagnostics.length = b.graph.errorOrigins.length := by
  have hlive : b.graph.liveIds = b.graph.ids := List.filter_eq_self.2 fun id hid => by
    obtain ⟨node, hn⟩ := mem_ids_iff.1 hid
    simp [isLive, hn, (h.node hn).1]
  rw [diagnostics, List.length_map, errors, errorOrigins, hlive, List.length_filterMap_eq_countP,
    List.length_filterMap_eq_countP]
  refine List.countP_congr fun id hid => ?_
  obtain ⟨node, hn⟩ := mem_ids_iff.1 hid
  rw [hn]
  rcases (h.node hn).2.2 with ⟨-, hty⟩ | ⟨span, e, k, hop, hty, hk, -⟩
  · obtain ⟨op, ty, _⟩ := node
    cases ty <;> first | contradiction | cases op <;> rfl
  · obtain ⟨op, ty, _⟩ := node
    obtain rfl : op = _ := hop
    obtain rfl : ty = _ := hty
    simp [hk]

theorem BuildM.make_of_reported {r : Request} {e : Blame} {k : Nat} {id : NodeId}
    (hinfer : r.infer b.graph = .ok (.error e)) (hk : e.origin = some k)
    (hlookup : b.reported.lookup k = some id) : make r b = .ok (id, b) := by
  have hfound : (e.origin.bind fun origin => b.reported.lookup origin) = some id := by
    rw [hk, Option.bind_some, hlookup]
  have hdoes : Does (fun _ => False) b (make r) fun x b' => x = id ∧ b' = b := by
    refine look_bind hinfer (Does.get.bind ?_)
    rintro _ _ ⟨rfl, rfl⟩
    dsimp only
    rw [hfound]
    exact .pure ⟨rfl, rfl⟩
  obtain ⟨_, hmake, rfl, rfl⟩ := hdoes.exists_ok
  exact hmake

/-- A request with an operand whose type is an error gives the node of the first such operand, which
is the node of that error, and changes nothing. So there are as many diagnostics as there are
errors. -/
theorem make_error_operand (hb : b.Reached) :
    (∀ r : Request, (∀ x ∈ r.operands, b.graph.Has x) →
      (∃ x ∈ r.operands, b.graph.At x fun _ ty => ty.isError = true) →
      ∃ x ∈ r.operands, (b.graph.At x fun op ty => op.isError = true ∧ ty.isError = true) ∧
        BuildM.make r b = .ok (x, b)) ∧
    b.graph.diagnostics.length = b.graph.errorOrigins.dedup.length := by
  have h := hb.attributed
  refine ⟨fun r hhas herror => ?_, ?_⟩
  · obtain ⟨x, hx, e, ts, hty, hts, hfirst⟩ := mapM_ty_error hhas herror
    obtain ⟨node, hn⟩ := hhas x hx
    rw [ty_of_get? hn] at hty
    have hty := Except.ok.inj hty
    obtain ⟨span, k, hop, hk, hmem⟩ := h.error hn hty
    refine ⟨x, hx, ⟨node, hn, by rw [hop]; rfl, by rw [hty]; rfl⟩, ?_⟩
    exact BuildM.make_of_reported (infer_firstError hts hfirst) hk (h.lookup_eq hmem)
  · rw [List.dedup_eq_self.2 h.nodup_errorOrigins]
    exact h.length_diagnostics

/-- The sum of a boolean and an integer. -/
def mixedSum : BuildM NodeId := do
  let x ← BuildM.make (.constant (.bool (.const true)))
  let y ← BuildM.make (.constant (.int .int (.const 1)))
  BuildM.make (.binary .add x y)

/-- A comparison with a sum that is an error gives the node of the sum. -/
theorem make_error_operand_sum : ∃ b : Builder, b.Reached ∧
    BuildM.make (.compare .less ⟨2, 0⟩ ⟨3, 0⟩) b = .ok (⟨3, 0⟩, b) ∧
    b.graph.diagnostics.length = 1 := by
  have hsum : ((mixedSum .initial).map fun r => decide (r.2.graph.errorOrigins = [0] ∧
      (∀ x ∈ ([⟨2, 0⟩, ⟨3, 0⟩] : List NodeId), r.2.graph.Has x) ∧
      ¬ (r.2.graph.At ⟨2, 0⟩ fun op ty => op.isError = true ∧ ty.isError = true) ∧
      r.2.graph.At ⟨3, 0⟩ fun _ ty => ty.isError = true)) = .ok true := by decide
  obtain ⟨⟨_, b⟩, hb⟩ : ∃ r, mixedSum .initial = .ok r := ⟨_, rfl⟩
  rw [hb] at hsum
  obtain ⟨hone, hhas, hno, herror⟩ := of_decide_eq_true (Except.ok.inj hsum)
  have hsteps : Does AnyFault .initial mixedSum fun _ b' => b'.Reached :=
    (Reached.initial.makes rfl).bind fun _ _ h1 => (h1.makes rfl).bind fun _ _ h2 => h2.makes rfl
  have hreached : b.Reached := hsteps.result hb
  obtain ⟨hmake, hlength⟩ := make_error_operand hreached
  obtain ⟨z, hz, hnode, hmake⟩ := hmake (.compare .less ⟨2, 0⟩ ⟨3, 0⟩) hhas
    ⟨_, .tail _ (.head _), herror⟩
  refine ⟨b, hreached, ?_, hlength.trans (by rw [hone]; rfl)⟩
  rcases List.mem_pair.1 hz with rfl | rfl
  · exact absurd hnode hno
  · exact hmake

end SeaOfNodes
