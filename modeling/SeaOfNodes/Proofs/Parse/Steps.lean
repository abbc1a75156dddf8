import SeaOfNodes.Parse.Program
import SeaOfNodes.Proofs.Build.Construct
import SeaOfNodes.Proofs.Parse.Outcome
import SeaOfNodes.Proofs.Scope.Held

/-!
Steps that keep a relation. Most statements about construction are about the states before and behind
each of its steps. Such a relation holds of a step if it holds of its parts: of the tokens that are
taken (`Taking`), of the nodes that are added (`Building`), and of the names that are declared
(`Declaring`). Here are the steps that have no more to say than that.
-/
namespace SeaOfNodes

/-- A step whose states before and behind it are related, if it has a result. -/
def Steps {α : Type} (R : Parser → Parser → Prop) (m : ParseM α) : Prop :=
  ∀ p, Ensures p m fun _ p' => R p p'

/-- A relation that can be followed through several steps. -/
class Chain (R : Parser → Parser → Prop) : Prop where
  refl : ∀ p, R p p
  trans : ∀ {p p' p''}, R p p' → R p' p'' → R p p''

/-- A relation that taking tokens keeps. -/
class Taking (R : Parser → Parser → Prop) : Prop extends Chain R where
  takes : ∀ {ts p p'}, Takes ts p p' → R p p'

/-- A relation that adding nodes to the path of the builder keeps. -/
class Building (R : Parser → Parser → Prop) : Prop extends Chain R where
  works : ∀ {α : Type} {m : BuildM α}, Works m → Steps R (ParseM.build m)

/-- A relation that no step of the builder breaks. -/
class Framing (R : Parser → Parser → Prop) : Prop extends Chain R where
  build : ∀ p b, R p { p with builder := b }

/-- A relation that declaring what is no variable keeps. -/
class Declaring (R : Parser → Parser → Prop) : Prop extends Taking R, Building R where
  declare : ∀ {x : Binding} (name : Token), (∀ id ty, x ≠ .held id ty) → Steps R (ParseM.declare name x)

/-- A relation that addresses of operands keep, and operators whose right side is evaluated on a path
of its own. -/
class Evaluating (R : Parser → Parser → Prop) : Prop extends Taking R, Building R where
  address : ∀ x : Operand, Steps R x.address
  shortCircuit : ∀ {rhs : ParseM Operand}, Steps R rhs → ∀ lhs decides span,
    Steps R (ParseM.shortCircuit lhs decides rhs span)

variable {α β σ : Type} {R : Parser → Parser → Prop}

namespace Steps

variable {m m' : ParseM α} {f : α → ParseM β} {c : Prop}

@[simp] theorem fail (cause : Cause) (span : Span) : Steps R (ParseM.fail cause span : ParseM α) :=
  fun _ => trivial

@[simp] theorem fault (f : Fault) : Steps R (throw (.fault f) : ParseM α) := fun _ => trivial

theorem of_modify {f : Parser → Parser} (h : ∀ p, R p (f p)) : Steps R (modify f : ParseM PUnit) := h

theorem ite [Decidable c] (hm : Steps R m) (hm' : Steps R m') : Steps R (if c then m else m') := by
  split
  · exact hm
  · exact hm'

theorem works [Building R] {m : BuildM α} (h : Works m) : Steps R (ParseM.build m) := Building.works h

@[simp] theorem build [Framing R] (m : BuildM α) : Steps R (ParseM.build m) := by
  intro p
  refine .build ?_
  unfold Does Yields
  split
  · exact Framing.build p _
  · exact trivial

section Chain

variable [Chain R]

@[simp] theorem pure (a : α) : Steps R (Pure.pure a : ParseM α) := fun p => Chain.refl p

theorem bind (hm : Steps R m) (hf : ∀ a, Steps R (f a)) : Steps R (m >>= f) :=
  fun p => (hm p).bind fun a p1 h1 => (hf a p1).imp fun _ _ h2 => Chain.trans h1 h2

theorem map {f : α → β} (hm : Steps R m) : Steps R (f <$> m) := .bind hm fun _ => .pure _

theorem behind {p p' : Parser} {Q : β → Parser → Prop} (hm : Steps R m) (h : R p p')
    (hf : ∀ a p'', R p p'' → Ensures p'' (f a) Q) : Ensures p' (m >>= f) Q :=
  (hm p').bind fun a p'' h' => hf a p'' (Chain.trans h h')

@[simp] theorem get : Steps R (MonadState.get : ParseM Parser) := fun p => Chain.refl p

theorem branch {c : Prop} [Decidable c] (hm : Steps R m) (hm' : Steps R m')
    (hf : ∀ a, Steps R (f a)) : Steps R (if c then m >>= f else m' >>= f) :=
  .ite (.bind hm hf) (.bind hm' hf)

theorem skip [Decidable c] {m : ParseM PUnit} {f : PUnit → ParseM β} (hm : Steps R m)
    (hf : ∀ u, Steps R (f u)) : Steps R (if c then m >>= f else f ⟨⟩) :=
  .ite (.bind hm hf) (hf _)

theorem mapM (hf : ∀ a, Steps R (f a)) (xs : List α) : Steps R (xs.mapM f) := by
  induction xs with
  | nil => exact .pure _
  | cons a xs ih =>
    rw [List.mapM_cons]
    exact .bind (hf a) fun y => .bind ih fun ys => .pure _

theorem anyM {f : α → ParseM Bool} (hf : ∀ a, Steps R (f a)) (xs : List α) :
    Steps R (xs.anyM f) := by
  induction xs with
  | nil => exact .pure _
  | cons a xs ih =>
    refine .bind (hf a) fun found => ?_
    split
    · exact .pure _
    · exact ih

theorem loop {step : σ → ParseM (σ ⊕ α)} (hstep : ∀ s, Steps R (step s)) (s : σ) :
    Steps R (ParseM.loop step s) := by
  refine .bind (.bind .get fun _ => .pure _) fun fuel => ?_
  generalize fuel + 1 = fuel
  induction fuel generalizing s with
  | zero => exact .fault _
  | succ fuel ih =>
    refine .bind (hstep s) ?_
    rintro (s | a)
    · exact ih s
    · exact .pure a

end Chain

end Steps

/-- A step whose states before and behind it are related, and whose result `Q` holds of. -/
def Gives (R : Parser → Parser → Prop) (m : ParseM α) (Q : α → Prop) : Prop :=
  ∀ p, Ensures p m fun a p' => R p p' ∧ Q a

namespace Gives

variable {m m' : ParseM α} {f : α → ParseM β} {Q Q' : α → Prop} {Q1 : β → Prop}

theorem pure [Chain R] {a : α} (h : Q a) : Gives R (Pure.pure a) Q := fun p => ⟨Chain.refl p, h⟩

theorem bind [Chain R] (hm : Steps R m) (hf : ∀ a, Gives R (f a) Q1) : Gives R (m >>= f) Q1 :=
  fun p => (hm p).bind fun a p1 h1 => (hf a p1).imp fun _ _ h2 => ⟨Chain.trans h1 h2.1, h2.2⟩

theorem imp (h : Gives R m Q) (hQ : ∀ a, Q a → Q' a) : Gives R m Q' :=
  fun p => (h p).imp fun a _ h => ⟨h.1, hQ a h.2⟩

theorem ite {c : Prop} [Decidable c] (hm : Gives R m Q) (hm' : Gives R m' Q) :
    Gives R (if c then m else m') Q := by
  split
  · exact hm
  · exact hm'

theorem steps (h : Gives R m Q) : Steps R m := fun p => (h p).imp fun _ _ h => h.1

end Gives

instance [Framing R] : Building R := ⟨fun _ => .build _⟩

/-- What holds of a state whatever is built, and in every scope that `P` holds of. -/
structure Stable (T : Parser → Prop) (P : Scope → Prop) : Prop where
  build : ∀ {p} b, T p → T { p with builder := b }
  scope : ∀ {p s}, T p → P s → T { p with scope := s }

namespace Stable

variable {T : Parser → Prop} {P : Scope → Prop} {p : Parser} {parent : Scope} {arms : List Arm}

theorem builds (h : Stable T P) (hp : T p) (m : BuildM α) :
    Ensures p (ParseM.build m) fun _ p' => T p' :=
  .build ((Does.any m).imp fun _ b _ => h.build b hp)

theorem merge (h : Stable T P) (hparent : ∀ s, parent.Revalues s → P s)
    (harms : ∀ arm ∈ arms, P (arm.scope.truncate parent.depth)) (hp : T p) :
    Ensures p (ParseM.build (.merge parent arms)) fun join p' => T p' ∧ P join.scope :=
  .build ((BuildM.merge_scope P hparent harms).imp fun _ b hjoin => ⟨h.build b hp, hjoin⟩)

theorem follow {join : Join} (h : Stable T P) (hp : T p) (hjoin : P join.scope) :
    Ensures p (ParseM.follow join) fun _ p' => T p' :=
  .step rfl (h.builds (h.scope hp hjoin) _)

theorem join (h : Stable T P) (hparent : ∀ s, parent.Revalues s → P s)
    (harms : ∀ arm ∈ arms, P (arm.scope.truncate parent.depth)) (hp : T p) :
    Ensures p (ParseM.build (.merge parent arms) >>= ParseM.follow) fun _ p' => T p' :=
  (h.merge hparent harms hp).bind fun _ _ hjoin => h.follow hjoin.1 hjoin.2

theorem scope_substituteArms (replaced : List (NodeId × NodeId)) (arm : Arm) :
    (replaced.foldl (fun arm (old, new) => ParseM.substituteArm arm old new) arm).scope =
      replaced.foldl (fun scope (old, new) => scope.substitute old new) arm.scope := by
  induction replaced generalizing arm with
  | nil => rfl
  | cons entry replaced ih => exact ih _

theorem leaveLoop {phis : LoopPhis} {backEdges : List Arm} (h : Stable T P)
    (hparent : ∀ s, parent.Revalues s → P s)
    (harms : ∀ arm ∈ arms, ∀ s, arm.scope.Revalues s → P (s.truncate parent.depth)) (hp : T p) :
    Ensures p (ParseM.leaveLoop phis parent arms backEdges) fun _ p' => T p' := by
  refine (h.builds hp _).bind fun replaced p1 h1 => ?_
  have hrevalues := Scope.Revalues.substituteAll replaced
  refine h.join (fun s hs => hparent s ((hrevalues parent).trans hs)) (fun arm harm => ?_) h1
  obtain ⟨arm, hmem, rfl⟩ := List.mem_map.1 harm
  rw [scope_substituteArms, (hrevalues parent).depth]
  exact harms arm hmem _ (hrevalues _)

end Stable

theorem ParseM.restoring_ensures {p before : Parser} {m : ParseM Unit} {Q : Unit → Parser → Prop}
    (h : Ensures p m fun _ after => Q () (restored before after)) :
    Ensures p (restoring before m) Q := by
  unfold Ensures restoring
  unfold Ensures at h
  cases hm : m p with
  | ok _ after | error e after =>
    rw [hm] at h
    exact h

/-- Nothing but the reader changed. -/
def OnlyReads (p p' : Parser) : Prop := p' = { p with lexer := p'.lexer }

@[default_instance] instance : Taking OnlyReads where
  refl _ := rfl
  trans := by
    intro p p' p'' h1 h2
    unfold OnlyReads at *
    rw [h2, h1]
  takes h := h.eq

abbrev ParseM.Reads (m : ParseM α) : Prop := Steps OnlyReads m

namespace ParseM

section Chain

variable [Chain R]

@[simp] theorem steady_remaining : Steps R remaining := .bind .get fun _ => .pure _

@[simp] theorem steady_scope : Steps R scope := .bind .get fun _ => .pure _

@[simp] theorem steady_endSpan : Steps R endSpan := .bind .get fun _ => .pure _

@[simp] theorem steady_lower (n : Nat) : Steps R (lower n) := by
  cases n with
  | zero => exact .fault _
  | succ n => exact .pure n

theorem steady_arrayType (element : Ty) (length : Nat) (span : Span) :
    Steps R (arrayType element length span) := by
  unfold arrayType
  split
  · exact .pure _
  · exact .fail _ _

theorem steady_bounded (ty : Ty) (span : Span) : Steps R (bounded ty span) :=
  .ite (.fail _ _) (.pure _)

theorem steady_namedType (name : Token) : Steps R (namedType name) := by
  unfold namedType
  split
  · exact .pure _
  · refine .bind steady_scope fun s => ?_
    split
    · exact .pure _
    · exact .fail _ _

theorem steady_memberKey (token : Token) : Steps R (memberKey token) := by
  unfold memberKey
  split
  · exact .pure _
  · split
    · exact .pure _
    · exact .fail _ _
  · exact .fail _ _

end Chain

/-! ### Tokens -/

section Taking

variable {inner : ParseM Ty}

variable [Taking R]

@[simp] theorem reads_peek? : Steps R peek? := fun _ => peek?_ensures.imp fun _ _ h => Taking.takes h.1

@[simp] theorem reads_peekNth (n : Nat) : Steps R (lex (Lexer.peekNth n)) :=
  fun _ => (peekNth_ensures n).imp fun _ _ h => Taking.takes h.1

@[simp] theorem reads_next? : Steps R next? := fun _ => next?_ensures.imp fun _ _ h => Taking.takes h.1

@[simp] theorem reads_isNext (kind : TokenKind) : Steps R (isNext kind) :=
  .bind reads_peek? fun _ => .pure _

@[simp] theorem reads_accept (kind : TokenKind) : Steps R (accept kind) :=
  .bind (reads_isNext kind) fun _ => .ite reads_next? (.pure _)

theorem reads_unexpectedEnd (context : String) : Steps R (unexpectedEnd context : ParseM α) :=
  .bind steady_endSpan fun _ => .fail _ _

@[simp] theorem reads_peek (context : String) : Steps R (peek context) := by
  refine .bind reads_peek? fun token => ?_
  split
  · exact .pure _
  · exact reads_unexpectedEnd _

@[simp] theorem reads_next (context : String) : Steps R (next context) := by
  refine .bind reads_next? fun token => ?_
  split
  · exact .pure _
  · exact reads_unexpectedEnd _

@[simp] theorem reads_expect (kind : TokenKind) : Steps R (expect kind) :=
  .bind (reads_next _) fun _ => .ite (.pure _) (.fail _ _)

@[simp] theorem reads_identifier : Steps R identifier :=
  .bind (reads_next _) fun _ => .ite (.pure _) (.fail _ _)

theorem reads_separated {item : ParseM α} (h : Steps R item) : Steps R (separated item) :=
  .loop (fun _ => .bind h fun _ => .bind (reads_accept _) fun _ => .ite (.pure _) (.pure _)) _

@[simp] theorem reads_skipGroup : Steps R skipGroup := by
  have hdepth : ∀ d kind, Steps R (depthAfter d kind) :=
    fun d _ => .ite (.pure _) (.ite (steady_lower d) (.pure _))
  refine .bind (reads_next _) fun first => .loop (fun state => .bind (hdepth _ _) fun depth => ?_) _
  exact .ite (.pure _) (.bind (reads_next _) fun _ => .pure _)

@[simp] theorem reads_skipStatement : Steps R skipStatement := by
  refine .loop (fun _ => .bind (reads_peek _) fun token => .ite ?_ (.ite ?_ ?_)) _
  · exact .bind reads_next? fun _ => .pure _
  · exact .bind reads_skipGroup fun _ => .pure _
  · exact .bind reads_next? fun _ => .pure _

@[simp] theorem reads_skipFunction : Steps R skipFunction := by
  refine .bind (.loop (fun _ => .bind (reads_isNext _) fun found => .ite (.pure _) ?_) _) fun _ =>
    reads_skipGroup
  exact .bind (reads_next _) fun _ => .pure _

/-! ### Types -/

theorem reads_arrayLength : Steps R arrayLength := by
  refine .bind (reads_expect _) fun token => ?_
  split
  · exact .bind (reads_expect _) fun _ => .pure _
  · exact .fail _ _

theorem reads_tupleType (h : Steps R inner) (span : Span) : Steps R (tupleType inner span) := by
  refine .bind (reads_separated h) fun members => .bind (reads_expect _) fun _ => ?_
  split
  · exact .pure _
  · exact steady_bounded _ span

theorem reads_functionType (h : Steps R inner) : Steps R (functionType inner) := by
  refine .bind (reads_expect _) fun _ => .bind (reads_isNext _) fun empty => ?_
  refine .branch (.pure _) (reads_separated h) fun params => .bind (reads_expect _) fun _ => ?_
  exact .bind reads_peek? fun token => .branch h (.pure _) fun result => .pure _

theorem reads_typeWith (h : Steps R inner) : Steps R (typeWith inner) := by
  refine .bind (reads_next _) fun token => ?_
  split
  · exact .bind h fun _ => .pure _
  · exact .bind reads_arrayLength fun length => .bind h fun element => steady_arrayType _ _ _
  · exact reads_tupleType h _
  · exact reads_functionType h
  · exact steady_namedType _
  · exact .fail _ _

theorem reads_type : Steps R type := by
  refine .bind steady_remaining fun fuel => ?_
  generalize fuel + 1 = fuel
  induction fuel with
  | zero => exact .fault _
  | succ fuel ih => exact reads_typeWith ih

/-! ### Parts of expressions and declarations -/

theorem reads_memberLabel? (ty : Ty) (first : Token) : Steps R (memberLabel? ty first) := by
  refine .ite (.bind (reads_peekNth _) fun token => .ite ?_ (.pure _)) (.pure _)
  exact .bind reads_identifier fun label => .bind (reads_expect _) fun _ => .pure _

theorem reads_signs : Steps R signs :=
  .loop (fun _ => .bind (reads_peek _) fun _ => .ite (.bind reads_next? fun _ => .pure _) (.pure _)) _

theorem reads_fieldTurn (fields : List (Token × Ty)) : Steps R (fieldTurn fields) := by
  refine .bind (reads_accept _) fun close => .ite (.pure _) (.bind reads_identifier fun field => ?_)
  exact .bind reads_type fun ty => .bind (reads_expect _) fun _ => .skip (.fail _ _) fun _ => .pure _

theorem reads_parameterTurn (params : List (Token × Ty)) : Steps R (parameterTurn params) := by
  refine .bind reads_identifier fun name => .bind reads_type fun ty => .skip (.fail _ _) fun _ => ?_
  exact .bind (reads_accept _) fun comma => .ite (.pure _) (.pure _)

theorem reads_nameAhead : Steps R nameAhead := by
  refine .loop (fun ahead => .bind (reads_peekNth _) fun token => ?_) _
  split
  · exact .pure _
  · split <;> exact .pure _

theorem reads_addressTaken : Steps R addressTaken := by
  refine .loop (fun state => .bind reads_next? fun token => ?_) _
  split
  · exact .pure _
  · split
    · exact .pure _
    · exact .ite (.pure _) (.pure _)
    · exact .bind reads_nameAhead fun _ => .pure _
    · exact .pure _

end Taking

/-! ### The builder -/

section Building

variable [Building R]

@[simp] theorem steps_make (r : Request) (hr : r.isPhi = false) : Steps R (make r) :=
  .works (BuildM.works_make r hr)

@[simp] theorem steady_typeOf (id : NodeId) : Steps R (typeOf id) := .works (by simp)

@[simp] theorem steady_setSpan (span : Span) : Steps R (setSpan span) := .works (by simp)

@[simp] theorem steady_cursor : Steps R cursor := .works (by simp)

@[simp] theorem steady_isDead : Steps R isDead := .works (by simp)

@[simp] theorem steady_report (message : String) : Steps R (report message) := .works (by simp)

@[simp] theorem steady_arm : Steps R arm := .bind steady_scope fun _ => .bind steady_cursor fun _ => .pure _

end Building

end ParseM

/-! ### Operands -/

namespace Operand

open SeaOfNodes.ParseM

variable [Building R]

theorem works_project (value : NodeId) (path : List Nat) : Works (project value path) := by
  induction path generalizing value with
  | nil => exact .pure _
  | cons index path ih => exact .bind (BuildM.works_make _ rfl) fun member => ih member

theorem steady_read (x : Operand) : Steps R x.read := by
  cases x with
  | value id => exact .pure id
  | memory base offset ty => exact .works (BuildM.works_loadValue base offset ty)
  | held name path ty =>
    refine .bind steady_scope fun s => ?_
    split
    · exact .works (works_project _ path)
    · exact steady_report _

theorem steady_type (x : Operand) : Steps R x.type := by
  cases x with
  | value id => exact steady_typeOf id
  | memory base offset ty => exact .pure ty
  | held name path ty => exact .pure ty

/-- The local that is held as a value and that a place is part of. -/
def heldName? : Operand → Option String
  | .held name _ _ => some name
  | _ => none

/-- `y` is no local that is held as a value, or part of the same one as `x`. -/
def Within (x y : Operand) : Prop := ∀ name, y.heldName? = some name → x.heldName? = some name

theorem within_of_none {x y : Operand} (h : y.heldName? = none) : x.Within y := by simp [Within, h]

theorem gives_ofError (ty : Ty) : Gives R (ofError ty) fun y => y.heldName? = none := by
  unfold ofError
  split <;> exact .bind (steady_report _) fun _ => .pure rfl

theorem gives_element (x : Operand) (ty : Ty) (index : Nat) : Gives R (x.element ty index) x.Within := by
  refine .ite ((gives_ofError _).imp fun _ h => within_of_none h) ?_
  split
  · exact .bind (.works (.bind (.lift _) fun _ => .lift _)) fun _ => .pure (within_of_none rfl)
  · exact .pure fun _ h => h
  · exact .bind (steps_make _ rfl) fun _ => .pure (within_of_none rfl)

theorem gives_ownMember (x : Operand) (ty : Ty) (key : MemberKey) :
    Gives R (x.ownMember ty key) x.Within := by
  unfold ownMember
  split
  · exact gives_element _ _ _
  split
  · exact gives_element _ _ _
  · exact (gives_ofError _).imp fun _ h => within_of_none h

theorem gives_member (x : Operand) (key : MemberKey) : Gives R (x.member key) x.Within := by
  refine .bind (steady_type x) fun ty => ?_
  split
  · exact .bind (steady_read x) fun _ => .pure (within_of_none rfl)
  · refine .ite (.bind (steady_read x) fun base => ?_) (gives_ownMember _ _ _)
    exact (gives_ownMember _ _ _).imp fun _ h name hname => absurd (h name hname) (by simp [heldName?])
  · exact gives_ownMember _ _ _

theorem gives_index (x : Operand) (id : NodeId) : Gives R (x.index id) x.Within := by
  have hvalue : ∀ {id}, x.Within (.value id) := within_of_none rfl
  refine .bind (steady_type x) fun ty => .ite (.bind (steady_read x) fun _ => .pure hvalue) ?_
  refine .bind (steady_typeOf id) fun indexTy => .ite (.pure hvalue) ?_
  split
  · exact .ite ((gives_ofError _).imp fun _ h => within_of_none h) (gives_element _ _ _)
  · exact (gives_ofError _).imp fun _ h => within_of_none h

theorem gives_dereference (x : Operand) : Gives R x.dereference fun y => y.heldName? = none := by
  refine .bind (steady_read x) fun base => .bind (steady_typeOf base) fun ty => ?_
  split
  · exact .ite (.bind (steady_report _) fun _ => .pure rfl) (.pure rfl)
  · exact .pure rfl
  · exact .bind (steady_report _) fun _ => .pure rfl

theorem steps_address (h : ∀ name, Steps R (modify fun p => { p with refused := name :: p.refused }))
    (x : Operand) : Steps R x.address := by
  cases x with
  | memory base offset ty => exact steps_make _ rfl
  | held name path ty => exact .bind (h name) fun _ => steady_report _
  | value id =>
    exact .bind (steady_typeOf id) fun ty => .ite (.pure id) (.works (BuildM.works_spill id))

theorem steady_coerceArguments (params : List Ty) (arguments : List (NodeId × Span)) :
    Steps R (coerceArguments params arguments) := by
  fun_induction coerceArguments params arguments with
  | case1 param params argument span arguments ih =>
    refine .bind (steady_setSpan _) fun _ => .bind (.works (BuildM.works_coerce _ _)) fun _ => ?_
    exact .bind ih fun _ => .pure _
  | case2 => exact .pure _

theorem steady_call (callee : Operand) (arguments : List (NodeId × Span)) (span : Span) :
    Steps R (callee.call arguments span) := by
  have hmake : ∀ id ids, Steps R (do setSpan span; make (.call id ids)) :=
    fun id ids => .bind (steady_setSpan _) fun _ => steps_make _ rfl
  refine .bind (steady_read callee) fun id => .bind (steady_typeOf id) fun ty => ?_
  split
  · exact .branch (.fail _ _) (steady_coerceArguments _ _) fun ids => hmake id ids
  · exact .bind (.pure _) fun ids => hmake id ids

theorem works_withMembers (aggregate : NodeId) (members : List Ty) (index : Nat) (path : List Nat)
    (value : NodeId) (position : Nat)
    (h : ∀ member, ∀ ty ∈ members, Works (withMember member ty path value)) :
    Works (withMembers aggregate position members index path value) := by
  induction members generalizing position with
  | nil =>
    exact .pure _
  | cons ty members ih =>
    have hrest : ∀ (member : NodeId) position, Works (do
        let rest ← withMembers aggregate position members index path value
        return member :: rest) :=
      fun member position => .bind (ih position fun m t ht => h m t (.tail _ ht)) fun _ => .pure _
    refine .bind (BuildM.works_make _ rfl) fun member => .ite ?_ ?_
    · exact .bind (h member ty (.head _)) fun member => hrest member _
    · exact .bind (.pure _) fun member => hrest member _

theorem works_withMember (aggregate : NodeId) (ty : Ty) (path : List Nat) (value : NodeId) :
    Works (withMember aggregate ty path value) := by
  induction path generalizing aggregate ty with
  | nil =>
    rw [withMember]
    exact .pure _
  | cons index path ih =>
    have hmembers : ∀ members position,
        Works (withMembers aggregate position members index path value) := fun members position =>
      works_withMembers aggregate members index path value position fun member ty _ => ih member ty
    unfold withMember
    split
    · contradiction
    · rename_i heq
      cases heq
      exact .bind (hmembers _ 0) fun ids => BuildM.works_make _ rfl
    · rename_i heq
      cases heq
      exact .bind (hmembers _ 0) fun ids => BuildM.works_make _ rfl
    · rename_i heq
      cases heq
      exact .bind (hmembers _ 0) fun ids => BuildM.works_make _ rfl
    · exact BuildM.works_make _ rfl

theorem steps_assign (h : ∀ p s, p.scope.Revalues s → R p { p with scope := s }) (target : Operand)
    (value : NodeId) : Steps R (target.assign value) := by
  cases target with
  | value id =>
    refine .bind (steady_typeOf id) fun ty => ?_
    refine .bind (steady_typeOf value) fun valueTy => .ite ?_ (.pure _)
    exact .bind (steady_report _) fun _ => .pure _
  | memory base offset ty =>
    refine .bind (.works (BuildM.works_coerce value ty)) fun value => ?_
    exact .works (BuildM.works_storeValue base offset value ty)
  | held name path ty =>
    refine .bind (.works (BuildM.works_coerce value ty)) fun value p => .step rfl ?_
    split
    · rename_i current declared hlookup
      have hscope : Ensures p (build (withMember current declared path value)) fun _ p' =>
        p'.scope = p.scope := .build ((Does.any _).imp fun _ _ _ => rfl)
      refine ((Steps.works (R := R) (works_withMember _ _ path value) p).and hscope).bind ?_
      rintro updated p1 ⟨h1, hscope⟩
      exact Chain.trans h1 (h p1 _ (hscope.symm ▸ .rebind? hlookup))
    · exact Chain.refl p

end Operand

/-! ### Expressions -/

namespace ParseM

open SeaOfNodes.Operand

section Building

variable [Building R]

theorem steps_readOf {m : ParseM Operand} (h : Steps R m) : Steps R (readOf m) :=
  .bind h fun x => x.steady_read

theorem steady_putMember (ty : Ty) (state : LiteralState) (label : Option String) (value : NodeId) :
    Steps R (putMember ty state label value) := by
  unfold putMember
  dsimp only
  split
  · exact .bind (gives_ofError _).steps fun _ => .pure _
  split
  · exact .pure _
  · exact .bind (.works (BuildM.works_coerce value _)) fun _ => .pure _

theorem steady_fillMembers (members : List (Option NodeId)) (tys : List Ty) :
    Steps R (fillMembers members tys) := by
  induction members generalizing tys with
  | nil => exact .pure _
  | cons member members ih =>
    cases tys with
    | nil => exact .pure _
    | cons ty tys =>
      cases member with
      | some id => exact .bind (.pure id) fun _ => .bind (ih tys) fun _ => .pure _
      | none => exact .bind (steps_make _ rfl) fun _ => .bind (ih tys) fun _ => .pure _

theorem steps_applySign (h : ∀ x : Operand, Steps R x.address) (token : Token) (x : Operand) :
    Steps R (applySign token x) := by
  have hunary : ∀ op, Steps R (do
      let value ← x.read
      return Operand.value (← make (.unary op value))) := fun op =>
    .bind x.steady_read fun _ => .bind (steps_make _ rfl) fun _ => .pure _
  refine .bind (steady_setSpan _) fun _ => ?_
  split
  · exact hunary _
  · exact hunary _
  · exact hunary _
  · exact x.gives_dereference.steps
  · exact .bind (h x) fun _ => .pure _

theorem steps_applySigns (h : ∀ x : Operand, Steps R x.address) (tokens : List Token) (x : Operand) :
    Steps R (applySigns tokens x) := by
  induction tokens generalizing x with
  | nil => exact .pure _
  | cons token tokens ih => exact .bind (steps_applySign h token x) fun x => ih x

theorem steady_branch (condition : NodeId) (taken : Bool) : Steps R (branch condition taken) :=
  .bind steady_cursor fun _ => .bind (steps_make _ rfl) fun _ => .bind (steps_make _ rfl) fun _ => .pure _

variable [Taking R] {inner : ParseM Operand} (h : Steps R inner)

include h

theorem steps_literalTurn (ty : Ty) (state : LiteralState) : Steps R (literalTurn inner ty state) := by
  refine .bind (reads_accept _) fun close => .ite (.pure _) (.bind (reads_peek _) fun first => ?_)
  refine .bind (reads_memberLabel? ty first) fun label => .bind (steps_readOf h) fun value => ?_
  refine .bind (steady_setSpan _) fun _ => .bind (steady_putMember ty state label value) fun state => ?_
  refine .bind (reads_accept _) fun comma => .ite (.pure _) ?_
  exact .bind (reads_expect _) fun _ => .pure _

theorem steps_arguments : Steps R (arguments inner) := by
  refine .bind (reads_accept _) fun close => .ite (.pure _) ?_
  refine .bind (reads_separated ?_) fun arguments => .bind (reads_expect _) fun _ => .pure _
  exact .bind (reads_peek _) fun first => .bind (steps_readOf h) fun _ => .pure _

theorem gives_compositeLiteral (ty : Ty) :
    Gives R (compositeLiteral inner ty) fun y => y.heldName? = none := by
  refine .bind .get fun p => .bind (reads_expect _) fun _ => ?_
  refine .bind (.loop (steps_literalTurn h ty) _) fun state => .bind (steady_setSpan _) fun _ => ?_
  refine .ite (.bind (steady_report _) fun _ => .pure rfl) ?_
  exact .bind (steady_fillMembers _ _) fun _ => .bind (steps_make _ rfl) fun _ => .pure rfl

theorem gives_arrayLiteral (span : Span) :
    Gives R (arrayLiteral inner span) fun y => y.heldName? = none := by
  refine .bind reads_arrayLength fun length => .bind reads_type fun element => ?_
  refine .bind (steady_arrayType _ _ _) fun ty => .bind (steady_setSpan _) fun _ => ?_
  exact gives_compositeLiteral h ty

theorem gives_selectionTurn (x : Operand) :
    Gives R (selectionTurn inner x) fun r => x.Within (r.elim id id) := by
  have hsame : x.Within x := fun _ h => h
  have hpart : ∀ {m : ParseM Operand}, Gives R m x.Within →
      Gives R (do return .inl (← m)) fun r : Operand ⊕ Operand => x.Within (r.elim id id) :=
    fun hm p => (hm p).bind fun y p1 hy => .pure hy
  refine .bind reads_peek? fun token => ?_
  split
  · exact .pure hsame
  split
  · refine .bind reads_next? fun _ => .bind (reads_next _) fun member => ?_
    refine .bind (steady_memberKey _) fun key => .bind (steady_setSpan _) fun _ => ?_
    exact hpart (x.gives_member key)
  · refine .bind reads_next? fun _ => .bind (steps_readOf h) fun index => ?_
    refine .bind (reads_expect _) fun close => .bind (steady_setSpan _) fun _ => ?_
    exact hpart (x.gives_index index)
  · refine .bind reads_next? fun _ => .bind (steps_arguments h) fun arguments => ?_
    exact .bind (x.steady_call _ _) fun _ => .pure (within_of_none rfl)
  · exact .pure hsame

omit h in
theorem gives_castTurn (x : Operand) : Gives R (castTurn x) fun r => x.Within (r.elim id id) := by
  refine .bind (reads_accept _) fun token => ?_
  split
  · exact .pure fun _ h => h
  · refine .bind reads_type fun target => .bind x.steady_read fun value => ?_
    exact .bind (steady_setSpan _) fun _ => .bind (steps_make _ rfl) fun _ =>
      .pure (within_of_none rfl)

section ShortCircuit

variable (hshort : ∀ {rhs : ParseM Operand}, Steps R rhs → ∀ lhs decides span,
  Steps R (shortCircuit lhs decides rhs span))
include hshort

omit [Taking R] in
theorem steps_connect (c : Connective) (lhs : NodeId) (span : Span) :
    Steps R (connect c lhs inner span) := by
  have happly : ∀ r : NodeId → Request, (∀ rhs, (r rhs).isPhi = false) → Steps R (do
      let rhs ← readOf inner
      setSpan span
      make (r rhs)) := fun r hr =>
    .bind (steps_readOf h) fun rhs => .bind (steady_setSpan _) fun _ => steps_make _ (hr rhs)
  cases c with
  | binary op => exact happly _ fun _ => rfl
  | compare op => exact happly _ fun _ => rfl
  | shortCircuit op =>
    refine .bind (steady_typeOf lhs) fun ty => ?_
    split
    · exact hshort h lhs _ span
    · exact happly _ fun _ => rfl

theorem gives_binaryTurn (rank : List (TokenKind × Connective)) (x : Operand) :
    Gives R (binaryTurn rank inner x) fun r => x.Within (r.elim id id) := by
  have hsame : x.Within x := fun _ h => h
  refine .bind reads_peek? fun token => ?_
  split
  · exact .pure hsame
  split
  · exact .pure hsame
  · refine .bind reads_next? fun _ => .bind x.steady_read fun lhs => ?_
    exact .bind (steps_connect h hshort _ _ _) fun _ => .pure (within_of_none rfl)

end ShortCircuit

end Building

section Evaluating

variable [Evaluating R] {inner : ParseM Operand} (h : Steps R inner)
include h

theorem steps_parenthesized : Steps R (parenthesized inner) := by
  refine .bind h fun first => .bind (reads_accept _) fun comma => .ite ?_ ?_
  · exact .bind (reads_expect _) fun _ => .pure _
  · refine .bind (steady_read first) fun first => .bind (reads_separated (steps_readOf h)) fun rest => ?_
    refine .bind (reads_expect _) fun _ => .bind (.mapM steady_typeOf _) fun tys => ?_
    exact .bind (steps_make _ rfl) fun _ => .pure _

theorem steps_named (literals : Bool) (name : Token) : Steps R (named inner literals name) := by
  refine .bind steady_scope fun s => ?_
  split
  · exact .pure _
  · exact .pure _
  · exact .pure _
  · exact .branch (reads_isNext _) (.pure _) fun opens =>
      .ite (gives_compositeLiteral h _).steps (.fail _ _)
  · exact .fail _ _

theorem steps_primary (literals : Bool) : Steps R (primary inner literals) := by
  refine .bind (reads_next _) fun token => .bind (steady_setSpan _) fun _ => ?_
  refine .bind (.works (.lift _)) fun ty => ?_
  split
  · exact .bind (steps_make _ rfl) fun _ => .pure _
  · split
    · exact steps_parenthesized h
    · exact (gives_arrayLiteral h _).steps
    · exact steps_named h literals token
    · exact .fail _ _

theorem steps_cast (literals : Bool) : Steps R (cast inner literals) := by
  have hselected : Steps R (selected inner literals) := .bind (steps_primary h literals) fun operand =>
    .loop (fun x => (gives_selectionTurn h x).steps) operand
  have hunary : Steps R (unary inner literals) := .bind reads_signs fun tokens =>
    .bind hselected fun operand => steps_applySigns Evaluating.address tokens operand
  exact .bind hunary fun operand => .loop (fun x => (gives_castTurn x).steps) operand

theorem steps_binary (ranks : List (List (TokenKind × Connective))) : Steps R (binary inner ranks) := by
  induction ranks with
  | nil => exact h
  | cons rank tighter ih =>
    have hturn x := (gives_binaryTurn ih Evaluating.shortCircuit rank x).steps
    exact .bind ih fun lhs => .loop hturn lhs

omit h

theorem steps_operandNested (fuel : Nat) (literals : Bool) : Steps R (operandNested fuel literals) := by
  induction fuel generalizing literals with
  | zero => exact .fault _
  | succ fuel ih => exact steps_binary (steps_cast (ih true) literals) ladder

theorem steps_operand : Steps R operand := .bind steady_remaining fun _ => steps_operandNested _ true

theorem steps_expression : Steps R expression := steps_readOf steps_operand

theorem steps_condition : Steps R condition :=
  .bind steady_remaining fun _ => steps_readOf (steps_operandNested _ false)

end Evaluating

/-! ### Statements -/

section Building

variable [Building R]

theorem steady_initialValue (name last : Token) (declared : Option Ty) (value : Option NodeId) :
    Steps R (initialValue name last declared value) := by
  unfold initialValue
  split
  · exact .bind (.works (BuildM.works_coerce _ _)) fun _ => .pure _
  · exact .bind (steps_make _ rfl) fun _ => .pure _
  · refine .bind (steady_typeOf _) fun ty => .ite (.bind (steady_report _) fun _ => .pure _) ?_
    exact .bind (.works (BuildM.works_coerce _ _)) fun _ => .pure _
  · exact .fail _ _

theorem steady_assignedValue (token : Token) (target : Operand) (rhs : NodeId) :
    Steps R (assignedValue token target rhs) := by
  unfold assignedValue
  split
  · exact .bind target.steady_read fun _ => steps_make _ rfl
  · exact .pure _

theorem steady_anyLive (arms : List Arm) : Steps R (anyLive arms) :=
  .anyM (fun _ => .bind (.works (.look _)) fun _ => .pure _) arms

theorem steady_returnedValue (result : Ty) (value : Option NodeId) :
    Steps R (returnedValue result value) := by
  unfold returnedValue
  split
  · exact .pure _
  · refine .bind (steady_typeOf _) fun _ => .ite (.bind (steady_report _) fun _ => .pure _) (.pure _)
  · exact .bind (steady_report _) fun _ => .pure _
  · exact .bind (.works (BuildM.works_coerce _ _)) fun _ => .pure _

theorem steady_findMain : Steps R findMain := by
  refine .bind steady_scope fun s => ?_
  split
  · refine .bind (steady_typeOf _) fun ty => ?_
    split
    · exact .pure _
    · exact .bind steady_endSpan fun _ => .fail _ _
  · exact .bind steady_endSpan fun _ => .fail _ _

theorem steps_bindLocal (h : ∀ name x, Steps R (declare name x)) (name : Token) (ty : Ty) (value : NodeId) :
    Steps R (bindLocal name ty value) :=
  .bind .get fun _ => .ite (h _ _) (.bind (.works (BuildM.works_spillAs value ty)) fun _ => h _ _)

theorem steps_bindParameters (h : ∀ name ty value, Steps R (bindLocal name ty value)) (entry : NodeId)
    (index : Nat) (params : List (Token × Ty)) : Steps R (bindParameters entry index params) := by
  induction params generalizing index with
  | nil => exact .pure _
  | cons param params ih =>
    refine .bind (steady_setSpan _) fun _ => .bind (steps_make _ rfl) fun value => ?_
    exact .bind (h _ _ _) fun _ => ih _

variable [Taking R]

theorem steps_variableDeclaration (h : Steps R expression)
    (hbind : ∀ name ty value, Steps R (bindLocal name ty value)) : Steps R variableDeclaration := by
  refine .bind (reads_expect _) fun _ => .bind reads_identifier fun name => ?_
  refine .bind reads_peek? fun token => .branch (.pure _) (.map reads_type) fun declared => ?_
  refine .bind (reads_accept _) fun equals => .branch (.map h) (.pure _) fun value => ?_
  refine .bind (reads_expect _) fun last => .bind (steady_setSpan _) fun _ => ?_
  exact .bind (steady_initialValue name last declared value) fun r => hbind name _ _

theorem steps_constantValue (h : Steps R expression) : Steps R constantValue := by
  refine .bind (reads_isNext _) fun untyped => .branch (.pure _) (.map reads_type) fun declared => ?_
  refine .bind (reads_expect _) fun _ => .bind h fun value => .bind (reads_expect _) fun _ => ?_
  split
  · exact .works (BuildM.works_coerce value _)
  · exact .pure _

theorem steps_simpleStatement (h : Steps R operand)
    (hassign : ∀ (x : Operand) value, Steps R (x.assign value)) : Steps R simpleStatement := by
  refine .bind h fun target => .bind reads_peek? fun token => ?_
  split
  · exact .pure _
  · refine .ite (.bind reads_next? fun _ => .bind (steps_readOf h) fun rhs => ?_) (.pure _)
    refine .bind (steady_setSpan _) fun _ => .bind (steady_assignedValue _ target rhs) fun value => ?_
    exact hassign target value

end Building

section Framing

variable [Framing R]

@[simp] theorem steady_make (r : Request) : Steps R (make r) := .build _

@[simp] theorem steady_setCursor (c : Cursor) : Steps R (setCursor c) := .build _

theorem steady_addReturn (entry : NodeId) (span : Span) (value : Option NodeId) :
    Steps R (addReturn entry span value) :=
  .bind (steady_setSpan _) fun _ => .bind (steady_make _) fun _ => .build _

theorem steady_joinReturns (points : List (Option NodeId × Cursor)) : Steps R (joinReturns points) := by
  refine .bind (steady_make _) fun region => .bind (steady_make _) fun memory => ?_
  split
  · exact .bind (.map (steady_make _)) fun _ => .bind (steady_setCursor _) fun _ => .pure _
  · exact .bind (.pure _) fun _ => .bind (steady_setCursor _) fun _ => .pure _

/-- The scope behind an operator that does not always evaluate its right side is the one in front of it
with other values, or the one behind that side. -/
theorem steps_shortCircuit {rhs : ParseM Operand} (hscope : ∀ {p p' p'' : Parser} {s : Scope}, R p p' →
      R p p'' → p.scope.Revalues s ∨ s = p'.scope.truncate p.scope.depth → R p { p'' with scope := s })
    (h : Steps R rhs) (lhs : NodeId) (decides : Bool) (span : Span) :
    Steps R (shortCircuit lhs decides rhs span) := by
  intro p
  refine .step rfl ?_
  refine (steady_cursor (R := R)).behind (Chain.refl p) fun before p1 h1 => ?_
  refine (steady_setSpan _).behind h1 fun _ p2 h2 => (steady_branch _ _).behind h2 fun sides p3 h3 => ?_
  refine (steady_setCursor _).behind h3 fun _ p4 h4 => (steps_readOf h).behind h4 fun value p5 h5 => ?_
  refine (steady_setSpan _).behind h5 fun _ p6 h6 => (steady_make _).behind h6 fun value p7 h7 => ?_
  have hstable : Stable (R p) fun s => p.scope.Revalues s ∨ s = p7.scope.truncate p.scope.depth :=
    ⟨fun b h => Chain.trans h (Framing.build _ b), fun h8 hs => hscope h7 h8 hs⟩
  have hsame : p.scope.truncate p.scope.depth = p.scope := by simp [Scope.truncate, Scope.depth]
  refine .step rfl ((hstable.merge (fun _ => .inl) ?_ h7).bind ?_)
  · exact List.forall_mem_cons.2 ⟨.inr rfl, List.forall_mem_singleton.2 (.inl (hsame.symm ▸ .refl _))⟩
  · rintro join p8 ⟨h8, hjoin⟩
    refine (steady_make _).behind h8 fun short p9 h9 => (Steps.build _).behind h9 fun value p10 h10 => ?_
    exact (hstable.follow h10 hjoin).bind fun _ p11 h11 => .pure h11

theorem steady_finishFunction (entry : NodeId) : Steps R (finishFunction entry) := by
  refine .bind .get fun p => ?_
  dsimp only
  split
  · exact .pure _
  · exact .bind (steady_setCursor _) fun _ => steady_addReturn _ _ _
  · exact .bind (steady_joinReturns _) fun _ => steady_addReturn _ _ _

end Framing

/-! ### Declarations -/

section Declaring

variable [Declaring R]

theorem steps_localConstant (h : Steps R expression) : Steps R localConstant :=
  .bind (reads_expect _) fun _ => .bind reads_identifier fun name =>
    .bind (steps_constantValue h) fun _ => Declaring.declare name nofun

theorem steps_structDeclaration : Steps R structDeclaration := by
  refine .bind reads_identifier fun name => .bind (reads_expect _) fun _ => ?_
  refine .bind (reads_expect _) fun _ => .bind (.loop reads_fieldTurn _) fun fields => ?_
  exact .bind (steady_bounded _ _) fun ty => Declaring.declare name nofun

theorem steps_declareTypes : Steps R declareTypes := by
  refine .loop (fun _ => .bind reads_next? fun token => ?_) _
  split
  · exact .pure _
  · split
    · exact .bind steps_structDeclaration fun _ => .pure _
    · exact .bind reads_skipFunction fun _ => .pure _
    · exact .bind reads_skipStatement fun _ => .pure _
    · exact .bind (.fail _ _) fun _ => .pure _

theorem steps_globalConstant (h : Steps R expression) : Steps R globalConstant := by
  refine .bind reads_identifier fun name => .bind (steps_constantValue h) fun value => ?_
  refine .bind (steady_typeOf value) fun ty => .ite ?_ (Declaring.declare name nofun)
  refine .bind (steady_setSpan _) fun _ => .bind (steady_report _) fun error => ?_
  exact Declaring.declare name nofun

theorem steps_functionSignature : Steps R functionSignature := by
  refine .bind reads_identifier fun name => .bind (reads_expect _) fun _ => ?_
  refine .bind (reads_isNext _) fun none => .branch (.pure _) (.loop reads_parameterTurn _) fun params => ?_
  refine .bind (reads_expect _) fun _ => .bind (reads_isNext _) fun void => ?_
  refine .branch (.pure _) reads_type fun result => .bind (steady_setSpan _) fun _ => ?_
  refine .bind (steps_make _ rfl) fun entry => .bind (Declaring.declare name nofun) fun _ => ?_
  refine .bind .get fun p => .bind (reads_peek _) fun first => .skip (.fail _ _) fun _ => ?_
  exact .bind reads_skipGroup fun _ => .pure _

theorem steps_declarationTurn (h : Steps R expression) (functions : List FunctionDeclaration) :
    Steps R (declarationTurn functions) := by
  refine .bind reads_next? fun token => ?_
  split
  · exact .pure _
  split
  · refine .bind reads_identifier fun _ => .bind (reads_expect _) fun _ => ?_
    exact .bind reads_skipGroup fun _ => .pure _
  · exact .bind steps_functionSignature fun _ => .pure _
  · exact .bind (steps_globalConstant h) fun _ => .pure _
  · exact .fail _ _

end Declaring

end ParseM

end SeaOfNodes
