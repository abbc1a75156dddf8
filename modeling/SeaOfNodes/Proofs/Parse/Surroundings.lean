import SeaOfNodes.Proofs.Parse.Steps

/-!
Where statements stand. Construction keeps the open blocks, the open loops and whether a deferred
statement is read in its state, and saves and empties them where a deferred statement is read. Here
every statement is told what is around it instead (`Surroundings`), so that the text alone decides which
jumps are allowed (`Surroundings.allows`) and which deferred statements a way out runs
(`Surroundings.leaving`). Construction ends in the same state, or with the same error, either way: blocks
and loops are closed as they are opened, and a deferred statement gives back what it finds.
-/
namespace SeaOfNodes

/-- A way out of blocks: the end of the innermost one, a `break` or `continue`, or a `return`. -/
inductive Exit where
  | block
  | jump
  | return_

/-- What is around a statement: in the deferred statement that it is part of, or else in the body of its
function. Blocks are given by the statements that were deferred in them up to there, the latest first, and
the innermost comes first. -/
structure Surroundings where
  /-- The blocks in the innermost loop. -/
  blocks : List (List Deferred)
  /-- For each loop, the blocks around it that are in the next one. -/
  around : List (List (List Deferred))
  deferred : Bool

namespace Surroundings

def body : Surroundings := ⟨[], [], false⟩

def emitted : Surroundings := ⟨[], [], true⟩

def inBlock (s : Surroundings) (ds : List Deferred) : Surroundings := { s with blocks := ds :: s.blocks }

def inLoop (s : Surroundings) : Surroundings := { s with blocks := [], around := s.blocks :: s.around }

/-- Behind a statement that defers `ds`. -/
def defer (s : Surroundings) (ds : List Deferred) : Surroundings :=
  { s with blocks := s.blocks.modifyHead (ds ++ ·) }

/-- The deferred statements of the blocks that are left: of the innermost one, of those in the innermost
loop, or of all. -/
def leaving (s : Surroundings) : Exit → List Deferred
  | .block => s.blocks.head?.getD []
  | .jump => s.blocks.flatten
  | .return_ => (s.blocks ++ s.around.flatten).flatten

/-- No jump leaves a deferred statement, and `break` and `continue` are in a loop. -/
def allows (s : Surroundings) : Jump → Bool
  | .return_ => !s.deferred
  | _ => !s.deferred && !s.around.isEmpty

/-- The number of blocks around each loop. -/
def depths : List (List (List Deferred)) → List Nat
  | [] => []
  | blocks :: around => (blocks :: around).flatten.length :: depths around

/-- The state in which a statement with `s` around it is read. -/
structure Fits (s : Surroundings) (p : Parser) : Prop where
  defers : p.defers = s.blocks ++ s.around.flatten
  loops : p.loops.map OpenLoop.blocks = depths s.around
  deferring : p.deferring = s.deferred

end Surroundings

/-! ### Statements that are told what is around them -/

namespace ParseM

section

variable (allows : Surroundings → Jump → Bool) (inner : Surroundings → ParseM (List Deferred))
  (s : Surroundings)

/-- Reads a statement at the place where it was deferred: in no block and no loop, and with the names
that were visible there. Then reading goes on where it was, with the values that were given to variables,
also if the statement stops it. -/
def aside (m : ParseM Unit) (d : Deferred) : ParseM Unit := do
  let before ← get
  set { before with
    scope := before.scope.restrictTo d.scope
    lexer := d.lexer
    loops := []
    defers := []
    deferring := true }
  try m
  finally
    modify fun after => { after with
      scope := before.scope.writeBack after.scope
      lexer := before.lexer
      loops := before.loops
      defers := before.defers
      deferring := before.deferring }

/-- Takes a way out: the deferred statements of the blocks that are left are read one after the other,
each while control stays live. -/
def leave (exit : Exit) : ParseM Unit :=
  (s.leaving exit).forM fun d => do
    if !(← isDead) then aside (discard (inner .emitted)) d

/-- A block, which is left behind the last of its statements. -/
def blockIn : ParseM Unit := do
  let _ ← expect .openBrace
  openBlock
  let ds ← statementsWith (fun ds => do return (← inner (s.inBlock ds)) ++ ds) []
  leave inner (s.inBlock ds) .block
  closeBlock
  let _ ← expect .closeBrace

/-- `break` and `continue`, which leave the blocks in the innermost loop. -/
def jumpStatementIn : ParseM Unit := do
  let token ← next "statement"
  let jump := if token.kind = .keyword .break_ then Jump.break_ else Jump.continue_
  let _ ← expect .semicolon
  if allows s jump then
    leave inner s .jump
    recordJump jump (← arm)
    build .kill
  else fail (.misplaced jump) token.span

/-- `return`, which leaves all blocks when its value is known. -/
def returnStatementIn : ParseM Unit := do
  let keyword ← expect (.keyword .return_)
  if !allows s .return_ then fail (.misplaced .return_) keyword.span
  let result := (← get).body.result
  let value ← if ← isNext .semicolon then pure none else some <$> expression
  let _ ← expect .semicolon
  setSpan keyword.span
  let value ← returnedValue result value
  leave inner s .return_
  if !(← isDead) then recordReturn value
  build .kill

/-- A statement. Gives what it defers. -/
def statementIn : ParseM (List Deferred) :=
  Readers.statement
    { if_ := ifStatementWith (blockIn inner s)
        (alternativeWith (discard (inner s)) (blockIn inner s))
      for_ := forStatementWith (blockIn inner s.inLoop)
      jump := jumpStatementIn allows inner s
      return_ := returnStatementIn allows inner s
      block := blockIn inner s
      defer := do return [← deferStatement]
      plain := fun m => do
        m
        return [] }

/-- A statement with at most as many statements around each other. -/
def statementAt : Nat → Surroundings → ParseM (List Deferred)
  | 0, _ => throw (.fault .exhausted)
  | fuel + 1, s => statementIn allows (statementAt fuel) s

def functionBy : FunctionDeclaration → ParseM Unit :=
  buildFunctionWith fun fuel => blockIn (statementAt allows fuel) .body

end

end ParseM

/-- Builds the graph of a program, with the jumps that `allows` says. -/
def constructBy (allows : Surroundings → Jump → Bool) : String → Bool → Except Stop Construction :=
  constructWith (ParseM.programWith fun functions => functions.forM (ParseM.functionBy allows))

/-! ### Steps that leave nothing open -/

variable {α β σ τ : Type} {p p' : Parser} {s : Surroundings}

/-- The same blocks and as many loops are open as before. -/
structure Balanced (p p' : Parser) : Prop where
  defers : p'.defers = p.defers
  loops : p'.loops.map OpenLoop.blocks = p.loops.map OpenLoop.blocks
  deferring : p'.deferring = p.deferring

instance : Framing Balanced where
  refl _ := ⟨rfl, rfl, rfl⟩
  trans h1 h2 := ⟨h2.defers.trans h1.defers, h2.loops.trans h1.loops, h2.deferring.trans h1.deferring⟩
  build _ _ := ⟨rfl, rfl, rfl⟩

namespace ParseM

theorem balanced_setScope (scope : Scope) : Steps Balanced (setScope scope) := .of_modify fun _ => ⟨rfl, rfl, rfl⟩

theorem balanced_declare (name : Token) (x : Binding) : Steps Balanced (declare name x) := by
  refine .bind steady_scope fun scope => ?_
  split
  · exact .of_modify fun _ => ⟨rfl, rfl, rfl⟩
  · exact .fail _ _

instance : Declaring Balanced where
  takes h := by
    rw [h.eq]
    exact ⟨rfl, rfl, rfl⟩
  declare name _ := balanced_declare name _

instance : Evaluating Balanced where
  address x := x.steps_address fun _ => .of_modify fun _ => ⟨rfl, rfl, rfl⟩
  shortCircuit := steps_shortCircuit fun _ h _ => ⟨h.defers, h.loops, h.deferring⟩

theorem balanced_bindLocal (name : Token) (ty : Ty) (value : NodeId) :
    Steps Balanced (bindLocal name ty value) := steps_bindLocal balanced_declare name ty value

theorem balanced_recordReturn (value : Option NodeId) : Steps Balanced (recordReturn value) :=
  .bind steady_cursor fun _ => .of_modify fun _ => ⟨rfl, rfl, rfl⟩

theorem balanced_recordJump (jump : Jump) (arm : Arm) : Steps Balanced (recordJump jump arm) := by
  refine .of_modify fun p => ?_
  cases hloops : p.loops with
  | nil => exact ⟨rfl, rfl, rfl⟩
  | cons l ls => exact ⟨rfl, by cases jump <;> simp [hloops], rfl⟩

theorem balanced_follow (join : Join) : Steps Balanced (follow join) :=
  .bind (balanced_setScope _) fun _ => steady_setCursor _

theorem balanced_loopCondition (keyword : Token) : Steps Balanced (loopCondition keyword) := by
  refine .bind (reads_isNext _) fun none => .ite (.pure _) (.bind steps_condition fun condition => ?_)
  refine .bind (steady_setSpan _) fun _ => .bind (steady_branch _ _) fun sides => ?_
  exact .bind steady_cursor fun c => .bind (steady_setCursor _) fun _ => .bind steady_scope fun _ => .pure _

end ParseM

/-! ### Steps that do the same -/

/-- A step and another one that is told what is around it do the same in `p`: the first gives `r` of what
the second gives, and the state behind them has `t` of it around it. -/
def AlikeAt (p : Parser) (t : β → Surroundings) (r : β → α) (m : ParseM α) (m' : ParseM β) : Prop :=
  m p = (r <$> m') p ∧ Ensures p m' fun b q => (t b).Fits q

/-- They do so in every state that fits `s`. -/
def Alike (s : Surroundings) (t : β → Surroundings) (r : β → α) (m : ParseM α) (m' : ParseM β) : Prop :=
  ∀ p, s.Fits p → AlikeAt p t r m m'

/-- Two steps that do the same and leave nothing open. -/
abbrev Same (s : Surroundings) (m m' : ParseM α) : Prop := Alike s (fun _ => s) id m m'

namespace AlikeAt

variable {m : ParseM α} {m' : ParseM β} {t : β → Surroundings} {r : β → α} {f : α → ParseM σ} {f' : β → ParseM τ}
  {t' : τ → Surroundings} {r' : τ → σ}

theorem of_eq {m m' : ParseM α} {t : α → Surroundings} (heq : m p = m' p)
    (hm : Ensures p m' fun b q => (t b).Fits q) : AlikeAt p t id m m' :=
  ⟨heq.trans (congrFun (id_map m') p).symm, hm⟩

theorem bind_of {Q : β → Parser → Prop} (heq : m p = (r <$> m') p) (hm : Ensures p m' Q)
    (hf : ∀ b q, Q b q → AlikeAt q t' r' (f (r b)) (f' b)) : AlikeAt p t' r' (m >>= f) (m' >>= f') := by
  refine ⟨?_, hm.bind fun b q hq => (hf b q hq).2⟩
  simp only [Bind.bind, EStateM.bind, Functor.map, EStateM.map] at heq ⊢
  rw [heq]
  cases h : m' p with
  | ok b q => exact (hf b q (hm.result h)).1
  | error e q => rfl

theorem bind (hm : AlikeAt p t r m m') (hf : ∀ b, Alike (t b) t' r' (f (r b)) (f' b)) :
    AlikeAt p t' r' (m >>= f) (m' >>= f') := bind_of hm.1 hm.2 hf

/-- A step that only the first of them makes. -/
theorem left {a : α} (hm : m p = .ok a p) {n : ParseM τ} (hf : AlikeAt p t' r' (f a) n) :
    AlikeAt p t' r' (m >>= f) n := by
  refine ⟨?_, hf.2⟩
  rw [← hf.1]
  simp only [Bind.bind, EStateM.bind, hm]

end AlikeAt

theorem Surroundings.defer_nil : s.defer [] = s := by
  obtain ⟨_ | ⟨ds, blocks⟩, around, deferred⟩ := s <;> rfl

theorem Surroundings.Fits.later (hp : s.Fits p) (h : Balanced p p') : s.Fits p' :=
  ⟨h.defers.trans hp.defers, h.loops.trans hp.loops, h.deferring.trans hp.deferring⟩

namespace Alike

variable {m : ParseM α} {m' : ParseM β} {t : β → Surroundings} {r : β → α} {f : α → ParseM σ} {t' : τ → Surroundings}
  {r' : τ → σ}

theorem bind {f' : β → ParseM τ} (hm : Alike s t r m m') (hf : ∀ b, Alike (t b) t' r' (f (r b)) (f' b)) :
    Alike s t' r' (m >>= f) (m' >>= f') := fun p hp => (hm p hp).bind hf

theorem of_steps (h : Steps Balanced m) : Same s m m := fun p hp => .of_eq rfl ((h p).imp fun _ _ => hp.later)

/-- A step on both sides that leaves nothing open. -/
theorem along {f' : α → ParseM τ} (hm : Steps Balanced m) (hf : ∀ a, Alike s t' r' (f a) (f' a)) :
    Alike s t' r' (m >>= f) (m >>= f') := (of_steps hm).bind hf

theorem pure {a : α} {b : β} (hs : s = t b) (ha : a = r b) : Alike s t r (Pure.pure a) (Pure.pure b) := by
  subst hs ha
  exact fun _ hp => ⟨rfl, hp⟩

/-- The second step gives `f` of what it gave. -/
theorem giving {r' : τ → α} (hm : Alike s t r m m') (f : β → τ) (ht : ∀ b, t' (f b) = t b)
    (hr : ∀ b, r' (f b) = r b) : Alike s t' r' m (m' >>= fun b => Pure.pure (f b)) := by
  intro p hp
  obtain ⟨heq, hensures⟩ := hm p hp
  refine ⟨?_, hensures.bind fun b q hq => .pure (ht b ▸ hq)⟩
  rw [heq]
  simp only [Functor.map, EStateM.map, Bind.bind, EStateM.bind]
  cases m' p with
  | ok b q => exact congrArg (EStateM.Result.ok · q) (hr b).symm
  | error e q => rfl

theorem ite {c : Prop} [Decidable c] {n : ParseM α} {n' : ParseM β} (hm : Alike s t r m m')
    (hn : Alike s t r n n') : Alike s t r (if c then m else n) (if c then m' else n') := by
  split
  · exact hm
  · exact hn

theorem loop {step : Unit → ParseM (Unit ⊕ Unit)} {step' : β → ParseM (β ⊕ β)}
    (h : ∀ b, Alike (t b) (Sum.elim t t) (Sum.map (fun _ => ()) fun _ => ()) (step ()) (step' b)) (b : β) :
    Alike (t b) t (fun _ => ()) (ParseM.loop step ()) (ParseM.loop step' b) := by
  refine .along ParseM.steady_remaining fun fuel => ?_
  generalize fuel + 1 = fuel
  induction fuel generalizing b with
  | zero => exact fun _ _ => ⟨rfl, trivial⟩
  | succ fuel ih =>
    refine (h b).bind ?_
    rintro (b | b)
    · exact ih b
    · exact .pure rfl rfl

end Alike

namespace ParseM

variable {inner : ParseM Unit} {inner' : Surroundings → ParseM (List Deferred)}

/-- Statements do the same if they are told what is around them, and only `defer` defers something. -/
structure Mirrors (inner : ParseM Unit) (inner' : Surroundings → ParseM (List Deferred)) : Prop where
  alike : ∀ s, (s.blocks = [] → s.around = []) → Alike s s.defer (fun _ => ()) inner (inner' s)
  defers : ∀ s p, Ensures p (inner' s) fun ds _ =>
    ds = [] ∨ ∃ t, p.tokens.head? = some t ∧ t.kind = .keyword .defer

variable (h : Mirrors inner inner')

include h

/-! ### Ways out -/

omit h in
theorem aside_eq (m : ParseM Unit) (d : Deferred) (p : Parser) :
    aside m d p = restoring p m (p.deferredAt d) := by
  show Functor.map Prod.fst (tryFinally' m _) (p.deferredAt d) = _
  simp only [restoring, Functor.map, EStateM.map, tryFinally']
  cases m (p.deferredAt d) <;> rfl

/-- A deferred statement is read in a state of its own. -/
theorem emitDeferred_alike (d : Deferred) : Same s (emitDeferred inner d) (do
    if !(← isDead) then aside (discard (inner' .emitted)) d) := by
  refine .along steady_isDead fun dead => ?_
  cases dead with
  | true => exact .pure rfl rfl
  | false =>
    intro p hp
    obtain ⟨heq, -⟩ := h.alike .emitted (fun _ => rfl) (p.deferredAt d) ⟨rfl, rfl, rfl⟩
    refine .of_eq ?_ ?_
    · show restoring p inner (p.deferredAt d) = aside (discard (inner' .emitted)) d p
      rw [aside_eq]
      simp only [restoring, heq]
      rfl
    · show Ensures p (aside (discard (inner' .emitted)) d) _
      unfold Ensures
      rw [aside_eq, restoring]
      cases discard (inner' .emitted) (p.deferredAt d) with
      | ok _ after => exact ⟨hp.defers, hp.loops, hp.deferring⟩
      | error e after => cases e <;> trivial

theorem runDefers_alike {blocks : Nat} {exit : Exit} (hp : s.Fits p)
    (hexit : (p.defers.take (p.defers.length - blocks)).flatten = s.leaving exit) :
    AlikeAt p (fun _ => s) id (runDefers inner blocks) (leave inner' s exit) := by
  have hall : ∀ ds, Same s (emitAll inner ds) (ds.forM fun d => do
      if !(← isDead) then aside (discard (inner' .emitted)) d) := by
    intro ds
    induction ds with
    | nil => exact .pure rfl rfl
    | cons d ds ih => exact .bind (emitDeferred_alike h d) fun _ => ih
  have heq : runDefers inner blocks p = emitAll inner (s.leaving exit) p := hexit ▸ rfl
  exact ⟨heq.trans (hall _ p hp).1, (hall _ p hp).2⟩

/-! ### Blocks and branches -/

theorem block_alike : Same s (block inner) (blockIn inner' s) := by
  have hopen : Alike s (fun _ => s.inBlock []) id openBlock openBlock := fun p hp =>
    ⟨rfl, congrArg ([] :: ·) hp.defers, hp.loops, hp.deferring⟩
  have hclose : ∀ ds, Alike (s.inBlock ds) (fun _ => s) id closeBlock closeBlock := fun ds p hp =>
    ⟨rfl, congrArg List.tail hp.defers, hp.loops, hp.deferring⟩
  refine .along (reads_expect _) fun _ => .bind hopen fun _ => ?_
  refine .bind (.loop (fun ds => ?_) []) fun ds p hp => ?_
  · have hinner := h.alike (s.inBlock ds) fun hs => absurd hs (List.cons_ne_nil _ _)
    refine .along (reads_peek _) fun _ => .ite (.pure rfl rfl) (.bind (t := s.inBlock) ?_ fun _ => .pure rfl rfl)
    exact hinner.giving (· ++ ds) (fun _ => rfl) fun _ => rfl
  · obtain ⟨blocks, hblocks⟩ : ∃ blocks, p.defers = ds :: blocks := ⟨_, hp.defers⟩
    have hexit : (p.defers.take (p.defers.length - blocks.length)).flatten =
        (s.inBlock ds).leaving .block := by
      simp [hblocks, Surroundings.leaving, Surroundings.inBlock]
    have hlower : lower p.defers.length p = .ok blocks.length p := hblocks ▸ rfl
    refine .left rfl (.left hlower (.bind (runDefers_alike h hp hexit) fun _ => .bind (hclose ds) fun _ => ?_))
    exact .along (reads_expect _) fun _ => .pure rfl rfl

theorem alternative_alike (hs : s.blocks = [] → s.around = []) :
    Same s (alternative inner) (alternativeWith (discard (inner' s)) (blockIn inner' s)) := by
  refine .along (reads_accept _) fun found => .ite (fun p hp => ?_) (.pure rfl rfl)
  refine .bind_of (congrFun (id_map _) p).symm
    ((isNext_ensures _).and (reads_isNext (R := Balanced) _ p)) ?_
  rintro nested q ⟨⟨htakes, hnested⟩, hq⟩
  have hfits := hp.later hq
  cases nested with
  | false => exact block_alike h q hfits
  | true =>
    obtain ⟨heq, hinner⟩ := h.alike s hs q hfits
    refine .of_eq heq (.map (((h.defers s q).and hinner).imp ?_))
    rintro ds q' ⟨rfl | ⟨t, ht, hdefer⟩, hq'⟩
    · rwa [Surroundings.defer_nil] at hq'
    · obtain ⟨t', ht', hif⟩ := hnested.1 rfl
      rw [htakes.same, ht', Option.some.injEq] at ht
      simp [← ht, hif] at hdefer

/-! ### Loops and jumps -/

theorem ifStatement_alike (hs : s.blocks = [] → s.around = []) :
    Same s (ifStatement inner) (ifStatementWith (blockIn inner' s)
      (alternativeWith (discard (inner' s)) (blockIn inner' s))) := by
  refine .along (reads_expect _) fun keyword => .along steps_condition fun condition => ?_
  refine .along steady_scope fun parent => .along steady_cursor fun before => ?_
  refine .along (steady_setSpan _) fun _ => .along (steady_branch _ _) fun sides => ?_
  refine .along (steady_setCursor _) fun _ => .bind (block_alike h) fun _ => .along steady_arm fun taken => ?_
  refine .along (balanced_setScope _) fun _ => .along (steady_setCursor _) fun _ => ?_
  refine .bind (alternative_alike h hs) fun _ => .along steady_arm fun untaken => ?_
  exact .of_steps (.bind (.build _) balanced_follow)

theorem forStatement_alike :
    Same s (forStatement inner) (forStatementWith (blockIn inner' s.inLoop)) := by
  refine .along (reads_expect _) fun keyword => .along (steady_setSpan _) fun _ => ?_
  refine .along steady_cursor fun c => .along (steady_make _) fun header => .along steady_scope fun scope => ?_
  refine .along (.build _) fun opened => .along (balanced_setScope _) fun _ => ?_
  refine .along (balanced_loopCondition _) fun exits => .along steady_scope fun parent => ?_
  have hopen : Alike s (fun _ => s.inLoop) id openLoop openLoop := fun p hp =>
    ⟨rfl, hp.defers, congr (congrArg _ (congrArg List.length hp.defers)) hp.loops, hp.deferring⟩
  have hclose : Alike s.inLoop (fun _ => s) id closeLoop closeLoop := fun p hp =>
    ⟨rfl, hp.defers, (List.map_tail ..).trans (congrArg List.tail hp.loops), hp.deferring⟩
  refine .bind hopen fun _ => .bind (block_alike h) fun _ => .bind hclose fun paths => ?_
  refine .along (steady_anyLive _) fun live => .of_steps (.skip (.build _) fun _ => .bind steady_arm fun _ => ?_)
  exact .bind (.build _) fun _ => .bind (.build _) balanced_follow

theorem jumpStatement_alike :
    Same s (jumpStatement inner) (jumpStatementIn Surroundings.allows inner' s) := by
  refine .along (reads_next _) fun token => .along (reads_expect _) fun _ p hp => .left rfl ?_
  have hallows : ∀ (c : Prop) [Decidable c], s.allows (if c then .break_ else .continue_) =
      (!p.deferring && !s.around.isEmpty) := by
    intro c _
    rw [hp.deferring]
    split <;> rfl
  rw [hallows]
  cases haround : s.around with
  | nil =>
    have hloops : p.loops = [] := List.map_eq_nil_iff.1 (hp.loops.trans (haround ▸ rfl))
    rw [hloops, List.isEmpty_nil, Bool.not_true, Bool.and_false]
    exact ⟨rfl, trivial⟩
  | cons blocks around =>
    obtain ⟨l, ls, hloops, hl, -⟩ := List.map_eq_cons_iff.1 (hp.loops.trans (by rw [haround]; rfl))
    rw [hloops]
    cases p.deferring with
    | true => exact ⟨rfl, trivial⟩
    | false =>
      have hexit : (p.defers.take (p.defers.length - l.blocks)).flatten = s.leaving .jump := by
        simp [hp.defers, hl, haround, Surroundings.leaving]
      refine .bind (runDefers_alike h hp hexit) fun _ => .of_steps ?_
      exact .bind steady_arm fun arm => .bind (balanced_recordJump _ _) fun _ => .build _

theorem returnStatement_alike :
    Same s (returnStatement inner) (returnStatementIn Surroundings.allows inner' s) := by
  refine .along (reads_expect _) fun keyword p hp => .left rfl ?_
  have hallows : (!s.allows .return_) = p.deferring := by rw [hp.deferring]; exact Bool.not_not _
  rw [hallows]
  cases p.deferring with
  | true => exact ⟨rfl, trivial⟩
  | false =>
    have hleave : Same s (runDefers inner 0) (leave inner' s .return_) := fun p hp =>
      runDefers_alike h hp (by rw [Nat.sub_zero, List.take_length, hp.defers]; rfl)
    refine Alike.along .get (fun state => .along (reads_isNext _) fun bare => ?_) p hp
    refine .ite (.along (.pure _) fun value => ?_) (.along (.map steps_expression) fun value => ?_)
    all_goals
      refine .along (reads_expect _) fun _ => .along (steady_setSpan _) fun _ => ?_
      refine .along (steady_returnedValue _ value) fun value => .bind hleave fun _ => ?_
      refine .along steady_isDead fun dead => ?_
      split
      · exact .of_steps (.bind (balanced_recordReturn _) fun _ => .build _)
      · exact .of_steps (.build _)

/-! ### All statements -/

omit h in
theorem deferStatement_alike (hs : s.blocks = [] → s.around = []) :
    Alike s (fun d => s.defer [d]) (fun _ => ()) (discard deferStatement) deferStatement := by
  suffices hfits : Alike s (fun d => s.defer [d]) id deferStatement deferStatement from
    fun p hp => ⟨rfl, (hfits p hp).2⟩
  refine .along (reads_expect _) fun _ => .along .get fun p => .along steady_scope fun scope => ?_
  have hdefer : ∀ d : Deferred, Alike s (fun _ => s.defer [d]) id (modify fun q => q.defer d)
      (modify fun q => q.defer d) := by
    refine fun d q hq => ⟨rfl, ?_, hq.loops, hq.deferring⟩
    show q.defers.modifyHead _ = _
    rw [hq.defers]
    cases hblocks : s.blocks with
    | nil => simp [hs hblocks, hblocks, Surroundings.defer]
    | cons => simp [hblocks, Surroundings.defer]
  refine .along (reads_isNext _) fun opens => .ite ?_ ?_
  · exact .along reads_skipGroup fun _ => .bind (hdefer _) fun _ => .pure rfl rfl
  · exact .along reads_skipStatement fun _ => .bind (hdefer _) fun _ => .pure rfl rfl

theorem statementWith_mirrors : Mirrors (statementWith inner) (statementIn Surroundings.allows inner') where
  alike s hs := by
    refine .along (reads_peek _) fun token => .along (steady_setSpan _) fun _ => ?_
    have hplain : ∀ {m m' : ParseM Unit}, Same s m m' →
        Alike s s.defer (fun _ => ()) m (m' >>= fun _ => pure []) :=
      fun hm => hm.giving (fun _ => []) (fun _ => Surroundings.defer_nil) fun _ => rfl
    have hsimple : Steps Balanced (do simpleStatement; let _ ← expect .semicolon) :=
      .bind (steps_simpleStatement steps_operand fun x value =>
        x.steps_assign (fun _ _ _ => ⟨rfl, rfl, rfl⟩) value) fun _ => .bind (reads_expect _) fun _ => .pure _
    cases token.kind with
    | keyword k =>
      cases k with
      | var => exact hplain (.of_steps (steps_variableDeclaration steps_expression balanced_bindLocal))
      | const => exact hplain (.of_steps (steps_localConstant steps_expression))
      | if_ => exact hplain (ifStatement_alike h hs)
      | for_ => exact hplain (forStatement_alike h)
      | break_ => exact hplain (jumpStatement_alike h)
      | continue_ => exact hplain (jumpStatement_alike h)
      | return_ => exact hplain (returnStatement_alike h)
      | defer => exact (deferStatement_alike hs).giving (fun d => [d]) (fun _ => rfl) fun _ => rfl
      | _ => exact hplain (.of_steps hsimple)
    | openBrace => exact hplain (block_alike h)
    | semicolon => exact hplain (.of_steps (.bind reads_next? fun _ => .pure _))
    | _ => exact hplain (.of_steps hsimple)
  defers s p := by
    refine (peek_ensures _).bind ?_
    rintro token q ⟨-, ht⟩
    refine .step rfl ?_
    have hplain : ∀ {q : Parser} {m : ParseM Unit} {P : Prop},
        Ensures q (m >>= fun _ => pure []) fun ds _ => (ds : List Deferred) = [] ∨ P :=
      Ensures.of_forall (fun _ _ => trivial) |>.bind fun _ _ _ => .pure (.inl rfl)
    split
    any_goals exact hplain
    rename_i hkind
    exact .of_forall fun _ _ => .inr ⟨token, ht, hkind⟩

omit h in
theorem statementNested_mirrors (fuel : Nat) :
    Mirrors (statementNested fuel) (statementAt Surroundings.allows fuel) := by
  induction fuel with
  | zero => exact ⟨fun _ _ _ _ => ⟨rfl, trivial⟩, fun _ _ => trivial⟩
  | succ fuel ih => exact statementWith_mirrors ih

/-! ### Programs -/

omit h in
theorem buildFunction_alike (d : FunctionDeclaration) :
    Same .body (buildFunction d) (functionBy Surroundings.allows d) := by
  have hreset : ∀ f : Parser → Parser,
      (∀ p, (f p).defers = [] ∧ (f p).loops = [] ∧ (f p).deferring = p.deferring) →
      Same .body (modify f) (modify f) :=
    fun f hf p hp => ⟨rfl, (hf p).1, by rw [(hf p).2.1]; rfl, (hf p).2.2.trans hp.deferring⟩
  have henter : Same .body (enterFunction d) (enterFunction d) := by
    refine .along (.of_modify fun _ => ⟨rfl, rfl, rfl⟩) fun _ => .along reads_addressTaken fun names => ?_
    exact .bind (hreset _ fun _ => ⟨rfl, rfl, rfl⟩) fun _ => .of_steps (steady_setCursor _)
  refine henter.bind fun _ => .along (steps_bindParameters balanced_bindLocal _ _ _) fun _ => ?_
  refine .along .get fun p => .bind (block_alike (statementNested_mirrors _)) fun _ => .of_steps ?_
  refine .bind (.bind steady_isDead fun _ => .ite (.pure _) (.ite (balanced_recordReturn _) (.fail _ _))) fun _ => ?_
  exact .bind steady_scope fun _ => .bind (balanced_setScope _) fun _ => steady_finishFunction _

omit h in
theorem program_alike : Same .body program
    (programWith fun functions => functions.forM (functionBy Surroundings.allows)) := by
  have hdeclarations : Steps Balanced declarations := by
    refine .bind .get fun _ => .bind steps_declareTypes fun _ => ?_
    refine .bind (.of_modify fun _ => ⟨rfl, rfl, rfl⟩) fun _ => ?_
    exact .bind (.loop (steps_declarationTurn steps_expression) _) fun _ => .bind steady_findMain fun _ => .pure _
  have hfunctions : ∀ functions, Same .body (buildFunctions functions)
      (functions.forM (functionBy Surroundings.allows)) := by
    intro functions
    induction functions with
    | nil => exact .pure rfl rfl
    | cons d functions ih => exact (buildFunction_alike d).bind fun _ => ih
  refine .along hdeclarations fun declared => .bind (hfunctions _) fun _ => .of_steps ?_
  refine .bind (.bind .get fun _ => .bind (steady_setCursor _) fun _ => ?_) fun _ => .pure _
  refine .bind (steady_make _) fun _ => .bind (steady_setCursor _) fun _ => ?_
  exact .bind (steady_make _) fun _ => steady_make _

end ParseM

/-! ### What deferred statements find and give back -/

namespace Scope

variable {s earlier later : Scope} {depth : Nat} {name : String}

end Scope

/-- The place in the text, the open loops and blocks, and whether a deferred statement is read. -/
def Parser.place (p : Parser) : Lexer × List OpenLoop × List (List Deferred) × Bool :=
  (p.lexer, p.loops, p.defers, p.deferring)

/-- The state in which a step ends, also if it stops. -/
def ParseM.final (m : ParseM α) (p : Parser) : Parser :=
  match m p with
  | .ok _ q | .error _ q => q

/-- A step that ends at the place where it began, also if it stops. -/
def Restores (m : ParseM α) : Prop := ∀ p, (m.final p).place = p.place

theorem Restores.bind {m : ParseM α} {f : α → ParseM β} (hm : Restores m) (hf : ∀ a, Restores (f a)) :
    Restores (m >>= f) := by
  intro p
  have h := hm p
  simp only [ParseM.final, Bind.bind, EStateM.bind] at h ⊢
  cases hp : m p with
  | error e q => rwa [hp] at h
  | ok a q =>
    rw [hp] at h
    exact (hf a q).trans h

theorem constructWith_congr {m m' : ParseM (NodeId × Nat)} (h : Same .body m m') (text : String)
    (promote : Bool) : constructWith m text promote = constructWith m' text promote := by
  have heq := (h (.ofText text promote) ⟨rfl, rfl, rfl⟩).1
  rw [id_map] at heq
  rw [constructWith, heq, constructWith]

/-- Jumps are refused exactly where they are misplaced: in a deferred statement, and `break` and `continue`
also outside of all loops. -/
theorem construct_lexicalJumps (text : String) (promote : Bool) :
    construct text promote = constructBy Surroundings.allows text promote :=
  constructWith_congr ParseM.program_alike text promote

/-- A loop in a deferred statement does not help: there `break` is refused as well. -/
theorem break_refused_in_deferred_loop :
    (construct "func main() \x7b defer \x7b for \x7b break; \x7d \x7d \x7d" false).isOk = false ∧
      (constructBy (fun s jump => if jump = .return_ then !s.deferred else !s.around.isEmpty)
        "func main() \x7b defer \x7b for \x7b break; \x7d \x7d \x7d" false).isOk = true := by
  decide +kernel

end SeaOfNodes
