import SeaOfNodes.Parse.Expression

/-!
Statements. Where paths join again their scopes are merged. A deferred statement is skipped where
it stands, and read at every way out of its block that is taken, with the names that were visible
where it stands and the values that they have at the way out.

The statements inside a statement are read by a parameter, `inner`. A statement that has others
inside does not depend on how they are read, nor on what is done at the ways out of blocks, so these
are parameters of its form (`ifStatementWith`, `forStatementWith`, `Readers.statement`).
-/
namespace SeaOfNodes

/-- The operator of an assignment such as `+=`. -/
def compoundOperator? : TokenKind → Option BinaryOp
  | .plusEquals => some .add
  | .minusEquals => some .subtract
  | .asteriskEquals => some .multiply
  | .slashEquals => some .divide
  | .percentEquals => some .modulus
  | .ampersandEquals => some .bitwiseAnd
  | .barEquals => some .bitwiseOr
  | .caretEquals => some .bitwiseXor
  | .shiftLeftEquals => some .shiftLeft
  | .shiftRightEquals => some .shiftRight
  | _ => none

namespace ParseM

/-! ### Declarations -/

/-- Binds a new local: as a value if that is asked for and its address is never taken, and in a
stack slot otherwise. -/
def bindLocal (name : Token) (ty : Ty) (value : NodeId) : ParseM Unit := do
  let p ← get
  if p.promote && !p.addressTaken.contains name.text then declare name (.held value ty)
  else
    let address ← build (.spillAs value ty)
    declare name (.slot address ty)

/-- The type and the first value of a variable. -/
def initialValue (name last : Token) (declared : Option Ty) (value : Option NodeId) :
    ParseM (Ty × NodeId) := do
  match declared, value with
  | some ty, some value => return (ty, ← build (.coerce value ty))
  | some ty, none => return (ty, ← make (.constant ty.zero))
  | none, some value =>
    let ty := (← typeOf value).concrete.bottom
    if ty.isVoid then
      return (.void, ← report ("`" ++ name.text ++ "` cannot hold a `void` value"))
    else return (ty, ← build (.coerce value ty))
  | none, none => fail (.unexpectedToken "type or initializer" ";") last.span

def variableDeclaration : ParseM Unit := do
  let _ ← expect (.keyword .var)
  let name ← identifier
  let untyped := (← peek?).any fun token => token.kind == .equals || token.kind == .semicolon
  let declared ← if untyped then pure none else some <$> type
  let value ← if (← accept .equals).isSome then some <$> expression else pure none
  let last ← expect .semicolon
  setSpan name.span
  let (ty, value) ← initialValue name last declared value
  bindLocal name ty value

/-- The rest of the declaration of a constant, behind its name. -/
def constantValue : ParseM NodeId := do
  let declared ← if ← isNext .equals then pure none else some <$> type
  let _ ← expect .equals
  let value ← expression
  let _ ← expect .semicolon
  match declared with
  | some ty => build (.coerce value ty)
  | none => return value

def localConstant : ParseM Unit := do
  let _ ← expect (.keyword .const)
  let name ← identifier
  let value ← constantValue
  declare name (.value value)

/-! ### Assignments -/

def assignedValue (token : Token) (target : Operand) (rhs : NodeId) : ParseM NodeId := do
  match compoundOperator? token.kind with
  | some op => make (.binary op (← target.read) rhs)
  | none => return rhs

/-- An expression, or an assignment to one. -/
def simpleStatement : ParseM Unit := do
  let target ← operand
  match ← peek? with
  | none => return
  | some token =>
    if token.kind.isAssignment then
      let _ ← next?
      let rhs ← expression
      setSpan token.span
      let value ← assignedValue token target rhs
      target.assign value

/-! ### Deferred statements -/

/-- Gives back what a deferred statement does not change, and takes over the values that it gave
to variables. -/
def restored (before after : Parser) : Parser :=
  { after with
    scope := before.scope.writeBack after.scope
    lexer := before.lexer
    loops := before.loops
    defers := before.defers
    deferring := before.deferring }

/-- Runs a step and then restores, also if the step stops. -/
def restoring (before : Parser) (m : ParseM Unit) : ParseM Unit := fun p =>
  match m p with
  | .ok () after => .ok () (restored before after)
  | .error e after => .error e (restored before after)

/-- Reads a deferred statement at a way out of its block. -/
def emitDeferred (inner : ParseM Unit) (d : Deferred) : ParseM Unit := do
  if ← isDead then return
  let before ← get
  set (before.deferredAt d)
  restoring before inner

def emitAll (inner : ParseM Unit) : List Deferred → ParseM Unit
  | [] => return
  | d :: ds => do
    emitDeferred inner d
    emitAll inner ds

/-- Reads the deferred statements of all blocks that are open inside the first `blocks` ones, the
innermost block and the latest statement first. -/
def runDefers (inner : ParseM Unit) (blocks : Nat) : ParseM Unit := do
  let defers := (← get).defers
  emitAll inner (defers.take (defers.length - blocks)).flatten

/-- Keeps the place of a statement and skips it. -/
def deferStatement : ParseM Deferred := do
  let _ ← expect (.keyword .defer)
  let d : Deferred := ⟨(← get).lexer, ← scope⟩
  if ← isNext .openBrace then skipGroup else skipStatement
  modify fun p => p.defer d
  return d

/-! ### Blocks and branches -/

def openBlock : ParseM Unit :=
  modify fun p => { p with scope := p.scope.push, defers := [] :: p.defers }

def closeBlock : ParseM Unit :=
  modify fun p => { p with scope := p.scope.pop, defers := p.defers.tail }

/-- Statements up to a closing brace, each of which is told what the ones before it gave. -/
def statementsWith {α : Type} (inner : α → ParseM α) : α → ParseM α :=
  loop fun a => do
    let token ← peek "`\x7d`"
    if token.kind = .closeBrace then return .inr a
    else return .inl (← inner a)

def statements (inner : ParseM Unit) : ParseM Unit := statementsWith (fun _ => inner) ()

def block (inner : ParseM Unit) : ParseM Unit := do
  let _ ← expect .openBrace
  openBlock
  statements inner
  runDefers inner (← lower (← get).defers.length)
  closeBlock
  let _ ← expect .closeBrace

/-- What stands behind `else`, if anything does: another `if` or a block. -/
def alternativeWith (nested body : ParseM Unit) : ParseM Unit := do
  if (← accept (.keyword .else_)).isSome then
    if ← isNext (.keyword .if_) then nested else body

def alternative (inner : ParseM Unit) : ParseM Unit := alternativeWith inner (block inner)

def ifStatementWith (body alternative : ParseM Unit) : ParseM Unit := do
  let keyword ← expect (.keyword .if_)
  let condition ← condition
  let parent ← scope
  let before ← cursor
  setSpan keyword.span
  let (yes, no) ← branch condition true
  setCursor ⟨yes, before.memory⟩
  body
  let taken ← arm
  setScope parent
  setCursor ⟨no, before.memory⟩
  alternative
  let untaken ← arm
  follow (← build (.merge parent [taken, untaken]))

def ifStatement (inner : ParseM Unit) : ParseM Unit :=
  ifStatementWith (block inner) (alternative inner)

/-! ### Loops -/

/-- The condition of a loop, if it has one; gives the path on which it does not hold. -/
def loopCondition (keyword : Token) : ParseM (List Arm) := do
  if ← isNext .openBrace then return []
  let condition ← condition
  setSpan keyword.span
  let (yes, no) ← branch condition true
  let c ← cursor
  setCursor { c with control := yes }
  return [⟨← scope, no, c.memory⟩]

def openLoop : ParseM Unit :=
  modify fun p => { p with loops := { blocks := p.defers.length } :: p.loops }

def closeLoop : ParseM OpenLoop := do
  let p ← get
  set { p with loops := p.loops.tail }
  return p.loops.head?.getD { blocks := 0 }

def anyLive (arms : List Arm) : ParseM Bool :=
  arms.anyM fun arm => do return !(← build (.look fun g => g.isDeadControl arm.cursor.control))

/-- A path whose values have been replaced. -/
def substituteArm (arm : Arm) (old new : NodeId) : Arm :=
  { scope := arm.scope.substitute old new
    cursor :=
      { arm.cursor with memory := if arm.cursor.memory = old then new else arm.cursor.memory } }

/-- Completes the head of a loop with the paths to its next turn, and goes on behind its ways out. -/
def leaveLoop (phis : LoopPhis) (parent : Scope) (exits backEdges : List Arm) : ParseM Unit := do
  let replaced ← build (phis.close backEdges)
  -- The ways out were kept when the phis were not known to have a single value.
  let parent := replaced.foldl (fun scope (old, new) => scope.substitute old new) parent
  let exits := exits.map fun arm =>
    replaced.foldl (fun arm (old, new) => substituteArm arm old new) arm
  follow (← build (.merge parent exits))

def forStatementWith (body : ParseM Unit) : ParseM Unit := do
  let keyword ← expect (.keyword .for_)
  setSpan keyword.span
  let header ← make (.loop (← cursor).control)
  let (phis, inside) ← build (LoopPhis.enter (← scope) header)
  setScope inside
  let exits ← loopCondition keyword
  let parent ← scope
  openLoop
  body
  let paths ← closeLoop
  let exits := exits ++ paths.breaks
  if !(← anyLive exits) then build phis.keepAlive
  leaveLoop phis parent exits (paths.continues ++ [← arm])

def forStatement (inner : ParseM Unit) : ParseM Unit := forStatementWith (block inner)

/-! ### Jumps -/

/-- Keeps a path that leaves the innermost loop or goes on with its next turn. -/
def recordJump (jump : Jump) (arm : Arm) : ParseM Unit :=
  modify fun p =>
    match p.loops with
    | [] => p
    | l :: loops =>
      let l := match jump with
        | .break_ => { l with breaks := l.breaks ++ [arm] }
        | _ => { l with continues := l.continues ++ [arm] }
      { p with loops := l :: loops }

/-- `break` and `continue`, which have to be in a loop and in no deferred statement. -/
def jumpStatement (inner : ParseM Unit) : ParseM Unit := do
  let token ← next "statement"
  let jump := if token.kind = .keyword .break_ then Jump.break_ else Jump.continue_
  let _ ← expect .semicolon
  let p ← get
  match p.loops, p.deferring with
  | l :: _, false =>
    runDefers inner l.blocks
    recordJump jump (← arm)
    build .kill
  | _, _ => fail (.misplaced jump) token.span

/-- The value that a function returns, converted to its result type. -/
def returnedValue (result : Ty) (value : Option NodeId) : ParseM (Option NodeId) := do
  match value, result.isVoid with
  | none, true => return none
  | some value, true =>
    if !(← typeOf value).isError then
      let _ ← report "cannot return a value from a `void` function"
    return none
  | none, false =>
    return some (← report ("missing return value of type `" ++ result.name ++ "`"))
  | some value, false => return some (← build (.coerce value result))

def recordReturn (value : Option NodeId) : ParseM Unit := do
  let c ← cursor
  modify fun p => { p with body := { p.body with returns := p.body.returns ++ [(value, c)] } }

/-- `return`, which has to be in no deferred statement. -/
def returnStatement (inner : ParseM Unit) : ParseM Unit := do
  let keyword ← expect (.keyword .return_)
  if (← get).deferring then fail (.misplaced .return_) keyword.span
  let result := (← get).body.result
  let value ← if ← isNext .semicolon then pure none else some <$> expression
  let _ ← expect .semicolon
  setSpan keyword.span
  let value ← returnedValue result value
  runDefers inner 0
  if !(← isDead) then recordReturn value
  build .kill

/-! ### All statements -/

/-- How statements are read that have others inside or leave blocks. -/
structure Readers (α : Type) where
  if_ : ParseM Unit
  for_ : ParseM Unit
  jump : ParseM Unit
  return_ : ParseM Unit
  block : ParseM Unit
  defer : ParseM α
  /-- The result of a statement that defers nothing. -/
  plain : ParseM Unit → ParseM α

/-- A statement, by its first token. -/
def Readers.statement {α : Type} (r : Readers α) : ParseM α := do
  let token ← peek "statement"
  setSpan token.span
  match token.kind with
  | .keyword .var => r.plain variableDeclaration
  | .keyword .const => r.plain localConstant
  | .keyword .if_ => r.plain r.if_
  | .keyword .for_ => r.plain r.for_
  | .keyword .break_ | .keyword .continue_ => r.plain r.jump
  | .keyword .return_ => r.plain r.return_
  | .keyword .defer => r.defer
  | .openBrace => r.plain r.block
  | .semicolon => r.plain do
    let _ ← next?
  | _ => r.plain do
    simpleStatement
    let _ ← expect .semicolon

def statementWith (inner : ParseM Unit) : ParseM Unit :=
  Readers.statement
    { if_ := ifStatement inner
      for_ := forStatement inner
      jump := jumpStatement inner
      return_ := returnStatement inner
      block := block inner
      defer := discard deferStatement
      plain := id }

/-- A statement with at most `fuel` statements around each other, where a deferred statement is
inside the one that leaves its block. -/
def statementNested : Nat → ParseM Unit
  | 0 => throw (.fault .exhausted)
  | fuel + 1 => statementWith (statementNested fuel)

end ParseM

end SeaOfNodes
