import SeaOfNodes.Scope.Loop
import SeaOfNodes.Token.Lexer

/-!
The state of construction and its steps on tokens. There is no syntax tree: nodes are added while
tokens are read, and the scope is kept up to date on the way.

Every loop over tokens takes at least one token a turn, so it has no more turns than the text has
bytes left.
-/
namespace SeaOfNodes

/-- A statement that runs when its block is left: the place of its text, and the scope in which it
was written. -/
structure Deferred where
  lexer : Lexer
  scope : Scope

/-- A loop that is open: the number of blocks around it, and the paths that leave it or go on with
its next turn. -/
structure OpenLoop where
  blocks : Nat
  breaks : List Arm := []
  continues : List Arm := []

/-- The function whose body is read: the place of its name, its result type, and the points where
it returns, with their values. -/
structure Body where
  span : Span := ⟨0, 0⟩
  result : Ty := .void
  returns : List (Option NodeId × Cursor) := []

structure Parser where
  lexer : Lexer
  size : Nat
  builder : Builder := .initial
  scope : Scope := .initial
  body : Body := {}
  /-- The open loops, the innermost first. -/
  loops : List OpenLoop := []
  /-- The deferred statements of the open blocks, the innermost block and the latest statement
  first. -/
  defers : List (List Deferred) := []
  /-- Names whose address is taken somewhere in the function. -/
  addressTaken : List String := []
  /-- Whether locals whose address is never taken are held as values. -/
  promote : Bool
  /-- Whether a deferred statement is read. -/
  deferring : Bool := false
  /-- What names were declared to stand for, the latest first. -/
  declared : List Binding := []
  /-- Locals that are held as values and whose address was asked for, the latest first. -/
  refused : List String := []

/-- Keeps a statement for the ways out of the innermost block. -/
def Parser.defer (p : Parser) (d : Deferred) : Parser :=
  { p with defers := p.defers.modifyHead (d :: ·) }

/-- The state in which a deferred statement is read. -/
def Parser.deferredAt (p : Parser) (d : Deferred) : Parser :=
  { p with
    scope := p.scope.restrictTo d.scope
    lexer := d.lexer
    loops := []
    defers := []
    deferring := true }

/-- Why construction stops: an error of the program, or a fault. -/
inductive Stop where
  | error (e : SourceError)
  | fault (f : Fault)
  deriving DecidableEq, Repr

/-- Steps of construction. A step that stops leaves the state in which it did. -/
abbrev ParseM := EStateM Stop Parser

namespace ParseM

def fail {α : Type} (cause : Cause) (span : Span) : ParseM α := throw (.error ⟨cause, span⟩)

def lex {α : Type} (m : LexM α) : ParseM α := fun p =>
  match m p.lexer with
  | .ok a l => .ok a { p with lexer := l }
  | .error e l => .error (.error e) { p with lexer := l }

def build {α : Type} (m : BuildM α) : ParseM α := fun p =>
  match m p.builder with
  | .ok (a, b) => .ok a { p with builder := b }
  | .error f => .error (.fault f) p

def make (r : Request) : ParseM NodeId := build (.make r)

def typeOf (id : NodeId) : ParseM Ty := build (.typeOf id)

def setSpan (span : Span) : ParseM Unit := build (.setSpan span)

def cursor : ParseM Cursor := build .cursor

def setCursor (c : Cursor) : ParseM Unit := build (.setCursor c)

def isDead : ParseM Bool := build .isDead

def report (message : String) : ParseM NodeId := build (.fail message)

def scope : ParseM Scope := return (← get).scope

def setScope (s : Scope) : ParseM Unit := modify fun p => { p with scope := s }

/-- The state of the current path. -/
def arm : ParseM Arm := return ⟨← scope, ← cursor⟩

/-- Goes on behind a join. -/
def follow (join : Join) : ParseM Unit := do
  setScope join.scope
  setCursor join.cursor

/-! ### Loops -/

/-- An upper bound of the number of tokens that are left. -/
def remaining : ParseM Nat := do
  let p ← get
  return p.size - p.lexer.position + p.lexer.ahead.length

/-- Takes turns until one gives a result, at most `fuel` of them. -/
def turns {σ α : Type} (step : σ → ParseM (σ ⊕ α)) : Nat → σ → ParseM α
  | 0, _ => throw (.fault .exhausted)
  | fuel + 1, s => do
    match ← step s with
    | .inl s => turns step fuel s
    | .inr a => return a

/-- Takes turns until one gives a result. Every other turn has to take a token, or to look one
further ahead. -/
def loop {σ α : Type} (step : σ → ParseM (σ ⊕ α)) (s : σ) : ParseM α := do
  turns step ((← remaining) + 1) s

/-! ### Tokens -/

def peek? : ParseM (Option Token) := lex Lexer.peek

def next? : ParseM (Option Token) := lex Lexer.next

def isNext (kind : TokenKind) : ParseM Bool := do
  return (← peek?).any fun token => token.kind == kind

def accept (kind : TokenKind) : ParseM (Option Token) := do
  if ← isNext kind then next? else return none

/-- The span behind the last byte of the text. -/
def endSpan : ParseM Span := do
  let size := (← get).size
  return ⟨size, size⟩

def unexpected {α : Type} (token : Token) (expected : String) : ParseM α :=
  fail (.unexpectedToken expected token.text) token.span

def unexpectedEnd {α : Type} (context : String) : ParseM α := do
  fail (.unexpectedEnd context) (← endSpan)

/-- The next token, which has to be there. -/
def peek (context : String) : ParseM Token := do
  match ← peek? with
  | some token => return token
  | none => unexpectedEnd context

def next (context : String) : ParseM Token := do
  match ← next? with
  | some token => return token
  | none => unexpectedEnd context

def expect (kind : TokenKind) : ParseM Token := do
  let token ← next kind.describe
  if token.kind = kind then return token
  else unexpected token ("`" ++ kind.describe ++ "`")

def identifier : ParseM Token := do
  let token ← next "identifier"
  if token.kind = .identifier then return token else unexpected token "identifier"

/-- One or more items with commas between them. -/
def separated {α : Type} (item : ParseM α) : ParseM (List α) :=
  loop (fun items => do
    let items := items ++ [← item]
    if (← accept .comma).isSome then return .inl items else return .inr items) []

def declare (name : Token) (binding : Binding) : ParseM Unit := do
  match (← scope).declare? name.text binding with
  | some s => modify fun p => { p with scope := s, declared := binding :: p.declared }
  | none => fail (.redeclared name.text) name.span

/-! ### Skipping -/

/-- One less than a number that is not zero. -/
def lower : Nat → ParseM Nat
  | 0 => throw (.fault .underflow)
  | n + 1 => return n

/-- The number of brackets that are open behind a token; all shapes count as one. -/
def depthAfter (depth : Nat) (kind : TokenKind) : ParseM Nat :=
  if kind.opensGroup then return depth + 1
  else if kind.closesGroup then lower depth
  else return depth

/-- Skips a group in brackets, with the brackets. -/
def skipGroup : ParseM Unit := do
  let first ← next "opening bracket"
  loop (fun (state : Nat × Token) => do
    let depth ← depthAfter state.1 state.2.kind
    if depth = 0 then return .inr ()
    else return .inl (depth, ← next "closing bracket")) (0, first)

/-- Skips everything up to the next `;` that is in no brackets, and that too. -/
def skipStatement : ParseM Unit :=
  loop (fun () => do
    let token ← peek "`;`"
    if token.kind = .semicolon then
      let _ ← next?
      return .inr ()
    else if token.kind.opensGroup then
      skipGroup
      return .inl ()
    else
      let _ ← next?
      return .inl ()) ()

def skipFunction : ParseM Unit := do
  loop (fun () => do
    if ← isNext .openBrace then return .inr ()
    else
      let _ ← next "function body"
      return .inl ()) ()
  skipGroup

end ParseM

end SeaOfNodes
