import SeaOfNodes.Parse.Operand
import SeaOfNodes.Parse.TypeName
import SeaOfNodes.Token.Escape

/-!
Expressions. Binary operators stand on a ladder of nine ranks and group to the left; below them
come casts, signs in front of an operand and selections behind it, and last the literals, names
and expressions in brackets.

A name and a brace can start a literal or, in the head of an `if` or `for`, end the condition. So
literals of structs are read only where `literals` holds; inside brackets it always does.
-/
namespace SeaOfNodes

/-- How an operator takes its operands. -/
inductive Connective where
  | binary (op : BinaryOp)
  | compare (op : CompareOp)
  /-- The right operand is evaluated only if the left one does not decide. -/
  | shortCircuit (op : BinaryOp)

/-- The binary operators by rank, the loosest rank first. -/
def ladder : List (List (TokenKind × Connective)) :=
  [[(.logicalOr, .shortCircuit .logicalOr)],
    [(.logicalAnd, .shortCircuit .logicalAnd)],
    [(.equalEqual, .compare .equal), (.notEqual, .compare .notEqual), (.less, .compare .less),
      (.lessEqual, .compare .lessEqual), (.greater, .compare .greater),
      (.greaterEqual, .compare .greaterEqual)],
    [(.bar, .binary .bitwiseOr)],
    [(.caret, .binary .bitwiseXor)],
    [(.ampersand, .binary .bitwiseAnd)],
    [(.shiftLeft, .binary .shiftLeft), (.shiftRight, .binary .shiftRight)],
    [(.plus, .binary .add), (.minus, .binary .subtract)],
    [(.asterisk, .binary .multiply), (.slash, .binary .divide), (.percent, .binary .modulus)]]

/-! ### Literals -/

/-- The number that a float literal spells. -/
def floatOf (text : String) : Double :=
  let digits := text.toList.filter (· != '_')
  .ofDecimal (digits.takeWhile (· != '.')) ((digits.dropWhile (· != '.')).drop 1)

/-- What stands between the first and the last character of a text, which have to be two and to
have one byte each. -/
def inner? (text : List Char) : Option (List Char) :=
  match text with
  | first :: rest =>
    match rest.getLast? with
    | some last => if first.utf8Size = 1 ∧ last.utf8Size = 1 then some rest.dropLast else none
    | none => none
  | [] => none

/-- What stands between the quotes of a literal. -/
def unquoted (text : String) : Except Fault String :=
  match inner? text.toList with
  | some cs => .ok (unescape (String.ofList cs))
  | none => .error (.unquotedLiteral text)

def runeType (text value : String) : Ty :=
  match value.toList with
  | [c] => .rune (.const c)
  | _ => .fail ("rune literal " ++ text ++ " must hold exactly one character")

def integerType (text : String) : Ty :=
  match numberOf? (pow2 127) text with
  | some n => .int .untyped (.const n)
  | none => .fail ("integer literal `" ++ text ++ "` is too large")

/-- The type of a literal: the constant it spells, or what is wrong with it. -/
def literalType? (token : Token) : Except Fault (Option Ty) :=
  match token.kind with
  | .integerLiteral => return some (integerType token.text)
  | .floatLiteral => return some (.float .untyped (.const (floatOf token.text)))
  | .stringLiteral => return some (.string (.const (← unquoted token.text)))
  | .runeLiteral => return some (runeType token.text (← unquoted token.text))
  | .booleanLiteral => return some (.bool (.const (token.text == "true")))
  | .keyword .nil => return some .nil
  | _ => return none

namespace ParseM

/-- The value of an operand that is read now. -/
def readOf (m : ParseM Operand) : ParseM NodeId := do (← m).read

/-! ### Composite literals -/

/-- A literal that is open: the members that were given, the place of the next one, and whether
there were too many. -/
structure LiteralState where
  members : List (Option NodeId)
  position : Nat := 0
  overflow : Bool := false

/-- The label of a member and its colon, if the member has one. -/
def memberLabel? (ty : Ty) (first : Token) : ParseM (Option String) := do
  if ty.isStruct && first.kind == .identifier then
    if (← lex (Lexer.peekNth 1)).any fun token => token.kind == .colon then
      let label ← identifier
      let _ ← expect .colon
      return some label.text
    else return none
  else return none

/-- Puts a value to its place in a literal. -/
def putMember (ty : Ty) (state : LiteralState) (label : Option String) (value : NodeId) :
    ParseM LiteralState := do
  let place := match label with
    | some label => ty.memberIndex? label
    | none => some state.position
  match place with
  | none =>
    let _ ← Operand.ofError (ty.member (label.getD ""))
    return state
  | some place =>
    match ty.members[place]? with
    | none => return { state with overflow := true }
    | some memberTy =>
      let value ← build (.coerce value memberTy)
      return { state with members := state.members.set place (some value), position := place + 1 }

/-- One member of a literal and what is behind it. -/
def literalTurn (nested : ParseM Operand) (ty : Ty) (state : LiteralState) :
    ParseM (LiteralState ⊕ LiteralState) := do
  if (← accept .closeBrace).isSome then return .inr state
  let first ← peek "literal member"
  let label ← memberLabel? ty first
  let value ← readOf nested
  setSpan first.span
  let state ← putMember ty state label value
  if (← accept .comma).isSome then return .inl state
  let _ ← expect .closeBrace
  return .inr state

/-- Members that were not given are zero. -/
def fillMembers : List (Option NodeId) → List Ty → ParseM (List NodeId)
  | member :: members, ty :: tys => do
    let member ← match member with
      | some id => pure id
      | none => make (.constant ty.zero)
    let rest ← fillMembers members tys
    return member :: rest
  | _, _ => return []

/-- The members of a struct or an array in braces. -/
def compositeLiteral (nested : ParseM Operand) (ty : Ty) : ParseM Operand := do
  let span := (← get).builder.span
  let _ ← expect .openBrace
  let state ← loop (literalTurn nested ty) { members := List.replicate ty.members.length none }
  setSpan span
  if state.overflow then
    return .value (← report ("too many values in `" ++ ty.name ++ "` literal"))
  let members ← fillMembers state.members ty.members
  return .value (← make (.build ty members))

/-! ### Primary expressions -/

/-- An array literal behind its first bracket. -/
def arrayLiteral (nested : ParseM Operand) (span : Span) : ParseM Operand := do
  let length ← arrayLength
  let element ← type
  let ty ← arrayType element length span
  setSpan span
  compositeLiteral nested ty

/-- What is in parentheses, behind the first one: an expression, or a tuple of several. -/
def parenthesized (nested : ParseM Operand) : ParseM Operand := do
  let first ← nested
  if (← accept .comma).isNone then
    let _ ← expect .closeParen
    return first
  let first ← first.read
  let rest ← separated (readOf nested)
  let _ ← expect .closeParen
  let members := first :: rest
  let shape := (← members.mapM typeOf).map fun ty => ty.concrete.bottom
  return .value (← make (.build (.tuple shape) members))

def named (nested : ParseM Operand) (literals : Bool) (name : Token) : ParseM Operand := do
  match (← scope).lookup name.text with
  | some (.value id) => return .value id
  | some (.held _ ty) => return .held name.text [] ty
  | some (.slot address ty) => return .memory address 0 ty
  | some (.type ty) =>
    let opens ← if literals then isNext .openBrace else pure false
    if opens then compositeLiteral nested ty
    else fail (.unexpectedToken "expression" ("type `" ++ name.text ++ "`")) name.span
  | none => fail (.unresolved name.text) name.span

def primary (nested : ParseM Operand) (literals : Bool) : ParseM Operand := do
  let token ← next "expression"
  setSpan token.span
  match ← build (literalType? token) with
  | some ty => return .value (← make (.constant ty))
  | none =>
    match token.kind with
    | .openParen => parenthesized nested
    | .openBracket => arrayLiteral nested token.span
    | .identifier => named nested literals token
    | _ => unexpected token "expression"

/-! ### Selections, signs and casts -/

/-- The name or place of a member behind a dot. -/
def memberKey (token : Token) : ParseM MemberKey := do
  match token.kind with
  | .identifier => return .name token.text
  | .integerLiteral =>
    match numberOf? (pow2 64) token.text with
    | some place => return .index place
    | none => unexpected token "member index"
  | _ => unexpected token "member name or index"

/-- The arguments of a call with their spans, behind the first parenthesis. -/
def arguments (nested : ParseM Operand) : ParseM (List (NodeId × Span)) := do
  if (← accept .closeParen).isSome then return []
  let arguments ← separated do
    let first ← peek "argument"
    return (← readOf nested, first.span)
  let _ ← expect .closeParen
  return arguments

/-- One member, index or list of arguments behind an operand, if there is one. -/
def selectionTurn (nested : ParseM Operand) (operand : Operand) : ParseM (Operand ⊕ Operand) := do
  match ← peek? with
  | none => return .inr operand
  | some token =>
    match token.kind with
    | .dot =>
      let _ ← next?
      let member ← next "member name"
      let key ← memberKey member
      setSpan member.span
      return .inl (← operand.member key)
    | .openBracket =>
      let _ ← next?
      let index ← readOf nested
      let close ← expect .closeBracket
      setSpan (token.span.cover close.span)
      return .inl (← operand.index index)
    | .openParen =>
      let _ ← next?
      let arguments ← arguments nested
      return .inl (.value (← operand.call arguments token.span))
    | _ => return .inr operand

/-- A primary expression and what is selected from it. -/
def selected (nested : ParseM Operand) (literals : Bool) : ParseM Operand := do
  let operand ← primary nested literals
  loop (selectionTurn nested) operand

def applySign (token : Token) (operand : Operand) : ParseM Operand := do
  setSpan token.span
  match token.kind with
  | .minus => return .value (← make (.unary .negate (← operand.read)))
  | .bang => return .value (← make (.unary .logicalNot (← operand.read)))
  | .tilde => return .value (← make (.unary .bitwiseNot (← operand.read)))
  | .asterisk => operand.dereference
  | _ => return .value (← operand.address)

/-- Applies signs, the innermost first. -/
def applySigns : List Token → Operand → ParseM Operand
  | [], operand => return operand
  | token :: tokens, operand => do applySigns tokens (← applySign token operand)

/-- The signs in front of an operand, the innermost first. -/
def signs : ParseM (List Token) :=
  loop (fun tokens => do
    let token ← peek "expression"
    if token.kind.isUnary then
      let _ ← next?
      return .inl (token :: tokens)
    else return .inr tokens) []

def unary (nested : ParseM Operand) (literals : Bool) : ParseM Operand := do
  let tokens ← signs
  let operand ← selected nested literals
  applySigns tokens operand

/-- One `as` and its type, if there is one. -/
def castTurn (operand : Operand) : ParseM (Operand ⊕ Operand) := do
  match ← accept (.keyword .as_) with
  | none => return .inr operand
  | some token =>
    let target ← type
    let value ← operand.read
    setSpan token.span
    return .inl (.value (← make (.cast value target)))

def cast (nested : ParseM Operand) (literals : Bool) : ParseM Operand := do
  let operand ← unary nested literals
  loop castTurn operand

/-! ### Binary operators -/

/-- The two sides of a branch: where `condition` is `taken` and where it is not. -/
def branch (condition : NodeId) (taken : Bool) : ParseM (NodeId × NodeId) := do
  let control := (← cursor).control
  let yes ← make (.branch condition control taken)
  let no ← make (.branch condition control !taken)
  return (yes, no)

/-- Evaluates the right side on a path of its own, which is taken only if `lhs` is `decides`, and
joins it with the other one. -/
def shortCircuit (lhs : NodeId) (decides : Bool) (rhs : ParseM Operand) (span : Span) :
    ParseM NodeId := do
  let parent ← scope
  let before ← cursor
  setSpan span
  let (evaluate, skip) ← branch lhs decides
  setCursor ⟨evaluate, before.memory⟩
  let rhs ← readOf rhs
  setSpan span
  let rhs ← make (.coerce rhs (.bool .bottom))
  let evaluated ← arm
  let skipped : Arm := ⟨parent, skip, before.memory⟩
  let join ← build (.merge parent [evaluated, skipped])
  let short ← make (.constant (.bool (.const !decides)))
  let value ← build (join.mergeValues [rhs, short])
  follow join
  return value

/-- Applies an operator to a value and the operand behind the operator. -/
def connect (c : Connective) (lhs : NodeId) (rhs : ParseM Operand) (span : Span) :
    ParseM NodeId := do
  match c with
  | .binary op =>
    let rhs ← readOf rhs
    setSpan span
    make (.binary op lhs rhs)
  | .compare op =>
    let rhs ← readOf rhs
    setSpan span
    make (.compare op lhs rhs)
  | .shortCircuit op =>
    match ← typeOf lhs with
    | .bool _ => shortCircuit lhs (op == .logicalAnd) rhs span
    | _ =>
      let rhs ← readOf rhs
      setSpan span
      make (.binary op lhs rhs)

/-- One operator of a rank and its right operand, if there is one. -/
def binaryTurn (rank : List (TokenKind × Connective)) (rhs : ParseM Operand) (lhs : Operand) :
    ParseM (Operand ⊕ Operand) := do
  match ← peek? with
  | none => return .inr lhs
  | some token =>
    match rank.lookup token.kind with
    | none => return .inr lhs
    | some connective =>
      let _ ← next?
      let lhs ← lhs.read
      return .inl (.value (← connect connective lhs rhs token.span))

/-- Operators of some ranks over operands that `operand` reads. -/
def binary (operand : ParseM Operand) : List (List (TokenKind × Connective)) → ParseM Operand
  | [] => operand
  | rank :: tighter => do
    let lhs ← binary operand tighter
    loop (binaryTurn rank (binary operand tighter)) lhs

/-- An expression with at most `fuel` expressions in brackets around each other. -/
def operandNested : Nat → Bool → ParseM Operand
  | 0, _ => throw (.fault .exhausted)
  | fuel + 1, literals => binary (cast (operandNested fuel true) literals) ladder

/-- An expression, which is not read yet. -/
def operand : ParseM Operand := do operandNested ((← remaining) + 1) true

def expression : ParseM NodeId := readOf operand

/-- An expression in front of a block. -/
def condition : ParseM NodeId := do
  readOf (operandNested ((← remaining) + 1) false)

end ParseM

end SeaOfNodes
