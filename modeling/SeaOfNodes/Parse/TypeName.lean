import SeaOfNodes.Parse.Basic

/-!
Types as programs write them:

* `*T`, a pointer; `[N]T`, an array; `(T, U)`, a tuple, where `(T)` is only `T`;
* `func(T, U) R`, a function, whose result is left out if it has none;
* a name.
-/
namespace SeaOfNodes

/-- The number that digits spell, with `_` between them as one likes, if it is below `limit`. -/
def numberOf? (limit : Nat) (text : String) : Option Nat :=
  let digits := text.toList.filter (· != '_')
  let n := digits.foldl (fun n c => 10 * n + (c.toNat - '0'.toNat)) 0
  if n < limit then some n else none

namespace ParseM

/-- An array type of a size that is allowed. -/
def arrayType (element : Ty) (length : Nat) (span : Span) : ParseM Ty :=
  match element.arrayOf? length with
  | some ty => return ty
  | none => fail (.typeTooLarge ("[" ++ toString length ++ "]" ++ element.name)) span

/-- An aggregate of a size that is allowed. -/
def bounded (ty : Ty) (span : Span) : ParseM Ty :=
  if Ty.maxScalars < ty.scalarCount then fail (.typeTooLarge ty.name) span else return ty

def namedType (name : Token) : ParseM Ty := do
  match Primitive.ofName? name.text with
  | some primitive => return .ofPrimitive primitive
  | none =>
    match (← scope).lookup name.text with
    | some (.type ty) => return ty
    | _ => fail (.unknownType name.text) name.span

def startsType : TokenKind → Bool
  | .asterisk | .openBracket | .openParen | .identifier | .keyword .func => true
  | _ => false

/-- The length of an array and the bracket behind it. -/
def arrayLength : ParseM Nat := do
  let token ← expect .integerLiteral
  match numberOf? (pow2 64) token.text with
  | some length =>
    let _ ← expect .closeBracket
    return length
  | none => unexpected token "array length"

/-- The types in parentheses, behind the first of these. -/
def tupleType (inner : ParseM Ty) (span : Span) : ParseM Ty := do
  let members ← separated inner
  let _ ← expect .closeParen
  match members with
  | [ty] => return ty
  | _ => bounded (.tuple members) span

/-- The parameters and the result of a function type. -/
def functionType (inner : ParseM Ty) : ParseM Ty := do
  let _ ← expect .openParen
  let params ← if ← isNext .closeParen then pure [] else separated inner
  let _ ← expect .closeParen
  let result ← if (← peek?).any fun token => startsType token.kind then inner else pure .void
  return .function params result .bottom

/-- A type whose parts are read by `inner`. -/
def typeWith (inner : ParseM Ty) : ParseM Ty := do
  let token ← next "type"
  match token.kind with
  | .asterisk => return .pointerTo (← inner)
  | .openBracket =>
    let length ← arrayLength
    arrayType (← inner) length token.span
  | .openParen => tupleType inner token.span
  | .keyword .func => functionType inner
  | .identifier => namedType token
  | _ => unexpected token "type"

/-- A type with at most `fuel` types around each other. -/
def typeNested : Nat → ParseM Ty
  | 0 => throw (.fault .exhausted)
  | fuel + 1 => typeWith (typeNested fuel)

def type : ParseM Ty := do typeNested ((← remaining) + 1)

end ParseM

end SeaOfNodes
