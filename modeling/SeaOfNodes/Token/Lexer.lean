import SeaOfNodes.Source.Error
import SeaOfNodes.Text.Blank
import SeaOfNodes.Token.Basic

/-!
Reading tokens from text. `lexeme` decides which token starts the text and how many characters it
has, `scan` finds the next token behind blanks and comments, and `Lexer` reads tokens one after
the other with any number of them ahead.
-/
namespace SeaOfNodes

def isDigitChar (c : Char) : Bool := c.isDigit || c == '_'

def isWordChar (c : Char) : Bool := c.isAlphanum || c == '_'

/-- Kind and length of the number that starts `cs`. A fraction needs a digit behind its point. -/
def numeral (fraction : Bool) (cs : List Char) : TokenKind × Nat :=
  let whole := (cs.takeWhile isDigitChar).length
  match cs.dropWhile isDigitChar with
  | '.' :: d :: rest =>
    if fraction && d.isDigit then
      (.floatLiteral, whole + 1 + ((d :: rest).takeWhile isDigitChar).length)
    else (.integerLiteral, whole)
  | _ => (.integerLiteral, whole)

/-- Where a literal ends that is closed by `quote`: whether it is closed, and the number of
characters read. It is left open by a line break or the end of the text. -/
def quoted (quote : Char) : List Char → Bool × Nat
  | [] => (false, 0)
  | '\\' :: d :: cs =>
    if d = '\n' then (false, 1) else
      let (closed, n) := quoted quote cs
      (closed, n + 2)
  | c :: cs =>
    if c = '\n' then (false, 0)
    else if c = quote then (true, 1)
    else
      let (closed, n) := quoted quote cs
      (closed, n + 1)

def wordKind (word : String) : TokenKind :=
  match Keyword.ofText? word with
  | some k => .keyword k
  | none => if word = "true" ∨ word = "false" then .booleanLiteral else .identifier

def leadingSign? (cs : List Char) : Option TokenKind :=
  TokenKind.signs.find? fun k => k.sign.isPrefixOf cs

/-- The start of a text: a token of some length, a literal without an end, or no token. -/
inductive Lexeme where
  | token (kind : TokenKind) (length : Nat)
  | unterminated (literal : OpenLiteral) (length : Nat)
  | unknown
  deriving DecidableEq, Repr

/-- The token that starts a text whose first character is `c`. After a `.` a number has no
fraction, so that `t.0.1` selects twice. -/
def lexeme (last : Option TokenKind) (c : Char) (cs : List Char) : Lexeme :=
  if c = '"' then
    match quoted '"' cs with
    | (true, n) => .token .stringLiteral (n + 1)
    | (false, n) => .unterminated .string (n + 1)
  else if c = '\'' then
    match quoted '\'' cs with
    | (true, n) => .token .runeLiteral (n + 1)
    | (false, n) => .unterminated .rune (n + 1)
  else if c.isDigit then
    let (kind, n) := numeral (last != some .dot) (c :: cs)
    .token kind n
  else if c.isAlpha || c == '_' then
    let word := (c :: cs).takeWhile isWordChar
    .token (wordKind (String.ofList word)) word.length
  else
    match leadingSign? (c :: cs) with
    | some k => .token k k.sign.length
    | none => .unknown

/-- Skips blanks and comments. A comment runs from `//` to the end of its line. -/
def skipGap (comment : Bool) (position : Nat) : List Char → Nat × List Char
  | [] => (position, [])
  | c :: cs =>
    if comment then skipGap (c != '\n') (position + c.utf8Size) cs
    else if isBlank c then skipGap false (position + c.utf8Size) cs
    else if c = '/' ∧ cs.head? = some '/' then skipGap true (position + c.utf8Size) cs
    else (position, c :: cs)

/-- What a scan finds, with the place and the text behind it. -/
structure Scan where
  found : Except SourceError (Option Token)
  position : Nat
  rest : List Char

/-- The next token of a text that starts at byte `position`. -/
def scan (last : Option TokenKind) (position : Nat) (text : List Char) : Scan :=
  match skipGap false position text with
  | (start, []) => ⟨.ok none, start, []⟩
  | (start, c :: cs) =>
    let advance (n : Nat) := start + byteLength ((c :: cs).take n)
    match lexeme last c cs with
    | .token kind n =>
      let token := ⟨kind, ⟨start, advance n⟩, String.ofList ((c :: cs).take n)⟩
      ⟨.ok (some token), advance n, (c :: cs).drop n⟩
    | .unterminated literal n =>
      ⟨.error ⟨.unterminated literal, ⟨start, advance n⟩⟩, advance n, (c :: cs).drop n⟩
    | .unknown =>
      ⟨.error ⟨.unexpectedCharacter c, ⟨start, start + c.utf8Size⟩⟩, start, c :: cs⟩

/-- A reader of tokens. `ahead` holds the tokens that were read and not yet taken. A lexer is a
value, so keeping one is keeping a place to return to. -/
structure Lexer where
  position : Nat
  rest : List Char
  ahead : List Token
  last : Option TokenKind

/-- Steps of a reader. A failed step keeps what was skipped before the failure. -/
abbrev LexM := EStateM SourceError Lexer

namespace Lexer

def ofString (text : String) : Lexer := ⟨0, text.toList, [], none⟩

/-- Byte offset of the first token that was not taken, or of the text behind the last one. -/
def place (l : Lexer) : Nat :=
  match l.ahead with
  | [] => l.position
  | token :: _ => token.span.start

def read : LexM (Option Token) := fun l =>
  let s := scan l.last l.position l.rest
  let l := { l with position := s.position, rest := s.rest }
  match s.found with
  | .ok none => .ok none l
  | .ok (some token) => .ok (some token) { l with last := some token.kind }
  | .error e => .error e l

def next : LexM (Option Token) := fun l =>
  match l.ahead with
  | token :: ahead => .ok (some token) { l with ahead := ahead }
  | [] => read l

/-- Reads `n` more tokens ahead, or as many as there are. -/
def readAhead : Nat → LexM Unit
  | 0 => pure ()
  | n + 1 => do
    match ← read with
    | none => pure ()
    | some token =>
      modify fun l => { l with ahead := l.ahead ++ [token] }
      readAhead n

/-- The token that `n` further ones precede. -/
def peekNth (n : Nat) : LexM (Option Token) := do
  readAhead (n + 1 - (← get).ahead.length)
  return (← get).ahead[n]?

/-- The next token, which is not taken. -/
def peek : LexM (Option Token) := do
  if let some token := (← get).ahead.head? then return some token
  if let some token ← read then modify fun l => { l with ahead := l.ahead ++ [token] }
  return (← get).ahead.head?

end Lexer

end SeaOfNodes
