import SeaOfNodes.Source.Span
import SeaOfNodes.Text.Paint

/-!
Source text and the places in it. A place is a byte offset; rows and columns count from one, and
columns count bytes.
-/
namespace SeaOfNodes

/-- Where a source text came from. -/
inductive Origin where
  | memory
  | file (path : String)
  deriving DecidableEq, Repr

/-- How an origin is written in front of a message. -/
def Origin.display : Origin → String
  | .memory => "<memory>"
  | .file path => path

/-- A text together with its origin. -/
structure Source where
  text : String
  origin : Origin := .memory
  deriving DecidableEq, Repr

/-- The characters that start before byte `position`, and the remaining ones. -/
def splitAtByte : Nat → List Char → List Char × List Char
  | _, [] => ([], [])
  | 0, cs => ([], cs)
  | n + 1, c :: cs =>
    let (before, after) := splitAtByte (n + 1 - c.utf8Size) cs
    (c :: before, after)

/-- Number of bytes in the encoding of `cs`. -/
def byteLength : List Char → Nat
  | [] => 0
  | c :: cs => c.utf8Size + byteLength cs

@[simp] theorem byteLength_append (cs ds : List Char) :
    byteLength (cs ++ ds) = byteLength cs + byteLength ds := by
  induction cs with
  | nil => simp [byteLength]
  | cons c cs ih => simp [byteLength, ih, Nat.add_assoc]

theorem length_le_byteLength (cs : List Char) : cs.length ≤ byteLength cs := by
  induction cs with
  | nil => simp
  | cons c cs ih =>
    have := c.utf8Size_pos
    simp only [byteLength, List.length_cons]
    omega

namespace Source

def size (s : Source) : Nat := s.text.utf8ByteSize

/-- The text before `position`; a position past the end means the end. -/
def before (s : Source) (position : Nat) : List Char :=
  (splitAtByte position s.text.toList).1

def after (s : Source) (position : Nat) : List Char :=
  (splitAtByte position s.text.toList).2

/-- The row of `position`, counted from one. -/
def row (s : Source) (position : Nat) : Nat := (s.before position).count '\n' + 1

/-- The part of the row of `position` that lies before it. -/
def lineBefore (s : Source) (position : Nat) : List Char :=
  ((s.before position).reverse.takeWhile (· ≠ '\n')).reverse

/-- The part of the row of `position` that starts at it. -/
def lineAfter (s : Source) (position : Nat) : List Char :=
  (s.after position).takeWhile (· ≠ '\n')

/-- The column of `position`, counted from one, in bytes. -/
def column (s : Source) (position : Nat) : Nat := byteLength (s.lineBefore position) + 1

/-- How many carets underline a span: at least one, and none past the end of its first row. -/
def caretCount (s : Source) (span : Span) : Nat :=
  let start := min span.start s.size
  let lineEnd := start + byteLength (s.lineAfter start)
  max (start + 1) (min span.stop (max lineEnd (start + 1))) - start

def repeated (n : Nat) (c : Char) : String := String.ofList (List.replicate n c)

/-- The first row of a span with the span underlined. -/
def highlight (coloured : Bool) (s : Source) (span : Span) : String :=
  let start := min span.start s.size
  let row := toString (s.row start)
  let bar := paint coloured .blue "|"
  let line := String.ofList (s.lineBefore start ++ s.lineAfter start)
  let indent := repeated (byteLength (s.lineBefore start)) ' '
  let carets := paint coloured .red (repeated (s.caretCount span) '^')
  paint coloured .blue row ++ " " ++ bar ++ " " ++ line ++ "\n" ++
    repeated row.length ' ' ++ " " ++ bar ++ " " ++ indent ++ carets

/-- Whether no character stands both before and behind `position`. -/
def isBoundary (s : Source) (position : Nat) : Bool :=
  byteLength (s.before position) = min position s.size

/-- A span as it is shown: where it starts, and its first row. -/
structure Excerpt where
  row : Nat
  column : Nat
  text : String
  deriving DecidableEq, Repr

/-- The excerpt for a span that does not start inside a character. -/
def excerpt? (coloured : Bool) (s : Source) (span : Span) : Option Excerpt :=
  if s.isBoundary span.start then
    some ⟨s.row span.start, s.column span.start, s.highlight coloured span⟩
  else none

/-- A message about a span: where it is, what it says and the row it is about. -/
def annotate (coloured : Bool) (s : Source) (span : Span) (message : String) : String :=
  s.origin.display ++ ":" ++ toString (s.row span.start) ++ ":" ++
    toString (s.column span.start) ++ ": " ++ message ++ "\n" ++ s.highlight coloured span

end Source

end SeaOfNodes
