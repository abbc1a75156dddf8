/-!
Text without anything that controls a terminal: escape sequences are dropped, and so are control
characters, but for some that lay out text.

A string for a device ends at the byte `9C`, which can be part of a character. The bytes of the
character that follow it then belong to no character.
-/
namespace SeaOfNodes

/-- Where a reader of terminal text is. -/
inductive EscapeState where
  | ground
  | escape
  /-- In an escape sequence that goes on to a final character. -/
  | intermediate
  /-- In a sequence that `[` opened. -/
  | sequence
  /-- In a command that `]` opened. -/
  | command
  /-- At the start of what `P` opened: a header and a string for a device. -/
  | header
  /-- In the parameters of a header. -/
  | parameters
  /-- Behind the parameters of a header. -/
  | marks
  /-- In a string for a device. -/
  | device
  /-- In a string for nobody. -/
  | ignored
  deriving DecidableEq, Repr

namespace EscapeState

/-- The state behind a character that an escape character precedes. -/
def afterEscape (c : Char) : EscapeState :=
  if c.toNat < 0x20 then .escape
  else if c.toNat < 0x30 then .intermediate
  else if c = '[' then .sequence
  else if c = ']' then .command
  else if c = 'P' then .header
  else if c = 'X' ∨ c = '^' ∨ c = '_' then .ignored
  else if c.toNat < 0x7f then .ground
  else .escape

/-- The state behind a character of a header in state `s`. -/
def afterHeader (s : EscapeState) (c : Char) : EscapeState :=
  if c.toNat < 0x20 ∨ 0x7f ≤ c.toNat then s
  else if c.toNat < 0x30 then .marks
  else if 0x40 ≤ c.toNat then .device
  else if s = .marks then .ignored
  else if s = .parameters ∧ 0x3c ≤ c.toNat then .ignored
  else .parameters

/-- The bytes of a character behind the one that ends a string for a device, if there is one. -/
def behindEnd? (c : Char) : Option (List UInt8) :=
  match (String.utf8EncodeChar c).dropWhile (· ≠ 0x9c) with
  | [] => none
  | _ :: rest => some rest

def after (s : EscapeState) (c : Char) : EscapeState :=
  let final (low : Nat) : Bool := low ≤ c.toNat && c.toNat < 0x7f
  if c = '\x1b' then .escape
  else if c = '\x18' ∨ c = '\x1a' then .ground
  else
    match s with
    | .ground => .ground
    | .escape => afterEscape c
    | .intermediate => if final 0x30 then .ground else .intermediate
    | .sequence => if final 0x40 then .ground else .sequence
    | .command => if c = '\x07' then .ground else .command
    | .header | .parameters | .marks => afterHeader s c
    | .device => if (behindEnd? c).isSome then .ground else .device
    | .ignored => .ignored

/-- What stands for a byte that belongs to no character. Those that are controls are dropped. -/
def looseByte? (b : UInt8) : Option Char := if b < 0xa0 then none else some '\ufffd'

def kept (s : EscapeState) (c : Char) : List Char :=
  match s with
  | .ground =>
    if c = '\n' ∨ 0x20 ≤ c.toNat ∧ ¬(0x80 ≤ c.toNat ∧ c.toNat < 0xa0) then [c] else []
  | .escape | .intermediate | .sequence => if c = '\n' then [c] else []
  | .device => ((behindEnd? c).getD []).filterMap looseByte?
  | _ => []

/-- Whether a message keeps a control character. -/
def laysOut (c : Char) : Bool := c = '\t' || c = '\n' || c = '\x0c' || c = '\r'

def keptInMessage (s : EscapeState) (c : Char) : List Char :=
  match s with
  | .ground => if laysOut c || (0x20 ≤ c.toNat && c != '\x7f') then [c] else []
  | .escape | .intermediate | .sequence => if laysOut c then [c] else []
  | _ => []

end EscapeState

/-- What is kept of a text from a state on. -/
def plainFrom (kept : EscapeState → Char → List Char) : EscapeState → List Char → List Char
  | _, [] => []
  | s, c :: cs => kept s c ++ plainFrom kept (s.after c) cs

def plainText (text : String) : String :=
  String.ofList (plainFrom EscapeState.kept .ground text.toList)

def plainMessage (text : String) : String :=
  String.ofList (plainFrom EscapeState.keptInMessage .ground text.toList)

end SeaOfNodes
