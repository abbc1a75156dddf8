import SeaOfNodes.Text.Quoted
import SeaOfNodes.Ty.Basic

/-!
Text of types: `name` is the declared type, and `display` adds what is known of the value.
-/
namespace SeaOfNodes.Ty

mutual

/-- The declared type. -/
def name : Ty → String
  | .int w _ => w.name
  | .float w _ => w.name
  | .bool _ => "bool"
  | .rune _ => "rune"
  | .string _ => "string"
  | .pointer p l => if isUntypedNil p l then "nil" else "*" ++ p.name
  | .struct n _ _ => n
  | .array e ts => "[" ++ toString ts.length ++ "]" ++ e.name
  | .tuple ts => "(" ++ ", ".intercalate (names ts) ++ ")"
  | .function ps r _ =>
    let params := "func(" ++ ", ".intercalate (names ps) ++ ")"
    match r with
    | .void => params
    | r => params ++ " " ++ r.name
  | .void => "void"
  | .control _ => "control"
  | .memory => "memory"
  | .error _ => "error"

def names : List Ty → List String
  | [] => []
  | t :: ts => t.name :: names ts

end

/-- A name followed by what is known. -/
def displayLevel {α : Type} (name : String) (level : Level α) (write : α → String) : String :=
  match level with
  | .top => name ++ ":top"
  | .const a => name ++ ":" ++ write a
  | .bottom => name

mutual

/-- The declared type and what is known of the value. -/
def display : Ty → String
  | .int w l => displayLevel w.name l toString
  | .float w l => displayLevel w.name l Double.display
  | .bool l => displayLevel "bool" l fun b => if b then "true" else "false"
  | .rune l => displayLevel "rune" l quoteRune
  | .string l => displayLevel "string" l quoteString
  | .pointer p l => displayLevel (name (.pointer p l)) l fun _ => "nil"
  | .function ps r l => displayLevel (name (.function ps r l)) l id
  | .struct n _ ts => n ++ "\x7b" ++ ", ".intercalate (displays ts) ++ "\x7d"
  | .array e ts => name (.array e ts) ++ "\x7b" ++ ", ".intercalate (displays ts) ++ "\x7d"
  | .tuple ts => name (.tuple ts) ++ "\x7b" ++ ", ".intercalate (displays ts) ++ "\x7d"
  | .control false => "control:dead"
  | .control true => "control"
  | .void => "void"
  | .memory => "memory"
  | .error e => "error(" ++ e.message ++ ")"

def displays : List Ty → List String
  | [] => []
  | t :: ts => t.display :: displays ts

end

/-! ### Errors that name types -/

/-- Two texts in a fixed order, so that a message does not depend on the order of operands. -/
def sortedPair (a b : String) : String × String := if b < a then (b, a) else (a, b)

def mismatch (a b : String) : Ty := fail ("mismatched types `" ++ a ++ "` and `" ++ b ++ "`")

/-- Two operands that do not go together. -/
def mismatched (a b : Ty) : Ty :=
  let (x, y) := sortedPair a.name b.name
  mismatch x y

/-- An operator that a type does not have. -/
def unsupported (sign : String) (t : Ty) : Ty :=
  fail ("operator `" ++ sign ++ "` not supported for type `" ++ t.name ++ "`")

end SeaOfNodes.Ty
