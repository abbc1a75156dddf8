import SeaOfNodes.Number.Width
import SeaOfNodes.Operator

/-!
The built-in scalar types and what can be done with their values. Untyped numbers belong to
literals and cannot be named in a program.
-/
namespace SeaOfNodes

inductive Primitive where
  | int (width : IntWidth)
  | float (width : FloatWidth)
  | bool
  | string
  | rune
  deriving DecidableEq, Repr

namespace Primitive

def all : List Primitive :=
  [int .untyped, float .untyped, int .int, int .i8, int .i16, int .i32, int .i64, int .uint,
    int .u8, int .u16, int .u32, int .u64, float .float, float .f32, float .f64, bool, string, rune]

theorem mem_all (p : Primitive) : p ∈ all := by
  cases p with
  | int w => cases w <;> decide
  | float w => cases w <;> decide
  | _ => decide

def name : Primitive → String
  | .int w => w.name
  | .float w => w.name
  | .bool => "bool"
  | .string => "string"
  | .rune => "rune"

def isUntyped : Primitive → Bool
  | .int .untyped | .float .untyped => true
  | _ => false

def ofName? (name : String) : Option Primitive :=
  all.find? fun p => !p.isUntyped && p.name == name

def intWidth? : Primitive → Option IntWidth
  | .int w => some w
  | _ => none

def floatWidth? : Primitive → Option FloatWidth
  | .float w => some w
  | _ => none

/-- Integers have all operators but the logical ones, floats the arithmetic ones, booleans the
logical ones and their bitwise forms, and strings can be joined. -/
def supportsBinary : Primitive → BinaryOp → Bool
  | .int _, op => match op with
    | .logicalAnd | .logicalOr => false
    | _ => true
  | .float _, op => match op with
    | .add | .subtract | .multiply | .divide | .modulus => true
    | _ => false
  | .bool, op => match op with
    | .logicalAnd | .logicalOr | .bitwiseAnd | .bitwiseOr | .bitwiseXor => true
    | _ => false
  | .string, op => op == .add
  | .rune, _ => false

def supportsCompare : Primitive → CompareOp → Bool
  | .bool, op => op.isEquality
  | _, _ => true

def supportsUnary : Primitive → UnaryOp → Bool
  | .int _, op => op != .logicalNot
  | .float _, op => op == .negate
  | .bool, op => op == .logicalNot
  | _, _ => false

/-- The conversions that a program may ask for. -/
def castable : Primitive → Primitive → Bool
  | .int _, _ => true
  | .float _, .int _ | .float _, .float _ => true
  | .rune, .int _ | .rune, .rune | .rune, .string => true
  | .bool, .int _ | .bool, .bool => true
  | .string, .string => true
  | _, _ => false

end Primitive

end SeaOfNodes
