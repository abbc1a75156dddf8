/-!
The operators of the language: their names in graphs and their signs in messages.
-/
namespace SeaOfNodes

inductive BinaryOp where
  | add | subtract | multiply | divide | modulus
  | bitwiseAnd | bitwiseOr | bitwiseXor | shiftLeft | shiftRight
  | logicalAnd | logicalOr
  deriving DecidableEq, Repr

namespace BinaryOp

def all : List BinaryOp :=
  [add, subtract, multiply, divide, modulus, bitwiseAnd, bitwiseOr, bitwiseXor, shiftLeft,
    shiftRight, logicalAnd, logicalOr]

def name : BinaryOp → String
  | .add => "add"
  | .subtract => "subtract"
  | .multiply => "multiply"
  | .divide => "divide"
  | .modulus => "modulus"
  | .bitwiseAnd => "bitwise_and"
  | .bitwiseOr => "bitwise_or"
  | .bitwiseXor => "bitwise_xor"
  | .shiftLeft => "shift_left"
  | .shiftRight => "shift_right"
  | .logicalAnd => "logical_and"
  | .logicalOr => "logical_or"

def sign : BinaryOp → String
  | .add => "+"
  | .subtract => "-"
  | .multiply => "*"
  | .divide => "/"
  | .modulus => "%"
  | .bitwiseAnd => "&"
  | .bitwiseOr => "|"
  | .bitwiseXor => "^"
  | .shiftLeft => "<<"
  | .shiftRight => ">>"
  | .logicalAnd => "&&"
  | .logicalOr => "||"

/-- The two operators whose right operand is an amount and not a value of the same width. -/
def isShift : BinaryOp → Bool
  | .shiftLeft | .shiftRight => true
  | _ => false

theorem mem_all (op : BinaryOp) : op ∈ all := by cases op <;> decide

end BinaryOp

inductive UnaryOp where
  | negate | bitwiseNot | logicalNot
  deriving DecidableEq, Repr

namespace UnaryOp

def all : List UnaryOp := [negate, bitwiseNot, logicalNot]

def name : UnaryOp → String
  | .negate => "negate"
  | .bitwiseNot => "bitwise_not"
  | .logicalNot => "logical_not"

def sign : UnaryOp → String
  | .negate => "-"
  | .bitwiseNot => "~"
  | .logicalNot => "!"

theorem mem_all (op : UnaryOp) : op ∈ all := by cases op <;> decide

end UnaryOp

inductive CompareOp where
  | equal | notEqual | less | lessEqual | greater | greaterEqual
  deriving DecidableEq, Repr

namespace CompareOp

def all : List CompareOp := [equal, notEqual, less, lessEqual, greater, greaterEqual]

def name : CompareOp → String
  | .equal => "equal"
  | .notEqual => "not_equal"
  | .less => "less"
  | .lessEqual => "less_equal"
  | .greater => "greater"
  | .greaterEqual => "greater_equal"

def sign : CompareOp → String
  | .equal => "=="
  | .notEqual => "!="
  | .less => "<"
  | .lessEqual => "<="
  | .greater => ">"
  | .greaterEqual => ">="

def isEquality : CompareOp → Bool
  | .equal | .notEqual => true
  | _ => false

/-- Whether the comparison holds of two values that are ordered as `o` says. -/
def holds (op : CompareOp) (o : Ordering) : Bool :=
  match op with
  | .equal => o == .eq
  | .notEqual => o != .eq
  | .less => o == .lt
  | .lessEqual => o != .gt
  | .greater => o == .gt
  | .greaterEqual => o != .lt

theorem mem_all (op : CompareOp) : op ∈ all := by cases op <;> decide

end CompareOp

end SeaOfNodes
