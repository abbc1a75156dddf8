import SeaOfNodes.Operator
import SeaOfNodes.Source.Span

/-!
What a node does. The meaning of its inputs, in their order, depends on it:

* `binary`, `compare`: the two operands; `unary`, `cast`, `projection`: the operand;
* `build`: the members; `load`, `addressOf`: the base; `store`: the base and the value;
* `region`, `loop`: the predecessors; `phi`: the region and one case a predecessor;
* `call`: the callee and the arguments; `exit`: the value; `return_`: the value, if there is one;
* `function`: the return of its body, once that is built.
-/
namespace SeaOfNodes

inductive Op where
  | constant
  | binary (op : BinaryOp)
  | unary (op : UnaryOp)
  | compare (op : CompareOp)
  | projection (index : Nat)
  | build
  | alloca (slot : Nat)
  | load (offset : Nat)
  | store (offset : Nat)
  | addressOf (offset : Nat)
  | cast
  | start
  | function (name : String)
  | branch (taken : Bool)
  | region
  | loop
  | call
  | return_
  | exit
  | phi
  | error (span : Span)
  deriving DecidableEq, Repr

/-- The sort of an operation, whatever its parameters. -/
inductive OpKind where
  | constant | binary | unary | compare | projection | build | alloca | load | store | addressOf
  | cast | start | function | branchTrue | branchFalse | region | loop | call | return_ | exit
  | phi | error
  deriving DecidableEq, Repr

/-- A set of sorts. -/
abbrev OpSet := List OpKind

namespace Op

def kind : Op → OpKind
  | .constant => .constant
  | .binary _ => .binary
  | .unary _ => .unary
  | .compare _ => .compare
  | .projection _ => .projection
  | .build => .build
  | .alloca _ => .alloca
  | .load _ => .load
  | .store _ => .store
  | .addressOf _ => .addressOf
  | .cast => .cast
  | .start => .start
  | .function _ => .function
  | .branch true => .branchTrue
  | .branch false => .branchFalse
  | .region => .region
  | .loop => .loop
  | .call => .call
  | .return_ => .return_
  | .exit => .exit
  | .phi => .phi
  | .error _ => .error

def display : Op → String
  | .constant => "constant"
  | .binary op => "binary." ++ op.name
  | .unary op => "unary." ++ op.name
  | .compare op => "compare." ++ op.name
  | .projection index => "projection." ++ toString index
  | .build => "build"
  | .alloca slot => "alloca#" ++ toString slot
  | .load offset => "load+" ++ toString offset
  | .store offset => "store+" ++ toString offset
  | .addressOf offset => "address_of+" ++ toString offset
  | .cast => "cast"
  | .start => "start"
  | .function name => "function " ++ name
  | .branch true => "branch_true"
  | .branch false => "branch_false"
  | .region => "region"
  | .loop => "loop"
  | .call => "call"
  | .return_ => "return"
  | .exit => "exit"
  | .phi => "phi"
  | .error _ => "error"

/-- Operations that read or write memory at an address. -/
def isMemoryAccess : Op → Bool
  | .load _ | .store _ => true
  | _ => false

/-- Operations that give control to the nodes that hang off them. -/
def isControl : Op → Bool
  | .start | .function _ | .branch _ | .region | .loop => true
  | _ => false

/-- Places where control joins. -/
def isMerge : Op → Bool
  | .region | .loop => true
  | _ => false

/-- The offset that an operation adds to its base. -/
def offset? : Op → Option Nat
  | .load offset | .store offset | .addressOf offset => some offset
  | _ => none

end Op

/-- The part of memory that an effect can touch: one stack slot, any, or the heap. -/
inductive MemoryTag where
  | slot (number : Nat)
  | unknown
  | heap
  deriving DecidableEq, Repr

namespace MemoryTag

/-- Whether two parts have no byte in common. -/
def disjoint : MemoryTag → MemoryTag → Bool
  | .slot a, .slot b => a != b
  | .slot _, .heap | .heap, .slot _ => true
  | _, _ => false

def display : MemoryTag → String
  | .slot n => "#" ++ toString n
  | .unknown => "?"
  | .heap => "heap"

end MemoryTag

end SeaOfNodes
