import SeaOfNodes.Build.Basic
import SeaOfNodes.Ty.Convert
import SeaOfNodes.Ty.Meet
import SeaOfNodes.Ty.Select

/-!
Requests for nodes. `infer` gives the type that a request would have, and `make` adds the node, or
finds a simpler one with the same value. A request whose type is an error adds at most the node of
that error.
-/
namespace SeaOfNodes

/-- What a phi selects: values, memory, or the values of a variable at the head of a loop, whose
cases are not all known yet. -/
inductive PhiKind where
  | value
  | memory
  | loop (ty : Ty)

inductive Request where
  | constant (ty : Ty)
  | binary (op : BinaryOp) (lhs rhs : NodeId)
  | unary (op : UnaryOp) (operand : NodeId)
  | compare (op : CompareOp) (lhs rhs : NodeId)
  /-- The conversion that a program asks for. -/
  | cast (value : NodeId) (target : Ty)
  /-- The implicit conversion of a scalar to its declared type. -/
  | coerce (value : NodeId) (target : Ty)
  /-- An aggregate made of its members. -/
  | build (shape : Ty) (members : List NodeId)
  | projection (value : NodeId) (index : Nat)
  | parameter (function : NodeId) (index : Nat)
  | alloca (ty : Ty)
  | load (base : NodeId) (offset : Nat) (ty : Ty)
  | store (base : NodeId) (offset : Nat) (value : NodeId)
  /-- A pointer to the member at `base + offset`. -/
  | addressOf (base : NodeId) (offset : Nat) (ty : Ty)
  /-- One side of a branch. -/
  | branch (condition control : NodeId) (taken : Bool)
  | region (predecessors : List NodeId)
  /-- The head of a loop; its back edges come later. -/
  | loop (entry : NodeId)
  | phi (region : NodeId) (cases : List NodeId) (kind : PhiKind)
  | call (callee : NodeId) (arguments : List NodeId)
  | return_ (value : Option NodeId)
  | exit (value : NodeId)
  | function (name : String) (ty : Ty)

/-! ### Types of requests -/

/-- What is wrong with `base` as an address. -/
def addressError? (g : Graph) (base : NodeId) : Except Fault (Option Ty) := do
  match ← g.ty base with
  | .pointer .. => return none
  | .error e => return some (.error e)
  | ty => return some (.fail ("cannot dereference a value of type `" ++ ty.name ++ "`"))

def inferBuild (shape : Ty) (members : List Ty) : Ty :=
  match Ty.firstError? members with
  | some e => .error e
  | none =>
    if members.length = shape.members.length then shape.withMembers members
    else .fail ("`" ++ shape.name ++ "` has " ++ toString shape.members.length ++
      " members but " ++ toString members.length ++ " were given")

def inferParameter (function : Ty) (index : Nat) : Ty :=
  match function with
  | .function params _ _ =>
    match params[index]? with
    | some param => param.bottom
    | none => .fail ("no parameter " ++ toString index)
  | ty => .fail ("`" ++ ty.name ++ "` is not a function")

/-- A side that is known not to be taken is dead. -/
def inferBranch (g : Graph) (condition control : NodeId) (taken : Bool) : Except Fault Ty := do
  match ← g.ty condition with
  | .bool level =>
    if ← g.isDeadControl control then return .dead
    return .control (level != .const !taken)
  | .error e => return .error e
  | ty => return .fail ("condition must be of type `bool`, found `" ++ ty.name ++ "`")

/-- The merge of all cases, and nothing if there are none. -/
def inferCases : List Ty → Ty
  | [] => .void
  | ty :: tys => tys.foldl Ty.phi ty

/-- The first error among the types of nodes. -/
def firstErrorOf? (g : Graph) : List NodeId → Except Fault (Option Blame)
  | [] => .ok none
  | id :: ids => do
    match ← g.ty id with
    | .error e => return some e
    | _ => firstErrorOf? g ids

def inferCall (g : Graph) (callee : NodeId) (arguments : List NodeId) : Except Fault Ty := do
  match ← g.ty callee with
  | .function params result _ =>
    if params.length ≠ arguments.length then
      return .fail ("expected " ++ toString params.length ++ " argument(s), found " ++
        toString arguments.length)
    match ← firstErrorOf? g arguments with
    | some e => return .error e
    | none => return result.bottom
  | .error e => return .error e
  | ty => return .fail ("`" ++ ty.name ++ "` is not callable")

namespace Request

def infer (g : Graph) : Request → Except Fault Ty
  | .constant ty => .ok ty
  | .binary op lhs rhs => do return .binary op (← g.ty lhs) (← g.ty rhs)
  | .unary op operand => do return .unary op (← g.ty operand)
  | .compare op lhs rhs => do return .compare op (← g.ty lhs) (← g.ty rhs)
  | .cast value target => do return (← g.ty value).cast target
  | .coerce value target => do return (← g.ty value).assignTo target
  | .build shape members => do return inferBuild shape (← members.mapM g.ty)
  | .projection value index => do return (← g.ty value).element index
  | .parameter entry index => do return inferParameter (← g.ty entry) index
  | .alloca ty =>
    match ty with
    | .error e => .ok (.error e)
    | ty => .ok (.pointerTo ty.bottom)
  | .load base _ ty => do return (← addressError? g base).getD ty.bottom
  | .store base _ value => do
    match ← addressError? g base with
    | some error => return error
    | none =>
      match ← g.ty value with
      | .error e => return .error e
      | _ => return .memory
  | .addressOf base _ ty => do return (← addressError? g base).getD (.pointerTo ty.bottom)
  | .branch condition control taken => inferBranch g condition control taken
  | .region predecessors => do
    return .control (← predecessors.anyM fun p => do return !(← g.isDeadControl p))
  | .loop entry => do return .control !(← g.isDeadControl entry)
  | .phi _ cases kind =>
    match kind with
    | .value => do return inferCases (← cases.mapM g.ty)
    | .memory => .ok .memory
    | .loop ty => .ok ty.bottom
  | .call callee arguments => inferCall g callee arguments
  | .return_ value =>
    match value with
    | some value => g.ty value
    | none => .ok .void
  | .exit value => g.ty value
  | .function name ty =>
    match ty with
    | .function params result _ => .ok (.function params result (.const name))
    | ty => .ok ty

end Request

/-! ### Simplification -/

/-- The operand that an integer operation leaves as it is, because the other one is neutral. -/
def neutralOperand? (op : BinaryOp) (lhs rhs : NodeId × Ty) : Option (NodeId × Ty) :=
  let zero (x : NodeId × Ty) : Bool := x.2.int? == some 0
  let one (x : NodeId × Ty) : Bool := x.2.int? == some 1
  match op with
  | .add | .bitwiseOr => if zero rhs then some lhs else if zero lhs then some rhs else none
  | .subtract | .shiftLeft | .shiftRight => if zero rhs then some lhs else none
  | .multiply => if one rhs then some lhs else if one lhs then some rhs else none
  | .divide => if one rhs then some lhs else none
  | _ => none

/-- A simpler form of a binary operation: a constant or one of the operands. -/
inductive Simplified where
  | constant (ty : Ty)
  | operand (id : NodeId)
  | none

/-- Whether a type has the algebra of integers, which floats do not have. -/
def Ty.isIntegral : Ty → Bool
  | .int .. | .bool _ => true
  | _ => false

/-- The identities of integers and booleans: `x - x`, `x ^ x` and neutral operands. -/
def simplifyBinary (op : BinaryOp) (lhs rhs : NodeId × Ty) (ty : Ty) : Simplified :=
  if !ty.isIntegral then .none
  else if lhs.1 = rhs.1 ∧ (op = .subtract ∨ op = .bitwiseXor) then .constant ty.zero
  else match neutralOperand? op lhs rhs with
    | some operand => if operand.2.sameShape ty then .operand operand.1 else .none
    | none => .none

/-- What a load finds when it looks back: a value that was stored, or an effect to stand behind. -/
inductive LoadSource where
  | stored (value : NodeId)
  | after (effect : NodeId)

/-- Looks back along the chain of memory, past other loads, for a store to the same place. `fuel`
is the number of effects it may look at. -/
def loadSource (g : Graph) (base : NodeId) (offset : Nat) (ty : Ty) :
    Nat → NodeId → Except Fault LoadSource
  | 0, _ => .error .endlessChain
  | fuel + 1, effect => do
    match ← g.op effect with
    | .store at_ =>
      if at_ ≠ offset then return .after effect
      let value ← g.input effect 1
      if (g.memory[effect]?.bind MemoryEffect.target) ≠ some base then return .after effect
      if (← g.ty value).sameShape ty then return .stored value else return .after effect
    | .load _ =>
      match g.memory[effect]? with
      | some e => loadSource g base offset ty fuel e.previous
      | none => return .after effect
    | _ => return .after effect

namespace BuildM

def emitBinary (op : BinaryOp) (lhs rhs : NodeId) (ty : Ty) : BuildM NodeId := do
  if ty.isConstant then constant ty
  else
    match simplifyBinary op (lhs, ← typeOf lhs) (rhs, ← typeOf rhs) ty with
    | .constant ty => constant ty
    | .operand id => return id
    | .none => create (.binary op) ty [lhs, rhs]

/-- Every unary operator undoes itself, but for floats two negations are kept. -/
def emitUnary (op : UnaryOp) (operand : NodeId) (ty : Ty) : BuildM NodeId := do
  if ty.isConstant then constant ty
  else
    let inner ← look fun g => g.op operand
    if inner = .unary op ∧ ty.isFloat = false then look fun g => g.input operand 0
    else create (.unary op) ty [operand]

/-- A value is equal to itself unless it is a float. -/
def emitCompare (op : CompareOp) (lhs rhs : NodeId) (ty : Ty) : BuildM NodeId := do
  if ty.isConstant then constant ty
  else if lhs = rhs ∧ (← typeOf lhs).isFloat = false then constant (.bool (.const (op.holds .eq)))
  else create (.compare op) ty [lhs, rhs]

def emitCast (value : NodeId) (ty : Ty) : BuildM NodeId := do
  if ty.isConstant then constant ty
  else
    let source ← typeOf value
    if source.sameShape ty then return value
    let cast ← create .cast ty [value]
    if source.materializesString ty then threadMemory cast none .heap
    return cast

/-- Only untyped values change, and those are constants; what is left is a new name for the
type. -/
def emitCoerce (value : NodeId) (ty : Ty) : BuildM NodeId := do
  if (← typeOf value) == ty then return value
  else if ty.isConstant then constant ty
  else create .cast ty [value]

def emitProjection (value : NodeId) (index : Nat) (ty : Ty) : BuildM NodeId := do
  if ty.isConstant then constant ty
  else
    match ← look fun g => g.op value with
    | .build => look fun g => g.input value index
    | _ => create (.projection index) ty [value]

def emitAlloca (declared ty : Ty) : BuildM NodeId := do
  let slot ← newSlot declared.bottom
  let alloca ← create (.alloca slot) ty []
  threadMemory alloca none (.slot slot)
  return alloca

/-- A load that finds no stored value stands directly behind the last effect that is no load. -/
def emitLoad (base : NodeId) (offset : Nat) (ty : Ty) : BuildM NodeId := do
  let c ← cursor
  match ← look fun g => loadSource g base offset ty (g.slots.size + 1) c.memory with
  | .stored value => return value
  | .after effect =>
    let tag ← memoryTag base
    let load ← create (.load offset) ty [base]
    setCursor { c with memory := effect }
    threadMemory load (some base) tag
    return load

def emitStore (base : NodeId) (offset : Nat) (value : NodeId) (ty : Ty) : BuildM NodeId := do
  let tag ← memoryTag base
  let store ← create (.store offset) ty [base, value]
  threadMemory store (some base) tag
  return store

def emitAddressOf (base : NodeId) (offset : Nat) (ty : Ty) : BuildM NodeId := do
  if offset = 0 ∧ ((← typeOf base) == ty) = true then return base
  else create (.addressOf offset) ty [base]

def emitBranch (condition control : NodeId) (taken : Bool) (ty : Ty) : BuildM NodeId := do
  let branch ← create (.branch taken) ty [condition]
  edit fun g => g.attachControl branch control
  return branch

/-- Whether all nodes of a list are one. -/
def allSame : List NodeId → Option NodeId
  | [] => none
  | id :: ids => if ids.all (· == id) then some id else none

def newPhi (region : NodeId) (cases : List NodeId) (ty : Ty) : BuildM NodeId := do
  let phi ← create .phi ty (region :: cases)
  edit fun g => do
    let g ← g.attachControl phi region
    return g.setPhiRegion phi region
  return phi

def emitPhi (region : NodeId) (cases : List NodeId) (kind : PhiKind) (ty : Ty) :
    BuildM NodeId := do
  match kind with
  | .loop _ => newPhi region cases ty
  | _ =>
    match allSame cases with
    | some id => return id
    | none => if ty.isConstant then constant ty else newPhi region cases ty

def emitCall (callee : NodeId) (arguments : List NodeId) (ty : Ty) : BuildM NodeId := do
  let call ← create .call ty (callee :: arguments)
  let c ← cursor
  edit fun g => g.attachControl call c.control
  threadMemory call none .unknown
  return call

/-- A node that ends a path. It uses the state of memory and leaves the cursor where it is. -/
def terminate (op : Op) (ty : Ty) (inputs : List NodeId) : BuildM NodeId := do
  let id ← create op ty inputs
  let c ← cursor
  edit fun g => g.attachControl id c.control
  edit fun g => g.attachMemory id ⟨c.memory, none, .unknown⟩
  return id

def markRoot (id : NodeId) : BuildM Unit := edit fun g => return g.markRoot id

/-- Adds the node of a request whose type is `ty` and no error. -/
def emit (r : Request) (ty : Ty) : BuildM NodeId :=
  match r with
  | .constant _ => constant ty
  | .binary op lhs rhs => emitBinary op lhs rhs ty
  | .unary op operand => emitUnary op operand ty
  | .compare op lhs rhs => emitCompare op lhs rhs ty
  | .cast value _ => emitCast value ty
  | .coerce value _ => emitCoerce value ty
  | .build _ members => if ty.isConstant then constant ty else create .build ty members
  | .projection value index => emitProjection value index ty
  | .parameter entry index => create (.projection index) ty [entry]
  | .alloca declared => emitAlloca declared ty
  | .load base offset _ => emitLoad base offset ty
  | .store base offset value => emitStore base offset value ty
  | .addressOf base offset _ => emitAddressOf base offset ty
  | .branch condition control taken => emitBranch condition control taken ty
  | .region predecessors => create .region ty predecessors
  | .loop entry => create .loop ty [entry]
  | .phi region cases kind => emitPhi region cases kind ty
  | .call callee arguments => emitCall callee arguments ty
  | .return_ value => terminate .return_ ty value.toList
  | .exit value => do
    let exit ← terminate .exit ty [value]
    markRoot exit
    return exit
  | .function name _ => do
    let entry ← create (.function name) ty []
    markRoot entry
    return entry

def make (r : Request) : BuildM NodeId := do
  match ← look r.infer with
  | .error blame => errorNode blame
  | ty => emit r ty

end BuildM

end SeaOfNodes
