import SeaOfNodes.Graph.Edge
import SeaOfNodes.Ty.Convert
import SeaOfNodes.Ty.Meet
import SeaOfNodes.Ty.Select

/-!
Folds: local simplifications of a finished graph. Most of them were made when the nodes were
built; what is found here only came about later, such as an operand that became a constant when a
load took a stored value, or a branch that lost one side.
-/
namespace SeaOfNodes

/-- The result of a try to simplify a node: the node that stands for it, if there is one, and the
graph. -/
abbrev Folded := Except Fault (Option NodeId × Graph)

namespace Graph

/-- Leaves a node as it is. -/
def keep (g : Graph) : Folded := .ok (none, g)

/-- Stands a new constant for a node. -/
def foldTo (g : Graph) (ty : Ty) : Folded := do
  let (id, g) ← g.create .constant ty []
  return (some id, g)

def inputType (g : Graph) (id : NodeId) (position : Nat) : Except Fault Ty := do
  g.ty (← g.input id position)

/-! ### Operators -/

/-- The type that an operator has with the types that its operands have now. -/
def operatorType? (g : Graph) (id : NodeId) : Except Fault (Option Ty) := do
  let node ← g.node id
  match node.op with
  | .binary op => return some (.binary op (← g.inputType id 0) (← g.inputType id 1))
  | .unary op => return some (.unary op (← g.inputType id 0))
  | .compare op => return some (.compare op (← g.inputType id 0) (← g.inputType id 1))
  | .cast => return some ((← g.inputType id 0).cast node.ty)
  | .build => return some (node.ty.withMembers (← node.inputs.mapM g.ty))
  | .projection index => return some ((← g.inputType id 0).element index)
  | _ => return none

/-- Stands a constant for an operator whose type is one, and nothing for any other. -/
def foldConstant (g : Graph) (id : NodeId) : Folded := do
  match ← g.operatorType? id with
  | some ty => if !ty.isError && ty.isConstant then g.foldTo ty else g.keep
  | none => g.keep

/-- Evaluates operators whose operands have become constants. A member of an aggregate that was
just built is the value it was built of. -/
def foldOperator (g : Graph) (id : NodeId) : Folded := do
  match ← g.op id with
  | .projection index =>
    let built ← g.node (← g.input id 0)
    if built.op = .build then return (built.inputs[index]?, g) else g.foldConstant id
  | _ => g.foldConstant id

/-- Evaluates comparisons of a value with itself. A float need not be equal to itself. -/
def foldComparison (g : Graph) (id : NodeId) : Folded := do
  match ← g.op id with
  | .compare op =>
    let lhs ← g.input id 0
    let rhs ← g.input id 1
    if lhs ≠ rhs then g.keep
    else if (← g.ty lhs).isFloat then g.keep
    else g.foldTo (.bool (.const (op.holds .eq)))
  | _ => g.keep

/-! ### Control -/

def foldToDead (g : Graph) : Folded := do
  let (id, g) ← g.deadControl
  return (some id, g)

/-- A side of a branch on a constant is the control before it or dead. -/
def foldBranch (g : Graph) (id : NodeId) (taken : Bool) : Folded := do
  match (← g.inputType id 0).bool? with
  | none => g.keep
  | some value =>
    if ← g.isDeadControl id then g.keep
    else if value = taken then return (g.control[id]?, g)
    else g.foldToDead

/-- The positions of the predecessors that are taken, from `index` on. -/
def livePositions (g : Graph) (index : Nat) : List NodeId → Except Fault (List Nat)
  | [] => .ok []
  | id :: ids => do
    let dead ← g.isDeadControl id
    let rest ← g.livePositions (index + 1) ids
    return if dead then rest else index :: rest

def phisOf (g : Graph) (region : NodeId) : Except Fault (List NodeId) := do
  let nodes := (← g.users region).map User.node
  return (nodes.filter fun id => g.phiRegion[id]? = some region ∧ g.isLive id = true).eraseDups

/-- The case of a phi at one predecessor of its region. -/
def caseAt (g : Graph) (phi : NodeId) (position : Nat) : Except Fault NodeId := do
  match (← g.node phi).inputs[position + 1]? with
  | some case => return case
  | none => throw (.unevenPhi phi position)

/-- Replaces phis by their cases at one predecessor. -/
def selectCase (position : Nat) : List NodeId → Graph → Except Fault Graph
  | [], g => .ok g
  | phi :: phis, g => do
    let case ← g.caseAt phi position
    let g ← g.replace phi case
    selectCase position phis g

/-- A region with one predecessor is that predecessor, and its phis are their cases there. -/
def foldRegion (g : Graph) (id : NodeId) : Folded := do
  let predecessors := (← g.node id).inputs
  match ← g.livePositions 0 predecessors with
  | [] => if ← g.isDeadControl id then g.keep else g.foldToDead
  | [only] =>
    let g ← selectCase only (← g.phisOf id) g
    return (predecessors[only]?, g)
  | _ => g.keep

/-- The cases of a phi that can be taken and are not the phi itself. -/
def takenCases (g : Graph) (phi : NodeId) : List (NodeId × NodeId) → Except Fault (List NodeId)
  | [] => .ok []
  | (case, predecessor) :: rest => do
    let left ← if case = phi then pure true else g.isDeadControl predecessor
    let cases ← g.takenCases phi rest
    return if left then cases else case :: cases

/-- A phi with one case is that case, and a phi whose cases are the same constant is that. -/
def foldPhi (g : Graph) (id : NodeId) : Folded := do
  match (← g.node id).inputs with
  | [] => .error (.missingInput id 0)
  | region :: cases =>
    if !g.isLive region then g.keep
    else
      match ← g.takenCases id (cases.zip (← g.node region).inputs) with
      | [] => g.keep
      | first :: rest =>
        if rest.all (· == first) then return (some first, g)
        else
          let merged := (← rest.mapM g.ty).foldl Ty.phi (← g.ty first)
          if merged.isConstant && !merged.isError then g.foldTo merged else g.keep

/-- Folds of branches, regions and phis. -/
def foldControl (g : Graph) (id : NodeId) : Folded := do
  match ← g.op id with
  | .branch taken => g.foldBranch id taken
  | .region | .loop => g.foldRegion id
  | .phi => g.foldPhi id
  | _ => g.keep

/-! ### Memory -/

/-- The value that the last store to the address and offset of a load stored, looked for past
other loads among at most `fuel` effects. -/
def storedValue? (g : Graph) (load : NodeId) (target : Option NodeId) (offset : Nat) :
    Nat → NodeId → Except Fault (Option NodeId)
  | 0, _ => .error .endlessChain
  | fuel + 1, effect => do
    match ← g.op effect, g.memory[effect]? with
    | .store at_, some e =>
      if at_ ≠ offset then return none
      let value ← g.input effect 1
      if e.target = target ∧ (← g.ty value).sameShape (← g.ty load) then return some value
      else return none
    | .load _, some e => g.storedValue? load target offset fuel e.previous
    | _, _ => return none

/-- A load right behind a store to the same place is the value stored. -/
def foldLoad (g : Graph) (id : NodeId) : Folded := do
  match ← g.op id, g.memory[id]? with
  | .load offset, some effect =>
    return (← g.storedValue? id effect.target offset (g.slots.size + 1) effect.previous, g)
  | _, _ => g.keep

end Graph

/-- The folds, in the order in which they are tried. -/
inductive Fold where
  | operator
  | comparison
  | control
  | load
  deriving DecidableEq, Repr

namespace Fold

def all : List Fold := [.operator, .comparison, .control, .load]

def name : Fold → String
  | .operator => "constant-fold"
  | .comparison => "comparison-fold"
  | .control => "phi-fold"
  | .load => "redundant-load"

/-- The operations that a fold looks at. -/
def targets : Fold → OpSet
  | .operator => [.binary, .unary, .compare, .cast, .build, .projection]
  | .comparison => [.compare]
  | .control => [.branchTrue, .branchFalse, .region, .loop, .phi]
  | .load => [.load]

def run (fold : Fold) (g : Graph) (id : NodeId) : Folded :=
  match fold with
  | .operator => g.foldOperator id
  | .comparison => g.foldComparison id
  | .control => g.foldControl id
  | .load => g.foldLoad id

end Fold

namespace Graph

/-- Tries folds on a node until one finds another node, and puts that in its place. -/
def simplifyBy (id : NodeId) : List Fold → Graph → Folded
  | [], g => g.keep
  | fold :: folds, g => do
    match ← fold.run g id with
    | (some new, g) =>
      if new = id ∨ g.isLive id = false then simplifyBy id folds g
      else return (some new, ← g.replace id new)
    | (none, g) => simplifyBy id folds g

/-- Simplifies one node by the folds that look at its operation. -/
def simplify (g : Graph) (id : NodeId) : Folded := do
  let kind := (← g.op id).kind
  simplifyBy id (Fold.all.filter fun fold => fold.targets.contains kind) g

/-- Simplifies the nodes of a worklist, in at most `fuel` steps, and counts the replacements. The
users of a node that took the place of another are looked at again. -/
def simplifyQueue : Nat → List NodeId → Std.ExtTreeSet NodeId → Graph → Except Fault (Nat × Graph)
  | 0, _, _, _ => .error .exhausted
  | _ + 1, [], _, g => .ok (0, g)
  | fuel + 1, id :: queue, queued, g => do
    let queued := queued.erase id
    if !g.isLive id then simplifyQueue fuel queue queued g
    else
      match ← g.simplify id with
      | (none, g) => simplifyQueue fuel queue queued g
      | (some new, g) =>
        let again := ((← g.users new).map User.node ++ [new]).eraseDups
        let fresh := again.filter fun id => !queued.contains id
        let (count, g) ← simplifyQueue fuel (queue ++ fresh) (queued.insertMany fresh) g
        return (count + 1, g)

/-- Simplifies a graph until nothing is left to simplify, and counts the replacements. Every
replacement takes away a node that is no constant and adds at most one constant, so with `n` nodes
there are at most `n` of them, and each puts at most `2 * n + 1` nodes on the worklist. -/
def simplifyAll (g : Graph) : Except Fault (Nat × Graph) :=
  let n := g.slots.size + 1
  simplifyQueue (n + n * (2 * n + 1) + 1) g.liveIds (.ofList g.liveIds) g

end Graph

end SeaOfNodes
