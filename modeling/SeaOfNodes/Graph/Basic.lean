import Std.Data.ExtTreeMap
import Std.Data.ExtTreeSet
import SeaOfNodes.Graph.Op
import SeaOfNodes.Ty.Origin

/-!
Graphs of nodes. Nodes live in slots that are used again, and a handle names a slot together with
the generation of the node in it, so that a handle to a freed node never names another one.

A node's value edges are its inputs; control and memory edges and the region of a phi are kept
beside the nodes. Every edge but the last is entered a second time at the node it points to, in
`Node.users`.
-/
namespace SeaOfNodes

structure NodeId where
  index : Nat
  generation : Nat
  deriving DecidableEq, Repr

namespace NodeId

instance : Inhabited NodeId := ⟨⟨0, 0⟩⟩

/-- Handles are ordered by slot, then by generation. -/
instance : Ord NodeId where
  compare a b :=
    if a.index < b.index then .lt
    else if b.index < a.index then .gt
    else if a.generation < b.generation then .lt
    else if b.generation < a.generation then .gt
    else .eq

theorem compare_def (a b : NodeId) :
    compare a b = compareLex (compareOn NodeId.index) (compareOn NodeId.generation) a b := by
  simp only [compare, compareLex, compareOn, compareOfLessAndEq]
  grind [Ordering.then]

instance : Std.TransOrd NodeId := by
  have h : (compare : NodeId → NodeId → Ordering) =
      compareLex (compareOn NodeId.index) (compareOn NodeId.generation) :=
    funext fun a => funext fun b => compare_def a b
  unfold Std.TransOrd
  rw [h]
  infer_instance

theorem eq_of_compare {a b : NodeId} (h : compare a b = .eq) : a = b := by
  rw [compare_def] at h
  simp only [compareLex, compareOn, Ordering.then_eq_eq, Std.LawfulEqOrd.compare_eq_iff_eq] at h
  cases a; cases b
  simp_all

instance : Std.LawfulEqOrd NodeId where
  eq_of_compare := eq_of_compare

/-- A handle in print: its slot, and its generation unless that is the first. -/
def name (id : NodeId) : String :=
  if id.generation = 0 then "%" ++ toString id.index
  else "%" ++ toString id.index ++ "." ++ toString id.generation

/-- A handle in print by its slot alone. -/
def slotName (id : NodeId) : String := "%" ++ toString id.index

end NodeId

/-- The ways in which one node refers to another. -/
inductive Edge where
  | value (position : Nat)
  | control
  | previous
  | target
  deriving DecidableEq, Repr

/-- The entry of an edge at the node it points to: `node` refers to it through `edge`. -/
structure User where
  node : NodeId
  edge : Edge
  deriving DecidableEq, Repr

/-- A node's place in the chain of memory effects: the effect before it, the address it uses, and
what it can touch. -/
structure MemoryEffect where
  previous : NodeId
  target : Option NodeId
  tag : MemoryTag
  deriving DecidableEq, Repr

structure Node where
  op : Op
  ty : Ty
  inputs : List NodeId
  /-- Entries of edges to this node; edges that have gone may still be entered. -/
  users : List User := []
  /-- Whether another node stands for this one. -/
  replaced : Bool := false
  deriving Repr

/-- A place for a node. The generation counts the nodes that were freed here. -/
structure Slot where
  generation : Nat
  node : Option Node
  deriving Repr

/-- What keeps a step on a graph from having a result. -/
inductive Fault where
  /-- A handle names no node. -/
  | stale (id : NodeId)
  /-- A node is outside the chain of memory. -/
  | noMemoryEffect (id : NodeId)
  | missingInput (id : NodeId) (position : Nat)
  /-- An arm of a join has no value. -/
  | missingCase (arm : Nat)
  /-- A phi has no case for a predecessor of its region. -/
  | unevenPhi (phi : NodeId) (position : Nat)
  /-- What stands for a variable at the head of a loop has no region and no cases. -/
  | bareHead (id : NodeId)
  /-- An aggregate has no member at a place. -/
  | missingMember (index : Nat)
  /-- A count is to become smaller than zero. -/
  | underflow
  /-- A literal is too short to have quotes. -/
  | unquotedLiteral (text : String)
  /-- A size or an offset has more than 32 bits. -/
  | tooLarge
  /-- A chain has no end. -/
  | endlessChain
  /-- The steps that were allowed are used up. -/
  | exhausted
  deriving DecidableEq, Repr

def Fault.message? : Fault → Option String
  | .stale id =>
    some ("stale node handle " ++ id.slotName ++ " (generation " ++ toString id.generation ++ ")")
  | .noMemoryEffect id => some (id.slotName ++ " has no memory effect")
  | _ => none

structure Graph where
  slots : Array Slot := #[]
  /-- Empty slots, the next one to use first. -/
  free : List Nat := []
  control : Std.ExtTreeMap NodeId NodeId := ∅
  memory : Std.ExtTreeMap NodeId MemoryEffect := ∅
  phiRegion : Std.ExtTreeMap NodeId NodeId := ∅
  roots : Std.ExtTreeSet NodeId := ∅
  /-- The node that stands for control that is never reached. -/
  deadNode : Option NodeId := none
  size : Nat := 0
  /-- The number of the next error. -/
  origins : Nat := 0

namespace Graph

def empty : Graph := {}

instance : Inhabited Graph := ⟨empty⟩

/-! ### Looking at nodes -/

def get? (g : Graph) (id : NodeId) : Option Node :=
  match g.slots[id.index]? with
  | some slot => if slot.generation = id.generation then slot.node else none
  | none => none

def node (g : Graph) (id : NodeId) : Except Fault Node :=
  match g.get? id with
  | some node => .ok node
  | none => .error (.stale id)

def ty (g : Graph) (id : NodeId) : Except Fault Ty :=
  match g.get? id with
  | some node => .ok node.ty
  | none => .error (.stale id)

def op (g : Graph) (id : NodeId) : Except Fault Op :=
  match g.get? id with
  | some node => .ok node.op
  | none => .error (.stale id)

def input (g : Graph) (id : NodeId) (position : Nat) : Except Fault NodeId := do
  let node ← g.node id
  match node.inputs[position]? with
  | some x => .ok x
  | none => .error (.missingInput id position)

/-- Whether a handle has a node that no other stands for. -/
def isLive (g : Graph) (id : NodeId) : Bool :=
  match g.get? id with
  | some node => !node.replaced
  | none => false

def handlesFrom (index : Nat) : List Slot → List NodeId
  | [] => []
  | slot :: slots =>
    if slot.node.isSome then ⟨index, slot.generation⟩ :: handlesFrom (index + 1) slots
    else handlesFrom (index + 1) slots

def ids (g : Graph) : List NodeId := handlesFrom 0 g.slots.toList

/-- The handles of all nodes that no others stand for. -/
def liveIds (g : Graph) : List NodeId := g.ids.filter g.isLive

def isDeadControl (g : Graph) (id : NodeId) : Except Fault Bool := do
  return (← g.ty id).isDead

/-! ### Changing nodes -/

def update (g : Graph) (id : NodeId) (f : Node → Node) : Except Fault Graph :=
  match g.get? id with
  | some _ =>
    .ok { g with slots := g.slots.modify id.index fun slot => { slot with node := slot.node.map f } }
  | none => .error (.stale id)

def setType (g : Graph) (id : NodeId) (ty : Ty) : Except Fault Graph := do
  let (ty, origins) := ty.stamp g.origins
  { g with origins := origins }.update id fun node => { node with ty := ty }

/-- Enters a user once. -/
def registerUser (g : Graph) (target : NodeId) (user : User) : Except Fault Graph :=
  g.update target fun node =>
    if user ∈ node.users then node else { node with users := node.users ++ [user] }

/-- Enters `id` at each of its inputs, by the first place that names it. -/
def registerInputs (id : NodeId) :
    Nat → List NodeId → List NodeId → Graph → Except Fault Graph
  | _, _, [], g => .ok g
  | position, seen, x :: xs, g =>
    if x ∈ seen then registerInputs id (position + 1) seen xs g
    else do
      let g ← g.registerUser x ⟨id, .value position⟩
      registerInputs id (position + 1) (x :: seen) xs g

/-- Puts a node into the slot that was freed last, or into a new one. -/
def allocate (g : Graph) (node : Node) : NodeId × Graph :=
  match g.free with
  | index :: free =>
    let generation := (g.slots[index]?.map Slot.generation).getD 0
    (⟨index, generation⟩,
      { g with
        slots := g.slots.setIfInBounds index ⟨generation, some node⟩
        free := free
        size := g.size + 1 })
  | [] =>
    (⟨g.slots.size, 0⟩, { g with slots := g.slots.push ⟨0, some node⟩, size := g.size + 1 })

def create (g : Graph) (op : Op) (ty : Ty) (inputs : List NodeId) :
    Except Fault (NodeId × Graph) := do
  let (ty, origins) := ty.stamp g.origins
  let (id, g) := { g with origins := origins }.allocate { op, ty, inputs }
  let g ← registerInputs id 0 [] inputs g
  return (id, g)

/-- Frees the slot of a node. Every handle to it becomes stale. -/
def remove (g : Graph) (id : NodeId) : Graph :=
  match g.get? id with
  | none => g
  | some _ =>
    { g with
      slots := g.slots.setIfInBounds id.index ⟨id.generation + 1, none⟩
      free := id.index :: g.free
      size := g.size - 1
      control := g.control.erase id
      memory := g.memory.erase id
      phiRegion := g.phiRegion.erase id
      roots := g.roots.erase id }

end Graph

end SeaOfNodes
