import SeaOfNodes.Graph.Edge

/-!
The state in which a graph is built: the graph, the place where new effects attach, the span that
new errors get, the stack slots, and the errors that were reported.
-/
namespace SeaOfNodes

/-- The latest control node and the latest memory effect on the current path. -/
structure Cursor where
  control : NodeId
  memory : NodeId
  deriving DecidableEq, Repr

structure Builder where
  graph : Graph
  cursor : Cursor
  /-- The node that every graph begins with. -/
  start : NodeId
  span : Span
  /-- The type of each stack slot. -/
  slots : List Ty
  /-- The node of each error that was reported, by its origin. -/
  reported : List (Nat × NodeId)
  /-- The effects in the chain of memory, the latest first, each with the control of its path. -/
  effects : List (NodeId × NodeId) := []

abbrev BuildM := StateT Builder (Except Fault)

namespace Builder

/-- A builder with nothing but the start node. -/
def initial : Builder :=
  let (start, graph) := Graph.empty.allocate { op := .start, ty := .live, inputs := [] }
  { graph, cursor := ⟨start, start⟩, start, span := ⟨0, 0⟩, slots := [], reported := [] }

instance : Inhabited Builder := ⟨initial⟩

end Builder

namespace BuildM

def look {α : Type} (f : Graph → Except Fault α) : BuildM α := fun b => do
  return (← f b.graph, b)

def edit (f : Graph → Except Fault Graph) : BuildM Unit := fun b => do
  return ((), { b with graph := ← f b.graph })

def editWith (f : Graph → Except Fault (NodeId × Graph)) : BuildM NodeId := fun b => do
  let (id, g) ← f b.graph
  return (id, { b with graph := g })

def create (op : Op) (ty : Ty) (inputs : List NodeId) : BuildM NodeId :=
  editWith fun g => g.create op ty inputs

def constant (ty : Ty) : BuildM NodeId := create .constant ty []

def typeOf (id : NodeId) : BuildM Ty := look fun g => g.ty id

def cursor : BuildM Cursor := return (← get).cursor

def setCursor (c : Cursor) : BuildM Unit := modify fun b => { b with cursor := c }

def setSpan (s : Span) : BuildM Unit := modify fun b => { b with span := s }

/-- Whether the cursor is on a path that is never taken. -/
def isDead : BuildM Bool := do
  let c ← cursor
  look fun g => g.isDeadControl c.control

/-- Moves the cursor to control that is never reached. -/
def kill : BuildM Unit := do
  let dead ← editWith Graph.deadControl
  modify fun b => { b with cursor := { b.cursor with control := dead } }

/-- Puts `id` at the end of the chain of memory. -/
def threadMemory (id : NodeId) (target : Option NodeId) (tag : MemoryTag) : BuildM Unit := do
  let c ← cursor
  edit fun g => g.attachMemory id ⟨c.memory, target, tag⟩
  modify fun b => { b with
    cursor := { c with memory := id }
    effects := (id, c.control) :: b.effects }

/-- What an access through `base` can touch. -/
def memoryTag (base : NodeId) : BuildM MemoryTag := do
  match ← look fun g => g.op base with
  | .alloca slot => return .slot slot
  | _ => return .unknown

def newSlot (ty : Ty) : BuildM Nat := fun b =>
  return (b.slots.length, { b with slots := b.slots ++ [ty] })

/-- Makes a node for an error, at the current span. -/
def newError (blame : Blame) : BuildM NodeId := fun b => do
  let (blame, origins) := blame.stamp b.graph.origins
  let g := { b.graph with origins := origins }
  let (id, g) ← g.create (.error b.span) (.error blame) []
  return (id, { b with graph := g, reported := (blame.origin.getD 0, id) :: b.reported })

/-- The node of an error. An error that flows out of an operand was reported where it arose, and
is not reported again. -/
def errorNode (blame : Blame) : BuildM NodeId := do
  let reported := (← get).reported
  match blame.origin.bind fun origin => reported.lookup origin with
  | some id => return id
  | none => newError blame

def fail (message : String) : BuildM NodeId := newError ⟨message, none⟩

end BuildM

end SeaOfNodes
