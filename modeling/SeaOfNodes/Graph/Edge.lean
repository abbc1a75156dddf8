import SeaOfNodes.Graph.Basic

/-!
Edges of a graph: setting them, asking who uses a node, and putting one node in the place of
another.
-/
namespace SeaOfNodes.Graph

/-! ### Setting edges -/

def attachControl (g : Graph) (id predecessor : NodeId) : Except Fault Graph :=
  { g with control := g.control.insert id predecessor }.registerUser predecessor ⟨id, .control⟩

def attachMemory (g : Graph) (id : NodeId) (effect : MemoryEffect) : Except Fault Graph := do
  let g ← { g with memory := g.memory.insert id effect }.registerUser effect.previous ⟨id, .previous⟩
  match effect.target with
  | some target => g.registerUser target ⟨id, .target⟩
  | none => return g

/-- Moves `id` behind another effect. -/
def setPrevious (g : Graph) (id previous : NodeId) : Except Fault Graph :=
  match g.memory[id]? with
  | some effect =>
    let memory := g.memory.insert id { effect with previous := previous }
    { g with memory := memory }.registerUser previous ⟨id, .previous⟩
  | none => .error (.noMemoryEffect id)

/-- Gives an effect another address. -/
def setTarget (g : Graph) (id target : NodeId) : Except Fault Graph :=
  match g.memory[id]? with
  | some effect =>
    let memory := g.memory.insert id { effect with target := some target }
    { g with memory := memory }.registerUser target ⟨id, .target⟩
  | none => g.registerUser target ⟨id, .target⟩

def appendInput (g : Graph) (id input : NodeId) : Except Fault Graph := do
  let inputs := (← g.node id).inputs
  let g ← g.update id fun node => { node with inputs := node.inputs ++ [input] }
  if input ∈ inputs then return g else g.registerUser input ⟨id, .value inputs.length⟩

/-- Puts `new` in every place of `id`'s inputs that names `old`. -/
def replaceInput (g : Graph) (id old new : NodeId) : Except Fault Graph := do
  match (← g.node id).inputs.findIdx? (· == old) with
  | none => return g
  | some position =>
    let g ← g.update id fun node =>
      { node with inputs := node.inputs.map fun x => if x = old then new else x }
    g.registerUser new ⟨id, .value position⟩

def setPhiRegion (g : Graph) (phi region : NodeId) : Graph :=
  { g with phiRegion := g.phiRegion.insert phi region }

def markRoot (g : Graph) (id : NodeId) : Graph := { g with roots := g.roots.insert id }

/-- The node that stands for control that is never reached; there is one at a time. -/
def deadControl (g : Graph) : Except Fault (NodeId × Graph) := do
  match g.deadNode with
  | some id =>
    if g.isLive id then return (id, g)
    let (id, g) ← g.create .constant .dead []
    return (id, { g with deadNode := some id })
  | none =>
    let (id, g) ← g.create .constant .dead []
    return (id, { g with deadNode := some id })

/-! ### Users -/

/-- Whether an entry at `target` is the entry of an edge of a node that no other stands for. -/
def edgeHolds (g : Graph) (target : NodeId) (user : User) : Bool :=
  match g.get? user.node with
  | none => false
  | some node =>
    !node.replaced &&
      match user.edge with
      | .value _ => node.inputs.contains target
      | .control => g.control[user.node]?.any fun predecessor => predecessor == target
      | .previous => g.memory[user.node]?.any fun effect => effect.previous == target
      | .target => g.memory[user.node]?.any fun effect => effect.target == some target

/-- The entries at `id` of edges that are there. -/
def users (g : Graph) (id : NodeId) : Except Fault (List User) := do
  return (← g.node id).users.filter (g.edgeHolds id)

/-- The effects that directly follow `id`. -/
def memoryUsers (g : Graph) (id : NodeId) : Except Fault (List NodeId) := do
  return (← g.users id).filterMap fun user => if user.edge = .previous then some user.node else none

/-! ### Replacing -/

/-- Turns one edge to `old` into an edge to `new`. In the chain of memory the effect before `old`,
if there is one, takes its place: an effect or a memory phi that followed `old` follows that. -/
def redirect (g : Graph) (old new : NodeId) (before : Option NodeId) (user : User) :
    Except Fault Graph :=
  match user.edge with
  | .value _ => do
    let node ← g.node user.node
    if node.op == .phi && node.ty == .memory then g.replaceInput user.node old (before.getD new)
    else g.replaceInput user.node old new
  | .control => g.attachControl user.node new
  | .previous => g.setPrevious user.node (before.getD new)
  | .target => g.setTarget user.node new

/-- Turns the edges of `users` one after the other. -/
def redirectAll (old new : NodeId) (before : Option NodeId) :
    List User → Graph → Except Fault Graph
  | [], g => .ok g
  | user :: users, g => do
    let g ← g.redirect old new before user
    let g := if g.phiRegion[user.node]? = some old then g.setPhiRegion user.node new else g
    redirectAll old new before users g

/-- Lets `new` stand for `old`: every edge to `old` is turned, and `old` is marked. -/
def replace (g : Graph) (old new : NodeId) : Except Fault Graph :=
  if old = new then .ok g
  else do
    let users ← g.users old
    let before := g.memory[old]?.map MemoryEffect.previous
    let g ← redirectAll old new before users g
    let g := if old ∈ g.roots then { g with roots := (g.roots.erase old).insert new } else g
    g.update old fun node => { node with replaced := true }

/-! ### Errors -/

/-- The errors that a graph still holds: their nodes, spans and messages, in slot order. -/
def errors (g : Graph) : List (NodeId × Span × String) :=
  g.liveIds.filterMap fun id =>
    match g.get? id with
    | some { op := .error span, ty := .error blame, .. } => some (id, span, blame.message)
    | _ => none

end SeaOfNodes.Graph
