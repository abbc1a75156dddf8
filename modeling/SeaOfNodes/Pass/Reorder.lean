import SeaOfNodes.Graph.Offset
import SeaOfNodes.Graph.Reach

/-!
Moving loads and stores up the chain of memory, past effects that they are independent of. A load
that ends up right behind a store to the same place can then take the stored value.
-/
namespace SeaOfNodes

/-- A load or store: its node, its place in the chain of memory, and its offset. -/
structure Access where
  node : NodeId
  effect : MemoryEffect
  offset : Nat

namespace Graph

/-- Whether an entry is that of an edge along which memory flows: to the next effect, or into a
memory phi. -/
def carriesMemory (g : Graph) (user : User) : Except Fault Bool :=
  match user.edge with
  | .previous => .ok true
  | .value _ => do
    let node ← g.node user.node
    return node.op == .phi && node.ty == .memory
  | _ => .ok false

/-- The users that take `id` as a state of memory. -/
def memoryConsumers (g : Graph) (id : NodeId) : Except Fault (List User) := do
  (← g.users id).filterM g.carriesMemory

/-- The bytes that an access touches, as a half-open range. -/
def accessRange (g : Graph) (a : Access) : Except Fault (Nat × Nat) := do
  let accessed ← match ← g.op a.node with
    | .store _ => do g.ty (← g.input a.node 1)
    | _ => g.ty a.node
  let layout ← orTooLarge accessed.layout?
  return (a.offset, ← addOffset a.offset layout.size)

/-- Whether two accesses are known to touch no byte in common: they touch different parts of
memory, or different ranges behind one address. -/
def accessesDisjoint (g : Graph) (a b : Access) : Except Fault Bool := do
  if a.effect.tag.disjoint b.effect.tag then return true
  if a.effect.target.isNone || a.effect.target != b.effect.target then return false
  let (start, stop) ← g.accessRange a
  let (start', stop') ← g.accessRange b
  return decide (stop ≤ start' ∨ stop' ≤ start)

/-- Whether an access touches a stack slot other than `slot`. -/
def avoidsSlot (slot : Nat) : MemoryTag → Bool
  | .slot own => own != slot
  | _ => false

/-- Whether `id` can stand in front of `previous` without a change of what any access sees. -/
def commutes (g : Graph) (id previous : NodeId) : Except Fault Bool := do
  match g.memory[id]?, g.memory[previous]? with
  | some ours, some theirs =>
    match ← g.op id, ← g.op previous with
    | .load _, .load _ => return true
    | .load a, .store b | .store a, .load b | .store a, .store b =>
      g.accessesDisjoint ⟨id, ours, a⟩ ⟨previous, theirs, b⟩
    | _, .alloca slot => return avoidsSlot slot ours.tag
    | _, _ => return false
  | _, _ => return false

/-- Whether `id` uses the value of `other`, directly or through other values. -/
def dependsOn (g : Graph) (id other : NodeId) : Except Fault Bool := do
  let node ← g.node id
  return (g.walk (fun _ node => node.inputs) ∅ node.inputs).contains other

/-- Whether `id` can move past the effect before it. Where memory forks nothing moves. -/
def canPass (g : Graph) (id previous : NodeId) : Except Fault Bool := do
  match ← g.memoryConsumers previous with
  | [user] =>
    if user.node ≠ id then return false
    else if ← g.commutes id previous then return !(← g.dependsOn id previous)
    else return false
  | _ => return false

/-- Lets the users of a state of memory take another one. -/
def moveConsumers (old new : NodeId) : List User → Graph → Except Fault Graph
  | [], g => .ok g
  | user :: users, g => do
    let g ← match user.edge with
      | .previous => g.setPrevious user.node new
      | _ => g.replaceInput user.node old new
    moveConsumers old new users g

/-- Turns `before → previous → id → users` into `before → id → previous → users`. -/
def swap (g : Graph) (id previous before : NodeId) : Except Fault Graph := do
  let g ← moveConsumers id previous (← g.memoryConsumers id) g
  let g ← g.setPrevious id before
  g.setPrevious previous id

/-- Moves an access up as far as it goes, by at most `fuel` steps, and counts them. -/
def climb (id : NodeId) : Nat → Graph → Except Fault (Nat × Graph)
  | 0, _ => .error .endlessChain
  | fuel + 1, g => do
    match g.memory[id]? with
    | none => return (0, g)
    | some effect =>
      if ← g.canPass id effect.previous then
        match g.memory[effect.previous]? with
        | none => return (0, g)
        | some before =>
          let g ← g.swap id effect.previous before.previous
          let (steps, g) ← climb id fuel g
          return (steps + 1, g)
      else return (0, g)

def climbAll : List NodeId → Graph → Except Fault (Nat × Graph)
  | [], g => .ok (0, g)
  | id :: ids, g => do
    let (steps, g) ← climb id (g.slots.size + 1) g
    let (more, g) ← climbAll ids g
    return (steps + more, g)

def isAccess (g : Graph) (id : NodeId) : Bool :=
  (g.get? id).any fun node => node.op.isMemoryAccess

/-- Moves every load and store up as far as it goes, and counts the steps. -/
def reorderMemory (g : Graph) : Except Fault (Nat × Graph) :=
  climbAll (g.liveIds.filter g.isAccess) g

end Graph

end SeaOfNodes
