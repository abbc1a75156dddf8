import SeaOfNodes.Scope.Join

/-!
Heads of loops. The values that come back from the end of the body are not known when the head is
built, so every variable and the state of memory get a phi there, which is completed when the body
is done. A phi that turns out to have a single value is replaced by it.
-/
namespace SeaOfNodes

/-- A variable at the head of a loop: its frame, its name and its phi. -/
structure LoopLocal where
  depth : Nat
  name : String
  phi : NodeId

structure LoopPhis where
  header : NodeId
  locals : List LoopLocal
  memory : NodeId

namespace LoopPhis

/-- Gives every variable in `entries` a phi. -/
def openEntries (header : NodeId) :
    List (Nat × String × Binding) → Scope → BuildM (List LoopLocal × Scope)
  | [], scope => return ([], scope)
  | (depth, name, .held id ty) :: entries, scope => do
    let phi ← BuildM.make (.phi header [id] (.loop ty))
    let (locals, scope) ← openEntries header entries (scope.set depth name (.held phi ty))
    return (⟨depth, name, phi⟩ :: locals, scope)
  | _ :: entries, scope => openEntries header entries scope

/-- Gives every variable and memory a phi at `header`, and moves the cursor there. -/
def enter (scope : Scope) (header : NodeId) : BuildM (LoopPhis × Scope) := do
  let (locals, scope) ← openEntries header scope.entries scope
  let c ← BuildM.cursor
  let memory ← BuildM.make (.phi header [c.memory] (.loop .memory))
  BuildM.setCursor ⟨header, memory⟩
  return ({ header, locals, memory }, scope)

/-- Makes a loop that nothing leaves a root, since no node behind it depends on it. -/
def keepAlive (phis : LoopPhis) : BuildM Unit := do
  if (← BuildM.typeOf phis.header).isDead then return
  BuildM.markRoot phis.header
  BuildM.markRoot phis.memory

/-- Adds the values that variables have at the end of a path back to the head. -/
def appendValues (scope : Scope) : List LoopLocal → BuildM Unit
  | [] => return ()
  | v :: locals => do
    let value := ((scope.get? v.depth v.name).bind Binding.heldValue?).getD v.phi
    BuildM.edit fun g => g.appendInput v.phi value
    appendValues scope locals

/-- Adds a path back to the head, if it is taken. -/
def appendEdge (phis : LoopPhis) (arm : Arm) : BuildM Unit := do
  if ← BuildM.look fun g => g.isDeadControl arm.cursor.control then return
  BuildM.edit fun g => g.appendInput phis.header arm.cursor.control
  appendValues arm.scope phis.locals
  BuildM.edit fun g => g.appendInput phis.memory arm.cursor.memory

def appendEdges (phis : LoopPhis) : List Arm → BuildM Unit
  | [] => return ()
  | arm :: arms => do
    phis.appendEdge arm
    phis.appendEdges arms

/-- The one value that a phi has besides itself, if it has one. -/
def singleCase? (phi : NodeId) : BuildM (Option NodeId) := do
  match (← BuildM.look fun g => g.node phi).inputs with
  | [] => throw (.bareHead phi)
  | _ :: cases => return BuildM.allSame (cases.filter (· != phi))

/-- Replaces the phis that have one value, and gives each with its value. -/
def collapse : List NodeId → BuildM (List (NodeId × NodeId))
  | [] => return []
  | phi :: rest => do
    match ← singleCase? phi with
    | some value =>
      BuildM.edit fun g => g.replace phi value
      return (phi, value) :: (← collapse rest)
    | none => collapse rest

/-- What a value is after all replacements; it follows at most `fuel` of them. -/
def resolve (replaced : List (NodeId × NodeId)) : Nat → NodeId → Except Fault NodeId
  | 0, _ => .error .endlessChain
  | fuel + 1, id =>
    match replaced.lookup id with
    | some next => resolve replaced fuel next
    | none => .ok id

/-- Completes the phis with the paths back to the head. Gives the phis that were replaced, with
what now stands for them. -/
def close (phis : LoopPhis) (backEdges : List Arm) : BuildM (List (NodeId × NodeId)) := do
  phis.appendEdges backEdges
  let replaced ← collapse (phis.locals.map LoopLocal.phi ++ [phis.memory])
  replaced.mapM fun (old, new) => do
    return (old, ← resolve replaced (replaced.length + 1) new)

end LoopPhis

end SeaOfNodes
