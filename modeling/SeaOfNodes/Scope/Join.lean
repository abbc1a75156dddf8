import SeaOfNodes.Build.Request
import SeaOfNodes.Scope.Basic

/-!
Joins: what holds where several paths meet. Paths that are never taken are left out. A single path
goes on as it is. Where two or more meet there is a region, and each variable whose value differs
between them, and the state of memory, becomes a phi.
-/
namespace SeaOfNodes

/-- The state at the end of one path to a join. -/
structure Arm where
  scope : Scope
  cursor : Cursor

structure Join where
  scope : Scope
  cursor : Cursor
  /-- The region of the join, if two or more paths meet. -/
  region : Option NodeId
  /-- The positions of the arms that are taken. -/
  live : List Nat

namespace BuildM

/-- The arms that are taken, with their positions from `index` on. -/
def liveArms (index : Nat) : List Arm → BuildM (List (Nat × Arm))
  | [] => return []
  | arm :: arms => do
    let dead ← look fun g => g.isDeadControl arm.cursor.control
    let rest ← liveArms (index + 1) arms
    return if dead then rest else (index, arm) :: rest

/-- The values of a variable in all arms; an arm that does not have it leaves it as it was. -/
def casesOf (arms : List Arm) (depth : Nat) (name : String) (before : NodeId) : List NodeId :=
  arms.map fun arm => ((arm.scope.get? depth name).bind Binding.heldValue?).getD before

/-- Merges the variables in `entries` one after the other. -/
def mergeEntries (region : NodeId) (arms : List Arm) :
    List (Nat × String × Binding) → Scope → BuildM Scope
  | [], scope => return scope
  | (depth, name, binding) :: entries, scope => do
    match binding.heldValue? with
    | none => mergeEntries region arms entries scope
    | some before =>
      let cases := casesOf arms depth name before
      if cases.all (· == before) then mergeEntries region arms entries scope
      else
        let merged ← make (.phi region cases .value)
        mergeEntries region arms entries (scope.set depth name (binding.withValue merged))

/-- Joins two or more arms in a new region. -/
def mergeLive (parent : Scope) (live : List (Nat × Arm)) : BuildM Join := do
  let arms := live.map Prod.snd
  let region ← make (.region (arms.map fun arm => arm.cursor.control))
  let scope ← mergeEntries region arms parent.entries parent
  let memory ← make (.phi region (arms.map fun arm => arm.cursor.memory) .memory)
  return { scope, cursor := ⟨region, memory⟩, region := some region, live := live.map Prod.fst }

/-- Joins arms that all began in `parent`. Names that are not in `parent` are dropped. -/
def merge (parent : Scope) (arms : List Arm) : BuildM Join := do
  let arms := arms.map fun arm => { arm with scope := arm.scope.truncate parent.depth }
  match ← liveArms 0 arms with
  | [] =>
    let c ← cursor
    let memory := (arms.head?.map fun arm => arm.cursor.memory).getD c.memory
    let control ← editWith Graph.deadControl
    return { scope := parent, cursor := ⟨control, memory⟩, region := none, live := [] }
  | [(index, arm)] =>
    return { scope := arm.scope, cursor := arm.cursor, region := none, live := [index] }
  | live => mergeLive parent live

end BuildM

namespace Join

def caseOf (values : List NodeId) (arm : Nat) : BuildM NodeId :=
  match values[arm]? with
  | some value => return value
  | none => throw (.missingCase arm)

/-- Merges one value an arm in the way of a variable. -/
def mergeValues (join : Join) (values : List NodeId) : BuildM NodeId := do
  match join.region, join.live with
  | some region, live =>
    let cases ← live.mapM (caseOf values)
    BuildM.make (.phi region cases .value)
  | none, [arm] => caseOf values arm
  | none, _ =>
    match values with
    | value :: _ => return value
    | [] => BuildM.constant .void

end Join

end SeaOfNodes
