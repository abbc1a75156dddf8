import SeaOfNodes.Build.Request
import SeaOfNodes.Graph.Offset

/-!
Values of any type in memory: aggregates are loaded, stored and converted member by member.
-/
namespace SeaOfNodes.BuildM

/-- The base and offset of an address, past a pointer to a member. -/
def resolveAddress (base : NodeId) (offset : Nat) : BuildM (NodeId × Nat) := do
  match ← look fun g => g.op base with
  | .addressOf inner => return (← look fun g => g.input base 0, ← addOffset offset inner)
  | _ => return (base, offset)

/-- Reads an aggregate whose members `members` reads from a base, an offset and their own
offsets. -/
def loadAggregate (base : NodeId) (offset : Nat) (ty : Ty)
    (members : NodeId → Nat → List Nat → BuildM (List NodeId)) : BuildM NodeId := do
  let (base, offset) ← resolveAddress base offset
  let ids ← members base offset (← orTooLarge ty.memberOffsets?)
  make (.build ty.bottom ids)

mutual

/-- Reads a value of a declared type at `base + offset`. -/
def loadValue (base : NodeId) (offset : Nat) : Ty → BuildM NodeId
  | .struct n ls ts =>
    loadAggregate base offset (.struct n ls ts) fun b o offsets => loadMembers b o ts offsets
  | .array e ts =>
    loadAggregate base offset (.array e ts) fun b o offsets => loadMembers b o ts offsets
  | .tuple ts =>
    loadAggregate base offset (.tuple ts) fun b o offsets => loadMembers b o ts offsets
  | ty => do
    let (base, offset) ← resolveAddress base offset
    make (.load base offset ty)

def loadMembers (base : NodeId) (offset : Nat) : List Ty → List Nat → BuildM (List NodeId)
  | t :: ts, o :: os => do
    let member ← loadValue base (← addOffset offset o) t
    let members ← loadMembers base offset ts os
    return member :: members
  | _, _ => return []

end

def storeScalar (base : NodeId) (offset : Nat) (value : NodeId) : BuildM Unit := do
  let _ ← make (.store base offset value)

/-- Writes an aggregate whose members `members` writes to a base, an offset and their own offsets.
An error is stored as a whole. -/
def storeAggregate (base : NodeId) (offset : Nat) (ty : Ty) (value : NodeId)
    (members : NodeId → Nat → List Nat → BuildM Unit) : BuildM Unit := do
  let (base, offset) ← resolveAddress base offset
  if (← typeOf value).isError then storeScalar base offset value
  else members base offset (← orTooLarge ty.memberOffsets?)

mutual

/-- Writes a value of a declared type to `base + offset`. -/
def storeValue (base : NodeId) (offset : Nat) (value : NodeId) : Ty → BuildM Unit
  | .struct n ls ts =>
    storeAggregate base offset (.struct n ls ts) value fun b o offsets =>
      storeMembers b o value 0 ts offsets
  | .array e ts =>
    storeAggregate base offset (.array e ts) value fun b o offsets =>
      storeMembers b o value 0 ts offsets
  | .tuple ts =>
    storeAggregate base offset (.tuple ts) value fun b o offsets =>
      storeMembers b o value 0 ts offsets
  | _ => do
    let (base, offset) ← resolveAddress base offset
    storeScalar base offset value

def storeMembers (base : NodeId) (offset : Nat) (value : NodeId) (index : Nat) :
    List Ty → List Nat → BuildM Unit
  | t :: ts, o :: os => do
    let member ← make (.projection value index)
    storeValue base (← addOffset offset o) member t
    storeMembers base offset value (index + 1) ts os
  | _, _ => return ()

end

/-- Converts an aggregate whose members `members` converts. A value that fits is kept, and a shape
that does not fit is one error. -/
def coerceAggregate (value : NodeId) (target : Ty) (members : BuildM (List NodeId)) :
    BuildM NodeId := do
  let ty ← typeOf value
  if ty.isError then make (.coerce value target)
  else
    let checked := ty.assignTo target
    if checked == ty then return value
    else if checked.isError then make (.coerce value target)
    else
      let ids ← members
      make (.build target.bottom ids)

mutual

def coerce (value : NodeId) : Ty → BuildM NodeId
  | .struct n ls ts => coerceAggregate value (.struct n ls ts) (coerceMembers value 0 ts)
  | .array e ts => coerceAggregate value (.array e ts) (coerceMembers value 0 ts)
  | .tuple ts => coerceAggregate value (.tuple ts) (coerceMembers value 0 ts)
  | target => make (.coerce value target)

def coerceMembers (value : NodeId) (index : Nat) : List Ty → BuildM (List NodeId)
  | [] => return []
  | t :: ts => do
    let member ← make (.projection value index)
    let member ← coerce member t
    let members ← coerceMembers value (index + 1) ts
    return member :: members

end

/-- Puts a value into a new stack slot of a declared type, and gives the slot's address. -/
def spillAs (value : NodeId) (ty : Ty) : BuildM NodeId := do
  let address ← make (.alloca ty)
  storeValue address 0 value ty
  return address

def spill (value : NodeId) : BuildM NodeId := do
  spillAs value (← typeOf value).concrete.bottom

end SeaOfNodes.BuildM
