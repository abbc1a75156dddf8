import SeaOfNodes.Build.Value
import SeaOfNodes.Parse.Basic

/-!
What expressions denote. A value is a node; a place is part of memory or of a local that is held
as a value, and can be read, assigned to and taken apart.
-/
namespace SeaOfNodes

inductive Operand where
  | value (id : NodeId)
  /-- A value of a declared type at `base + offset`. -/
  | memory (base : NodeId) (offset : Nat) (ty : Ty)
  /-- A local that is held as a value, or the member of it at a path. -/
  | held (name : String) (path : List Nat) (ty : Ty)

/-- How a program names a member. -/
inductive MemberKey where
  | name (label : String)
  | index (place : Nat)

namespace Operand

/-- Selects members of a value, one inside the other. -/
def project (value : NodeId) : List Nat → BuildM NodeId
  | [] => return value
  | index :: path => do
    let member ← BuildM.make (.projection value index)
    project member path

/-- The value of a place at this point. -/
def read : Operand → ParseM NodeId
  | .value id => return id
  | .memory base offset ty => ParseM.build (.loadValue base offset ty)
  | .held name path _ => do
    match ((← ParseM.scope).lookup name).bind Binding.heldValue? with
    | some id => ParseM.build (project id path)
    | none => ParseM.report ("`" ++ name ++ "` is not a variable")

def type : Operand → ParseM Ty
  | .value id => ParseM.typeOf id
  | .memory _ _ ty | .held _ _ ty => return ty

def ofError (ty : Ty) : ParseM Operand := do
  match ty with
  | .error blame => return .value (← ParseM.report blame.message)
  | ty => return .value (← ParseM.report ("unexpected `" ++ ty.name ++ "`"))

/-! ### Members -/

def element (operand : Operand) (ty : Ty) (index : Nat) : ParseM Operand := do
  let member := ty.element index
  if member.isError then ofError member
  else
    match operand with
    | .memory base offset _ =>
      let offset ← ParseM.build do addOffset offset (← ty.memberOffset index)
      return .memory base offset member
    | .held name path _ => return .held name (path ++ [index]) member
    | .value id => return .value (← ParseM.make (.projection id index))

/-- A member of an operand that is no pointer. -/
def ownMember (operand : Operand) (ty : Ty) (key : MemberKey) : ParseM Operand := do
  match key with
  | .index place => operand.element ty place
  | .name label =>
    match ty.memberIndex? label with
    | some place => operand.element ty place
    | none => ofError (ty.member label)

/-- A member of an operand, or of the aggregate that it points to. -/
def member (operand : Operand) (key : MemberKey) : ParseM Operand := do
  match ← operand.type with
  | .error _ => return .value (← operand.read)
  | .pointer pointee level =>
    if !Ty.isUntypedNil pointee level && pointee.isAggregate then
      let base ← operand.read
      ownMember (.memory base 0 pointee) pointee key
    else operand.ownMember (.pointer pointee level) key
  | ty => operand.ownMember ty key

/-- The element of an operand at an index, which has to be a constant. -/
def index (operand : Operand) (at_ : NodeId) : ParseM Operand := do
  let ty ← operand.type
  if ty.isError then return .value (← operand.read)
  let indexTy ← ParseM.typeOf at_
  if indexTy.isError then return .value at_
  let element := ty.index indexTy
  match indexTy.int?.bind Ty.placeOf? with
  | some place => if element.isError then ofError element else operand.element ty place
  | none => ofError element

/-! ### Pointers -/

def dereference (operand : Operand) : ParseM Operand := do
  let base ← operand.read
  match ← ParseM.typeOf base with
  | .pointer pointee level =>
    if Ty.isUntypedNil pointee level then
      return .value (← ParseM.report "cannot dereference `nil`")
    else return .memory base 0 pointee
  | .error _ => return .value base
  | ty => return .value (← ParseM.report ("cannot dereference a value of type `" ++ ty.name ++ "`"))

/-- The address of a place. A value gets a stack slot first. -/
def address (operand : Operand) : ParseM NodeId := do
  match operand with
  | .memory base offset ty => ParseM.make (.addressOf base offset ty)
  | .held name _ _ =>
    modify fun p => { p with refused := name :: p.refused }
    ParseM.report ("cannot take the address of `" ++ name ++ "` held as a value")
  | .value id => if (← ParseM.typeOf id).isError then return id else ParseM.build (.spill id)

/-! ### Calls -/

/-- Converts arguments to the types of their parameters, each at its own span. -/
def coerceArguments : List Ty → List (NodeId × Span) → ParseM (List NodeId)
  | param :: params, (argument, span) :: arguments => do
    ParseM.setSpan span
    let argument ← ParseM.build (.coerce argument param)
    let arguments ← coerceArguments params arguments
    return argument :: arguments
  | _, _ => return []

/-- A call, whose number of arguments has to be right. -/
def call (callee : Operand) (arguments : List (NodeId × Span)) (span : Span) : ParseM NodeId := do
  let callee ← callee.read
  let arguments ← match ← ParseM.typeOf callee with
    | .function params _ level =>
      if params.length ≠ arguments.length then
        let name := level.const?.getD "function value"
        ParseM.fail (.wrongArity name params.length arguments.length) span
      else coerceArguments params arguments
    | _ => pure (arguments.map Prod.fst)
  ParseM.setSpan span
  ParseM.make (.call callee arguments)

/-! ### Assignment -/

mutual

/-- An aggregate with another value for the member at a path. -/
def withMember (aggregate : NodeId) (ty : Ty) (path : List Nat) (value : NodeId) :
    BuildM NodeId :=
  match path, ty with
  | [], _ => return value
  | index :: path, .struct name labels members => do
    let ids ← withMembers aggregate 0 members index path value
    BuildM.make (.build (.struct name labels members) ids)
  | index :: path, .array element members => do
    let ids ← withMembers aggregate 0 members index path value
    BuildM.make (.build (.array element members) ids)
  | index :: path, .tuple members => do
    let ids ← withMembers aggregate 0 members index path value
    BuildM.make (.build (.tuple members) ids)
  | _ :: _, ty => BuildM.make (.build ty [])

/-- The members from `position` on, with another value at `index` and the path behind it. -/
def withMembers (aggregate : NodeId) (position : Nat) (members : List Ty) (index : Nat)
    (path : List Nat) (value : NodeId) : BuildM (List NodeId) :=
  match members with
  | [] => return []
  | ty :: members => do
    let member ← BuildM.make (.projection aggregate position)
    let member ← if position = index then withMember member ty path value else pure member
    let rest ← withMembers aggregate (position + 1) members index path value
    return member :: rest

end

/-- Gives a place another value. -/
def assign (target : Operand) (value : NodeId) : ParseM Unit := do
  match target with
  | .value id =>
    if !(← ParseM.typeOf id).isError && !(← ParseM.typeOf value).isError then
      let _ ← ParseM.report "cannot assign to this expression"
  | .memory base offset ty =>
    let value ← ParseM.build (.coerce value ty)
    ParseM.build (.storeValue base offset value ty)
  | .held name path ty =>
    let value ← ParseM.build (.coerce value ty)
    let scope ← ParseM.scope
    match scope.lookup name with
    | some (.held current declared) =>
      let updated ← ParseM.build (withMember current declared path value)
      ParseM.setScope ((scope.rebind? name (.held updated declared)).getD scope)
    | _ => return

end Operand

end SeaOfNodes
