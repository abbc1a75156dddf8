import SeaOfNodes.Graph.Basic

/-!
Lexical scopes. A scope is a stack of frames, and a name means what the innermost frame that has
it says. Assigning to a variable that is held as a value changes its binding in the frame that
declared it.
-/
namespace SeaOfNodes

/-- What a name stands for. -/
inductive Binding where
  | type (ty : Ty)
  /-- A value that never changes: a constant or a function. -/
  | value (id : NodeId)
  /-- A variable that is held as a value, with its declared type. -/
  | held (id : NodeId) (ty : Ty)
  /-- A variable in the stack slot at an address, with its declared type. -/
  | slot (address : NodeId) (ty : Ty)
  deriving Repr

namespace Binding

def heldValue? : Binding → Option NodeId
  | .held id _ => some id
  | _ => none

def withValue (id : NodeId) : Binding → Binding
  | .held _ ty => .held id ty
  | binding => binding

end Binding

/-- The names of one block, each once, in the order of their declarations. -/
abbrev Frame := List (String × Binding)

namespace Frame

def get? (frame : Frame) (name : String) : Option Binding := frame.lookup name

def contains (frame : Frame) (name : String) : Bool := frame.any fun entry => entry.1 == name

/-- Binds a name, in its place if the frame has it and behind the others if not. -/
def insert (name : String) (binding : Binding) : Frame → Frame
  | [] => [(name, binding)]
  | entry :: frame =>
    if entry.1 = name then (name, binding) :: frame else entry :: insert name binding frame

end Frame

/-- The frames of a scope, the outermost first. -/
structure Scope where
  frames : List Frame
  deriving Repr

namespace Scope

/-- A scope with one frame that is empty. -/
def initial : Scope := ⟨[[]]⟩

instance : Inhabited Scope := ⟨initial⟩

def depth (s : Scope) : Nat := s.frames.length

def push (s : Scope) : Scope := ⟨s.frames ++ [[]]⟩

def pop (s : Scope) : Scope := ⟨s.frames.dropLast⟩

/-- Drops the frames deeper than `depth`. -/
def truncate (s : Scope) (depth : Nat) : Scope := ⟨s.frames.take depth⟩

/-- The innermost binding of a name. -/
def lookup (s : Scope) (name : String) : Option Binding :=
  s.frames.reverse.findSome? fun frame => frame.get? name

/-- Binds a name in a frame given by its depth, if there is such a frame. -/
def set (s : Scope) (depth : Nat) (name : String) (binding : Binding) : Scope :=
  ⟨s.frames.modify depth fun frame => frame.insert name binding⟩

def get? (s : Scope) (depth : Nat) (name : String) : Option Binding :=
  s.frames[depth]?.bind fun frame => frame.get? name

/-- Adds a name to the innermost frame, unless that has it. -/
def declare? (s : Scope) (name : String) (binding : Binding) : Option Scope :=
  match s.frames.getLast? with
  | none => none
  | some frame =>
    if frame.contains name then none else some (s.set (s.depth - 1) name binding)

def depthOf? (s : Scope) (name : String) : Option Nat :=
  (s.frames.zipIdx.reverse.find? fun frame => frame.1.contains name).map Prod.snd

/-- Changes the innermost binding of a name. -/
def rebind? (s : Scope) (name : String) (binding : Binding) : Option Scope :=
  (s.depthOf? name).map fun depth => s.set depth name binding

/-- All bindings with the depths of their frames, the outermost frame first. -/
def entries (s : Scope) : List (Nat × String × Binding) :=
  s.frames.zipIdx.flatMap fun (frame, depth) => frame.map fun (name, binding) => (depth, name, binding)

/-- The names that an earlier state of the scope had, with their present bindings. -/
def restrictTo (s earlier : Scope) : Scope :=
  ⟨earlier.frames.zipWith (fun old frame => frame.filter fun entry => old.contains entry.1) s.frames⟩

/-- Takes over the bindings of `other`, each in the frame it comes from. -/
def writeBack (s other : Scope) : Scope :=
  other.entries.foldl (fun s (depth, name, binding) => s.set depth name binding) s

/-- Lets every variable with the value `old` have the value `new`. -/
def substitute (s : Scope) (old new : NodeId) : Scope :=
  let turn (binding : Binding) : Binding :=
    if binding.heldValue? = some old then binding.withValue new else binding
  ⟨s.frames.map fun frame => frame.map fun (name, binding) => (name, turn binding)⟩

end Scope

end SeaOfNodes
