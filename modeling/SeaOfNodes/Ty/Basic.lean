import SeaOfNodes.Number.Decimal
import SeaOfNodes.Ty.Level
import SeaOfNodes.Ty.Primitive

/-!
Types of nodes. A type is both the static type of a value and everything known about the value:
each scalar carries a `Level`, and an aggregate carries the types of its members. Errors are types
too, so that they flow through a graph like values.
-/
namespace SeaOfNodes

/-- An error in place of a value. The message tells what is wrong; the origin, once a graph has
given it one, tells apart two errors with one message. -/
structure Blame where
  message : String
  origin : Option Nat := none
  deriving Repr

/-- Two errors are alike when their messages are. -/
instance : BEq Blame := ⟨fun a b => a.message == b.message⟩

inductive Ty where
  | int (width : IntWidth) (level : Level Int)
  | float (width : FloatWidth) (level : Level Double)
  | bool (level : Level Bool)
  | rune (level : Level Char)
  | string (level : Level String)
  /-- The one known pointer is `nil`. -/
  | pointer (pointee : Ty) (level : Level Unit)
  | struct (name : String) (labels : List String) (members : List Ty)
  /-- The declared element, and the type of each element. -/
  | array (element : Ty) (members : List Ty)
  | tuple (members : List Ty)
  /-- A known function is known by its name. -/
  | function (params : List Ty) (result : Ty) (level : Level String)
  | void
  | control (live : Bool)
  | memory
  | error (blame : Blame)
  deriving Repr, Inhabited

namespace Ty

mutual

/-- Equality up to the origins of errors. -/
def beq : Ty → Ty → Bool
  | .int w l, .int v m => w == v && l == m
  | .float w l, .float v m => w == v && l == m
  | .bool l, .bool m => l == m
  | .rune l, .rune m => l == m
  | .string l, .string m => l == m
  | .pointer p l, .pointer q m => beq p q && l == m
  | .struct n ls ts, .struct m ks us => n == m && ls == ks && beqList ts us
  | .array e ts, .array f us => beq e f && beqList ts us
  | .tuple ts, .tuple us => beqList ts us
  | .function ps r l, .function qs s m => beqList ps qs && beq r s && l == m
  | .void, .void => true
  | .control a, .control b => a == b
  | .memory, .memory => true
  | .error a, .error b => a == b
  | _, _ => false

def beqList : List Ty → List Ty → Bool
  | [], [] => true
  | t :: ts, u :: us => beq t u && beqList ts us
  | _, _ => false

end

instance : BEq Ty := ⟨beq⟩

/-! ### Constructors -/

def fail (message : String) : Ty := .error ⟨message, none⟩

/-- The integer constant `v`, truncated to its width. -/
def intOf (w : IntWidth) (v : Int) : Ty := .int w (.const (w.wrap v))

/-- A pointer of which nothing is known. -/
def pointerTo (pointee : Ty) : Ty := .pointer pointee .bottom

def live : Ty := .control true

def dead : Ty := .control false

/-- `nil` before it was assigned to anything: it has no pointee yet. -/
def nil : Ty := .pointer .void (.const ())

/-- A primitive type of which nothing is known. -/
def ofPrimitive : Primitive → Ty
  | .int w => .int w .bottom
  | .float w => .float w .bottom
  | .bool => .bool .bottom
  | .string => .string .bottom
  | .rune => .rune .bottom

/-! ### Queries -/

def isError : Ty → Bool
  | .error _ => true
  | _ => false

def isDead : Ty → Bool
  | .control false => true
  | _ => false

def isFloat : Ty → Bool
  | .float .. => true
  | _ => false

def isAggregate : Ty → Bool
  | .struct .. | .array .. | .tuple _ => true
  | _ => false

def isStruct : Ty → Bool
  | .struct .. => true
  | _ => false

def isVoid : Ty → Bool
  | .void => true
  | _ => false

def isUntypedNil : Ty → Level Unit → Bool
  | .void, .const _ => true
  | _, _ => false

def bool? : Ty → Option Bool
  | .bool (.const b) => some b
  | _ => none

def int? : Ty → Option Int
  | .int _ (.const v) => some v
  | _ => none

def primitive? : Ty → Option Primitive
  | .int w _ => some (.int w)
  | .float w _ => some (.float w)
  | .bool _ => some .bool
  | .rune _ => some .rune
  | .string _ => some .string
  | _ => none

/-- The members of an aggregate in layout order; nothing else has any. -/
def members : Ty → List Ty
  | .struct _ _ ts | .array _ ts | .tuple ts => ts
  | _ => []

/-- The aggregate with other members. A field without a member is dropped. -/
def withMembers (t : Ty) (ts : List Ty) : Ty :=
  match t with
  | .struct n ls _ => .struct n (ls.take ts.length) (ts.take ls.length)
  | .array e _ => .array e ts
  | .tuple _ => .tuple ts
  | t => t

mutual

/-- Whether the value is completely known. -/
def isConstant : Ty → Bool
  | .int _ l => l.isConst
  | .float _ l => l.isConst
  | .bool l => l.isConst
  | .rune l => l.isConst
  | .string l => l.isConst
  | .pointer _ l => l.isConst
  | .function _ _ l => l.isConst
  | .struct _ _ ts | .array _ ts | .tuple ts => allConstant ts
  | .void | .control _ | .memory | .error _ => false

def allConstant : List Ty → Bool
  | [] => true
  | t :: ts => t.isConstant && allConstant ts

end

/-- Counts end at the largest 64-bit number. -/
def maxCount : Nat := pow2 64 - 1

mutual

/-- Number of scalars in a value, through nested aggregates. -/
def scalarCount : Ty → Nat
  | .struct _ _ ts | .tuple ts => scalarSum ts
  | .array e ts => min (e.scalarCount * ts.length) maxCount
  | _ => 1

def scalarSum : List Ty → Nat
  | [] => 0
  | t :: ts => min (t.scalarCount + scalarSum ts) maxCount

end

/-- The most scalars that a value may hold: aggregates are loaded, stored and cleared scalar by
scalar. -/
def maxScalars : Nat := pow2 16

/-- An array of `length` elements, unless it is too large. -/
def arrayOf? (element : Ty) (length : Nat) : Option Ty :=
  if maxScalars < element.scalarCount * length then none
  else some (.array element (List.replicate length element))

/-! ### The ends of the lattice -/

mutual

/-- The type with every level replaced. Pointees and signatures are kept as they are. -/
def withLevel (bottom : Bool) : Ty → Ty
  | .int w _ => .int w (if bottom then .bottom else .top)
  | .float w _ => .float w (if bottom then .bottom else .top)
  | .bool _ => .bool (if bottom then .bottom else .top)
  | .rune _ => .rune (if bottom then .bottom else .top)
  | .string _ => .string (if bottom then .bottom else .top)
  | .pointer p _ => .pointer p (if bottom then .bottom else .top)
  | .function ps r _ => .function ps r (if bottom then .bottom else .top)
  | .struct n ls ts => .struct n ls (withLevels bottom ts)
  | .array e ts => .array e (withLevels bottom ts)
  | .tuple ts => .tuple (withLevels bottom ts)
  | .control _ => .control bottom
  | .void => .void
  | .memory => .memory
  | .error e => .error e

def withLevels (bottom : Bool) : List Ty → List Ty
  | [] => []
  | t :: ts => t.withLevel bottom :: withLevels bottom ts

end

/-- The declared type: any value of it. -/
def bottom (t : Ty) : Ty := t.withLevel true

/-- No value of the declared type yet. -/
def top (t : Ty) : Ty := t.withLevel false

/-- Whether two values have the same declared type. -/
def sameShape (a b : Ty) : Bool := a.bottom == b.bottom

def sameSignature (ps : List Ty) (r : Ty) (qs : List Ty) (s : Ty) : Bool :=
  ps.length == qs.length && (ps.zip qs).all (fun p => p.1.sameShape p.2) && r.sameShape s

theorem withLevels_eq_map (bottom : Bool) (ts : List Ty) :
    withLevels bottom ts = ts.map (withLevel bottom) := by
  induction ts with
  | nil => rfl
  | cons t ts ih => simp [withLevels, ih]

end Ty

end SeaOfNodes
