import SeaOfNodes.Number.Power

/-!
Widths of numbers. An untyped width belongs to literals; such a number takes the width of whatever
it is used with.
-/
namespace SeaOfNodes

inductive IntWidth where
  | untyped | int | i8 | i16 | i32 | i64 | uint | u8 | u16 | u32 | u64
  deriving DecidableEq, Repr

/-- The representative of `v` modulo `2 ^ 128` with the least magnitude: integers of a literal are
kept in 128 bits. -/
def wrap128 (v : Int) : Int := Int.bmod v (pow2 128)

namespace IntWidth

def all : List IntWidth := [untyped, int, i8, i16, i32, i64, uint, u8, u16, u32, u64]

def name : IntWidth → String
  | .untyped => "untyped int"
  | .int => "int"
  | .i8 => "i8"
  | .i16 => "i16"
  | .i32 => "i32"
  | .i64 => "i64"
  | .uint => "uint"
  | .u8 => "u8"
  | .u16 => "u16"
  | .u32 => "u32"
  | .u64 => "u64"

/-- Number of bits, which an untyped number does not have. -/
def bits? : IntWidth → Option Nat
  | .untyped => none
  | .i8 | .u8 => some 8
  | .i16 | .u16 => some 16
  | .i32 | .u32 => some 32
  | .int | .i64 | .uint | .u64 => some 64

def isSigned : IntWidth → Bool
  | .uint | .u8 | .u16 | .u32 | .u64 => false
  | _ => true

/-- Truncates to this width, two's complement. -/
def wrap (w : IntWidth) (v : Int) : Int :=
  match w.bits? with
  | none => v
  | some n => if w.isSigned then Int.bmod v (pow2 n) else v % pow2 n

def fits (w : IntWidth) (v : Int) : Bool := w.wrap v == v

def unify? : IntWidth → IntWidth → Option IntWidth
  | .untyped, w => some w
  | w, .untyped => some w
  | a, b => if a = b then some a else none

end IntWidth

inductive FloatWidth where
  | untyped | float | f32 | f64
  deriving DecidableEq, Repr

namespace FloatWidth

def all : List FloatWidth := [untyped, float, f32, f64]

def name : FloatWidth → String
  | .untyped => "untyped float"
  | .float => "float"
  | .f32 => "f32"
  | .f64 => "f64"

def unify? : FloatWidth → FloatWidth → Option FloatWidth
  | .untyped, w => some w
  | w, .untyped => some w
  | a, b => if a = b then some a else none

end FloatWidth

end SeaOfNodes
