import SeaOfNodes.Number.Rounding

/-!
Double-precision numbers. A number is its bit pattern, so equality distinguishes the two zeros and
a not-a-number equals itself; `order?` compares values. The operations compute exactly and round
once.
-/
namespace SeaOfNodes

/-- The bits of a double: sign, eleven of exponent, 52 of fraction. -/
structure Double where
  bits : UInt64
  deriving DecidableEq, Repr

/-- What a double stands for; a finite one for `± m * 2 ^ e`. -/
inductive Double.View where
  | nan
  | infinite (negative : Bool)
  | finite (negative : Bool) (m : Nat) (e : Int)
  deriving DecidableEq, Repr

namespace Double

def view (d : Double) : View :=
  let b := d.bits.toNat
  let negative := decide (pow2 63 ≤ b)
  let field : Nat := b / pow2 52 % pow2 11
  let fraction := b % pow2 52
  if field = 2047 then
    if fraction = 0 then .infinite negative else .nan
  else if field = 0 then .finite negative fraction (-1074)
  else .finite negative (fraction + pow2 52) ((field : Int) - 1075)

def ofNatBits (b : Nat) : Double := ⟨UInt64.ofNat b⟩

def signBit (negative : Bool) : Nat := if negative then pow2 63 else 0

def infinity (negative : Bool) : Double := ofNatBits (signBit negative + 2047 * pow2 52)

def zero : Double := ⟨0⟩

/-- The quiet not-a-number without a sign. -/
def nan : Double := ofNatBits (2047 * pow2 52 + pow2 51)

/-- The result of an operation that has none. -/
def invalid : Double := ofNatBits (pow2 63 + 2047 * pow2 52 + pow2 51)

/-- The double `± m * 2 ^ e`, where `m` and `e` are a value of the format. -/
def ofParts (negative : Bool) (m : Nat) (e : Int) : Double :=
  let field := if m < pow2 52 then 0 else (e + 1075).toNat
  ofNatBits (signBit negative + field * pow2 52 + m % pow2 52)

/-- The double nearest to `± num / den`. -/
def ofRatio (negative : Bool) (num den : Nat) : Double :=
  match BinaryFormat.binary64.round num den with
  | none => infinity negative
  | some (m, e) => ofParts negative m e

/-- The double nearest to `± m * 2 ^ e`. -/
def ofScaled (negative : Bool) (m : Nat) (e : Int) : Double :=
  if 0 ≤ e then ofRatio negative (m * pow2 e.toNat) 1 else ofRatio negative m (pow2 (-e).toNat)

def ofInt (v : Int) : Double := ofRatio (v < 0) v.natAbs 1

def isNan (d : Double) : Bool := d.view == .nan

def isFinite (d : Double) : Bool :=
  match d.view with
  | .finite .. => true
  | _ => false

/-- A not-a-number in its quiet form. -/
def quieted (d : Double) : Double := ⟨d.bits ||| 0x8000000000000⟩

def neg (d : Double) : Double := ⟨d.bits ^^^ 0x8000000000000000⟩

/-- The integer `m * 2 ^ (e - base)`, for `base ≤ e`. -/
def aligned (base : Int) (m : Nat) (e : Int) : Nat := m * pow2 (e - base).toNat

def signed (negative : Bool) (n : Nat) : Int := if negative then -(n : Int) else n

def addFinite (s : Bool) (m : Nat) (e : Int) (t : Bool) (n : Nat) (f : Int) : Double :=
  let base := min e f
  let sum := signed s (aligned base m e) + signed t (aligned base n f)
  if sum = 0 then ofScaled (s && t) 0 base else ofScaled (sum < 0) sum.natAbs base

def add (a b : Double) : Double :=
  match a.view, b.view with
  | .nan, _ => a.quieted
  | _, .nan => b.quieted
  | .infinite s, .infinite t => if s = t then a else invalid
  | .infinite _, _ => a
  | _, .infinite _ => b
  | .finite s m e, .finite t n f => addFinite s m e t n f

/-- Subtraction adds the negated number, but a not-a-number keeps its sign. -/
def sub (a b : Double) : Double :=
  if a.isNan then a.quieted else if b.isNan then b.quieted else a.add b.neg

def mul (a b : Double) : Double :=
  match a.view, b.view with
  | .nan, _ => a.quieted
  | _, .nan => b.quieted
  | .infinite s, .infinite t => infinity (s != t)
  | .infinite s, .finite t n _ => if n = 0 then invalid else infinity (s != t)
  | .finite s m _, .infinite t => if m = 0 then invalid else infinity (s != t)
  | .finite s m e, .finite t n f => ofScaled (s != t) (m * n) (e + f)

/-- `± (m * 2 ^ e) / (n * 2 ^ f)` for a nonzero `n`. -/
def divFinite (negative : Bool) (m : Nat) (e : Int) (n : Nat) (f : Int) : Double :=
  let base := min e f
  ofRatio negative (aligned base m e) (aligned base n f)

def div (a b : Double) : Double :=
  match a.view, b.view with
  | .nan, _ => a.quieted
  | _, .nan => b.quieted
  | .infinite _, .infinite _ => invalid
  | .infinite s, .finite t _ _ => infinity (s != t)
  | .finite s _ _, .infinite t => ofScaled (s != t) 0 0
  | .finite s m e, .finite t n f =>
    if n = 0 then if m = 0 then invalid else infinity (s != t)
    else divFinite (s != t) m e n f

/-- The remainder of the division that truncates, with the sign of the dividend. -/
def rem (a b : Double) : Double :=
  match a.view, b.view with
  | .nan, _ => a.quieted
  | _, .nan => b.quieted
  | .infinite _, _ => invalid
  | .finite .., .infinite _ => a
  | .finite s m e, .finite _ n f =>
    if n = 0 then invalid else
      let base := min e f
      ofScaled s (aligned base m e % aligned base n f) base

/-- The order of two values, which a not-a-number has with none. -/
def order? (a b : Double) : Option Ordering :=
  match a.view, b.view with
  | .nan, _ => none
  | _, .nan => none
  | .infinite s, .infinite t => some (if s = t then .eq else if s then .lt else .gt)
  | .infinite s, .finite .. => some (if s then .lt else .gt)
  | .finite .., .infinite t => some (if t then .gt else .lt)
  | .finite s m e, .finite t n f =>
    let base := min e f
    some (compare (signed s (aligned base m e)) (signed t (aligned base n f)))

/-- The integer part of a finite number, kept in 128 bits by the nearest bound. -/
def truncate? (d : Double) : Option Int :=
  match d.view with
  | .finite negative m e =>
    let whole := if 0 ≤ e then m * pow2 e.toNat else m / pow2 (-e).toNat
    some (max (-(pow2 127 : Int)) (min ((pow2 127 : Int) - 1) (signed negative whole)))
  | _ => none

/-- The nearest number of single precision. A not-a-number keeps its sign and the upper 23 bits of
its fraction. -/
def toSingle (d : Double) : Double :=
  match d.view with
  | .nan => ⟨d.quieted.bits &&& 0xffffffffe0000000⟩
  | .infinite _ => d
  | .finite negative m e =>
    let rounded := if 0 ≤ e then BinaryFormat.binary32.round (m * pow2 e.toNat) 1
      else BinaryFormat.binary32.round m (pow2 (-e).toNat)
    match rounded with
    | none => infinity negative
    | some (m, e) => ofScaled negative m e

/-- The number written by the digits of `whole` and, behind the point, of `fraction`. -/
def ofDecimal (whole fraction : List Char) : Double :=
  let digits := (whole ++ fraction).foldl (fun n c => 10 * n + (c.toNat - '0'.toNat)) 0
  ofRatio false digits (pow10 fraction.length)

end Double

end SeaOfNodes
