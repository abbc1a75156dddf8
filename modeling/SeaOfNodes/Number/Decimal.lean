import SeaOfNodes.Number.Double

/-!
Decimal text of doubles: the fewest digits that read back as the same number, and of those the
nearest.
-/
namespace SeaOfNodes

/-- The fractions that read as one number: `value` and the ends of their interval, all over `den`,
and whether the ends belong to it. -/
structure ReadInterval where
  low : Nat
  value : Nat
  high : Nat
  den : Nat
  closed : Bool

namespace ReadInterval

/-- The interval of the double `m * 2 ^ e`. Below a power of two it is half as wide. -/
def ofParts (m : Nat) (e : Int) : ReadInterval :=
  let quarter := e - 2
  let num := pow2 quarter.toNat
  let below := if m = pow2 52 ∧ -1074 < e then 1 else 2
  ⟨(4 * m - below) * num, 4 * m * num, (4 * m + 2) * num, pow2 (-quarter).toNat, m % 2 == 0⟩

/-- The order of `c * 10 ^ u` and `num / den`. -/
def compareScaled (c : Nat) (u : Int) (num den : Nat) : Ordering :=
  compare (c * pow10 u.toNat * den) (num * pow10 (-u).toNat)

/-- Whether `c * 10 ^ u` reads as the number. -/
def admits (i : ReadInterval) (c : Nat) (u : Int) : Bool :=
  let low := compareScaled c u i.low i.den
  let high := compareScaled c u i.high i.den
  if i.closed then low != .lt && high != .gt else low == .gt && high == .lt

/-- The multiple of `10 ^ u` next to the value that reads as the number; the nearer of two, and
the larger of two equally near ones. -/
def onGrid? (i : ReadInterval) (u : Int) : Option Nat :=
  let c := i.value * pow10 (-u).toNat / (i.den * pow10 u.toNat)
  let nearUp := compareScaled (2 * c + 1) u (2 * i.value) i.den != .gt
  match i.admits c u, i.admits (c + 1) u with
  | true, true => some (if nearUp then c + 1 else c)
  | true, false => some c
  | false, true => some (c + 1)
  | false, false => none

/-- The first grid, from coarse to fine, with a multiple that reads as the number. -/
def search (i : ReadInterval) : Nat → Int → Nat × Int
  | 0, u => (i.value * pow10 (-u).toNat / (i.den * pow10 u.toNat), u)
  | n + 1, u =>
    match i.onGrid? u with
    | some c => (c, u)
    | none => search i n (u - 1)

end ReadInterval

/-- Number of zeros behind the point of a fraction below one. -/
def leadingZeros : Nat → Nat → Nat → Nat
  | 0, _, _ => 0
  | fuel + 1, num, den => if den ≤ num * 10 then 0 else leadingZeros fuel (num * 10) den + 1

/-- The `k` with `10 ^ (k - 1) ≤ num / den < 10 ^ k`, for a fraction that a double can have. -/
def decimalPlaces (num den : Nat) : Int :=
  if den ≤ num then (Nat.toDigits 10 (num / den)).length else -(leadingZeros 400 num den : Int)

/-- The fewest digits that read back as `m * 2 ^ e`, and the place of the point relative to the
first of them. -/
def shortestDigits (m : Nat) (e : Int) : List Char × Int :=
  let i := ReadInterval.ofParts m e
  let (c, u) := i.search 17 (decimalPlaces i.value i.den - 1)
  let digits := Nat.toDigits 10 c
  let stripped := (digits.reverse.dropWhile (· == '0')).reverse
  (stripped, digits.length + u)

/-- When a number is written with an exponent: if its first digit stands for a power of ten outside
the two bounds. -/
structure DecimalStyle where
  leastPower : Int
  greatestPower : Int

/-- Digits with the point behind the first `point` of them. -/
def positional (digits : List Char) (point : Int) : List Char :=
  if point ≤ 0 then '0' :: '.' :: (List.replicate (-point).toNat '0' ++ digits)
  else
    let whole := digits.take point.toNat
    let fraction := digits.drop point.toNat
    whole ++ List.replicate (point.toNat - digits.length) '0' ++
      '.' :: (if fraction.isEmpty then ['0'] else fraction)

/-- Digits with the point behind the first and a power of ten. -/
def exponential (digits : List Char) (power : Int) : List Char :=
  let mantissa := match digits with
    | [] => ['0']
    | [d] => [d]
    | d :: rest => d :: '.' :: rest
  mantissa ++ 'e' :: (toString power).toList

def DecimalStyle.write (style : DecimalStyle) (digits : List Char) (point : Int) : List Char :=
  if style.leastPower ≤ point - 1 ∧ point - 1 ≤ style.greatestPower then positional digits point
  else exponential digits (point - 1)

/-- Constants have an exponent below `10 ^ -4` and from `10 ^ 16` on. -/
def Double.style : DecimalStyle := ⟨-4, 15⟩

/-- The text of a constant. -/
def Double.display (d : Double) : String :=
  match d.view with
  | .nan => "NaN"
  | .infinite negative => if negative then "-inf" else "inf"
  | .finite negative m e =>
    let digits := if m = 0 then "0.0".toList
      else
        let (digits, point) := shortestDigits m e
        Double.style.write digits point
    String.ofList (if negative then '-' :: digits else digits)

end SeaOfNodes
