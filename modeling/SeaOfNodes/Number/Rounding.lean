import SeaOfNodes.Number.Power

/-!
Rounding of positive fractions to binary formats, to the nearest value and halves to the even one.
-/
namespace SeaOfNodes

/-- The integer nearest to `num / den`, the even one of two. -/
def roundDiv (num den : Nat) : Nat :=
  let q := num / den
  let r := num % den
  if den < 2 * r ∨ (den = 2 * r ∧ q % 2 = 1) then q + 1 else q

/-- The integer nearest to `num / den / 2 ^ e`. -/
def roundScaled (num den : Nat) (e : Int) : Nat :=
  if 0 ≤ e then roundDiv num (den * pow2 e.toNat) else roundDiv (num * pow2 (-e).toNat) den

/-- The integer `k` with `2 ^ k ≤ num / den < 2 ^ (k + 1)`. -/
def floorLog2 (num den : Nat) : Int :=
  let k : Int := num.log2 - den.log2
  let reached := if 0 ≤ k then decide (den * pow2 k.toNat ≤ num) else decide (den ≤ num * pow2 (-k).toNat)
  if reached then k else k - 1

/-- A binary format: the values `m * 2 ^ e` with `m < 2 ^ precision` and `e` between the two
exponents. -/
structure BinaryFormat where
  precision : Nat
  minExponent : Int
  maxExponent : Int

namespace BinaryFormat

def binary64 : BinaryFormat := ⟨53, -1074, 971⟩

def binary32 : BinaryFormat := ⟨24, -149, 104⟩

/-- The value of the format nearest to `num / den`, as `m` and `e`, or `none` if that is too large
for it. -/
def round (f : BinaryFormat) (num den : Nat) : Option (Nat × Int) :=
  if num = 0 then some (0, f.minExponent) else
    let e := max (floorLog2 num den - (f.precision - 1 : Nat)) f.minExponent
    let m := roundScaled num den e
    let (m, e) := if m = pow2 f.precision then (pow2 (f.precision - 1), e + 1) else (m, e)
    if f.maxExponent < e then none else some (m, e)

end BinaryFormat

end SeaOfNodes
