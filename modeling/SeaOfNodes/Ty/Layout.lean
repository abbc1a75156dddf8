import SeaOfNodes.Ty.Basic

/-!
Sizes and places of values in memory. Sizes and offsets are 32-bit numbers. A sum of sizes stops
at the largest one, and rounding up has no result if it would go past it.
-/
namespace SeaOfNodes

/-- The largest size and offset. -/
def maxOffset : Nat := pow2 32 - 1

/-- A size or offset that is small enough. -/
def bounded? (n : Nat) : Option Nat := if n ≤ maxOffset then some n else none

theorem bounded?_eq_some_iff {n m : Nat} : bounded? n = some m ↔ n = m ∧ n ≤ maxOffset := by
  unfold bounded?
  split <;> simp <;> omega

structure Layout where
  size : Nat
  align : Nat
  deriving DecidableEq, Repr

namespace Layout

/-- The least multiple of `align` from `n` on. -/
def roundUp? (n align : Nat) : Option Nat := bounded? ((n + align - 1) / align * align)

/-- Distance between two elements of an array. -/
def stride? (l : Layout) : Option Nat := roundUp? l.size (max l.align 1)

/-- The offsets of members that follow each other from `size` on, and the size and alignment
reached behind them. -/
def place? (size align : Nat) : List Layout → Option (List Nat × Nat × Nat)
  | [] => some ([], size, align)
  | l :: ls => do
    let offset ← roundUp? size (max l.align 1)
    let (offsets, size, align) ← place? (min (offset + l.size) maxOffset) (max align l.align) ls
    return (offset :: offsets, size, align)

/-- Members in order, each at the next offset that suits it. -/
def sequential? (ls : List Layout) : Option (List Nat × Layout) := do
  let (offsets, size, align) ← place? 0 1 ls
  return (offsets, ⟨← roundUp? size align, align⟩)

end Layout

namespace Ty

mutual

def layout? : Ty → Option Layout
  | .int w _ =>
    let bytes := w.bits?.getD 64 / 8
    some ⟨bytes, bytes⟩
  | .float .f32 _ => some ⟨4, 4⟩
  | .float _ _ => some ⟨8, 8⟩
  | .bool _ => some ⟨1, 1⟩
  | .rune _ => some ⟨4, 4⟩
  | .string _ => some ⟨16, 8⟩
  | .pointer .. | .function .. => some ⟨8, 8⟩
  | .struct _ _ ts | .tuple ts => do
    let (_, l) ← Layout.sequential? (← layouts? ts)
    return l
  | .array e ts => do
    let l ← e.layout?
    return ⟨min ((← l.stride?) * min ts.length maxOffset) maxOffset, l.align⟩
  | .void | .control _ | .memory | .error _ => some ⟨0, 1⟩

def layouts? : List Ty → Option (List Layout)
  | [] => some []
  | t :: ts => do
    let l ← t.layout?
    return l :: (← layouts? ts)

end

/-- Offsets of the members of an aggregate. Those of an array end where an offset would be too
large. -/
def memberOffsets? : Ty → Option (List Nat)
  | .array e ts => do
    let stride ← (← e.layout?).stride?
    return ((List.range ts.length).map (· * stride)).takeWhile (· ≤ maxOffset)
  | .struct _ _ ts | .tuple ts => do
    let (offsets, _) ← Layout.sequential? (← layouts? ts)
    return offsets
  | _ => some []

end Ty

end SeaOfNodes
