/-!
White space in source text: the code points with the Unicode property `White_Space`.
-/
namespace SeaOfNodes

/-- The ranges of code points that separate tokens, both ends included. -/
def blankRanges : List (Nat × Nat) :=
  [(0x9, 0xd), (0x20, 0x20), (0x85, 0x85), (0xa0, 0xa0), (0x1680, 0x1680), (0x2000, 0x200a),
    (0x2028, 0x2029), (0x202f, 0x202f), (0x205f, 0x205f), (0x3000, 0x3000)]

def isBlank (c : Char) : Bool :=
  blankRanges.any fun r => r.1 ≤ c.toNat && c.toNat ≤ r.2

example : isBlank ' ' = true ∧ isBlank '/' = false ∧ isBlank '\x0b' = true := by decide

end SeaOfNodes
