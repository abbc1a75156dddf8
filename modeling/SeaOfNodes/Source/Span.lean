/-!
Spans of source text, measured in bytes of its UTF-8 encoding.
-/
namespace SeaOfNodes

/-- The bytes from `start` up to, but not including, `stop`. -/
structure Span where
  start : Nat
  stop : Nat
  deriving DecidableEq, Repr, Inhabited

namespace Span

/-- The smallest span that covers both. -/
def cover (a b : Span) : Span := ⟨min a.start b.start, max a.stop b.stop⟩

end Span

end SeaOfNodes
