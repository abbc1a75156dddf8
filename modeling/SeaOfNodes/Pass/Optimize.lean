import SeaOfNodes.Pass.Fold
import SeaOfNodes.Pass.Reorder

/-!
Optimization of a whole graph: memory is reordered and nodes are simplified in turn until neither
finds anything or the limit on the rounds is reached, and then dead code is removed.
-/
namespace SeaOfNodes

structure OptimizeOptions where
  enabled : Bool := true
  reorder : Bool := true
  simplify : Bool := true
  maxRounds : Nat := 8
  deriving DecidableEq, Repr

structure OptimizeStats where
  rounds : Nat := 0
  moved : Nat := 0
  simplified : Nat := 0
  removed : Nat := 0
  deriving DecidableEq, Repr

namespace Graph

/-- At most `limit` rounds of reordering and simplifying. -/
def optimizeRounds (options : OptimizeOptions) :
    Nat → OptimizeStats → Graph → Except Fault (OptimizeStats × Graph)
  | 0, stats, g => .ok (stats, g)
  | limit + 1, stats, g => do
    let (moved, g) ← if options.reorder then g.reorderMemory else pure (0, g)
    let (simplified, g) ← if options.simplify then g.simplifyAll else pure (0, g)
    let stats := { stats with
      rounds := stats.rounds + 1
      moved := stats.moved + moved
      simplified := stats.simplified + simplified }
    if moved = 0 ∧ simplified = 0 then return (stats, g)
    else optimizeRounds options limit stats g

def optimize (g : Graph) (options : OptimizeOptions) : Except Fault (OptimizeStats × Graph) := do
  if !options.enabled then return ({}, g)
  let (stats, g) ← optimizeRounds options options.maxRounds {} g
  let (removed, g) := g.eliminateDeadCode
  return ({ stats with removed := removed }, g)

end Graph

end SeaOfNodes
