import SeaOfNodes.Ty.Basic

/-!
Origins of errors. An error that enters a graph gets a number of its own, and keeps it wherever it
flows.
-/
namespace SeaOfNodes

/-- Gives an error without an origin the number `next`. -/
def Blame.stamp (next : Nat) (b : Blame) : Blame × Nat :=
  match b.origin with
  | some _ => (b, next)
  | none => ({ b with origin := some next }, next + 1)

namespace Ty

mutual

/-- Gives every error in a type that has no origin a number from `next` on. -/
def stamp (next : Nat) : Ty → Ty × Nat
  | .error b =>
    let (b, next) := b.stamp next
    (.error b, next)
  | .pointer p l =>
    let (p, next) := p.stamp next
    (.pointer p l, next)
  | .struct n ls ts =>
    let (ts, next) := stamps next ts
    (.struct n ls ts, next)
  | .array e ts =>
    let (e, next) := e.stamp next
    let (ts, next) := stamps next ts
    (.array e ts, next)
  | .tuple ts =>
    let (ts, next) := stamps next ts
    (.tuple ts, next)
  | .function ps r l =>
    let (ps, next) := stamps next ps
    let (r, next) := r.stamp next
    (.function ps r l, next)
  | t => (t, next)

def stamps (next : Nat) : List Ty → List Ty × Nat
  | [] => ([], next)
  | t :: ts =>
    let (t, next) := t.stamp next
    let (ts, next) := stamps next ts
    (t :: ts, next)

end

end Ty

end SeaOfNodes
