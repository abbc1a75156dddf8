import SeaOfNodes.Graph.Basic
import SeaOfNodes.Ty.Layout

/-!
Offsets as steps on a graph compute them: a size or an offset that is too large is a fault.
-/
namespace SeaOfNodes

/-- The value, or the fault that there is none small enough. -/
def orTooLarge {α : Type} (value : Option α) : Except Fault α :=
  match value with
  | some a => .ok a
  | none => .error .tooLarge

def addOffset (a b : Nat) : Except Fault Nat := orTooLarge (bounded? (a + b))

theorem addOffset_eq_ok_iff {a b c : Nat} :
    addOffset a b = .ok c ↔ a + b = c ∧ a + b ≤ maxOffset := by
  rw [← bounded?_eq_some_iff]
  unfold addOffset orTooLarge
  split <;> simp_all

namespace Ty

/-- The offset of a member. The offsets of an array end where one would be too large. -/
def memberOffset (t : Ty) (index : Nat) : Except Fault Nat := do
  let offsets ← orTooLarge t.memberOffsets?
  if index < t.members.length then orTooLarge offsets[index]?
  else throw (.missingMember index)

end Ty

end SeaOfNodes
