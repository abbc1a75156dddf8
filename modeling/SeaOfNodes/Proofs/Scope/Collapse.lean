import SeaOfNodes.Proofs.Scope.Basic
import SeaOfNodes.Scope.Loop

/-!
Phis at the heads of loops that are replaced by their only value. What stands for a phi can have been
replaced too, so that one has to follow the replacements.
-/
namespace SeaOfNodes

open SeaOfNodes.Graph

variable {b : Builder} {F : Fault → Prop} {replaced : List (NodeId × NodeId)}

namespace LoopPhis

theorem resolve_cases (replaced : List (NodeId × NodeId)) (fuel : Nat) (x : NodeId) :
    (∃ r, resolve replaced fuel x = .ok r) ∨ resolve replaced fuel x = .error .endlessChain := by
  induction fuel generalizing x with
  | zero => exact .inr rfl
  | succ fuel ih =>
    rw [resolve]
    split
    · exact ih _
    · exact .inl ⟨x, rfl⟩

end LoopPhis

/-- Every node that was replaced is paired with what it leads to. -/
def Resolved (replaced : List (NodeId × NodeId)) (fuel : Nat) (p q : NodeId × NodeId) : Prop :=
  q.1 = p.1 ∧ LoopPhis.resolve replaced fuel p.2 = .ok q.2

namespace LoopPhis

theorem resolveAll_does {l : List (NodeId × NodeId)} {fuel : Nat}
    (hF : ∀ p ∈ l, (∃ r, resolve replaced fuel p.2 = .ok r) ∨ F .endlessChain) :
    Does F b (l.mapM fun (old, new) => do
      return (old, ← resolve replaced fuel new) : BuildM (List (NodeId × NodeId)))
      fun out b' => b' = b ∧ List.Forall₂ (Resolved replaced fuel) l out := by
  induction l with
  | nil => exact .pure ⟨rfl, .nil⟩
  | cons p l ih =>
    obtain ⟨old, new⟩ := p
    obtain ⟨hp, hrest⟩ := List.forall_mem_cons.1 hF
    rw [List.mapM_cons]
    have hone : Does F b (do return (old, ← resolve replaced fuel new) : BuildM (NodeId × NodeId))
        fun q b' => b' = b ∧ Resolved replaced fuel (old, new) q := by
      refine Does.bind (Q := fun r b' => b' = b ∧ resolve replaced fuel new = .ok r) ?_ ?_
      · refine .lift ?_
        rcases resolve_cases replaced fuel new with ⟨r, hr⟩ | herror
        · rw [hr]
          exact ⟨rfl, rfl⟩
        · rcases hp with ⟨r, hr⟩ | hF
          · simp [hr] at herror
          · rw [herror]
            exact hF
      · rintro r b ⟨rfl, hr⟩
        exact .pure ⟨rfl, rfl, hr⟩
    refine hone.bind ?_
    rintro q b ⟨rfl, hq⟩
    refine (ih hrest).bind ?_
    rintro out b ⟨rfl, hout⟩
    exact .pure ⟨rfl, .cons hq hout⟩

end LoopPhis

end SeaOfNodes
