import SeaOfNodes.Build.Request
import SeaOfNodes.Proofs.Build.Basic

/-!
Parts of requests for nodes: effects at the end of the chain of memory, and paths that are taken.
-/
namespace SeaOfNodes

open SeaOfNodes.Graph

variable {g : Graph} {id x : NodeId} {b : Builder} {F : Fault → Prop} {ty : Ty}

namespace Ty

theorem isDead_stamp (n : Nat) (t : Ty) : (t.stamp n).1.isDead = t.isDead := by
  cases t <;> simp [stamp, isDead]

end Ty

theorem inferBuild_eq {shape : Ty} {ts : List Ty} (hfirst : Ty.firstError? ts = none)
    (hlength : ts.length = shape.members.length) : inferBuild shape ts = shape.withMembers ts := by
  unfold inferBuild
  rw [hfirst]
  exact if_pos hlength

theorem inferBuild_of_not_error {shape : Ty} {ts : List Ty}
    (h : (inferBuild shape ts).isError = false) :
    Ty.firstError? ts = none ∧ ts.length = shape.members.length ∧
      inferBuild shape ts = shape.withMembers ts := by
  unfold inferBuild at h
  cases hfirst : Ty.firstError? ts with
  | some blame =>
    rw [hfirst] at h
    contradiction
  | none =>
    rw [hfirst] at h
    by_cases hlength : ts.length = shape.members.length
    · exact ⟨rfl, hlength, inferBuild_eq hfirst hlength⟩
    · rw [if_neg hlength] at h
      contradiction

namespace BuildM

theorem threadMemory_ok {Q : Unit → Builder → Prop} {target : Option NodeId} {tag : MemoryTag}
    (h : b.graph.attachMemory id ⟨b.cursor.memory, target, tag⟩ = .ok g)
    (hQ : Q () { b with
      graph := g, cursor := { b.cursor with memory := id }
      effects := (id, b.cursor.control) :: b.effects }) : Does F b (threadMemory id target tag) Q := by
  refine Does.bind (Q := fun k b' => k = b.cursor ∧ b' = b) ⟨rfl, rfl⟩ ?_
  rintro _ b ⟨rfl, rfl⟩
  refine Does.bind (.edit h (Q := fun _ b' => b' = { b with graph := g }) rfl) ?_
  rintro _ _ rfl
  exact .of_modify hQ

theorem look_bind {α β : Type} {f : Graph → Except Fault α} {k : α → BuildM β} {a : α}
    {Q : β → Builder → Prop} (h : f b.graph = .ok a) (hk : Does F b (k a) Q) :
    Does F b (look f >>= k) Q := by
  refine .bind (.look_ok (Q := fun a' b' => a' = a ∧ b' = b) h ⟨rfl, rfl⟩) ?_
  rintro a' b' ⟨rfl, rfl⟩
  exact hk

theorem make_emits {r : Request} {Q : NodeId → Builder → Prop} (hinfer : r.infer b.graph = .ok ty)
    (hty : ty.isError = false) (h : Does F b (emit r ty) Q) : Does F b (make r) Q := by
  refine look_bind hinfer ?_
  split
  · contradiction
  · exact h

theorem allSame_eq_some {xs : List NodeId} (h : allSame xs = some x) :
    ∃ rest, xs = x :: rest ∧ ∀ y ∈ rest, y = x := by
  cases xs with
  | nil => contradiction
  | cons y ys =>
    rw [allSame] at h
    split at h
    · rename_i hall
      cases h
      exact ⟨ys, rfl, by simpa using hall⟩
    · contradiction

theorem isDeadControl_yields (h : g.Has x) :
    Yields F (g.isDeadControl x) fun dead => g.At x fun _ ty => ty.isDead = dead := by
  obtain ⟨node, hn⟩ := h
  refine Yields.bind_ok (ty_of_get? hn) ?_
  exact ⟨node, hn, rfl⟩

theorem isTaken_does (h : b.graph.Has x) :
    Does F b (look fun g => g.isDeadControl x) fun dead b' =>
      b' = b ∧ (dead = false ↔ Taken b.graph x) := by
  refine .look ((isDeadControl_yields h).imp fun dead hdead => ⟨rfl, ?_⟩)
  obtain ⟨node, hn, hty⟩ := hdead
  simp [Taken, At, hn, hty]

end BuildM

end SeaOfNodes
