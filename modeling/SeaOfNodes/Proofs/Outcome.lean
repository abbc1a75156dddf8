import SeaOfNodes.Graph.Basic

/-!
Outcomes of steps that can have a fault: a step yields `Q` if it has a result that `Q` holds of,
or a fault that is among the expected ones.
-/
namespace SeaOfNodes

variable {α β : Type} {F F' : Fault → Prop} {Q Q' : α → Prop} {R : β → Prop} {xs : List α}

/-- A step has a result that `Q` holds of, or a fault that `F` holds of. -/
def Yields (F : Fault → Prop) (m : Except Fault α) (Q : α → Prop) : Prop :=
  match m with
  | .ok a => Q a
  | .error f => F f

def AnyFault : Fault → Prop := fun _ => True

namespace Yields

variable {a : α} {f : α → Except Fault β} {m : Except Fault α}

theorem ok (h : Q a) : Yields F (.ok a) Q := h

theorem pure (h : Q a) : Yields F (Pure.pure a : Except Fault α) Q := h

theorem of_eq (hm : m = .ok a) (h : Q a) : Yields F m Q := by
  rw [hm]
  exact h

theorem bind (hm : Yields F m Q) (hf : ∀ a, Q a → Yields F (f a) R) : Yields F (m >>= f) R := by
  cases m with
  | ok a => exact hf a hm
  | error e => exact hm

theorem bind_ok (hm : m = .ok a) (hf : Yields F (f a) R) : Yields F (m >>= f) R := by
  rw [hm]
  exact hf

theorem mono {m : Except Fault α} (hm : Yields F m Q) (hQ : ∀ a, Q a → Q' a)
    (hF : ∀ f, F f → F' f) : Yields F' m Q' := by
  cases m with
  | ok a => exact hQ a hm
  | error e => exact hF e hm

theorem imp (hm : Yields F m Q) (hQ : ∀ a, Q a → Q' a) : Yields F m Q' :=
  hm.mono hQ fun _ h => h

theorem exists_ok (hm : Yields (fun _ => False) m Q) : ∃ a, m = .ok a ∧ Q a := by
  cases m with
  | ok a => exact ⟨a, rfl, hm⟩
  | error e => exact hm.elim

theorem and_eq (hm : Yields F m Q) : Yields F m fun a => m = .ok a ∧ Q a := by
  cases m with
  | ok a => exact ⟨rfl, hm⟩
  | error e => exact hm

theorem result (hm : Yields F m Q) (h : m = .ok a) : Q a := by
  rw [h] at hm
  exact hm

theorem bind_any (hf : ∀ a, m = .ok a → Yields AnyFault (f a) R) : Yields AnyFault (m >>= f) R := by
  cases m with
  | ok a => exact hf a rfl
  | error e => exact trivial

theorem mapM (h : ∀ x ∈ xs, Yields F (f x) fun _ => True) : Yields F (xs.mapM f) fun _ => True := by
  induction xs with
  | nil => exact trivial
  | cons x xs ih =>
    rw [List.mapM_cons]
    refine (h x List.mem_cons_self).bind fun y _ => ?_
    exact (ih fun z hz => h z (List.mem_cons_of_mem _ hz)).bind fun ys _ => .pure trivial

theorem anyM {f : α → Except Fault Bool} {xs : List α}
    (h : ∀ x ∈ xs, Yields F (f x) fun _ => True) : Yields F (xs.anyM f) fun _ => True := by
  induction xs with
  | nil => exact trivial
  | cons x xs ih =>
    refine (h x List.mem_cons_self).bind fun y _ => ?_
    split
    · exact trivial
    · exact ih fun z hz => h z (List.mem_cons_of_mem _ hz)

end Yields

/-- Whether a step has a result that passes a test. -/
def passes {ε : Type} (test : α → Bool) : Except ε α → Bool
  | .ok a => test a
  | .error _ => false

theorem exists_ok_of_passes {ε : Type} {m : Except ε α} {test : α → Bool}
    (h : passes test m = true) : ∃ a, m = .ok a ∧ test a = true := by
  cases m with
  | ok a => exact ⟨a, rfl, h⟩
  | error e => contradiction

theorem filterM_eq_ok {test : α → Except Fault Bool} {p : α → Bool}
    (h : ∀ x ∈ xs, test x = .ok (p x)) : xs.filterM test = .ok (xs.filter p) := by
  have haux : ∀ (xs acc : List α), (∀ x ∈ xs, test x = .ok (p x)) →
      xs.filterAuxM test acc = .ok ((xs.filter p).reverse ++ acc) := by
    intro xs
    induction xs with
    | nil => exact fun acc _ => rfl
    | cons x xs ih =>
      intro acc h
      rw [List.filterAuxM, h x List.mem_cons_self]
      refine (ih _ fun y hy => h y (List.mem_cons_of_mem _ hy)).trans ?_
      cases hx : p x <;> simp [hx]
  rw [List.filterM, haux xs [] h]
  simp [Bind.bind, Except.bind, Pure.pure, Except.pure]

end SeaOfNodes
