import SeaOfNodes.Build.Basic
import SeaOfNodes.Graph.Offset
import SeaOfNodes.Proofs.Graph.Step

/-!
The builder. `Does` says what a step of it leaves behind and which faults it can have.
-/
namespace SeaOfNodes

/-! ### Outcomes of steps -/

/-- A step of the builder has a result and a state that `Q` holds of, or a fault among `F`. -/
def Does {α : Type} (F : Fault → Prop) (b : Builder) (m : BuildM α) (Q : α → Builder → Prop) :
    Prop :=
  Yields F (m b) fun r => Q r.1 r.2

namespace Does

variable {α β : Type} {F F' : Fault → Prop} {b b' : Builder} {m : BuildM α} {f : α → BuildM β}
  {Q Q' : α → Builder → Prop} {R : β → Builder → Prop}

theorem pure {a : α} (h : Q a b) : Does F b (Pure.pure a) Q := h

theorem bind (hm : Does F b m Q) (hf : ∀ a b', Q a b' → Does F b' (f a) R) :
    Does F b (m >>= f) R := by
  exact Yields.bind hm fun r hr => hf r.1 r.2 hr

theorem map {f : α → β} (hm : Does F b m fun a b' => R (f a) b') : Does F b (f <$> m) R := by
  exact Yields.bind hm fun r hr => hr

theorem mono (hm : Does F b m Q) (hQ : ∀ a b', Q a b' → Q' a b') (hF : ∀ f, F f → F' f) :
    Does F' b m Q' :=
  Yields.mono hm (fun _ h => hQ _ _ h) hF

theorem imp (hm : Does F b m Q) (hQ : ∀ a b', Q a b' → Q' a b') : Does F b m Q' :=
  hm.mono hQ fun _ h => h

theorem look {f : Graph → Except Fault α} (h : Yields F (f b.graph) fun a => Q a b) :
    Does F b (BuildM.look f) Q :=
  Yields.bind h fun _ ha => ha

theorem look_ok {f : Graph → Except Fault α} {a : α} (h : f b.graph = .ok a) (ha : Q a b) :
    Does F b (BuildM.look f) Q :=
  look (.of_eq h ha)

theorem edit {f : Graph → Except Fault Graph} {Q : Unit → Builder → Prop} {g : Graph}
    (h : f b.graph = .ok g) (hg : Q () { b with graph := g }) : Does F b (BuildM.edit f) Q :=
  Yields.bind_ok h hg

theorem editWith {f : Graph → Except Fault (NodeId × Graph)} {Q : NodeId → Builder → Prop}
    {id : NodeId} {g : Graph} (h : f b.graph = .ok (id, g)) (hg : Q id { b with graph := g }) :
    Does F b (BuildM.editWith f) Q :=
  Yields.bind_ok h hg

theorem get : Does F b MonadState.get fun a b' => a = b ∧ b' = b := ⟨rfl, rfl⟩

theorem of_modify {f : Builder → Builder} {Q : PUnit → Builder → Prop} (h : Q () (f b)) :
    Does F b (modify f) Q := h

theorem lift {m : Except Fault α} (h : Yields F m fun a => Q a b) :
    Does F b (liftM m : BuildM α) Q :=
  Yields.bind h fun _ ha => ha

end Does

/-! ### Control -/

open SeaOfNodes.Graph

variable {g g' : Graph} {id x : NodeId}

/-- Whether the path at a node of control is taken. -/
def Taken (g : Graph) (x : NodeId) : Prop := g.At x fun _ ty => ty.isDead = false

instance (g : Graph) (x : NodeId) : Decidable (Taken g x) :=
  inferInstanceAs (Decidable (g.At x fun _ ty => ty.isDead = false))

theorem Graph.Keeps.taken_iff (h : Keeps g g') (hx : g.Has x) : Taken g' x ↔ Taken g x := by
  obtain ⟨node, hn⟩ := hx
  obtain ⟨node', hn', -, hty⟩ := h.node hn
  simp [Taken, At, hn, hn', hty]

end SeaOfNodes
