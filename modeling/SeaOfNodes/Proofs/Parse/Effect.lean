import SeaOfNodes.Proofs.Pass.Phi

/-!
Construction loses no effect. A store, a call or a cast that makes a string takes its place in the
chain of memory, and the chain of a path that is taken ends at a return, or in a loop that nothing
leaves. Both can be reached from a root.
-/
namespace SeaOfNodes

open SeaOfNodes.Graph SeaOfNodes.Builder SeaOfNodes.ParseM

/-! ### Nodes that act -/

instance (g : Graph) (x : NodeId) : Decidable (g.Acts x) :=
  have (op : Op) : Decidable (op = .cast ∧ ∃ e, g.memory[x]? = some e) :=
    decidable_of_iff (op = .cast ∧ g.memory[x]?.isSome = true) (by rw [Option.isSome_iff_exists])
  inferInstanceAs (Decidable (g.At x fun op _ =>
    op.acts = true ∨ op = .cast ∧ ∃ e, g.memory[x]? = some e))

theorem Graph.Acts.isEffect {g : Graph} {x : NodeId} (h : g.Acts x) : g.IsEffect x := by
  refine h.mono fun op _ hop => ?_
  cases op <;> simp_all

theorem Builder.logged_initial : initial.Logged := by
  intro x hx
  have hcreate : empty.create .start .live [] = .ok (initial.start, initial.graph) := rfl
  have hempty : empty.Acts x := Silent.create orderly_empty (by simp) hcreate x hx
  exact absurd hempty.has (not_has_empty x)

/-! ### Stages -/

namespace ParseM

theorem bind_eq_ok {α β : Type} {m : ParseM α} {f : α → ParseM β} {p p' : Parser} {r : β}
    (h : (m >>= f) p = .ok r p') : ∃ a p1, m p = .ok a p1 ∧ f a p1 = .ok r p' := by
  simp only [bind, EStateM.bind] at h
  split at h
  · exact ⟨_, _, ‹_›, h⟩
  · contradiction

def BuildsBodies (text : String) (promote : Bool) (p p' : Parser) : Prop :=
  ∃ functions main, declarations (.ofText text promote) = .ok (functions, main) p ∧
    buildFunctions functions p = .ok () p'

theorem declarations_has {text : String} {promote : Bool} {p : Parser}
    {r : List FunctionDeclaration × NodeId}
    (h : declarations (.ofText text promote) = .ok r p) (hc : p.graph.Clean) :
    ∀ e ∈ p.builder.effects, p.graph.Has e.1 := by
  have hstart : initial.graph.Has initial.cursor.control := by decide
  have hs := ((declarations_lays neat_initial orderly_initial).result h).1.spreads orderly_initial hc hstart
  intro e he
  rcases hs.records e he with he | hnew
  · contradiction
  · exact hnew.1

end ParseM

/-- What acts in the bodies of a program is recorded with the control of its path. It can be reached
from a root if that path is taken, however statements are nested. -/
theorem construct_keeps_effects {text : String} {promote : Bool} {c : Construction}
    (h : construct text promote = .ok c) (hclean : c.graph.Clean) :
    ∃ p p', BuildsBodies text promote p p' ∧ ∀ x, p'.graph.Acts x → ¬ p.graph.Has x →
      (∃ control, (x, control) ∈ p'.builder.effects) ∧
      ∀ control, (x, control) ∈ p'.builder.effects → Taken c.graph control → c.graph.Reaches x := by
  obtain ⟨exit, n, p₃, hprogram, rfl⟩ := construct_eq_ok h
  obtain ⟨⟨functions, main⟩, p₁, hdeclarations, hrest⟩ := bind_eq_ok hprogram
  obtain ⟨_, p₂, hbodies, hrest⟩ := bind_eq_ok hrest
  obtain ⟨_, _, hfinish, hrest⟩ := bind_eq_ok hrest
  obtain ⟨-, rfl⟩ := EStateM.Result.ok.inj hrest
  refine ⟨p₁, p₂, ⟨functions, main, hdeclarations, hbodies⟩, fun x hacts hnew => ?_⟩
  obtain ⟨h₁, hfunctions⟩ := (declarations_lays neat_initial orderly_initial).result hdeclarations
  have ho₁ := h₁.builds.constructs.orderly orderly_initial
  have h₂ := (buildFunctions_finishes h₁.builds.neat ho₁ hfunctions).result hbodies
  have ho₂ := h₂.builds.constructs.orderly ho₁
  have h₃ := (finish_builds main h₂.builds.neat).result hfinish
  have hr := h₃.retains ho₂ hclean
  refine ⟨(h₁.builds.trans h₂.builds).logged orderly_initial logged_initial x hacts, fun control he htaken => ?_⟩
  rcases h₂.rooted (hr.keeps.clean hclean) _ he with he | ⟨hfirst, hsecond, hrooted⟩
  · have hclean₁ := (h₂.builds.retains ho₁ (hr.keeps.clean hclean)).keeps.clean (hr.keeps.clean hclean)
    exact absurd (declarations_has hdeclarations hclean₁ _ he) hnew
  · have hroot := hrooted ((hr.keeps.taken_iff hsecond).1 htaken) hacts.isEffect
    exact (hr.rooted hfirst hroot).reaches (h₃.constructs.orderly ho₂)

/-- Whether some body adds an effect on a path that is taken in `g`. -/
def addsEffect (text : String) (promote : Bool) (g : Graph) : Bool :=
  match declarations (.ofText text promote) with
  | .ok (functions, _) p =>
    match buildFunctions functions p with
    | .ok () p' => p'.builder.effects.any fun e =>
        decide (p'.graph.Acts e.1 ∧ ¬ p.graph.Has e.1 ∧ Taken g e.2)
    | .error _ _ => false
  | .error _ _ => false

theorem exists_of_addsEffect {text : String} {promote : Bool} {p p' : Parser} {g : Graph}
    (h : BuildsBodies text promote p p') (hadds : addsEffect text promote g = true) :
    ∃ x control, p'.graph.Acts x ∧ ¬ p.graph.Has x ∧ (x, control) ∈ p'.builder.effects ∧
      Taken g control := by
  obtain ⟨functions, main, hdeclarations, hbuild⟩ := h
  simp only [addsEffect, hdeclarations, hbuild, List.any_eq_true, decide_eq_true_eq] at hadds
  obtain ⟨⟨x, control⟩, he, hacts, hnew, htaken⟩ := hadds
  exact ⟨x, control, hacts, hnew, he, htaken⟩

/-- Calls in a loop that is left by a return and in one that nothing leaves, behind and in front of
jumps, and deferred. -/
def nestedEffects : String :=
  "func g(n int) int \x7b return n; \x7d " ++
  "func main() \x7b var a int; for a < 9 \x7b defer g(a); if a == 1 \x7b a = g(2); continue; \x7d " ++
    "g(a); if a == 3 \x7b g(4); return; \x7d a += 1; \x7d for \x7b g(a); a = 5; \x7d \x7d"

theorem construct_keeps_effects_nested : ∃ c, construct nestedEffects true = .ok c ∧ c.graph.Clean ∧
    ∃ p p', BuildsBodies nestedEffects true p p' ∧ (∃ x control, p'.graph.Acts x ∧ ¬ p.graph.Has x ∧
      (x, control) ∈ p'.builder.effects ∧ Taken c.graph control) ∧
      ∀ x, p'.graph.Acts x → ¬ p.graph.Has x → ∀ control, (x, control) ∈ p'.builder.effects →
        Taken c.graph control → c.graph.Reaches x := by
  have hrun : passes (fun c => decide c.graph.Clean && addsEffect nestedEffects true c.graph)
      (construct nestedEffects true) = true := by decide +kernel
  obtain ⟨c, hc, hrun⟩ := exists_ok_of_passes hrun
  rw [Bool.and_eq_true, decide_eq_true_eq] at hrun
  obtain ⟨p, p', hbodies, hkeeps⟩ := construct_keeps_effects hc hrun.1
  exact ⟨c, hc, hrun.1, p, p', hbodies, exists_of_addsEffect hbodies hrun.2,
    fun x hacts hnew => (hkeeps x hacts hnew).2⟩

end SeaOfNodes
