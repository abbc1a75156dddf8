import SeaOfNodes.Proofs.Parse.Path
import SeaOfNodes.Proofs.Parse.Steps

/-!
Construction from a text. Every step of construction that has a result changes the graph in the
ways that `Graph.Constructs` lists, so what these keep holds of every graph that is built
(`construct_constructs`). Only loops, joins and the returns of functions have more to say than that
each of their parts does so.
-/
namespace SeaOfNodes

open SeaOfNodes.Graph SeaOfNodes.Builder

variable {cs : List Cursor}

theorem Ensures.of_does {α : Type} {p : Parser} {m : BuildM α} {R : α → Builder → Prop}
    (h : Does AnyFault p.builder m R) :
    Ensures p (ParseM.build m) fun a p' => R a p'.builder :=
  .build h

theorem Ensures.building {α : Type} {p : Parser} {m : BuildM α} {R : α → Builder → Prop}
    (h : Does AnyFault p.builder m R) :
    Ensures p (ParseM.build m) fun a p' =>
      R a p'.builder ∧ p'.body = p.body ∧ p'.loops = p.loops :=
  .build (h.imp fun _ _ h => ⟨h, rfl, rfl⟩)

/-- The graph was changed in the ways that `Graph.Constructs` lists, on the path that the cursor is on. -/
def Lay (p p' : Parser) : Prop := p.builder.Neat → p.Proceeds [p'.cursor] p'

/-- A step of construction does to the graph what `Graph.Constructs` lists, if it has a result, and
goes on with the path that it began on. -/
abbrev Lays {α : Type} (m : ParseM α) : Prop := Steps Lay m

namespace Steps

variable {α β : Type} {m : ParseM α} {f : α → ParseM β} {p p0 : Parser}

theorem of_neat (h : ∀ p, p.builder.Neat → Ensures p m fun _ p' => p.Proceeds [p'.cursor] p') :
    Lays m := by
  intro p
  by_cases hp : p.builder.Neat
  · exact (h p hp).imp fun _ _ h _ => h
  · exact .of_forall fun _ _ hp' => absurd hp' hp

theorem laid (h : Lays m) (hp : p.builder.Neat) :
    Ensures p m fun _ p' => p.Proceeds [p'.cursor] p' :=
  (h p).imp fun _ _ h => h hp

theorem along {Q : β → Parser → Prop} (hm : Lays m) (h : p0.Proceeds (p.cursor :: cs) p)
    (hf : ∀ a p', p0.Proceeds (p'.cursor :: cs) p' → Ensures p' (f a) Q) :
    Ensures p (m >>= f) Q :=
  (hm.laid h.builds.neat).bind fun a p' h' => hf a p' (h.trans h')

end Steps

theorem lay_of_same {p p' : Parser} (hbuilder : p'.builder = p.builder)
    (hreturns : p'.body.returns = p.body.returns) (hloops : p'.loops = p.loops) : Lay p p' :=
  fun h => .of_same h hbuilder hreturns hloops

instance : Building Lay where
  refl _ := lay_of_same rfl rfl rfl
  trans h1 h2 h := (h1 h).trans (h2 (h1 h).builds.neat)
  works hm := .of_neat fun p hp => .build ((hm p.builder hp).imp fun _ _ h => .of_advances h)

namespace ParseM

variable {α : Type} {p p0 : Parser}

/-! ### The builder and the scope -/

@[simp] theorem lays_setScope (s : Scope) : Lays (setScope s) :=
  .of_modify fun _ => lay_of_same rfl rfl rfl

theorem lays_declare (name : Token) (binding : Binding) : Lays (declare name binding) := by
  refine .bind steady_scope fun s => ?_
  split
  · exact .of_modify fun _ => lay_of_same rfl rfl rfl
  · exact .fail _ _

instance : Declaring Lay where
  takes h := by
    rw [h.eq]
    exact lay_of_same rfl rfl rfl
  declare name _ := lays_declare name _

theorem stays_proceeds {m : BuildM α} {R : α → Builder → Prop} (h : p0.Proceeds cs p)
    (hm : Does AnyFault p.builder m fun a b => p.builder.Stays b ∧ R a b) :
    Ensures p (build m) fun a p' =>
      p0.Proceeds cs p' ∧ p'.cursor = p.cursor ∧ p.builder.Stays p'.builder ∧ R a p'.builder := by
  refine (Ensures.building hm).imp ?_
  rintro a p' ⟨⟨hs, hR⟩, hbody, hloops⟩
  exact ⟨h.later hs.toBuilds hs.effects (by rw [hbody]) hloops, hs.cursor, hs, hR⟩

theorem setSpan_proceeds (span : Span) (h : p0.Proceeds cs p) :
    Ensures p (setSpan span) fun _ p' => p0.Proceeds cs p' ∧ p'.cursor = p.cursor := by
  have hspan := BuildM.setSpan_builds span h.builds.neat
  exact (stays_proceeds h (hspan.imp fun _ _ h => ⟨h, trivial⟩)).imp
    fun _ _ h => ⟨h.1, h.2.1⟩

theorem setCursor_proceeds (c : Cursor) (h : p0.Proceeds cs p) :
    Ensures p (setCursor c) fun _ p' => p0.Proceeds cs p' ∧ p'.cursor = c := by
  refine (Ensures.building (BuildM.setCursor_builds c h.builds.neat)).imp ?_
  rintro _ p' ⟨⟨hb, heq⟩, hbody, hloops⟩
  refine ⟨h.later hb (by rw [heq]) (by rw [hbody]) hloops, ?_⟩
  rw [Parser.cursor, heq]

theorem merge_proceeds {p p0 : Parser} {arms : List Arm} (parent : Scope)
    (h : p0.Proceeds (arms.map Arm.cursor) p) :
    Ensures p (build (.merge parent arms)) fun join p' =>
      p0.Proceeds [join.cursor] p' ∧ join.Complete p'.graph := by
  refine (stays_proceeds h (BuildM.merge_builds parent arms h.builds.neat)).imp ?_
  rintro join p' ⟨h', -, -, hcomplete, hgathers⟩
  exact ⟨h'.gather fun ho _ => hgathers (h.builds.constructs.orderly ho), hcomplete⟩

theorem follow_proceeds {join : Join} (h : p0.Proceeds [join.cursor] p) :
    Ensures p (follow join) fun _ p' => p0.Proceeds [p'.cursor] p' := by
  refine Ensures.bind (Q := fun _ p1 => p0.Proceeds [join.cursor] p1) (.of_modify ?_) fun _ p1 h1 => ?_
  · exact h.later h.builds.neat.refl.toBuilds rfl rfl rfl
  · refine (setCursor_proceeds join.cursor h1).imp ?_
    rintro _ p' ⟨hp', hcursor⟩
    rwa [hcursor]

/-! ### Expressions -/

open SeaOfNodes.Operand

variable {inner : ParseM Operand}

theorem lays_address (x : Operand) : Lays x.address :=
  x.steps_address fun _ => .of_modify fun _ => lay_of_same rfl rfl rfl

theorem branch_proceeds (condition : NodeId) (taken : Bool) (hp : p.builder.Neat) :
    Ensures p (branch condition taken) fun sides p' => p'.cursor = p.cursor ∧
      p.Proceeds [⟨sides.1, p.cursor.memory⟩, ⟨sides.2, p.cursor.memory⟩] p' := by
  refine .step rfl ?_
  have hyes := BuildM.make_branch_builds condition p.cursor.control taken hp
  refine (Ensures.building hyes).bind ?_
  rintro yes p1 ⟨⟨h1, hhas1, htaken1⟩, hbody1, hloops1⟩
  have hno := BuildM.make_branch_builds condition p.cursor.control (!taken) h1.neat
  refine (Ensures.building hno).bind ?_
  rintro no p2 ⟨⟨h2, hhas2, htaken2⟩, hbody2, hloops2⟩
  have hs := h1.trans h2
  refine .pure ⟨hs.cursor, .of_stays hs (by rw [hbody2, hbody1]) (hloops2.trans hloops1) ?_⟩
  intro hr hc hhas
  have hk1 := h1.keeps hp
  have hk2 := h2.keeps h1.neat
  obtain ⟨level, hlevel, hyes⟩ := htaken1 (hk2.clean hc)
  obtain ⟨level', hlevel', hno⟩ := htaken2 hc
  -- Both sides are of one condition, which has one type.
  obtain rfl : level = level' := by
    obtain ⟨node, hn, hty⟩ := hk1.at hlevel
    obtain ⟨other, ho, hty'⟩ := hlevel'
    cases hn.symm.trans ho
    exact Ty.bool.inj (hty.symm.trans hty')
  rw [← hk2.taken_iff hhas1] at hyes
  rw [hk1.taken_iff hhas] at hno
  have hpath : ∀ side, p2.graph.Has side → (Taken p2.graph side → Taken p.graph p.cursor.control) →
      Path p.graph p.cursor p2.graph ⟨side, p.cursor.memory⟩ :=
    fun side hside htaken => ⟨hr, hside, htaken, fun _ x hx hsees => hr.sees hx.has hsees⟩
  constructor
  · simp only [List.forall_mem_cons, List.not_mem_nil, false_implies, implies_true, and_true]
    exact ⟨hpath yes (hk2.has hhas1) fun h => (hyes.1 h).1, hpath no hhas2 fun h => (hno.1 h).1⟩
  · intro htaken
    by_cases hlevel : level = .const !taken
    · refine ⟨_, List.mem_cons_of_mem _ List.mem_cons_self, hno.2 ⟨htaken, ?_⟩⟩
      rw [hlevel]
      simp
    · exact ⟨_, List.mem_cons_self, hyes.2 ⟨htaken, hlevel⟩⟩

theorem lays_shortCircuit (h : Lays inner) (lhs : NodeId) (decides : Bool) (span : Span) :
    Lays (shortCircuit lhs decides inner span) := by
  refine .bind steady_scope fun parent => .of_neat fun p hp => ?_
  refine .step rfl ?_
  refine (setSpan_proceeds span (.of_same hp rfl rfl rfl)).bind fun _ p1 ⟨h1, hcursor1⟩ => ?_
  refine (branch_proceeds lhs decides h1.builds.neat).bind ?_
  rintro ⟨evaluate, skip⟩ p2 ⟨_, h2⟩
  rw [← hcursor1] at h1
  refine (setCursor_proceeds _ (h1.trans h2)).bind fun _ p3 ⟨h3, hcursor3⟩ => ?_
  rw [hcursor1, ← hcursor3] at h3
  refine (steps_readOf h).along h3 fun rhs p4 h4 => (steady_setSpan _).along h4 fun _ p4 h4 => ?_
  refine (steps_make _ rfl).along h4 fun rhs p4 h4 => ?_
  refine .step rfl ?_
  refine (merge_proceeds parent h4).bind fun join p5 ⟨h5, hjoin⟩ => ?_
  have hshort := BuildM.make_constant_builds (.bool (.const !decides)) h5.builds.neat
  refine (stays_proceeds h5 (hshort.imp fun _ _ h => ⟨h, trivial⟩)).bind ?_
  rintro short p6 ⟨h6, -, hs6, -⟩
  have hvalue := join.mergeValues_builds [rhs, short] (hjoin.builds h5.builds.neat hs6.toBuilds) hs6.neat
  refine (stays_proceeds h6 (hvalue.imp fun _ _ h => ⟨h, trivial⟩)).bind ?_
  rintro value p7 ⟨h7, -⟩
  exact (follow_proceeds h7).bind fun _ p8 h8 => .pure h8

instance : Evaluating Lay where
  address := lays_address
  shortCircuit := lays_shortCircuit

end ParseM

end SeaOfNodes
