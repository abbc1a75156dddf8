import SeaOfNodes.Proofs.Parse.Statement

/-!
Programs construct. A function gets its return when its body was read. So every graph that
construction gives is orderly, and each phi in it has a case for every path into its region
(`construct_phisFit`).
-/
namespace SeaOfNodes

open SeaOfNodes.Graph SeaOfNodes.Builder

variable {c : Construction} {promote : Bool} {text : String}

namespace Steps

variable {α β : Type} {m m' : ParseM α} {f : α → ParseM β} {p p0 : Parser} {Q : β → Parser → Prop}

theorem branch_along {c : Prop} [Decidable c] {cs : List Cursor} (hm : Lays m) (hm' : Lays m')
    (h : p0.Proceeds (p.cursor :: cs) p)
    (hf : ∀ a p', p0.Proceeds (p'.cursor :: cs) p' → Ensures p' (f a) Q) :
    Ensures p (if c then m >>= f else m' >>= f) Q := by
  split
  · exact hm.along h hf
  · exact hm'.along h hf

end Steps

namespace ParseM

variable {functions : List FunctionDeclaration} {p : Parser}

/-! ### Functions -/

structure IsEntry (g : Graph) (id : NodeId) : Prop where
  kind : g.At id fun op _ => ∃ name, op = .function name
  rooted : g.Clean → g.Rooted id

theorem IsEntry.builds {b b' : Builder} {id : NodeId} (h : IsEntry b.graph id) (hb : b.Neat)
    (ho : b.graph.Orderly) (hbuilds : b.Builds b') : IsEntry b'.graph id := by
  refine ⟨hbuilds.at hb h.kind, fun hc => ?_⟩
  exact (hbuilds.retains ho hc).rooted h.kind.has (h.rooted ((hbuilds.keeps hb).clean hc))

theorem functionSignature_lays (hp : p.builder.Neat) (ho : p.graph.Orderly) :
    Ensures p functionSignature fun d p' =>
      p.Proceeds [p'.cursor] p' ∧ IsEntry p'.graph d.entry := by
  refine reads_identifier.along (.of_same hp rfl rfl rfl) fun name p1 h1 => ?_
  refine (reads_expect _).along h1 fun _ p1 h1 => (reads_isNext _).along h1 fun empty p1 h1 => ?_
  refine Steps.branch_along (.pure _) (.loop reads_parameterTurn _) h1 fun params p1 h1 => ?_
  refine (reads_expect _).along h1 fun _ p1 h1 => (reads_isNext _).along h1 fun void p1 h1 => ?_
  refine Steps.branch_along (.pure _) reads_type h1 fun result p1 h1 => ?_
  refine (steady_setSpan _).along h1 fun _ p1 h1 => ?_
  have hmake := BuildM.make_function_builds name.text (params.map Prod.snd) result .bottom h1.builds.neat
  refine (stays_proceeds h1 hmake).bind ?_
  rintro entry p2 ⟨h2, hcursor, -, hkind, hrooted⟩
  rw [← hcursor] at h2
  have hentry : IsEntry p2.graph entry := by
    refine ⟨hkind.mono ?_, fun _ => hrooted⟩
    rintro op ty rfl
    exact ⟨_, rfl⟩
  -- What is read behind the signature keeps the entry.
  have ho2 := h2.builds.constructs.orderly ho
  have hlast : ∀ {p3 : Parser} {body : Lexer}, p2.Proceeds [p3.cursor] p3 →
      Ensures p3 (do
        skipGroup
        return { name, entry, params, result, body : FunctionDeclaration }) fun d p' =>
          p.Proceeds [p'.cursor] p' ∧ IsEntry p'.graph d.entry := by
    intro p3 body h3
    refine reads_skipGroup.along h3 fun _ p4 h4 => .pure ⟨h2.trans h4, ?_⟩
    exact hentry.builds h2.builds.neat ho2 h4.builds
  refine (lays_declare name _).along (.of_same h2.builds.neat rfl rfl rfl) fun _ p3 h3 => ?_
  refine Steps.along .get h3 fun p0 p3 h3 => (reads_peek _).along h3 fun first p3 h3 => ?_
  split
  · exact .fail
  · exact hlast h3

def Entries (functions : List FunctionDeclaration) (g : Graph) : Prop :=
  ∀ d ∈ functions, IsEntry g d.entry

theorem Entries.builds {b b' : Builder} (h : Entries functions b.graph) (hb : b.Neat)
    (ho : b.graph.Orderly) (hbuilds : b.Builds b') : Entries functions b'.graph :=
  fun d hd => (h d hd).builds hb ho hbuilds

section

variable (hp : p.builder.Neat) (ho : p.graph.Orderly)
include hp ho

theorem declarationTurn_lays (hfunctions : Entries functions p.graph) :
    Ensures p (declarationTurn functions) fun r p' => p.Proceeds [p'.cursor] p' ∧
      Entries (r.elim id id) p'.graph := by
  have hkeep : ∀ {p' : Parser}, p.Proceeds [p'.cursor] p' →
      p.Proceeds [p'.cursor] p' ∧ Entries functions p'.graph :=
    fun h => ⟨h, hfunctions.builds hp ho h.builds⟩
  refine reads_next?.along (.of_same hp rfl rfl rfl) fun token p1 h1 => ?_
  split
  · exact .pure (hkeep h1)
  · split
    · refine reads_identifier.along h1 fun _ p2 h2 => (reads_expect _).along h2 fun _ p2 h2 => ?_
      exact reads_skipGroup.along h2 fun _ p2 h2 => .pure (hkeep h2)
    · have hsignature := functionSignature_lays h1.builds.neat (h1.builds.constructs.orderly ho)
      refine hsignature.bind fun d p2 ⟨h2, hd⟩ => .pure ⟨h1.trans h2, ?_⟩
      intro d' hd'
      rcases List.mem_append.1 hd' with hd' | hd'
      · exact (hfunctions d' hd').builds hp ho (h1.builds.trans h2.builds)
      · obtain rfl := List.mem_singleton.1 hd'
        exact hd
    · exact (steps_globalConstant steps_expression).along h1 fun _ p2 h2 => .pure (hkeep h2)
    · exact .fail

theorem declareFunctions_lays :
    Ensures p declareFunctions fun functions p' =>
      p.Proceeds [p'.cursor] p' ∧ Entries functions p'.graph := by
  have hturns : ∀ fuel functions (p' : Parser), p.Proceeds [p'.cursor] p' →
      Entries functions p'.graph →
      Ensures p' (turns declarationTurn fuel functions) fun functions p' =>
        p.Proceeds [p'.cursor] p' ∧ Entries functions p'.graph := by
    intro fuel
    induction fuel with
    | zero => exact fun _ _ _ _ => trivial
    | succ fuel ih =>
      intro functions p' hp' hfunctions
      have hturn := declarationTurn_lays hp'.builds.neat (hp'.builds.constructs.orderly ho) hfunctions
      refine hturn.bind ?_
      rintro (functions | functions) p1 ⟨h1, hfunctions1⟩
      · exact ih functions p1 (hp'.trans h1) hfunctions1
      · exact .pure ⟨hp'.trans h1, hfunctions1⟩
  refine steady_remaining.along (.of_same hp rfl rfl rfl) fun fuel p1 h1 => ?_
  exact hturns _ [] p1 h1 (by simp [Entries])

theorem declarations_lays :
    Ensures p declarations fun r p' =>
      p.Proceeds [p'.cursor] p' ∧ Entries r.1 p'.graph := by
  refine Steps.along .get (.of_same hp rfl rfl rfl) fun p0 p1 h1 => ?_
  refine steps_declareTypes.along h1 fun _ p1 h1 => ?_
  refine Ensures.bind (Q := fun _ p2 => p.Proceeds [p2.cursor] p2)
    (.of_modify (h1.later h1.builds.neat.refl.toBuilds rfl rfl rfl)) fun _ p1 h1 => ?_
  have ho1 := h1.builds.constructs.orderly ho
  refine (declareFunctions_lays h1.builds.neat ho1).bind fun functions p2 ⟨h2, hfunctions⟩ => ?_
  have ho2 := h2.builds.constructs.orderly ho1
  refine steady_findMain.along (.of_same h2.builds.neat rfl rfl rfl) fun main p3 h3 => .pure ?_
  exact ⟨(h1.trans h2).trans h3, hfunctions.builds h2.builds.neat ho2 h3.builds⟩

end

/-! ### The body of a function -/

/-- The path begins at the entry, and no path is kept. -/
structure AtEntry (entry : NodeId) (p p' : Parser) : Prop where
  builds : p.builder.Builds p'.builder
  effects : p'.builder.effects = p.builder.effects
  cursor : p'.cursor = ⟨entry, entry⟩
  loops : p'.loops = []

theorem enterFunction_atEntry (d : FunctionDeclaration) (hp : p.builder.Neat) :
    Ensures p (enterFunction d) fun _ p' => AtEntry d.entry p p' := by
  refine Ensures.bind (Q := fun _ p1 => p1.builder = p.builder) (.of_modify rfl) fun _ p1 h1 => ?_
  refine (reads_addressTaken p1).bind fun names p2 h2 => ?_
  refine Ensures.bind (Q := fun _ p3 => p3.builder = p.builder ∧ p3.loops = []) (.of_modify ⟨?_, rfl⟩) ?_
  · rw [h2]
    exact h1
  rintro _ p3 ⟨hbuilder, hloops⟩
  have hcursor := BuildM.setCursor_builds ⟨d.entry, d.entry⟩ (hbuilder ▸ hp : p3.builder.Neat)
  refine (Ensures.building hcursor).imp ?_
  rintro _ p4 ⟨⟨hb, heq⟩, -, hloops4⟩
  refine ⟨hbuilder ▸ hb, ?_, ?_, hloops4.trans hloops⟩
  · rw [heq, hbuilder]
  · rw [Parser.cursor, heq]

theorem endBody_proceeds {p0 : Parser} (d : FunctionDeclaration) (h : p0.Proceeds [p.cursor] p) :
    Ensures p (endBody d) fun _ p' => p0.Proceeds [p'.cursor] p' ∧
      (Taken p'.graph p'.cursor.control → p'.cursor ∈ p'.points) := by
  refine isDead_finds.bind ?_
  rintro dead p ⟨rfl, hdead⟩
  split
  · rename_i hdead'
    refine .pure ⟨h, fun htaken => ?_⟩
    have := hdead.2 htaken
    simp [hdead'] at this
  · split
    · refine (recordReturn_records none).imp ?_
      rintro _ q ⟨hbuilder, hloops, hpoints, hrecords⟩
      have hcursor : q.cursor = p.cursor := congrArg Builder.cursor hbuilder
      refine ⟨⟨hbuilder ▸ h.builds, fun ho hc hhas => ?_⟩, fun _ => ?_⟩
      · have hgraph : q.graph = p.graph := congrArg graph hbuilder
        rw [hcursor]
        rw [hgraph] at hc
        refine (h.spreads ho hc hhas).later ?_ (congrArg effects hbuilder) hrecords.points hloops
        rw [hgraph]
        exact .refl _
      · rw [hpoints, hcursor]
        exact List.mem_append_right _ (List.mem_singleton_self _)
    · exact .fail

/-! ### The return of a function -/

theorem length_of_mapM_fst {points : List (Option NodeId × Cursor)} {values : List NodeId}
    (h : points.mapM Prod.fst = some values) : values.length = points.length := by
  induction points generalizing values with
  | nil =>
    cases h
    rfl
  | cons point points ih =>
    rw [List.mapM_cons] at h
    obtain ⟨value, -, h⟩ := Option.bind_eq_some_iff.1 h
    obtain ⟨rest, hrest, h⟩ := Option.bind_eq_some_iff.1 h
    cases h
    rw [List.length_cons, List.length_cons, ih hrest]

/-- The phis stand at a region with a predecessor for each point. The one of memory sees them all. -/
theorem joinReturns_builds (points : List (Option NodeId × Cursor)) (hp : p.builder.Neat) :
    Ensures p (joinReturns points) fun _ p' => p.builder.Builds p'.builder ∧
      p'.builder.effects = p.builder.effects ∧
      (p.graph.Orderly → p'.graph.Clean →
        ∀ point ∈ points, p'.graph.Sees p'.cursor.memory point.2.memory) := by
  refine (Ensures.of_does (BuildM.make_region_builds _ hp)).bind ?_
  rintro region p1 ⟨h1, hmerge, hregion, -⟩
  rw [List.length_map] at hmerge
  have hmemory := BuildM.make_phi_memory_builds
    (by rwa [List.length_map] : p1.graph.MergeOf region (points.map fun point => point.2.memory).length)
    hregion h1.neat
  refine (Ensures.of_does hmemory).bind fun memory p2 ⟨h2, hsees⟩ => ?_
  have hs := h1.trans h2
  have hlast : ∀ {p3 : Parser} (value : Option NodeId), p2.builder.Stays p3.builder →
      Ensures p3 (do
        setCursor ⟨region, memory⟩
        return value) fun _ p' => p.builder.Builds p'.builder ∧
          p'.builder.effects = p.builder.effects ∧
          (p.graph.Orderly → p'.graph.Clean →
            ∀ point ∈ points, p'.graph.Sees p'.cursor.memory point.2.memory) := by
    intro p3 value h3
    refine (Ensures.of_does (BuildM.setCursor_builds _ h3.neat)).bind ?_
    rintro _ p4 ⟨h4, heq⟩
    refine .pure ⟨(hs.trans h3).toBuilds.trans h4, ?_, fun ho hc point hpoint => ?_⟩
    · rw [heq]
      exact (hs.trans h3).effects
    · have ho2 := hs.constructs.orderly ho
      rw [Parser.cursor, heq]
      refine ((h3.toBuilds.trans h4).retains ho2 hc).sees_of ho2 (hsees _ ?_)
      exact List.mem_map_of_mem hpoint
  split
  · rename_i values hvalues
    have hlength := length_of_mapM_fst hvalues
    refine Ensures.bind (Ensures.map ?_)
      fun value p3 h3 => hlast value h3
    exact .of_does (BuildM.make_phi_builds .value (hlength ▸ h2.mergeOf h1.neat hmerge)
      (h2.at h1.neat hregion) h2.neat)
  · exact hlast none h2.neat.refl

/-- The return of a function becomes an input of its entry, so that a root sees the memory at the end
of its path. -/
theorem addReturn_builds {entry : NodeId} (span : Span) (value : Option NodeId)
    (hp : p.builder.Neat) (ho : p.graph.Orderly) (hentry : IsEntry p.graph entry) :
    Ensures p (addReturn entry span value) fun _ p' => p.builder.Builds p'.builder ∧
      p'.builder.effects = p.builder.effects ∧
      (p'.graph.Clean → p'.graph.Rooted p.cursor.memory) := by
  refine (Ensures.of_does (BuildM.setSpan_builds span hp)).bind fun _ p1 h1 => ?_
  refine (Ensures.of_does (BuildM.make_return_builds value h1.neat)).bind fun node p2 ⟨h2, hsees⟩ => ?_
  have hs := h1.trans h2
  have ho2 := hs.constructs.orderly ho
  have hentry2 := hentry.builds hp ho hs.toBuilds
  refine .build (.of_edit fun g hg => ?_)
  have h3 : p2.builder.Stays { p2.builder with graph := g } := by
    refine h2.neat.stays (.appendInput (hentry2.kind.mono ?_) hg)
    rintro op ty ⟨name, rfl⟩
    exact ⟨rfl, by simp⟩
  refine ⟨(hs.trans h3).toBuilds, (hs.trans h3).effects, fun hc => ?_⟩
  have hc2 := (h3.keeps h2.neat).clean hc
  obtain ⟨entryNode, hn, name, hop⟩ := hentry2.kind
  have hnode : g.Rooted node :=
    ((h3.retains ho2 hc).rooted hentry2.kind.has (hentry2.rooted hc2)).sees
      (back_appendInput ⟨entryNode, hn, hop⟩ hg).sees
  refine hnode.sees ((h3.retains ho2 hc).sees_of ho2 ?_)
  rw [Parser.cursor, ← h1.cursor]
  exact hsees hc2

theorem finishFunction_builds {entry : NodeId} (hp : p.builder.Neat) (ho : p.graph.Orderly)
    (hentry : IsEntry p.graph entry) :
    Ensures p (finishFunction entry) fun _ p' => p.builder.Builds p'.builder ∧
      p'.builder.effects = p.builder.effects ∧
      (p'.graph.Clean → ∀ c ∈ p.points, p'.graph.Rooted c.memory) := by
  unfold Parser.points
  refine .step rfl ?_
  dsimp only
  split
  · rename_i hreturns
    exact .pure ⟨hp.refl.toBuilds, rfl, by simp [hreturns]⟩
  · rename_i value c hreturns
    refine (Ensures.of_does (BuildM.setCursor_builds c hp)).bind ?_
    rintro _ p1 ⟨h1, heq⟩
    have hadd := addReturn_builds p.body.span value h1.neat (h1.constructs.orderly ho)
      (hentry.builds hp ho h1)
    refine hadd.imp ?_
    rintro _ p2 ⟨h2, heffects, hrooted⟩
    refine ⟨h1.trans h2, ?_, fun hc => ?_⟩
    · rw [heffects, heq]
    · rw [Parser.cursor, heq] at hrooted
      simpa [hreturns] using hrooted hc
  · refine (joinReturns_builds p.body.returns hp).bind ?_
    rintro value p1 ⟨h1, heffects1, hsees⟩
    have ho1 := h1.constructs.orderly ho
    have hadd := addReturn_builds p.body.span value h1.neat ho1 (hentry.builds hp ho h1)
    refine hadd.imp ?_
    rintro _ p2 ⟨h2, heffects, hrooted⟩
    refine ⟨h1.trans h2, heffects.trans heffects1, fun hc c hmem => ?_⟩
    obtain ⟨point, hpoint, rfl⟩ := List.mem_map.1 hmem
    have hc1 := (h2.keeps h1.neat).clean hc
    exact (hrooted hc).sees ((h2.retains ho1 hc).sees_of ho1 (hsees ho hc1 point hpoint))

/-! ### Functions -/

/-- Steps lead from `p` to `p'`, and a root sees every new effect whose path is taken. -/
structure RootsEffects (p p' : Parser) : Prop where
  builds : p.builder.Builds p'.builder
  rooted : p'.graph.Clean → ∀ e ∈ p'.builder.effects, e ∈ p.builder.effects ∨
    p'.graph.Has e.1 ∧ p'.graph.Has e.2 ∧
      (Taken p'.graph e.2 → p'.graph.IsEffect e.1 → p'.graph.Rooted e.1)

theorem RootsEffects.trans {p1 p2 : Parser} (ho : p.graph.Orderly) (h1 : RootsEffects p p1)
    (h2 : RootsEffects p1 p2) : RootsEffects p p2 := by
  refine ⟨h1.builds.trans h2.builds, fun hc e he => ?_⟩
  have hr := h2.builds.retains (h1.builds.constructs.orderly ho) hc
  rcases h2.rooted hc e he with he | hnew
  · refine (h1.rooted (hr.keeps.clean hc) e he).imp_right fun ⟨hfirst, hsecond, hnew⟩ => ?_
    refine ⟨hr.keeps.has hfirst, hr.keeps.has hsecond, fun htaken heffect => ?_⟩
    exact hr.rooted hfirst (hnew ((hr.keeps.taken_iff hsecond).1 htaken)
      ((hr.keeps.isEffect_iff hfirst).1 heffect))
  · exact .inr hnew

/-- Every path through the body that is taken ends at a return, or in a loop that nothing leaves. -/
theorem buildFunction_finishes {d : FunctionDeclaration} (hp : p.builder.Neat)
    (ho : p.graph.Orderly) (hd : IsEntry p.graph d.entry) :
    Ensures p (buildFunction d) fun _ p' => RootsEffects p p' := by
  refine (enterFunction_atEntry d hp).bind fun _ p1 h1 => ?_
  refine (steps_bindParameters lays_bindLocal _ _ _).along (.of_same h1.builds.neat rfl rfl rfl) fun _ p2 h2 => ?_
  refine Steps.along .get h2 fun p0 p2 h2 => ?_
  refine (lays_block (lays_statementNested _)).along h2 fun _ p2 h2 => ?_
  refine (endBody_proceeds d h2).bind fun _ p3 ⟨h3, hend⟩ => ?_
  refine .step rfl ?_
  refine .step rfl ?_
  have hbuilds := h1.builds.trans h3.builds
  have hfinish := finishFunction_builds (p := { p3 with scope := p3.scope.pop }) h3.builds.neat
    (hbuilds.constructs.orderly ho) (hd.builds hp ho hbuilds)
  refine hfinish.imp fun _ p5 ⟨h5, heffects, hpoints⟩ => ⟨hbuilds.trans h5, fun hc e he => ?_⟩
  have hhas : p1.graph.Has p1.cursor.control := by
    rw [h1.cursor]
    exact (hd.builds hp ho h1.builds).kind.has
  have hr := h5.retains (hbuilds.constructs.orderly ho) hc
  have hs := h3.spreads (h1.builds.constructs.orderly ho) (hr.keeps.clean hc) hhas
  have hjumps : p3.jumps = [] := by
    have hnil : p3.loops = [] := List.eq_nil_of_length_eq_zero (by rw [hs.depth, h1.loops]; rfl)
    simp [Parser.jumps, Parser.innermost, hnil]
  rw [heffects] at he
  rcases hs.records e he with he | ⟨hfirst, hsecond, hnew⟩
  · exact .inl (h1.effects ▸ he)
  refine .inr ⟨hr.keeps.has hfirst, hr.keeps.has hsecond, fun htaken heffect => ?_⟩
  have hsafe := hnew ((hr.keeps.taken_iff hsecond).1 htaken) ((hr.keeps.isEffect_iff hfirst).1 heffect)
  rcases hsafe with hrooted | ⟨c, hmem, hbrings⟩
  · exact hr.rooted hfirst hrooted
  · have hpoint : c ∈ p3.points := by
      rcases hmem with hmem | hmem | hmem
      · obtain rfl := List.mem_singleton.1 hmem
        exact hend hbrings.1
      · exact hmem
      · simp [hjumps] at hmem
    exact (hpoints hc c hpoint).sees (hr.sees hfirst hbrings.2)

theorem buildFunctions_finishes (hp : p.builder.Neat) (ho : p.graph.Orderly)
    (hfunctions : Entries functions p.graph) :
    Ensures p (buildFunctions functions) fun _ p' => RootsEffects p p' := by
  induction functions generalizing p with
  | nil => exact .pure ⟨hp.refl.toBuilds, fun _ e he => .inl he⟩
  | cons d ds ih =>
    refine (buildFunction_finishes hp ho (hfunctions d (.head _))).bind fun _ p1 h1 => ?_
    have hrest : Entries ds p1.graph :=
      fun d' hd' => (hfunctions d' (.tail _ hd')).builds hp ho h1.builds
    exact (ih h1.builds.neat (h1.builds.constructs.orderly ho) hrest).imp fun _ p2 h2 => h1.trans ho h2

/-! ### Programs -/

theorem finish_builds (main : NodeId) (hp : p.builder.Neat) :
    Ensures p (finish main) fun _ p' => p.builder.Builds p'.builder := by
  refine .step rfl ?_
  refine (Ensures.of_does (BuildM.setCursor_builds _ hp)).bind fun _ p1 ⟨h1, _⟩ => ?_
  refine ((steps_make _ rfl).laid h1.neat).bind fun call p2 h2 => ?_
  refine (Ensures.of_does (BuildM.setCursor_builds _ h2.builds.neat)).bind fun _ p3 ⟨h3, _⟩ => ?_
  refine ((steps_make _ rfl).laid h3.neat).bind fun status p4 h4 => ?_
  refine ((steps_make _ rfl).laid h4.builds.neat).imp fun exit p5 h5 => ?_
  exact (((h1.trans h2.builds).trans h3).trans h4.builds).trans h5.builds

theorem program_builds (hp : p.builder.Neat) (ho : p.graph.Orderly) :
    Ensures p program fun _ p' => p.builder.Builds p'.builder := by
  refine (declarations_lays hp ho).bind fun ⟨functions, main⟩ p1 ⟨h1, hfunctions⟩ => ?_
  have hbodies := buildFunctions_finishes h1.builds.neat (h1.builds.constructs.orderly ho) hfunctions
  refine hbodies.bind fun _ p2 h2 => (finish_builds main h2.builds.neat).bind fun exit p3 h3 => ?_
  exact .pure ((h1.builds.trans h2.builds).trans h3)

end ParseM

/-! ### The graph of a program -/

theorem Graph.not_has_empty (x : NodeId) : ¬ empty.Has x := by
  rintro ⟨node, hn⟩
  simp [empty, get?] at hn

theorem Graph.orderly_empty : empty.Orderly := by
  refine ⟨⟨rfl, fun x => ?_⟩, registered_empty, fun x e he => ?_, fun x r hr => ?_, by simp [empty]⟩
  · refine iff_of_false (not_has_empty x) fun h => ?_
    exact absurd h.2 (Nat.not_lt_zero _)
  · simp [empty] at he
  · simp [empty] at hr

theorem Graph.phisFit_empty : empty.PhisFit := fun phi hlive => absurd hlive.has (not_has_empty phi)

theorem Builder.constructs_initial : empty.Constructs initial.graph := by
  have hcreate : empty.create .start .live [] = .ok (initial.start, initial.graph) := rfl
  exact .create (by simp) hcreate

theorem Builder.neat_initial : initial.Neat := by
  have hfits := constructs_initial.fits orderly_empty.dense phisFit_empty
  exact ⟨hfits.dense, hfits.fit, by simp [initial]⟩

theorem Builder.orderly_initial : initial.graph.Orderly := constructs_initial.orderly orderly_empty

section

variable (h : construct text promote = .ok c)
include h

theorem construct_eq_ok : ∃ exit functions p,
      ParseM.program (.ofText text promote) = .ok (exit, functions) p ∧
      c = { graph := p.graph, exit, functions } := by
  unfold construct constructWith at h
  split at h
  · rename_i exit functions p hp
    exact ⟨exit, functions, p, hp, (Except.ok.inj h).symm⟩
  · contradiction

theorem construct_constructs : empty.Constructs c.graph := by
  have hprogram : Ensures (Parser.ofText text promote) ParseM.program _ :=
    ParseM.program_builds neat_initial orderly_initial
  obtain ⟨exit, functions, p, hp, rfl⟩ := construct_eq_ok h
  exact constructs_initial.trans (hprogram.result hp).constructs

theorem construct_orderly : c.graph.Orderly :=
  (construct_constructs h).orderly orderly_empty

theorem construct_phisFit : c.graph.PhisFit :=
  ((construct_constructs h).fits orderly_empty.dense phisFit_empty).fit

end

end SeaOfNodes
