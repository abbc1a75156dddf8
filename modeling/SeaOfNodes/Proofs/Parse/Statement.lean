import SeaOfNodes.Proofs.Parse.Loop

/-!
Statements construct, each on the path where it stands (`lays_statementNested`). A branch forks the
path and joins its sides; a loop opens its head, and closes it when its body was read; a jump and a
return keep the end of the path and leave it.
-/
namespace SeaOfNodes

open SeaOfNodes.Graph SeaOfNodes.Builder

/-! ### Statements -/

namespace ParseM

variable {inner : ParseM Unit} {arm : Arm} {p p1 q : Parser}

theorem lays_assign (x : Operand) (value : NodeId) : Lays (x.assign value) :=
  x.steps_assign (fun p s _ => lays_setScope s p) value

theorem lays_bindLocal (name : Token) (ty : Ty) (value : NodeId) : Lays (bindLocal name ty value) :=
  steps_bindLocal lays_declare name ty value

/-! ### Deferred statements -/

theorem lays_emitDeferred (h : Lays inner) (d : Deferred) : Lays (emitDeferred inner d) := by
  refine .bind steady_isDead fun dead => .ite (.pure _) (.of_neat fun p hp => ?_)
  refine .step rfl ?_
  refine Ensures.bind (Q := fun _ q => q.builder = p.builder ∧ q.body = p.body ∧ q.loops = [])
    (.set ⟨rfl, rfl, rfl⟩) ?_
  rintro _ q ⟨hbuilder, hbody, hnone⟩
  -- What was set aside is given back, so that paths are as they were but for what the step did.
  exact restoring_ensures ((h.laid (hbuilder ▸ hp)).imp fun _ after hafter =>
    hafter.restore hbuilder hbody hnone rfl rfl rfl)

theorem lays_emitAll (h : Lays inner) (ds : List Deferred) : Lays (emitAll inner ds) := by
  induction ds with
  | nil => exact .pure _
  | cons d ds ih => exact .bind (lays_emitDeferred h d) fun _ => ih

theorem lays_runDefers (h : Lays inner) (blocks : Nat) : Lays (runDefers inner blocks) :=
  .bind .get fun _ => lays_emitAll h _

theorem lays_deferStatement : Lays deferStatement := by
  refine .bind (reads_expect _) fun _ => .bind .get fun p => .bind steady_scope fun s => ?_
  refine .bind (reads_isNext _) fun opens => .branch reads_skipGroup reads_skipStatement fun _ => ?_
  exact .bind (.of_modify fun p => lay_of_same rfl rfl rfl) fun _ => .pure _

/-! ### Blocks and branches -/

theorem lays_statements (h : Lays inner) : Lays (statements inner) :=
  .loop (fun _ => .bind (reads_peek _) fun _ => .ite (.pure _) (.bind h fun _ => .pure _)) _

theorem lays_block (h : Lays inner) : Lays (block inner) := by
  refine .bind (reads_expect _) fun _ => .bind (.of_modify fun _ => lay_of_same rfl rfl rfl) fun _ => ?_
  refine .bind (lays_statements h) fun _ => .bind .get fun p => .bind (steady_lower _) fun depth => ?_
  refine .bind (lays_runDefers h depth) fun _ => .bind (.of_modify fun _ => lay_of_same rfl rfl rfl) fun _ => ?_
  exact .bind (reads_expect _) fun _ => .pure _

theorem lays_alternative (h : Lays inner) : Lays (alternative inner) := by
  refine .bind (reads_accept _) fun found => .ite ?_ (.pure _)
  exact .bind (reads_isNext _) fun chained => .ite h (lays_block h)

theorem join_proceeds {p0 : Parser} {arms : List Arm} (parent : Scope)
    (h : p0.Proceeds (arms.map Arm.cursor) p) :
    Ensures p (do follow (← build (.merge parent arms))) fun _ p' =>
      p0.Proceeds [p'.cursor] p' :=
  (merge_proceeds parent h).bind fun _ _ h => follow_proceeds h.1

theorem lays_ifStatement (h : Lays inner) : Lays (ifStatement inner) := by
  refine .bind (reads_expect _) fun keyword => .bind steps_condition fun condition => ?_
  refine .bind steady_scope fun parent => .of_neat fun p hp => ?_
  refine .step rfl ?_
  refine (setSpan_proceeds _ (.of_same hp rfl rfl rfl)).bind fun _ p1 ⟨h1, hcursor1⟩ => ?_
  refine (branch_proceeds condition true h1.builds.neat).bind ?_
  rintro ⟨yes, no⟩ p2 ⟨-, h2⟩
  rw [← hcursor1] at h1
  refine (setCursor_proceeds _ (h1.trans h2)).bind fun _ p3 ⟨h3, hcursor3⟩ => ?_
  rw [hcursor1, ← hcursor3] at h3
  refine (lays_block h).along h3 fun _ p4 h4 => ?_
  refine .step rfl ?_
  have hother : p.Proceeds [⟨no, p.cursor.memory⟩, p4.cursor] p4 :=
    h4.of_mem fun c => by simp [or_comm]
  have h5 : p.Proceeds [⟨no, p.cursor.memory⟩, p4.cursor] { p4 with scope := parent } :=
    hother.later hother.builds.neat.refl.toBuilds rfl rfl rfl
  refine .step rfl ?_
  refine (setCursor_proceeds _ h5).bind fun _ p6 ⟨h6, hcursor6⟩ => ?_
  rw [← hcursor6] at h6
  refine (lays_alternative h).along h6 fun _ p7 h7 => ?_
  exact .step rfl (join_proceeds parent (h7.of_mem fun c => by simp [or_comm]))

/-! ### Loops -/

/-- Behind the body the head of the loop is closed, and the paths that leave it are joined. -/
theorem leaveLoop_proceeds {p p1 p2 : Parser} {phis : LoopPhis} {exits backEdges : List Arm}
    (parent : Scope) (hp : p.builder.Neat) (h : phis.Headed p p1)
    (hbody : p1.Proceeds (exits.map Arm.cursor ++ backEdges.map Arm.cursor) p2)
    (hkept : p2.graph.Clean → Taken p2.graph phis.header →
      (∃ c ∈ exits.map Arm.cursor, Taken p2.graph c.control) ∨ p2.graph.Rooted phis.memory) :
    Ensures p2 (leaveLoop phis parent exits backEdges) fun _ p' =>
      p.Proceeds [p'.cursor] p' := by
  refine (Ensures.building (phis.close_closes backEdges)).bind ?_
  rintro replaced p3 ⟨hcloses, hbody3, hloops3⟩
  refine join_proceeds _ ⟨h.closes hp hbody.builds hcloses, fun ho hc hhas => ?_⟩
  rw [List.map_map, show Arm.cursor ∘ _ = renamed replaced ∘ Arm.cursor from
    funext (cursor_substituted replaced), ← List.map_map]
  have hc2 := hcloses.keeps.clean hc
  have hhead := h.head ho ((hbody.builds.keeps h.neat).clean hc2) hhas
  have hspreads := hbody.spreads hhead.orderly hc2 hhead.has
  refine hhead.spreads.complete h.cursor (fun x hx => (hhead.new x hx).1) hhead.isPhi hspreads ?_
  refine completes_of_closes hcloses hbody3 hloops3 (hbody.builds.constructs.orderly hhead.orderly) ?_
    (hspreads.retains.back hhead.back) (hkept hc2)
  exact fun x hx => hspreads.retains.keeps.at (hhead.new x hx).2

theorem lays_forStatement (h : Lays inner) : Lays (forStatement inner) := by
  refine .bind (reads_expect _) fun keyword => .bind (steady_setSpan _) fun _ => .of_neat fun p hp => ?_
  refine .step rfl ?_
  refine (Ensures.building (BuildM.make_loop_creates p.cursor.control)).bind ?_
  rintro header p1 ⟨⟨heq, ty, hcreate, htaken⟩, hbody1, hloops1⟩
  refine .step rfl ?_
  have henter := LoopPhis.enter_begins p1.scope (LoopPhis.mergeOf_created hp hcreate)
    (LoopPhis.neat_created hp heq hcreate)
  refine (Ensures.building henter).bind ?_
  rintro ⟨phis, inside⟩ p2 ⟨⟨rfl, hbegins, hcursor, hmemory⟩, hbody2, hloops2⟩
  have hheaded : phis.Headed p p2 := LoopPhis.headed hp heq hcreate htaken hbegins hcursor hmemory
    (by rw [hbody2, hbody1]) (hloops2.trans hloops1)
  refine (lays_setScope inside).along (.of_same hheaded.neat rfl rfl rfl) fun _ p3 h3 => ?_
  refine (loopCondition_proceeds keyword h3.builds.neat).bind fun exits p4 h4 => ?_
  have h4 := h3.trans h4
  rw [List.append_nil] at h4
  refine .step rfl ?_
  refine .step rfl ?_
  refine Ensures.bind (Q := fun _ p5 =>
    ({ p4 with loops := { blocks := p4.defers.length } :: p4.loops } : Parser).Proceeds [p5.cursor] p5)
    ((lays_block h).laid h4.builds.neat) fun _ p5 h5 => ?_
  have h5 := h4.loop rfl rfl h5
  refine Ensures.bind (Q := fun paths p6 => paths = p5.innermost ∧
    p6 = { p5 with loops := p5.loops.tail }) ⟨rfl, rfl⟩ ?_
  rintro _ p6 ⟨rfl, hp6⟩
  rw [← hp6, show p5.cursor = p6.cursor by rw [hp6]] at h5
  have hrest : ∀ p7 : Parser, p2.Proceeds (exits.map Arm.cursor ++ p5.jumps ++ [p7.cursor]) p7 →
      (p7.graph.Clean → Taken p7.graph phis.header →
        (∃ c ∈ (exits ++ p5.innermost.breaks).map Arm.cursor, Taken p7.graph c.control) ∨
          p7.graph.Rooted phis.memory) →
      Ensures p7 (do
        leaveLoop phis p4.scope (exits ++ p5.innermost.breaks) (p5.innermost.continues ++ [← arm]))
        fun _ p' => p.Proceeds [p'.cursor] p' := by
    intro p7 h7 hkept
    refine .step rfl (leaveLoop_proceeds p4.scope hp hheaded ?_ hkept)
    simpa [Parser.jumps] using h7
  refine (anyLive_finds _).bind ?_
  rintro live p6 ⟨rfl, hlive⟩
  have hkeeps := h5.builds.keeps hheaded.neat
  split
  · have hkeep := LoopPhis.keepAlive_builds h5.builds.neat (hkeeps.has hheaded.header)
      (hkeeps.has hheaded.memory)
    refine (stays_proceeds h5 hkeep).bind ?_
    rintro _ p7 ⟨h7, hcursor7, hs, hrooted⟩
    rw [← hcursor7] at h7
    refine hrest p7 h7 fun _ htaken => .inr (hrooted ?_)
    exact ((hs.keeps h5.builds.neat).taken_iff (hkeeps.has hheaded.header)).1 htaken
  · rename_i hsome
    exact hrest p6 h5 fun _ _ => .inl (hlive.1 (by simpa using hsome))

/-! ### Jumps -/

theorem isDead_finds : Ensures p isDead fun dead p' => p' = p ∧
    (dead = false ↔ Taken p.graph p.cursor.control) := by
  refine .build ((Does.bind (Q := fun c b => c = p.cursor ∧ b = p.builder) ⟨rfl, rfl⟩ ?_))
  rintro _ b ⟨rfl, rfl⟩
  refine (Does.look_eq _).imp ?_
  rintro dead b ⟨rfl, hdead⟩
  exact ⟨rfl, BuildM.taken_iff_of_isDeadControl hdead⟩

theorem kill_proceeds (h : p.Proceeds [p1.cursor] p1) (hbuilder : q.builder = p1.builder)
    (hrecords : p.Spreads [p1.cursor] p1 → p1.Records q) :
    Ensures q (build .kill) fun _ p' => p.Proceeds [p'.cursor] p' := by
  have hneat : q.builder.Neat := hbuilder ▸ h.builds.neat
  refine (Ensures.building (BuildM.kill_builds hneat)).imp ?_
  rintro _ p' ⟨⟨hb, heffects, -, hdead⟩, hbody, hloops⟩
  rw [hbuilder] at hb heffects hdead
  refine ⟨h.builds.trans hb, fun ho hc hhas => ?_⟩
  have ho1 := h.builds.constructs.orderly ho
  have hs := h.spreads ho ((hb.keeps h.builds.neat).clean hc) hhas
  refine hs.trans (.leave (hrecords hs) (hb.retains ho1 hc) (hs.paths _ List.mem_cons_self).has heffects
    (by rw [hbody]) hloops (hdead ho1))

theorem records_jump {p : Parser} {l l' : OpenLoop} {loops : List OpenLoop} {arm : Arm}
    (hloops : p.loops = l :: loops) (harm : arm.cursor = p.cursor)
    (hl' : l'.breaks = l.breaks ++ [arm] ∧ l'.continues = l.continues ∨
      l'.breaks = l.breaks ∧ l'.continues = l.continues ++ [arm]) :
    p.Records { p with loops := l' :: loops } := by
  have hjumps : ∀ c, c ∈ ({ p with loops := l' :: loops } : Parser).jumps ↔
      c ∈ p.jumps ∨ c = p.cursor := by
    simp only [Parser.jumps, Parser.innermost, hloops, List.head?_cons, Option.getD_some]
    rcases hl' with ⟨hbreaks, hcontinues⟩ | ⟨hbreaks, hcontinues⟩
    · simp only [hbreaks, hcontinues, List.map_append, List.mem_append, List.map_cons, List.map_nil,
        List.mem_singleton, harm]
      tauto
    · simp only [hbreaks, hcontinues, List.map_append, List.mem_append, List.map_cons, List.map_nil,
        List.mem_singleton, harm]
      tauto
  exact ⟨List.Subset.refl _, fun c hc => (hjumps c).2 (.inl hc), fun c hc => (hjumps c).1 hc,
    hloops ▸ rfl, by rw [hloops]; rfl, fun _ => .inr ((hjumps _).2 (.inr rfl))⟩

theorem recordJump_records (jump : Jump) (harm : arm.cursor = p.cursor) :
    Ensures p (recordJump jump arm) fun _ q =>
      q.builder = p.builder ∧ (p.loops ≠ [] → p.Records q) := by
  refine .of_modify ?_
  cases hloops : p.loops with
  | nil => exact ⟨rfl, fun h => absurd rfl h⟩
  | cons l loops =>
    refine ⟨rfl, fun _ => records_jump hloops harm ?_⟩
    cases jump with
    | break_ => exact .inl ⟨rfl, rfl⟩
    | continue_ => exact .inr ⟨rfl, rfl⟩
    | return_ => exact .inr ⟨rfl, rfl⟩

theorem lays_jumpStatement (h : Lays inner) : Lays (jumpStatement inner) := by
  refine .bind (reads_next _) fun token => .bind (reads_expect _) fun _ => .of_neat fun p hp => ?_
  refine .step rfl ?_
  split
  · rename_i l loops hloops hdeferring
    refine (lays_runDefers h l.blocks).along (.of_same hp rfl rfl rfl) fun _ p1 h1 => ?_
    refine .step rfl ?_
    refine (recordJump_records (p := p1) _ rfl).bind fun _ q ⟨hbuilder, hrecords⟩ => ?_
    refine kill_proceeds h1 hbuilder fun hs => hrecords fun hnil => ?_
    have hdepth := hs.depth
    simp [hnil, hloops] at hdepth
  · exact .fail

theorem recordReturn_records (value : Option NodeId) :
    Ensures p (recordReturn value) fun _ q => q.builder = p.builder ∧ q.loops = p.loops ∧
      q.points = p.points ++ [p.cursor] ∧ p.Records q := by
  refine .step rfl ?_
  refine .of_modify ⟨rfl, rfl, by simp [Parser.points], ?_, List.Subset.refl _, fun c hc => .inl hc, rfl,
    rfl, fun _ => .inl ?_⟩
  · intro c hc
    simp only [Parser.points, List.map_append]
    exact List.mem_append_left _ hc
  · simp [Parser.points]

theorem lays_returnStatement (h : Lays inner) : Lays (returnStatement inner) := by
  refine .bind (reads_expect _) fun keyword => .bind .get fun p => .skip (.fail _ _) fun _ => ?_
  refine .bind .get fun p => .bind (reads_isNext _) fun bare => ?_
  refine .branch (.pure _) (.map steps_expression) fun value => .bind (reads_expect _) fun _ => ?_
  refine .bind (steady_setSpan _) fun _ => .bind (steady_returnedValue _ value) fun value => ?_
  refine .bind (lays_runDefers h 0) fun _ => .of_neat fun p hp => ?_
  refine isDead_finds.bind ?_
  rintro dead p ⟨rfl, hdead⟩
  have hsame : p.Proceeds [p.cursor] p := .of_same hp rfl rfl rfl
  split
  · refine (recordReturn_records value).bind fun _ q ⟨hbuilder, _, _, hrecords⟩ => ?_
    exact kill_proceeds hsame hbuilder fun _ => hrecords
  · rename_i hdead'
    refine kill_proceeds hsame rfl fun _ => ⟨List.Subset.refl _, List.Subset.refl _, fun c hc => .inl hc,
      rfl, rfl, fun htaken => ?_⟩
    have := hdead.2 htaken
    simp [this] at hdead'

theorem lays_statementWith (h : Lays inner) : Lays (statementWith inner) := by
  refine .bind (reads_peek _) fun token => .bind (steady_setSpan _) fun _ => ?_
  split
  · exact steps_variableDeclaration steps_expression lays_bindLocal
  · exact steps_localConstant steps_expression
  · exact lays_ifStatement h
  · exact lays_forStatement h
  · exact lays_jumpStatement h
  · exact lays_jumpStatement h
  · exact lays_returnStatement h
  · exact .map lays_deferStatement
  · exact lays_block h
  · exact .bind reads_next? fun _ => .pure _
  · exact .bind (steps_simpleStatement steps_operand lays_assign) fun _ => .bind (reads_expect _) fun _ => .pure _

theorem lays_statementNested (fuel : Nat) : Lays (statementNested fuel) := by
  induction fuel with
  | zero => exact .fault _
  | succ fuel ih => exact lays_statementWith ih

end ParseM

end SeaOfNodes
