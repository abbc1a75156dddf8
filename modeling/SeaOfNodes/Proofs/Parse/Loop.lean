import SeaOfNodes.Proofs.Parse.Construct

/-!
Paths through a loop. All paths inside begin at its head, whose memory is a phi. The paths that leave
it see this phi, and the phi sees every path that comes back to the head. So whatever a path through
the body sees is seen behind the loop, if some path leaves it. If none does, the phi is a root.
-/
namespace SeaOfNodes

open SeaOfNodes.Graph SeaOfNodes.Builder

/-! ### Keeping a loop alive -/

namespace LoopPhis

variable {b : Builder}

theorem keepAlive_builds {phis : LoopPhis} (hb : b.Neat) (hheader : b.graph.Has phis.header)
    (hmemory : b.graph.Has phis.memory) : Does AnyFault b phis.keepAlive fun _ b' =>
      b.Stays b' ∧ (Taken b.graph phis.header → b'.graph.Rooted phis.memory) := by
  refine (Does.look_eq _).bind ?_
  rintro ty b ⟨rfl, hty⟩
  split
  · rename_i hdead
    refine .pure ⟨hb.refl, fun htaken => ?_⟩
    obtain ⟨node, hn, hlive⟩ := htaken
    cases (ty_of_get? hn).symm.trans hty
    simp [hlive] at hdead
  · refine (BuildM.markRoot_builds hheader hb).bind fun _ b1 ⟨h1, _⟩ => ?_
    refine (BuildM.markRoot_builds (h1.has hb hmemory) h1.neat).imp fun _ b2 ⟨h2, hrooted⟩ => ?_
    exact ⟨h1.trans h2, fun _ => hrooted⟩

end LoopPhis

namespace Parser

variable {p p' p1 p2 : Parser} {cs exits backs : List Cursor}

/-- The body of a loop is read. The paths that leave it or go on with its next turn are no longer
kept. -/
theorem Spreads.loop {l : OpenLoop} (h : p.Spreads (p1.cursor :: cs) p1) (hbreaks : l.breaks = [])
    (hcontinues : l.continues = [])
    (hbody : ({ p1 with loops := l :: p1.loops } : Parser).Spreads [p2.cursor] p2) :
    p.Spreads (cs ++ p2.jumps ++ [p2.cursor]) { p2 with loops := p2.loops.tail } := by
  have hloops : p2.loops.tail = p1.loops := hbody.outer
  have hjumps : ({ p2 with loops := p2.loops.tail } : Parser).jumps = p1.jumps := by
    unfold Parser.jumps innermost
    rw [hloops]
  have hhead := h.paths _ List.mem_cons_self
  have hnew : ∀ c ∈ p2.jumps, Path p.graph p.cursor p2.graph c := by
    intro c hc
    rcases hbody.reached c hc with hc | hpath
    · simp [Parser.jumps, innermost, hbreaks, hcontinues] at hc
    · exact hhead.trans hpath
  have hinside : ∀ x, p2.Safe [p2.cursor] x →
      ({ p2 with loops := p2.loops.tail } : Parser).Safe (cs ++ p2.jumps ++ [p2.cursor]) x := by
    rintro x (hrooted | ⟨c, hc | hc | hc, hbrings⟩)
    · exact .inl hrooted
    · exact .inr ⟨c, .inl (List.mem_append_right _ hc), hbrings⟩
    · exact .inr ⟨c, .inr (.inl hc), hbrings⟩
    · exact .inr ⟨c, .inl (List.mem_append_left _ (List.mem_append_right _ hc)), hbrings⟩
  have hmono : ∀ x, p1.graph.Firm x → p1.Safe (p1.cursor :: cs) x →
      ({ p2 with loops := p2.loops.tail } : Parser).Safe (cs ++ p2.jumps ++ [p2.cursor]) x := by
    intro x hx hsafe
    refine hsafe.mono hbody.retains hx.has hbody.points (by rw [hjumps]; exact List.Subset.refl _) ?_
    intro c hc hbrings
    rcases List.mem_cons.1 hc with rfl | hc
    · exact hinside x (hbody.sees x hx hbrings)
    · refine .inr ⟨c, .inl (List.mem_append_left _ (List.mem_append_left _ hc)), ?_⟩
      exact hbrings.retains hbody.retains hx.has
  refine ⟨h.retains.trans hbody.retains, ?_, fun c hc => hbody.points (h.points hc), ?_, ?_, ?_, ?_, ?_, ?_⟩
  · simp only [List.mem_append, List.mem_singleton]
    rintro c ((hc | hc) | rfl)
    · exact (h.paths c (List.mem_cons_of_mem _ hc)).later hbody.retains
    · exact hnew c hc
    · exact hhead.trans (hbody.paths _ (List.mem_singleton_self _))
  · rw [hjumps]
    exact h.jumps
  · rw [hjumps]
    exact fun c hc => (h.reached c hc).imp_right fun hpath => hpath.later hbody.retains
  · rw [← h.outer, ← hloops]
  · rw [← h.depth, ← hloops]
  · exact fun x hx hbrings => hmono x (h.retains.keeps.at hx) (h.sees x hx hbrings)
  · intro e he
    rcases hbody.records e he with he | ⟨hfirst, hsecond, hnew⟩
    · refine (h.records e he).imp_right ?_
      rintro ⟨hfirst, hsecond, hold⟩
      have hkeeps := hbody.retains.keeps
      refine ⟨hkeeps.has hfirst, hkeeps.has hsecond, fun htaken heffect => ?_⟩
      have heffect := (hkeeps.isEffect_iff hfirst).1 heffect
      exact hmono e.1 heffect.firm (hold ((hkeeps.taken_iff hsecond).1 htaken) heffect)
    · exact .inr ⟨hfirst, hsecond, fun htaken heffect => hinside e.1 (hnew htaken heffect)⟩

theorem Proceeds.loop {l : OpenLoop} (h : p.Proceeds (p1.cursor :: cs) p1) (hbreaks : l.breaks = [])
    (hcontinues : l.continues = [])
    (hbody : ({ p1 with loops := l :: p1.loops } : Parser).Proceeds [p2.cursor] p2) :
    p.Proceeds (cs ++ p2.jumps ++ [p2.cursor]) { p2 with loops := p2.loops.tail } := by
  refine ⟨h.builds.trans hbody.builds, fun ho hc hhas => ?_⟩
  have hs := h.spreads ho ((hbody.builds.keeps h.builds.neat).clean hc) hhas
  refine hs.loop hbreaks hcontinues (hbody.spreads (h.builds.constructs.orderly ho) hc ?_)
  exact (hs.paths _ List.mem_cons_self).has

/-- The head of a loop is completed. Its memory sees what comes back to it, and what is seen from it
is seen from `exits` if one of them is taken. The phis of the head that were replaced are renamed
by `rename`. -/
structure Completes (phis : LoopPhis) (exits backs : List Cursor) (rename : Cursor → Cursor)
    (p p' : Parser) : Prop where
  effects : p'.builder.effects = p.builder.effects
  returns : p'.body.returns = p.body.returns
  loops : p'.loops = p.loops
  kept : Taken p.graph phis.header → (∃ c ∈ exits, Taken p.graph c.control) ∨ p.graph.Rooted phis.memory
  completed : ∃ g, p.graph.Retains g ∧ Reroutes phis.nodes g p'.graph ∧
    (∀ x ∈ phis.nodes, g.IsPhi x) ∧
    ∀ c ∈ backs, Taken p.graph c.control → g.Sees phis.memory c.memory
  control : ∀ c, (rename c).control = c.control
  sees : ∀ c, ∀ x ∉ phis.nodes, p'.graph.Sees c.memory x → p'.graph.Sees (rename c).memory x

namespace Completes

variable {phis : LoopPhis} {rename : Cursor → Cursor} {g0 : Graph} {c c0 : Cursor} {x : NodeId}

section

variable (h : Completes phis exits backs rename p p')
include h

theorem keeps : Keeps p.graph p'.graph := by
  obtain ⟨g, hr, hreroutes, -⟩ := h.completed
  exact hr.keeps.trans hreroutes.keeps

theorem sees_of (hx : p.graph.Has x) (hphi : x ∉ phis.nodes) {a : NodeId}
    (hsees : p.graph.Sees a x) : p'.graph.Sees a x := by
  obtain ⟨g, hr, hreroutes, -⟩ := h.completed
  exact (hreroutes.sees hphi).2 (hr.sees hx hsees)

theorem rooted (hx : p.graph.Has x) (hphi : x ∉ phis.nodes) (hrooted : p.graph.Rooted x) :
    p'.graph.Rooted x := by
  obtain ⟨g, hr, hreroutes, -⟩ := h.completed
  exact hreroutes.rooted hphi (hr.rooted hx hrooted)

theorem brings (hx : p.graph.Has x) (hphi : x ∉ phis.nodes) (hbrings : p.graph.Brings c x) :
    p'.graph.Brings c x ∧ p'.graph.Brings (rename c) x := by
  have htaken := h.keeps.at hbrings.1
  have hsees := h.sees_of hx hphi hbrings.2
  exact ⟨⟨htaken, hsees⟩, h.control c ▸ htaken, h.sees c x hphi hsees⟩

theorem retains (hr : g0.Retains p.graph) (hfresh : ∀ x ∈ phis.nodes, ¬ g0.Has x) :
    g0.Retains p'.graph := by
  obtain ⟨g, hr', hreroutes, -⟩ := h.completed
  exact (hr.trans hr').reroutes hreroutes hfresh

theorem path (hpath : Path g0 c0 p.graph c) (hfresh : ∀ x ∈ phis.nodes, ¬ g0.Has x) :
    Path g0 c0 p'.graph c ∧ Path g0 c0 p'.graph (rename c) := by
  have hretains := h.retains hpath.retains hfresh
  have htaken : Taken p'.graph c.control → Taken p.graph c.control := (h.keeps.taken_iff hpath.has).1
  have hsees : ∀ y, g0.Firm y → Taken p'.graph c.control → g0.Sees c0.memory y →
      p'.graph.Sees c.memory y ∧ p'.graph.Sees (rename c).memory y := by
    intro y hy ht hsees
    have hphi : y ∉ phis.nodes := fun hmem => hfresh y hmem hy.has
    have hy' := (hpath.retains.keeps.at hy).has
    have hsees := h.sees_of hy' hphi (hpath.sees (htaken ht) y hy hsees)
    exact ⟨hsees, h.sees c y hphi hsees⟩
  refine ⟨⟨hretains, h.keeps.has hpath.has, fun ht => hpath.taken (htaken ht), ?_⟩, ?_⟩
  · exact fun ht y hy hy' => (hsees y hy ht hy').1
  · refine ⟨hretains, ?_, ?_, ?_⟩
    · rw [h.control]
      exact h.keeps.has hpath.has
    · rw [h.control]
      exact fun ht => hpath.taken (htaken ht)
    · rw [h.control]
      exact fun ht y hy hy' => (hsees y hy ht hy').2

theorem returned (hx : p.graph.Has x) (hphi : x ∉ phis.nodes)
    (hheader : Taken p.graph phis.header) (hmemory : p.graph.Has phis.memory)
    (hexits : ∀ c ∈ exits, Taken p.graph c.control → p.graph.Sees c.memory phis.memory)
    (hc : c ∈ backs) (hbrings : p.graph.Brings c x) : p'.Safe (exits.map rename) x := by
  obtain ⟨g, hr, hreroutes, -, hbacks⟩ := h.completed
  have hsees : g.Sees phis.memory x := (hbacks c hc hbrings.1).trans (hr.sees hx hbrings.2)
  rcases h.kept hheader with ⟨d, hd, htaken⟩ | hrooted
  · refine .inr ⟨rename d, .inl (List.mem_map_of_mem hd), ?_, h.sees d x hphi ?_⟩
    · rw [h.control]
      exact h.keeps.at htaken
    · exact (hreroutes.sees hphi).2 ((hr.sees hmemory (hexits d hd htaken)).trans hsees)
  · exact .inl (hreroutes.rooted hphi ((hr.rooted hmemory hrooted).sees hsees))

end

end Completes

theorem Spreads.complete {phis : LoopPhis} {rename : Cursor → Cursor}
    (hhead : p.Spreads [p1.cursor] p1) (hcursor : p1.cursor = ⟨phis.header, phis.memory⟩)
    (hfresh : ∀ x ∈ phis.nodes, ¬ p.graph.Has x)
    (hmemory : p1.graph.IsPhi phis.memory) (hbody : p1.Spreads (exits ++ backs) p2)
    (hclose : p2.Completes phis exits backs rename p') : p.Spreads (exits.map rename) p' := by
  have hall := hhead.trans hbody
  rw [List.append_nil] at hall
  have hpoints : p'.points = p2.points := by unfold Parser.points; rw [hclose.returns]
  have hjumps : p'.jumps = p2.jumps := by unfold Parser.jumps innermost; rw [hclose.loops]
  have hfirm : p1.graph.Firm phis.memory := hmemory.mono fun _ _ hop offset => by simp [hop]
  have hexits : ∀ c ∈ exits, Taken p2.graph c.control → p2.graph.Sees c.memory phis.memory := by
    intro c hc htaken
    refine (hbody.paths c (List.mem_append_left _ hc)).sees htaken _ hfirm ?_
    rw [hcursor]
    exact .refl _ _
  have hbacks : ∀ c ∈ backs, Taken p2.graph c.control → Taken p2.graph phis.header := by
    intro c hc htaken
    have hpath := hbody.paths c (List.mem_append_right _ hc)
    have hentered := hpath.taken htaken
    rw [hcursor] at hentered
    exact hpath.retains.keeps.at hentered
  have hsafe : ∀ x, p2.graph.Has x → x ∉ phis.nodes → p2.Safe (exits ++ backs) x →
      p'.Safe (exits.map rename) x := by
    rintro x hx hphi (hrooted | ⟨c, hc | hc, hbrings⟩)
    · exact .inl (hclose.rooted hx hphi hrooted)
    · rcases List.mem_append.1 hc with hc | hc
      · exact .inr ⟨rename c, .inl (List.mem_map_of_mem hc), (hclose.brings hx hphi hbrings).2⟩
      · exact hclose.returned hx hphi (hbacks c hc hbrings.1) (hbody.retains.keeps.has hmemory.has) hexits
          hc hbrings
    · refine .inr ⟨c, .inr ?_, (hclose.brings hx hphi hbrings).1⟩
      rwa [hpoints, hjumps]
  refine ⟨hclose.retains hall.retains hfresh, ?_, hpoints ▸ hall.points, hjumps ▸ hall.jumps, ?_,
    hclose.loops ▸ hall.outer, hclose.loops ▸ hall.depth, ?_, ?_⟩
  · intro c hc
    obtain ⟨d, hd, rfl⟩ := List.mem_map.1 hc
    exact (hclose.path (hall.paths d (List.mem_append_left _ hd)) hfresh).2
  · rw [hjumps]
    exact fun c hc => (hall.reached c hc).imp_right fun hpath => (hclose.path hpath hfresh).1
  · intro x hx hbrings
    refine hsafe x (hall.retains.keeps.has hx.has) (fun hmem => hfresh x hmem hx.has) ?_
    exact hall.sees x hx hbrings
  · intro e he
    rw [hclose.effects] at he
    refine (hall.records e he).imp_right fun ⟨hfirst, hsecond, hnew⟩ => ?_
    have hkeeps := hclose.keeps
    refine ⟨hkeeps.has hfirst, hkeeps.has hsecond, fun htaken heffect => ?_⟩
    have heffect := (hkeeps.isEffect_iff hfirst).1 heffect
    refine hsafe e.1 hfirst (fun hmem => ?_) (hnew ((hkeeps.taken_iff hsecond).1 htaken) heffect)
    -- An effect is no phi.
    obtain ⟨g, hr, -, hphis, -⟩ := hclose.completed
    exact (hphis e.1 hmem).false_of (hr.keeps.at heffect) fun _ _ hop hnot => hnot.1 hop

end Parser

/-! ### The head of a loop -/

namespace LoopPhis

variable {p p1 p2 : Parser} {phis : LoopPhis} {ty : Ty} {header : NodeId}

/-- Where the path enters the head of a loop. -/
structure Head (phis : LoopPhis) (p p' : Parser) : Prop where
  orderly : p'.graph.Orderly
  has : p'.graph.Has p'.cursor.control
  spreads : p.Spreads [p'.cursor] p'
  new : ∀ x ∈ phis.nodes, ¬ p.graph.Has x ∧ p'.graph.IsPhi x
  back : p'.graph.Back phis.memory p.cursor.memory

theorem Head.isPhi (h : phis.Head p p1) : p1.graph.IsPhi phis.memory := (h.new _ (by simp [nodes])).2

structure Headed (phis : LoopPhis) (p p' : Parser) : Prop where
  neat : p'.builder.Neat
  cursor : p'.cursor = ⟨phis.header, phis.memory⟩
  header : p'.graph.Has phis.header
  memory : p'.graph.Has phis.memory
  closes : ∀ {b b' : Builder} {backEdges : List Arm} {replaced : List (NodeId × NodeId)},
    p.builder.Neat → p'.builder.Builds b → phis.Closes backEdges replaced b b' → p.builder.Builds b'
  head : p.graph.Orderly → p'.graph.Clean → p.graph.Has p.cursor.control → phis.Head p p'

theorem mergeOf_created (hp : p.builder.Neat)
    (hcreate : p.graph.create .loop ty [p.cursor.control] = .ok (header, p1.graph)) :
    p1.graph.MergeOf header 1 := by
  obtain ⟨-, us, hself⟩ := create_self hp.dense hcreate
  exact ⟨_, hself, rfl, rfl⟩

section

variable (hp : p.builder.Neat) (heq : p1.builder = { p.builder with graph := p1.builder.graph })
include hp heq

theorem neat_created
    (hcreate : p.graph.create .loop ty [p.cursor.control] = .ok (header, p1.graph)) :
    p1.builder.Neat := by
  rw [heq]
  exact (hp.stays (.create hp.dense (by simp) hcreate)).neat

theorem headed
    (hcreate : p.graph.create .loop ty [p.cursor.control] = .ok (phis.header, p1.graph))
    (htaken : ty.isDead = false ↔ Taken p.graph p.cursor.control)
    (hbegins : Begins phis.header phis.nodes p1.builder p2.builder)
    (hcursor : p2.cursor = ⟨phis.header, phis.memory⟩)
    (hmemory : p2.graph.Clean → p2.graph.IsPhi phis.memory ∧ p2.graph.Back phis.memory p1.cursor.memory)
    (hreturns : p2.body.returns = p.body.returns) (hloops : p2.loops = p.loops) :
    phis.Headed p p2 := by
  have hd1 := (neat_created hp heq hcreate).dense
  have heffects : p1.builder.effects = p.builder.effects := by rw [heq]
  have hold : p1.cursor = p.cursor := by rw [Parser.cursor, heq]
  have hhas : p2.graph.Has phis.memory := by
    rcases (hbegins.opens.opened hd1).listed phis.memory (by simp [nodes]) with herror | ⟨-, hphi, -⟩
    · exact herror.has
    · exact hphi.has
  refine ⟨hbegins.neat, hcursor, hbegins.merge.has, hhas, ?_, fun ho hc hcontrol => ?_⟩
  · exact fun hp hbody hcloses => hcloses.builds hp hcreate heffects hbegins hbody
  have hfirst : p.graph.Constructs p1.graph := .create (by simp) hcreate
  have hr1 : p.graph.Retains p1.graph := .create hp.dense hcreate
  have hr2 := hbegins.retains (hfirst.orderly ho) hc
  have hr := hr1.trans hr2
  rw [hold] at hmemory
  have hheader : Taken p2.graph phis.header ↔ Taken p.graph p.cursor.control := by
    obtain ⟨-, us, hself⟩ := create_self hp.dense hcreate
    rw [hr2.keeps.taken_iff ⟨_, hself⟩, ← htaken]
    simp [Taken, At, hself, Ty.isDead_stamp]
  have hpath : Path p.graph p.cursor p2.graph p2.cursor := by
    rw [hcursor]
    refine ⟨hr, hbegins.merge.has, hheader.1, fun _ x hx hsees => ?_⟩
    exact (hmemory hc).2.sees.trans (hr.sees hx.has hsees)
  refine ⟨(hfirst.orderly ho).opens hbegins.opens, hpath.has, ?_, ?_, (hmemory hc).2⟩
  · refine .of_retains hr (hbegins.effects.trans heffects) hreturns hloops
      (List.forall_mem_singleton.2 hpath) fun h => ⟨_, List.mem_singleton_self _, ?_⟩
    rw [hcursor]
    exact hheader.2 h
  · intro x hx
    obtain ⟨hfresh, hphi⟩ := hbegins.isPhi hd1 hc x hx
    exact ⟨fun hhas => hfresh (hr1.keeps.has hhas), hphi⟩

end

end LoopPhis

/-! ### Replaced phis -/

namespace ParseM

variable {p p' p0 : Parser}

/-- The end of a path whose memory was replaced. -/
def renamed (replaced : List (NodeId × NodeId)) (c : Cursor) : Cursor :=
  { c with memory := replaced.foldl (fun m q => if m = q.1 then q.2 else m) c.memory }

theorem cursor_substituted (replaced : List (NodeId × NodeId)) (arm : Arm) :
    (replaced.foldl (fun arm (old, new) => substituteArm arm old new) arm).cursor =
      renamed replaced arm.cursor := by
  induction replaced generalizing arm with
  | nil => rfl
  | cons q replaced ih => exact ih _

theorem sees_renamed {g : Graph} {replaced : List (NodeId × NodeId)} {x : NodeId} {c : Cursor}
    (h : ∀ q ∈ replaced, g.Sees q.1 x → g.Sees q.2 x) (hx : g.Sees c.memory x) :
    g.Sees (renamed replaced c).memory x := by
  unfold renamed
  generalize c.memory = m at hx ⊢
  induction replaced generalizing m with
  | nil => exact hx
  | cons q replaced ih =>
    obtain ⟨hq, hreplaced⟩ := List.forall_mem_cons.1 h
    refine ih hreplaced _ ?_
    dsimp only
    split
    · rename_i heq
      exact hq (heq ▸ hx)
    · exact hx

theorem completes_of_closes {phis : LoopPhis} {exits : List Cursor} {backEdges : List Arm}
    {replaced : List (NodeId × NodeId)} (h : phis.Closes backEdges replaced p.builder p'.builder)
    (hbody : p'.body = p.body) (hloops : p'.loops = p.loops) (ho : p.graph.Orderly)
    (hphis : ∀ x ∈ phis.nodes, p.graph.IsPhi x) (hback : ∃ y, p.graph.Back phis.memory y)
    (hkept : Taken p.graph phis.header →
      (∃ c ∈ exits, Taken p.graph c.control) ∨ p.graph.Rooted phis.memory) :
    p.Completes phis exits (backEdges.map Arm.cursor) (renamed replaced) p' := by
  obtain ⟨paths, g, happends, -, hgraph⟩ := h.graph
  obtain ⟨hsettles, hbacks⟩ := hgraph ho hphis
  have hr := happends.retains
  refine ⟨by rw [h.eq], by rw [hbody], hloops, hkept, ⟨g, hr, hsettles.reroutes, ?_, ?_⟩, fun _ => rfl, ?_⟩
  · exact fun x hx => hr.keeps.at (hphis x hx)
  · intro c hc
    obtain ⟨arm, harm, rfl⟩ := List.mem_map.1 hc
    exact hbacks hback arm harm
  · exact fun c x hx => sees_renamed fun q hq => hsettles.sees q hq x hx

/-! ### Steps -/

theorem loopCondition_proceeds (keyword : Token) (hp : p.builder.Neat) :
    Ensures p (loopCondition keyword) fun exits p' =>
      p.Proceeds (p'.cursor :: exits.map Arm.cursor) p' := by
  refine (reads_isNext _).along (.of_same hp rfl rfl rfl) fun opens p1 h1 => ?_
  split
  · exact .pure h1
  · refine steps_condition.along h1 fun condition p1 h1 => (steady_setSpan _).along h1 fun _ p1 h1 => ?_
    refine (branch_proceeds condition true h1.builds.neat).bind ?_
    rintro ⟨yes, no⟩ p2 ⟨hcursor, h2⟩
    refine Ensures.bind (Q := fun c p3 => c = p1.cursor ∧ p3 = p2) ⟨hcursor, rfl⟩ ?_
    rintro _ p2 ⟨rfl, rfl⟩
    refine (setCursor_proceeds _ (h1.trans h2)).bind fun _ p3 ⟨h3, hcursor3⟩ => ?_
    refine .step rfl (.pure ?_)
    rw [hcursor3]
    exact h3

theorem anyLive_finds (arms : List Arm) : Ensures p (anyLive arms) fun live p' => p' = p ∧
    (live = true ↔ ∃ c ∈ arms.map Arm.cursor, Taken p.graph c.control) := by
  unfold anyLive
  induction arms with
  | nil => exact .pure ⟨rfl, by simp⟩
  | cons arm arms ih =>
    refine Ensures.bind (Q := fun live p' => p' = p ∧
      (live = true ↔ Taken p.graph arm.cursor.control)) ?_ ?_
    · refine (Ensures.build (Q := fun dead p' => p' = p ∧
        p.graph.isDeadControl arm.cursor.control = .ok dead) ((Does.look_eq _).imp ?_)).bind ?_
      · rintro dead b ⟨rfl, hdead⟩
        exact ⟨rfl, hdead⟩
      · rintro dead p ⟨rfl, hdead⟩
        refine .pure ⟨rfl, ?_⟩
        rw [← BuildM.taken_iff_of_isDeadControl hdead]
        simp
    · rintro live p ⟨rfl, hlive⟩
      cases live with
      | true => exact .pure ⟨rfl, by simp [hlive.1 rfl]⟩
      | false =>
        have hnot : ¬ Taken p.graph arm.cursor.control := fun h => by simpa using hlive.2 h
        refine ih.imp ?_
        rintro rest p ⟨rfl, hrest⟩
        exact ⟨rfl, hrest.trans (by simp [hnot])⟩

end ParseM

end SeaOfNodes
