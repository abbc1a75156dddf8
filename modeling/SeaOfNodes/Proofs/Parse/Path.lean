import SeaOfNodes.Parse.Basic
import SeaOfNodes.Proofs.Scope.Construct

/-!
Paths while a body is read. The cursor is at the end of one path; the ends of the others are kept
until they are joined: where the function returns, where its innermost loop is left or goes on with
its next turn, and where the statement that is read forks.

An effect is safe if a root sees it, or if one of these paths is taken and sees it. What a statement
does is said of the path that it goes on with and of the paths that it leaves behind (`Spreads`). All
that its path had seen and all effects that it adds are safe behind it.
-/
namespace SeaOfNodes

namespace Graph

variable {g g' g'' : Graph} {c c' c'' : Cursor} {x : NodeId} {cs : List Cursor}

def Brings (g : Graph) (c : Cursor) (x : NodeId) : Prop := Taken g c.control ∧ g.Sees c.memory x

theorem Brings.retains (h : g.Brings c x) (hr : g.Retains g') (hx : g.Has x) : g'.Brings c x :=
  ⟨hr.keeps.at h.1, hr.sees hx h.2⟩

/-- An effect that has to be kept: neither a phi nor a load. -/
def IsEffect (g : Graph) (x : NodeId) : Prop :=
  g.At x fun op _ => op ≠ .phi ∧ ∀ offset, op ≠ .load offset

theorem IsEffect.firm (h : g.IsEffect x) : g.Firm x := h.mono fun _ _ h => h.2

theorem Keeps.isEffect_iff (h : Keeps g g') (hx : g.Has x) : g'.IsEffect x ↔ g.IsEffect x := by
  obtain ⟨node, hn⟩ := hx
  obtain ⟨node', hn', hop, -⟩ := h.node hn
  simp [IsEffect, At, hn, hn', hop]

/-- A path goes on from `c` to `c'`: it is taken only if it was, and sees what it saw. -/
structure Path (g : Graph) (c : Cursor) (g' : Graph) (c' : Cursor) : Prop where
  retains : g.Retains g'
  has : g'.Has c'.control
  taken : Taken g' c'.control → Taken g c.control
  sees : Taken g' c'.control → ∀ x, g.Firm x → g.Sees c.memory x → g'.Sees c'.memory x

theorem Retains.path (h : g.Retains g') (hc : g.Has c.control) : Path g c g' c where
  retains := h
  has := h.keeps.has hc
  taken := (h.keeps.taken_iff hc).1
  sees _ _ hx hsees := h.sees hx.has hsees

namespace Path

theorem trans (h1 : Path g c g' c') (h2 : Path g' c' g'' c'') : Path g c g'' c'' where
  retains := h1.retains.trans h2.retains
  has := h2.has
  taken h := h1.taken (h2.taken h)
  sees h x hx hsees :=
    h2.sees h x (h1.retains.keeps.at hx) (h1.sees (h2.taken h) x hx hsees)

theorem later (h : Path g c g' c') (hr : g'.Retains g'') : Path g c g'' c' := h.trans (hr.path h.has)

theorem brings (h : Path g c g' c') (htaken : Taken g' c'.control) (hx : g.Firm x)
    (hsees : g.Sees c.memory x) : g'.Brings c' x :=
  ⟨htaken, h.sees htaken x hx hsees⟩

theorem gather {cs : List Cursor} (h : ∀ d ∈ cs, Path g c g' d) (hr : g.Retains g')
    (hg : g'.Gathers cs c') : Path g c g' c' where
  retains := hr
  has := hg.has
  taken ht := by
    obtain ⟨d, hd, htaken⟩ := hg.taken.1 ht
    exact (h d hd).taken htaken
  sees ht x hx hsees := by
    obtain ⟨d, hd, htaken⟩ := hg.taken.1 ht
    exact (hg.sees d hd htaken).trans ((h d hd).sees htaken x hx hsees)

end Path

theorem Gathers.brings (h : g.Gathers cs c') (hc : c ∈ cs) (hx : g.Brings c x) : g.Brings c' x :=
  ⟨h.taken.2 ⟨c, hc, hx.1⟩, (h.sees c hc hx.1).trans hx.2⟩

end Graph

open SeaOfNodes.Graph

namespace Parser

variable {p p' p1 p2 : Parser} {c : Cursor} {cs ds : List Cursor} {x : NodeId} {b : Builder}
  {q q' : Parser}

abbrev graph (p : Parser) : Graph := p.builder.graph

abbrev cursor (p : Parser) : Cursor := p.builder.cursor

/-- The innermost open loop; one that no path leaves if there is none. -/
def innermost (p : Parser) : OpenLoop := p.loops.head?.getD { blocks := 0 }

/-- The ends of the paths that leave the innermost loop or go on with its next turn. -/
def jumps (p : Parser) : List Cursor :=
  (p.innermost.breaks ++ p.innermost.continues).map Arm.cursor

/-- The ends of the paths that return. -/
def points (p : Parser) : List Cursor := p.body.returns.map Prod.snd

/-- A root sees `x`, or the end of a path does that is taken and still to be joined: one of `cs`, or
one that is kept. -/
def Safe (p : Parser) (cs : List Cursor) (x : NodeId) : Prop :=
  p.graph.Rooted x ∨ ∃ c, (c ∈ cs ∨ c ∈ p.points ∨ c ∈ p.jumps) ∧ p.graph.Brings c x

theorem Safe.mono (h : p.Safe cs x) (hr : p.graph.Retains p'.graph) (hx : p.graph.Has x)
    (hpoints : p.points ⊆ p'.points) (hjumps : p.jumps ⊆ p'.jumps)
    (hcs : ∀ c ∈ cs, p.graph.Brings c x → p'.Safe ds x) : p'.Safe ds x := by
  rcases h with hrooted | ⟨c, hc | hc | hc, hbrings⟩
  · exact .inl (hr.rooted hx hrooted)
  · exact hcs c hc hbrings
  · exact .inr ⟨c, .inr (.inl (hpoints hc)), hbrings.retains hr hx⟩
  · exact .inr ⟨c, .inr (.inr (hjumps hc)), hbrings.retains hr hx⟩

/-- Steps lead from `p` to `p'` and leave the path of `p` at the ends `cs`. -/
structure Spreads (p : Parser) (cs : List Cursor) (p' : Parser) : Prop where
  retains : p.graph.Retains p'.graph
  paths : ∀ c ∈ cs, Path p.graph p.cursor p'.graph c
  points : p.points ⊆ p'.points
  jumps : p.jumps ⊆ p'.jumps
  reached : ∀ c ∈ p'.jumps, c ∈ p.jumps ∨ Path p.graph p.cursor p'.graph c
  outer : p'.loops.tail = p.loops.tail
  depth : p'.loops.length = p.loops.length
  sees : ∀ x, p.graph.Firm x → p.graph.Brings p.cursor x → p'.Safe cs x
  records : ∀ e ∈ p'.builder.effects, e ∈ p.builder.effects ∨
    p'.graph.Has e.1 ∧ p'.graph.Has e.2 ∧
      (Taken p'.graph e.2 → p'.graph.IsEffect e.1 → p'.Safe cs e.1)

/-- The end of the path is kept, if it is taken. -/
structure Records (p p' : Parser) : Prop where
  points : p.points ⊆ p'.points
  jumps : p.jumps ⊆ p'.jumps
  reached : ∀ c ∈ p'.jumps, c ∈ p.jumps ∨ c = p.cursor
  outer : p'.loops.tail = p.loops.tail
  depth : p'.loops.length = p.loops.length
  kept : Taken p.graph p.cursor.control → p.cursor ∈ p'.points ∨ p.cursor ∈ p'.jumps

namespace Spreads

theorem later (h : p.Spreads cs p1) (hr : p1.graph.Retains p2.graph)
    (heffects : p2.builder.effects = p1.builder.effects) (hpoints : p1.points ⊆ p2.points)
    (hloops : p2.loops = p1.loops) : p.Spreads cs p2 := by
  have hjumps : p2.jumps = p1.jumps := by unfold Parser.jumps innermost; rw [hloops]
  have hmono : ∀ x, p1.graph.Has x → p1.Safe cs x → p2.Safe cs x := by
    intro x hx hsafe
    refine hsafe.mono hr hx hpoints (by rw [hjumps]; exact List.Subset.refl _) fun c hc hbrings => ?_
    exact .inr ⟨c, .inl hc, hbrings.retains hr hx⟩
  refine ⟨h.retains.trans hr, fun c hc => (h.paths c hc).later hr, fun c hc => hpoints (h.points hc),
    hjumps ▸ h.jumps, ?_, hloops ▸ h.outer, hloops ▸ h.depth, ?_, ?_⟩
  · rw [hjumps]
    exact fun c hc => (h.reached c hc).imp_right fun hpath => hpath.later hr
  · exact fun x hx hbrings => hmono x (h.retains.keeps.has hx.has) (h.sees x hx hbrings)
  · intro e he
    rw [heffects] at he
    refine (h.records e he).imp_right fun ⟨hfirst, hsecond, hnew⟩ => ?_
    refine ⟨hr.keeps.has hfirst, hr.keeps.has hsecond, fun htaken heffect => ?_⟩
    exact hmono e.1 hfirst (hnew ((hr.keeps.taken_iff hsecond).1 htaken)
      ((hr.keeps.isEffect_iff hfirst).1 heffect))

theorem of_mem (h : p.Spreads cs p') (hmem : ∀ c, c ∈ ds ↔ c ∈ cs) : p.Spreads ds p' := by
  have hsafe : ∀ x, p'.Safe ds x ↔ p'.Safe cs x := fun x => by
    unfold Safe
    simp only [hmem]
  refine ⟨h.retains, fun c hc => h.paths c ((hmem c).1 hc), h.points, h.jumps, h.reached, h.outer,
    h.depth, fun x hx hb => (hsafe x).2 (h.sees x hx hb), ?_⟩
  simp only [hsafe]
  exact h.records

theorem trans (h1 : p.Spreads (p1.cursor :: cs) p1) (h2 : p1.Spreads ds p2) :
    p.Spreads (ds ++ cs) p2 := by
  have hpath := h1.paths _ List.mem_cons_self
  have hmono : ∀ x, p1.graph.Firm x → p1.Safe (p1.cursor :: cs) x → p2.Safe (ds ++ cs) x := by
    intro x hx hsafe
    refine hsafe.mono h2.retains hx.has h2.points h2.jumps fun c hc hbrings => ?_
    rcases List.mem_cons.1 hc with rfl | hc
    · rcases h2.sees x hx hbrings with hrooted | ⟨d, hd, hbrings⟩
      · exact .inl hrooted
      · exact .inr ⟨d, hd.imp_left (List.mem_append_left _), hbrings⟩
    · exact .inr ⟨c, .inl (List.mem_append_right _ hc), hbrings.retains h2.retains hx.has⟩
  refine ⟨h1.retains.trans h2.retains, ?_, fun c hc => h2.points (h1.points hc),
    fun c hc => h2.jumps (h1.jumps hc), ?_, h2.outer.trans h1.outer, h2.depth.trans h1.depth, ?_, ?_⟩
  · intro c hc
    rcases List.mem_append.1 hc with hc | hc
    · exact hpath.trans (h2.paths c hc)
    · exact (h1.paths c (List.mem_cons_of_mem _ hc)).later h2.retains
  · intro c hc
    rcases h2.reached c hc with hc | hc
    · exact (h1.reached c hc).imp_right fun h => h.later h2.retains
    · exact .inr (hpath.trans hc)
  · exact fun x hx hbrings => hmono x (h1.retains.keeps.at hx) (h1.sees x hx hbrings)
  · intro e he
    rcases h2.records e he with he | ⟨hfirst, hsecond, hnew⟩
    · rcases h1.records e he with he | ⟨hfirst, hsecond, hold⟩
      · exact .inl he
      · have hkeeps := h2.retains.keeps
        refine .inr ⟨hkeeps.has hfirst, hkeeps.has hsecond, fun htaken heffect => ?_⟩
        have heffect := (hkeeps.isEffect_iff hfirst).1 heffect
        exact hmono e.1 heffect.firm (hold ((hkeeps.taken_iff hsecond).1 htaken) heffect)
    · refine .inr ⟨hfirst, hsecond, fun htaken heffect => ?_⟩
      rcases hnew htaken heffect with hrooted | ⟨d, hd, hbrings⟩
      · exact .inl hrooted
      · exact .inr ⟨d, hd.imp_left (List.mem_append_left _), hbrings⟩

/-- Steps that add no effects and record no paths, with the paths `cs` in the place of the one of
the cursor. -/
theorem of_retains (hr : p.graph.Retains p'.graph) (heffects : p'.builder.effects = p.builder.effects)
    (hreturns : p'.body.returns = p.body.returns) (hloops : p'.loops = p.loops)
    (hpaths : ∀ c ∈ cs, Path p.graph p.cursor p'.graph c)
    (hsome : Taken p.graph p.cursor.control → ∃ c ∈ cs, Taken p'.graph c.control) :
    p.Spreads cs p' := by
  have hpoints : p'.points = p.points := by unfold Parser.points; rw [hreturns]
  have hjumps : p'.jumps = p.jumps := by unfold Parser.jumps innermost; rw [hloops]
  refine ⟨hr, hpaths, by rw [hpoints]; exact List.Subset.refl _, by rw [hjumps]; exact List.Subset.refl _,
    ?_, by rw [hloops], by rw [hloops], ?_, ?_⟩
  · rw [hjumps]
    exact fun c hc => .inl hc
  · intro x hx hbrings
    obtain ⟨c, hc, htaken⟩ := hsome hbrings.1
    exact .inr ⟨c, .inl hc, (hpaths c hc).brings htaken hx hbrings.2⟩
  · rw [heffects]
    exact fun e he => .inl he

theorem of_threads (hr : p.graph.Retains b.graph) (hp : p.graph.Has p.cursor.control)
    (ht : p.builder.Threads b) : p.Spreads [b.cursor] { p with builder := b } := by
  have hpath : Path p.graph p.cursor b.graph b.cursor := by
    refine ⟨hr, ?_, ?_, fun _ => ht.sees⟩
    · rw [ht.control]
      exact hr.keeps.has hp
    · rw [ht.control]
      exact (hr.keeps.taken_iff hp).1
  refine ⟨hr, List.forall_mem_singleton.2 hpath, List.Subset.refl _, List.Subset.refl _,
    fun c hc => .inl hc, rfl, rfl, ?_, ?_⟩
  · intro x hx hbrings
    refine .inr ⟨b.cursor, .inl (List.mem_singleton_self _), ?_, ht.sees x hx hbrings.2⟩
    rw [ht.control]
    exact hr.keeps.at hbrings.1
  · intro e he
    refine (ht.records e he).imp_right fun ⟨hcontrol, hhas, hnew⟩ => ⟨hhas, ?_, fun htaken heffect => ?_⟩
    · rw [hcontrol]
      exact hr.keeps.has hp
    · refine .inr ⟨b.cursor, .inl (List.mem_singleton_self _), ?_, hnew heffect.firm⟩
      rwa [ht.control, ← hcontrol]

theorem gather (h : p.Spreads cs p') (hg : p'.graph.Gathers cs c) : p.Spreads [c] p' := by
  have hsafe : ∀ x, p'.Safe cs x → p'.Safe [c] x := by
    rintro x (hrooted | ⟨d, hd | hd, hbrings⟩)
    · exact .inl hrooted
    · exact .inr ⟨c, .inl (List.mem_singleton_self _), hg.brings hd hbrings⟩
    · exact .inr ⟨d, .inr hd, hbrings⟩
  refine ⟨h.retains, List.forall_mem_singleton.2 (.gather h.paths h.retains hg), h.points, h.jumps,
    h.reached, h.outer, h.depth, fun x hx hbrings => hsafe x (h.sees x hx hbrings), fun e he => ?_⟩
  refine (h.records e he).imp_right fun ⟨hfirst, hsecond, hnew⟩ => ⟨hfirst, hsecond, ?_⟩
  exact fun htaken heffect => hsafe e.1 (hnew htaken heffect)

theorem leave (hrecords : p.Records p1) (hr : p.graph.Retains p'.graph)
    (hp : p.graph.Has p.cursor.control) (heffects : p'.builder.effects = p.builder.effects)
    (hreturns : p'.body.returns = p1.body.returns) (hloops : p'.loops = p1.loops)
    (hdead : p'.graph.IsDead p'.cursor.control) : p.Spreads [p'.cursor] p' := by
  have hpoints : p'.points = p1.points := by unfold Parser.points; rw [hreturns]
  have hjumps : p'.jumps = p1.jumps := by unfold Parser.jumps innermost; rw [hloops]
  have hnot : ¬ Taken p'.graph p'.cursor.control := fun htaken =>
    htaken.false_of hdead fun _ _ hlive hdead => by simp [hlive] at hdead
  refine ⟨hr, List.forall_mem_singleton.2 ⟨hr, hdead.has, fun h => absurd h hnot, fun h => absurd h hnot⟩,
    hpoints ▸ hrecords.points, hjumps ▸ hrecords.jumps, ?_, hloops ▸ hrecords.outer,
    hloops ▸ hrecords.depth, ?_, ?_⟩
  · rw [hjumps]
    intro c hc
    refine (hrecords.reached c hc).imp_right ?_
    rintro rfl
    exact hr.path hp
  · intro x hx hbrings
    refine .inr ⟨p.cursor, .inr ?_, hbrings.retains hr hx.has⟩
    rw [hpoints, hjumps]
    exact hrecords.kept hbrings.1
  · rw [heffects]
    exact fun e he => .inl he

theorem restore (h : q.Spreads cs q') (hbuilder : q.builder = p.builder) (hbody : q.body = p.body)
    (hnone : q.loops = []) (hbuilder' : p'.builder = q'.builder) (hbody' : p'.body = q'.body)
    (hloops : p'.loops = p.loops) : p.Spreads cs p' := by
  have hempty : q'.jumps = [] := by
    have hnil : q'.loops = [] := List.eq_nil_of_length_eq_zero (by rw [h.depth, hnone]; rfl)
    simp [Parser.jumps, innermost, hnil]
  have hpoints : p.points = q.points := by unfold Parser.points; rw [hbody]
  have hpoints' : p'.points = q'.points := by unfold Parser.points; rw [hbody']
  have hjumps : p'.jumps = p.jumps := by unfold Parser.jumps innermost; rw [hloops]
  have hgraph : p.graph = q.graph := congrArg Builder.graph hbuilder.symm
  have hcursor : p.cursor = q.cursor := congrArg Builder.cursor hbuilder.symm
  have heffects : p.builder.effects = q.builder.effects := congrArg Builder.effects hbuilder.symm
  have hgraph' : p'.graph = q'.graph := congrArg Builder.graph hbuilder'
  have hsafe : ∀ x, q'.Safe cs x → p'.Safe cs x := by
    intro x
    unfold Safe
    rw [hempty, hpoints', hgraph']
    rintro (hrooted | ⟨c, hc | hc | hc, hbrings⟩)
    · exact .inl hrooted
    · exact .inr ⟨c, .inl hc, hbrings⟩
    · exact .inr ⟨c, .inr (.inl hc), hbrings⟩
    · contradiction
  refine ⟨?_, ?_, ?_, ?_, ?_, by rw [hloops], by rw [hloops], ?_, ?_⟩
  · rw [hgraph, hgraph']
    exact h.retains
  · rw [hgraph, hgraph', hcursor]
    exact h.paths
  · rw [hpoints, hpoints']
    exact h.points
  · rw [hjumps]
    exact List.Subset.refl _
  · rw [hjumps]
    exact fun c hc => .inl hc
  · rw [hgraph, hcursor]
    exact fun x hx hbrings => hsafe x (h.sees x hx hbrings)
  · rw [hgraph', heffects, hbuilder']
    intro e he
    refine (h.records e he).imp_right fun ⟨hfirst, hsecond, hnew⟩ => ⟨hfirst, hsecond, ?_⟩
    exact fun htaken heffect => hsafe e.1 (hnew htaken heffect)

end Spreads

/-- Steps of construction lead from `p` to `p'`, and in a graph without errors they leave the path of
`p` at the ends `cs`. -/
structure Proceeds (p : Parser) (cs : List Cursor) (p' : Parser) : Prop where
  builds : p.builder.Builds p'.builder
  spreads : p.graph.Orderly → p'.graph.Clean → p.graph.Has p.cursor.control → p.Spreads cs p'

namespace Proceeds

theorem trans (h1 : p.Proceeds (p1.cursor :: cs) p1) (h2 : p1.Proceeds ds p2) :
    p.Proceeds (ds ++ cs) p2 := by
  refine ⟨h1.builds.trans h2.builds, fun ho hc hhas => ?_⟩
  have hs1 := h1.spreads ho ((h2.builds.keeps h1.builds.neat).clean hc) hhas
  exact hs1.trans (h2.spreads (h1.builds.constructs.orderly ho) hc (hs1.paths _ List.mem_cons_self).has)

theorem later (h : p.Proceeds cs p1) (hb : p1.builder.Builds p2.builder)
    (heffects : p2.builder.effects = p1.builder.effects)
    (hreturns : p2.body.returns = p1.body.returns) (hloops : p2.loops = p1.loops) :
    p.Proceeds cs p2 := by
  refine ⟨h.builds.trans hb, fun ho hc hhas => ?_⟩
  have hs := h.spreads ho ((hb.keeps h.builds.neat).clean hc) hhas
  have hpoints : p2.points = p1.points := by unfold points; rw [hreturns]
  exact hs.later (hb.retains (h.builds.constructs.orderly ho) hc) heffects
    (by rw [hpoints]; exact List.Subset.refl _) hloops

theorem of_mem (h : p.Proceeds cs p') (hmem : ∀ c, c ∈ ds ↔ c ∈ cs) : p.Proceeds ds p' :=
  ⟨h.builds, fun ho hc hhas => (h.spreads ho hc hhas).of_mem hmem⟩

theorem of_advances (h : p.builder.Advances b) : p.Proceeds [b.cursor] { p with builder := b } :=
  ⟨h.toBuilds, fun ho hc hhas => .of_threads (h.retains ho hc) hhas (h.threads ho hc)⟩

theorem of_same (hp : p.builder.Neat) (hbuilder : p'.builder = p.builder)
    (hreturns : p'.body.returns = p.body.returns) (hloops : p'.loops = p.loops) :
    p.Proceeds [p'.cursor] p' := by
  have hsame : p.Proceeds [p.cursor] p := of_advances hp.advances
  rw [cursor, hbuilder]
  exact hsame.later (hbuilder ▸ hp.refl.toBuilds) (by rw [hbuilder]) hreturns hloops

theorem gather (h : p.Proceeds cs p')
    (hg : p.graph.Orderly → p'.graph.Clean → p'.graph.Gathers cs c) : p.Proceeds [c] p' :=
  ⟨h.builds, fun ho hc hhas => (h.spreads ho hc hhas).gather (hg ho hc)⟩

theorem of_stays (hs : p.builder.Stays p'.builder) (hreturns : p'.body.returns = p.body.returns)
    (hloops : p'.loops = p.loops)
    (hpaths : p.graph.Retains p'.graph → p'.graph.Clean → p.graph.Has p.cursor.control →
      (∀ c ∈ cs, Path p.graph p.cursor p'.graph c) ∧
        (Taken p.graph p.cursor.control → ∃ c ∈ cs, Taken p'.graph c.control)) :
    p.Proceeds cs p' := by
  refine ⟨hs.toBuilds, fun ho hc hhas => ?_⟩
  have hr := hs.retains ho hc
  obtain ⟨hpaths, hsome⟩ := hpaths hr hc hhas
  exact .of_retains hr hs.effects hreturns hloops hpaths hsome

theorem restore (h : q.Proceeds cs q') (hbuilder : q.builder = p.builder) (hbody : q.body = p.body)
    (hnone : q.loops = []) (hbuilder' : p'.builder = q'.builder) (hbody' : p'.body = q'.body)
    (hloops : p'.loops = p.loops) : p.Proceeds cs p' := by
  refine ⟨by rw [← hbuilder, hbuilder']; exact h.builds, fun ho hc hhas => ?_⟩
  rw [graph, ← hbuilder] at ho
  rw [graph, hbuilder'] at hc
  rw [graph, cursor, ← hbuilder] at hhas
  exact (h.spreads ho hc hhas).restore hbuilder hbody hnone hbuilder' hbody' hloops

end Proceeds

end Parser

end SeaOfNodes
