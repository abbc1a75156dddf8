import SeaOfNodes.Proofs.Build.Construct
import SeaOfNodes.Scope.Loop

/-!
Joins and loops construct. A join adds its phis to a region that has all its predecessors, and the
path behind it sees what every arm saw that is taken (`Graph.Gathers`). The head of a loop is opened
with phis of one case each, and closing it completes exactly these: its memory sees what the paths back
saw, and phis that are replaced stand for values that see the same.
-/
namespace SeaOfNodes

open SeaOfNodes.Graph SeaOfNodes.Builder

variable {b b' : Builder} {header region : NodeId} {b'' : Builder} {g1 g2 : Graph} {join : Join}
  {phis xs ys : List NodeId}

/-! ### Joins -/

namespace BuildM

theorem mergeEntries_builds {arms : List Arm} (entries : List (Nat × String × Binding))
    (scope : Scope) (hmerge : b.graph.MergeOf region arms.length)
    (hregion : b.graph.At region fun op _ => op = .region) (hb : b.Neat) :
    Does AnyFault b (mergeEntries region arms entries scope) fun _ b' => b.Stays b' := by
  induction entries generalizing b scope with
  | nil => exact .pure hb.refl
  | cons entry entries ih =>
    obtain ⟨depth, name, binding⟩ := entry
    rw [mergeEntries]
    split
    · exact ih scope hmerge hregion hb
    · rename_i before _
      dsimp only
      split
      · exact ih scope hmerge hregion hb
      · have hlength : (casesOf arms depth name before).length = arms.length := by simp [casesOf]
        refine (make_phi_builds .value (hlength ▸ hmerge) hregion hb).bind fun merged b1 h1 => ?_
        refine (ih _ (h1.mergeOf hb hmerge) (h1.at hb hregion) h1.neat).imp fun _ b2 h2 => ?_
        exact h1.trans h2

end BuildM

/-- The region of a join has a predecessor for each arm that is taken. -/
def Join.Complete (join : Join) (g : Graph) : Prop :=
  ∀ region, join.region = some region →
    g.MergeOf region join.live.length ∧ g.At region fun op _ => op = .region

theorem Join.Complete.builds {join : Join} (h : join.Complete b.graph) (hb : b.Neat)
    (hbuilds : b.Builds b') : join.Complete b'.graph := by
  intro region hr
  obtain ⟨hmerge, hregion⟩ := h region hr
  exact ⟨hbuilds.mergeOf hb hmerge, hbuilds.at hb hregion⟩

/-- A path goes on where some others meet: it is taken if one of them is, and sees what those saw
that are. -/
structure Graph.Gathers (g : Graph) (arms : List Cursor) (c : Cursor) : Prop where
  each : ∀ a ∈ arms, g.Has a.control
  has : g.Has c.control
  taken : Taken g c.control ↔ ∃ a ∈ arms, Taken g a.control
  sees : ∀ a ∈ arms, Taken g a.control → g.Sees c.memory a.memory

namespace Graph.Gathers

variable {g g' : Graph} {arms live : List Cursor} {c : Cursor}

theorem of_live (h : g.Gathers live c) (harms : ∀ a ∈ arms, g.Has a.control)
    (hlive : ∀ a, a ∈ live ↔ a ∈ arms ∧ Taken g a.control) : g.Gathers arms c := by
  refine ⟨harms, h.has, h.taken.trans ?_, fun a ha htaken => h.sees a ((hlive a).2 ⟨ha, htaken⟩) htaken⟩
  refine exists_congr fun a => ?_
  rw [hlive, and_assoc, and_self]

end Graph.Gathers

namespace BuildM

theorem mergeLive_builds (parent : Scope) (live : List (Nat × Arm)) (hb : b.Neat)
    (hlive : ∀ p ∈ live, b.graph.Has p.2.cursor.control) :
    Does AnyFault b (mergeLive parent live) fun join b' => b.Stays b' ∧ join.Complete b'.graph ∧
      b'.graph.Gathers (live.map fun p => p.2.cursor) join.cursor := by
  refine (make_region_builds _ hb).bind fun region b1 ⟨h1, hmerge, hregion, htaken⟩ => ?_
  rw [List.length_map] at hmerge
  refine (mergeEntries_builds _ _ hmerge hregion h1.neat).bind fun scope b2 h2 => ?_
  have hmerge2 := h2.mergeOf h1.neat hmerge
  have hregion2 := h2.at h1.neat hregion
  refine (make_phi_memory_builds ?_ hregion2 h2.neat).bind fun memory b3 ⟨h3, hsees⟩ => ?_
  · rw [List.length_map]
    exact hmerge2
  have h13 := h2.trans h3
  have hkeeps := (h1.trans h13).keeps hb
  refine .pure ⟨h1.trans h13, ?_, ?_, h13.has h1.neat hregion.has, ?_, ?_⟩
  · rintro _ ⟨⟩
    rw [List.length_map] at hmerge2
    simp only [List.length_map]
    exact ⟨h3.mergeOf h2.neat hmerge2, h3.at h2.neat hregion2⟩
  · intro a ha
    obtain ⟨p, hp, rfl⟩ := List.mem_map.1 ha
    exact hkeeps.has (hlive p hp)
  · rw [(h13.keeps h1.neat).taken_iff hregion.has, htaken]
    simp only [List.map_map, List.mem_map]
    constructor
    · rintro ⟨_, ⟨p, hp, rfl⟩, hx⟩
      exact ⟨_, ⟨p, hp, rfl⟩, (hkeeps.taken_iff (hlive p hp)).2 hx⟩
    · rintro ⟨_, ⟨p, hp, rfl⟩, hx⟩
      exact ⟨_, ⟨p, hp, rfl⟩, (hkeeps.taken_iff (hlive p hp)).1 hx⟩
  · intro a ha _
    obtain ⟨p, hp, rfl⟩ := List.mem_map.1 ha
    exact hsees _ (by simpa using ⟨p.1, p.2, hp, rfl⟩)

theorem liveArms_finds (arms : List Arm) (index : Nat) :
    Does AnyFault b (liveArms index arms) fun live b' => b' = b ∧
      (∀ a ∈ arms, b.graph.Has a.cursor.control) ∧
      ∀ a, (∃ i, (i, a) ∈ live) ↔ a ∈ arms ∧ Taken b.graph a.cursor.control := by
  induction arms generalizing index with
  | nil => exact .pure ⟨rfl, by simp, by simp⟩
  | cons arm arms ih =>
    refine (Does.look_eq _).bind ?_
    rintro dead b ⟨rfl, hdead⟩
    refine (ih (index + 1)).bind ?_
    rintro rest b ⟨rfl, hhas, hrest⟩
    have htaken := taken_iff_of_isDeadControl hdead
    have harm : b.graph.Has arm.cursor.control := by
      obtain ⟨t, ht, -⟩ := bind_eq_ok_iff.1 hdead
      unfold ty at ht
      split at ht
      · exact ⟨_, ‹_›⟩
      · contradiction
    refine .pure ⟨rfl, List.forall_mem_cons.2 ⟨harm, hhas⟩, fun a => ?_⟩
    cases dead with
    | true =>
      have hnot : ¬ Taken b.graph arm.cursor.control := fun h => by simpa using htaken.2 h
      simp only [if_true, hrest, List.mem_cons]
      constructor
      · exact fun h => ⟨.inr h.1, h.2⟩
      · rintro ⟨rfl | ha, h⟩
        · exact absurd h hnot
        · exact ⟨ha, h⟩
    | false =>
      have hyes := htaken.1 rfl
      simp only [Bool.false_eq_true, if_false, List.mem_cons, Prod.mk.injEq]
      constructor
      · rintro ⟨i, ⟨-, rfl⟩ | hi⟩
        · exact ⟨.inl rfl, hyes⟩
        · exact ⟨.inr ((hrest a).1 ⟨i, hi⟩).1, ((hrest a).1 ⟨i, hi⟩).2⟩
      · rintro ⟨rfl | ha, h⟩
        · exact ⟨index, .inl ⟨rfl, rfl⟩⟩
        · obtain ⟨i, hi⟩ := (hrest a).2 ⟨ha, h⟩
          exact ⟨i, .inr hi⟩

theorem merge_builds (parent : Scope) (arms : List Arm) (hb : b.Neat) :
    Does AnyFault b (merge parent arms) fun join b' => b.Stays b' ∧ join.Complete b'.graph ∧
      (b.graph.Orderly → b'.graph.Gathers (arms.map Arm.cursor) join.cursor) := by
  unfold merge
  refine (liveArms_finds _ 0).bind ?_
  rintro live b ⟨rfl, hhas, hlive⟩
  have hcut : (arms.map fun arm => { arm with scope := arm.scope.truncate parent.depth }).map Arm.cursor =
      arms.map Arm.cursor := by simp
  rw [← hcut]
  generalize (arms.map fun arm : Arm => { arm with scope := arm.scope.truncate parent.depth }) = arms
    at hhas hlive
  have harms : ∀ c ∈ arms.map Arm.cursor, b.graph.Has c.control := by simpa using hhas
  have hcursor : ∀ c : Cursor, (c ∈ live.map fun p => p.2.cursor) ↔
      c ∈ arms.map Arm.cursor ∧ Taken b.graph c.control := by
    intro c
    rw [List.mem_map, List.mem_map]
    constructor
    · rintro ⟨p, hp, rfl⟩
      obtain ⟨hmem, htaken⟩ := (hlive p.2).1 ⟨p.1, hp⟩
      exact ⟨⟨p.2, hmem, rfl⟩, htaken⟩
    · rintro ⟨⟨arm, harm, rfl⟩, htaken⟩
      obtain ⟨i, hi⟩ := (hlive arm).2 ⟨harm, htaken⟩
      exact ⟨_, hi, rfl⟩
  split
  · refine Does.bind (Q := fun _ b1 => b1 = b) rfl ?_
    rintro c _ rfl
    refine (deadControl_builds hb).bind fun control b1 ⟨h1, hdead⟩ => .pure ⟨h1, ?_, fun ho => ?_⟩
    · simp [Join.Complete]
    · have hkeeps := h1.keeps hb
      have hnone : ∀ c ∈ arms.map Arm.cursor, ¬ Taken b1.graph c.control := by
        intro c hc htaken
        have hmem := (hcursor c).2 ⟨hc, (hkeeps.taken_iff (harms c hc)).1 htaken⟩
        simp at hmem
      refine ⟨fun c hc => hkeeps.has (harms c hc), (hdead ho).has, ?_, ?_⟩
      · refine iff_of_false ?_ fun ⟨c, hc, htaken⟩ => hnone c hc htaken
        exact fun htaken => htaken.false_of (hdead ho) fun _ _ hlive hdead => by simp [hlive] at hdead
      · exact fun c hc htaken => absurd htaken (hnone c hc)
  · rename_i index arm
    obtain ⟨-, htaken⟩ := (hlive arm).1 ⟨index, List.mem_singleton_self _⟩
    refine .pure ⟨hb.refl, by simp [Join.Complete], fun _ => ?_⟩
    have hself : b.graph.Gathers [arm.cursor] arm.cursor := by
      refine ⟨by simpa using htaken.has, htaken.has, by simp, ?_⟩
      simp only [List.mem_singleton]
      rintro _ rfl -
      exact .refl _ _
    exact hself.of_live harms hcursor
  · refine (mergeLive_builds parent live hb ?_).imp fun join b1 ⟨h1, hcomplete, hgathers⟩ => ?_
    · exact fun p hp => hhas _ ((hlive p.2).1 ⟨p.1, hp⟩).1
    · have hkeeps := h1.keeps hb
      refine ⟨h1, hcomplete, fun _ => hgathers.of_live (fun c hc => hkeeps.has (harms c hc)) ?_⟩
      intro c
      rw [hcursor]
      exact and_congr_right fun hc => (hkeeps.taken_iff (harms c hc)).symm

end BuildM

namespace Join

theorem caseOf_same (values : List NodeId) (arm : Nat) :
    Does AnyFault b (caseOf values arm) fun _ b' => b' = b := by
  unfold caseOf
  split
  · exact .pure rfl
  · exact trivial

theorem mapM_caseOf_same (values : List NodeId) (live : List Nat) :
    Does AnyFault b (live.mapM (caseOf values)) fun cases b' =>
      b' = b ∧ cases.length = live.length := by
  induction live generalizing b with
  | nil => exact .pure ⟨rfl, rfl⟩
  | cons arm live ih =>
    rw [List.mapM_cons]
    refine (caseOf_same values arm).bind ?_
    rintro value b rfl
    refine ih.bind ?_
    rintro cases b ⟨rfl, hlength⟩
    exact .pure ⟨rfl, by rw [List.length_cons, List.length_cons, hlength]⟩

theorem mergeValues_builds {join : Join} (values : List NodeId) (hjoin : join.Complete b.graph)
    (hb : b.Neat) : Does AnyFault b (join.mergeValues values) fun _ b' => b.Stays b' := by
  unfold mergeValues
  split
  · rename_i region hr
    obtain ⟨hmerge, hregion⟩ := hjoin region hr
    refine (mapM_caseOf_same values join.live).bind ?_
    rintro cases b ⟨rfl, hlength⟩
    refine BuildM.make_phi_builds .value ?_ hregion hb
    rw [hlength]
    exact hmerge
  · refine (caseOf_same values _).imp ?_
    rintro _ b rfl
    exact hb.refl
  · split
    · exact .pure hb.refl
    · exact (BuildM.create_builds (by simp) hb).imp fun _ _ h => h.1

end Join

/-! ### Loops -/

theorem Graph.Opens.append {xs ys : List NodeId} {g g1 g2 : Graph} (h1 : Opens header xs g g1)
    (h2 : Opens header ys g1 g2) : Opens header (xs ++ ys) g g2 := by
  induction h1 with
  | nil => exact h2
  | phi hadd _ ih => exact .phi hadd (ih h2)
  | error hreports herror _ ih => exact .error hreports herror (ih h2)

theorem Graph.Appends.append {xs ys : List NodeId} {g g1 g2 : Graph} (h1 : Appends xs g g1)
    (h2 : Appends ys g1 g2) : Appends (xs ++ ys) g g2 := by
  induction h1 with
  | nil => exact h2
  | cons happend _ ih => exact .cons happend (ih h2)

theorem Graph.Appends.retains {g g' : Graph} (h : Appends xs g g') : Retains g g' := by
  induction h with
  | nil => exact .refl _
  | cons happend _ ih => exact (Retains.appendInput happend).trans ih

theorem Graph.Appends.silent {g g' : Graph} (h : Appends xs g g') : Silent g g' := by
  induction h with
  | nil => exact .refl _
  | cons happend _ ih => exact (Silent.appendInput happend).trans ih

theorem Graph.Collapses.silent {g g' : Graph} (h : Collapses phis g g') : Silent g g' := by
  induction h with
  | nil => exact .refl _
  | cons _ hr _ ih => exact (Silent.replace hr).trans ih

namespace LoopPhis

variable {backEdges : List Arm} {replaced : List (NodeId × NodeId)}

/-- The nodes that stand for the variables and for memory at the head of a loop. -/
def nodes (phis : LoopPhis) : List NodeId := phis.locals.map LoopLocal.phi ++ [phis.memory]

/-- A step opens part of the head of a loop. -/
structure Begins (header : NodeId) (phis : List NodeId) (b b' : Builder) : Prop where
  neat : b'.Neat
  merge : b'.graph.MergeOf header 1
  opens : Opens header phis b.graph b'.graph
  retains : b.graph.Orderly → b'.graph.Clean → b.graph.Retains b'.graph
  logged : b.graph.Orderly → b.Logged → b'.Logged
  effects : b'.effects = b.effects

theorem Begins.trans {xs ys : List NodeId} {b'' : Builder} (h1 : Begins header xs b b')
    (h2 : Begins header ys b' b'') : Begins header (xs ++ ys) b b'' where
  neat := h2.neat
  merge := h2.merge
  opens := h1.opens.append h2.opens
  retains ho hc := by
    have hkeeps := (h2.opens.opened h1.neat.dense).persists.keeps
    exact (h1.retains ho (hkeeps.clean hc)).trans (h2.retains (ho.opens h1.opens) hc)
  logged ho h := h2.logged (ho.opens h1.opens) (h1.logged ho h)
  effects := h2.effects.trans h1.effects

theorem Begins.isPhi {phis : List NodeId} (h : Begins header phis b b') (hd : b.graph.Dense)
    (hc : b'.graph.Clean) : ∀ x ∈ phis, ¬ b.graph.Has x ∧ b'.graph.IsPhi x := by
  intro x hx
  rcases (h.opens.opened hd).listed x hx with herror | ⟨hfresh, hphi, -⟩
  · exact absurd herror (not_isError hc)
  · exact ⟨hfresh, hphi⟩

theorem make_phi_begins {case : NodeId} (ty : Ty) (hmerge : b.graph.MergeOf header 1)
    (hb : b.Neat) : Does AnyFault b (BuildM.make (.phi header [case] (.loop ty))) fun phi b' =>
      Begins header [phi] b b' ∧ b'.cursor = b.cursor ∧
        (b'.graph.Clean → b'.graph.IsPhi phi ∧ b'.graph.Back phi case) := by
  refine (BuildM.make_phi_opens ty hmerge hb).imp ?_
  rintro phi b' ⟨hrests, hmerge', ⟨ty, hadd⟩ | ⟨hreports, herror⟩⟩
  · refine ⟨⟨hrests.neat, hmerge', .phi hadd .nil, hrests.retains, hrests.logged, hrests.effects⟩,
      hrests.cursor, fun _ => ?_⟩
    exact ⟨(addPhi_spec hb.dense hadd).isPhi, BuildM.back_addPhi hb.dense hadd (List.mem_singleton_self _)⟩
  · refine ⟨⟨hrests.neat, hmerge', .error hreports herror .nil, hrests.retains, hrests.logged,
      hrests.effects⟩, hrests.cursor, fun hclean => ?_⟩
    exact absurd herror (not_isError hclean)

theorem openEntries_begins (entries : List (Nat × String × Binding)) (scope : Scope)
    (hmerge : b.graph.MergeOf header 1) (hb : b.Neat) :
    Does AnyFault b (openEntries header entries scope) fun r b' =>
      Begins header (r.1.map LoopLocal.phi) b b' ∧ b'.cursor = b.cursor := by
  induction entries generalizing b scope with
  | nil => exact .pure ⟨⟨hb, hmerge, .nil, fun _ _ => .refl _, fun _ h => h, rfl⟩, rfl⟩
  | cons entry entries ih =>
    obtain ⟨depth, name, binding⟩ := entry
    cases binding with
    | held id ty =>
      refine (make_phi_begins ty hmerge hb).bind fun phi b1 ⟨h1, hcursor1, _⟩ => ?_
      refine (ih _ h1.merge h1.neat).bind fun r b2 ⟨h2, hcursor2⟩ => ?_
      exact .pure ⟨h1.trans h2, hcursor2.trans hcursor1⟩
    | type ty => exact ih scope hmerge hb
    | value id => exact ih scope hmerge hb
    | slot address ty => exact ih scope hmerge hb

theorem enter_begins (scope : Scope) (hmerge : b.graph.MergeOf header 1) (hb : b.Neat) :
    Does AnyFault b (enter scope header) fun r b' =>
      r.1.header = header ∧ Begins header r.1.nodes b b' ∧ b'.cursor = ⟨header, r.1.memory⟩ ∧
        (b'.graph.Clean → b'.graph.IsPhi r.1.memory ∧ b'.graph.Back r.1.memory b.cursor.memory) := by
  refine (openEntries_begins _ _ hmerge hb).bind fun r b1 ⟨h1, hcursor⟩ => ?_
  refine Does.bind (Q := fun c b2 => c = b.cursor ∧ b2 = b1) ⟨hcursor, rfl⟩ ?_
  rintro _ _ ⟨rfl, rfl⟩
  refine (make_phi_begins .memory h1.merge h1.neat).bind fun memory b2 ⟨h2, _, hphi⟩ => ?_
  refine Does.bind (Q := fun _ b3 => b3 = { b2 with cursor := ⟨header, memory⟩ })
    (.of_modify rfl) ?_
  rintro _ _ rfl
  have h := h1.trans h2
  refine .pure ⟨rfl, ⟨⟨h.neat.dense, h.neat.fit, h.neat.reported⟩, h.merge, h.opens, h.retains, h.logged,
    h.effects⟩, rfl, hphi⟩

/-! ### Closing a loop -/

/-- Steps give inputs to nodes, each as often as the list has it. -/
structure Appends (xs : List NodeId) (b b' : Builder) : Prop where
  eq : b' = { b with graph := b'.graph }
  graph : Graph.Appends xs b.graph b'.graph

theorem Appends.trans {xs ys : List NodeId} {b'' : Builder} (h1 : Appends xs b b')
    (h2 : Appends ys b' b'') : Appends (xs ++ ys) b b'' := by
  refine ⟨?_, h1.graph.append h2.graph⟩
  rw [h2.eq, h1.eq]

theorem appendInput_appends (id input : NodeId) :
    Does AnyFault b (BuildM.edit fun g => g.appendInput id input) fun _ b' =>
      Appends [id] b b' ∧ b.graph.appendInput id input = .ok b'.graph :=
  .of_edit fun _ h => ⟨⟨rfl, .cons h .nil⟩, h⟩

theorem appendValues_appends (scope : Scope) (locals : List LoopLocal) :
    Does AnyFault b (appendValues scope locals) fun _ b' =>
      Appends (locals.map LoopLocal.phi) b b' := by
  induction locals generalizing b with
  | nil => exact .pure ⟨rfl, .nil⟩
  | cons v locals ih =>
    exact (appendInput_appends _ _).bind fun _ b1 h1 => ih.imp fun _ b2 h2 => h1.1.trans h2

theorem appendEdge_appends (phis : LoopPhis) (arm : Arm) :
    Does AnyFault b (phis.appendEdge arm) fun _ b' =>
      (∃ paths, Appends (List.replicate paths (phis.header :: phis.nodes)).flatten b b') ∧
        (b.graph.Orderly → b.graph.IsPhi phis.memory → (∃ y, b.graph.Back phis.memory y) →
          Taken b.graph arm.cursor.control → b'.graph.Sees phis.memory arm.cursor.memory) := by
  refine (Does.look_eq _).bind ?_
  rintro dead b ⟨rfl, hdead⟩
  split
  · rename_i hdead'
    refine .pure ⟨⟨0, rfl, .nil⟩, fun _ _ _ htaken => ?_⟩
    have := (BuildM.taken_iff_of_isDeadControl hdead).2 htaken
    simp [hdead'] at this
  · refine (appendInput_appends _ _).bind fun _ b1 ⟨h1, _⟩ => ?_
    refine (appendValues_appends _ _).bind fun _ b2 h2 => ?_
    refine (appendInput_appends _ _).imp fun _ b3 ⟨h3, happend⟩ => ⟨⟨1, ?_⟩, ?_⟩
    · have h := h1.trans (h2.trans h3)
      simpa [nodes] using h
    · intro ho hphi hback _
      have h := h1.trans h2
      have hr := h.graph.retains
      obtain ⟨y, hy⟩ := hback
      obtain ⟨z, hz⟩ := hr.back hy
      exact (ho.appends h.graph).sees_appendInput (hr.keeps.at hphi) hz happend

theorem appendEdges_appends (phis : LoopPhis) (arms : List Arm) :
    Does AnyFault b (phis.appendEdges arms) fun _ b' =>
      (∃ paths, Appends (List.replicate paths (phis.header :: phis.nodes)).flatten b b') ∧
        (b.graph.Orderly → b.graph.IsPhi phis.memory → (∃ y, b.graph.Back phis.memory y) →
          ∀ arm ∈ arms, Taken b.graph arm.cursor.control →
            b'.graph.Sees phis.memory arm.cursor.memory) := by
  induction arms generalizing b with
  | nil => exact .pure ⟨⟨0, rfl, .nil⟩, by simp⟩
  | cons arm arms ih =>
    refine (appendEdge_appends phis arm).bind fun _ b1 ⟨⟨m, h1⟩, hsees1⟩ => ?_
    refine ih.imp fun _ b2 ⟨⟨n, h2⟩, hsees2⟩ => ⟨⟨m + n, ?_⟩, ?_⟩
    · rw [← List.replicate_append_replicate, List.flatten_append]
      exact h1.trans h2
    · intro ho hphi hback a ha htaken
      have hr := h1.graph.retains
      have ho1 := ho.appends h1.graph
      rcases List.mem_cons.1 ha with rfl | ha
      · exact h2.graph.retains.sees_of ho1 (hsees1 ho hphi hback htaken)
      · obtain ⟨y, hy⟩ := hback
        exact hsees2 ho1 (hr.keeps.at hphi) (hr.back hy) a ha (hr.keeps.at htaken)

theorem singleCase_stands (phi : NodeId) : Does AnyFault b (singleCase? phi) fun found b' =>
    b' = b ∧ ∀ value, found = some value → b.graph.Orderly → b.graph.IsPhi phi →
      b.graph.Stands phi value := by
  refine (Does.look_eq _).bind ?_
  rintro node b ⟨rfl, hn⟩
  split
  · exact trivial
  · rename_i r cases hinputs
    refine .pure ⟨rfl, fun value hvalue ho hphi => ?_⟩
    obtain ⟨rest, hrest, hall⟩ := BuildM.allSame_eq_some hvalue
    have hn := node_eq_ok_iff.1 hn
    have hop : node.op = .phi := by
      obtain ⟨other, hother, hop⟩ := hphi
      cases hn.symm.trans hother
      exact hop
    have hmemories : node.memories = cases := by simp [Node.memories, hop, hinputs]
    have hmem : ∀ y, y ∈ cases ∧ y ≠ phi ↔ y = value ∨ y ∈ rest := by
      intro y
      rw [← List.mem_cons, ← hrest]
      simp
    have hself := (hmem value).2 (.inl rfl)
    refine ⟨hself.2.symm, hphi, .inr ⟨node, hn, hmemories ▸ hself.1⟩, ?_⟩
    rintro y (⟨e, he, -⟩ | ⟨other, hother, hy⟩)
    · simp [ho.memory_phi hphi] at he
    · cases hn.symm.trans hother
      rw [hmemories] at hy
      by_cases hy' : y = phi
      · exact .inl hy'
      · rcases (hmem y).1 ⟨hy, hy'⟩ with rfl | hy
        · exact .inr rfl
        · exact .inr (hall y hy)

/-- Replacing phis by the values that they stand for. -/
structure Settles (phis : List NodeId) (replaced : List (NodeId × NodeId)) (g g' : Graph) : Prop where
  reroutes : Reroutes phis g g'
  sees : ∀ q ∈ replaced, ∀ x ∉ phis, g'.Sees q.1 x → g'.Sees q.2 x

theorem collapse_collapses (phis rest : List NodeId) (hrest : rest ⊆ phis) :
    Does AnyFault b (collapse rest) fun replaced b' =>
      b' = { b with graph := b'.graph } ∧ Collapses phis b.graph b'.graph ∧
        (b.graph.Orderly → (∀ x ∈ phis, b.graph.IsPhi x) →
          Settles phis replaced b.graph b'.graph) := by
  induction rest generalizing b with
  | nil => exact .pure ⟨rfl, .nil, fun _ _ => ⟨.refl _ _, by simp⟩⟩
  | cons phi rest ih =>
    obtain ⟨hphi, hrest⟩ := List.cons_subset.1 hrest
    refine (singleCase_stands phi).bind ?_
    rintro found b ⟨rfl, hstands⟩
    split
    · rename_i value
      refine Does.bind (Q := fun _ b1 => b1 = { b with graph := b1.graph } ∧
        b.graph.replace phi value = .ok b1.graph) (.of_edit fun g hg => ⟨rfl, hg⟩) ?_
      rintro _ b1 ⟨hb1, hr⟩
      refine (ih hrest).bind fun replaced b2 ⟨hb2, hcollapses, hsettles⟩ => ?_
      refine .pure ⟨by rw [hb2, hb1], .cons hphi hr hcollapses, fun ho hphis => ?_⟩
      have hstands := hstands value rfl ho (hphis phi hphi)
      have hreroutes := (reroutes_replace hstands ho hr).mono (by simpa using hphi)
      have hsettles := hsettles (ho.replace hr) fun x hx => hreroutes.keeps.at (hphis x hx)
      refine ⟨hreroutes.trans hsettles.reroutes, List.forall_mem_cons.2 ⟨?_, hsettles.sees⟩⟩
      intro x hx hsees
      have hne : x ≠ phi := fun heq => hx (heq ▸ hphi)
      rw [hsettles.reroutes.sees hx] at hsees ⊢
      exact (hstands.replace ho hr).sees hne hsees
    · exact ih hrest

theorem resolve_sees {g : Graph} {fuel : Nat} {id found x : NodeId}
    (h : resolve replaced fuel id = .ok found) (hsees : ∀ q ∈ replaced, g.Sees q.1 x → g.Sees q.2 x)
    (hx : g.Sees id x) : g.Sees found x := by
  induction fuel generalizing id with
  | zero => contradiction
  | succ fuel ih =>
    rw [resolve] at h
    split at h
    · rename_i next hnext
      obtain ⟨l1, l2, heq, -⟩ := List.lookup_eq_some_iff.1 hnext
      exact ih h (hsees (id, next) (by simp [heq]) hx)
    · cases h
      exact hx

structure Closes (phis : LoopPhis) (backEdges : List Arm) (replaced : List (NodeId × NodeId))
    (b b' : Builder) : Prop where
  eq : b' = { b with graph := b'.graph }
  graph : ∃ paths g,
    Graph.Appends (List.replicate paths (phis.header :: phis.nodes)).flatten b.graph g ∧
      Collapses phis.nodes g b'.graph ∧
      (b.graph.Orderly → (∀ x ∈ phis.nodes, b.graph.IsPhi x) →
        Settles phis.nodes replaced g b'.graph ∧ ((∃ y, b.graph.Back phis.memory y) →
          ∀ arm ∈ backEdges, Taken b.graph arm.cursor.control →
            g.Sees phis.memory arm.cursor.memory))

theorem Closes.keeps {phis : LoopPhis} {backEdges : List Arm} {replaced : List (NodeId × NodeId)}
    (h : phis.Closes backEdges replaced b b') : Keeps b.graph b'.graph := by
  obtain ⟨paths, g, happends, hcollapses, -⟩ := h.graph
  exact happends.appended.keeps.trans hcollapses.keeps

theorem close_closes (phis : LoopPhis) (backEdges : List Arm) :
    Does AnyFault b (phis.close backEdges) fun replaced b' => phis.Closes backEdges replaced b b' := by
  refine (appendEdges_appends phis backEdges).bind fun _ b1 ⟨⟨paths, h1⟩, hsees⟩ => ?_
  refine (collapse_collapses phis.nodes _ (List.Subset.refl _)).bind
    fun replaced b2 ⟨hb2, hcollapses, hsettles⟩ => ?_
  refine (Does.mapM_each (R := fun old new => new.1 = old.1 ∧
    resolve replaced (replaced.length + 1) old.2 = .ok new.2) replaced ?_).imp ?_
  · rintro ⟨old, new⟩
    refine (Does.lift_eq _).bind ?_
    rintro found b ⟨rfl, hfound⟩
    exact .pure ⟨rfl, rfl, hfound⟩
  · rintro resolved b ⟨rfl, hresolved⟩
    refine ⟨by rw [hb2, h1.eq], paths, b1.graph, h1.graph, hcollapses, fun ho hphis => ?_⟩
    have hphis1 : ∀ x ∈ phis.nodes, b1.graph.IsPhi x :=
      fun x hx => h1.graph.retains.keeps.at (hphis x hx)
    have hsettles := hsettles (ho.appends h1.graph) hphis1
    refine ⟨⟨hsettles.reroutes, fun q hq x hx hsees => ?_⟩, hsees ho (hphis _ (by simp [nodes]))⟩
    obtain ⟨⟨old, new⟩, hmem, heq, hfound⟩ := hresolved q hq
    rw [heq] at hsees
    exact resolve_sees hfound (fun q hq => hsettles.sees q hq x hx) (hsettles.sees _ hmem x hx hsees)

theorem Closes.builds {phis : LoopPhis} {entry : NodeId} {ty : Ty} {b1 b2 b3 : Builder}
    (h : phis.Closes backEdges replaced b3 b') (hb : b.Neat)
    (hcreate : b.graph.create .loop ty [entry] = .ok (phis.header, b1.graph))
    (heffects : b1.effects = b.effects) (hbegins : Begins phis.header phis.nodes b1 b2)
    (hbody : b2.Builds b3) : b.Builds b' := by
  obtain ⟨paths, g, happends, hcollapses, hgraph⟩ := h.graph
  have hconstructs : b.graph.Constructs b'.graph :=
    .loop hcreate hbegins.opens hbody.constructs happends hcollapses
  have hfits := hconstructs.fits hb.dense hb.fit
  have hfirst : b.graph.Constructs b1.graph := .create (by simp) hcreate
  have hd1 := (hfirst.fits hb.dense hb.fit).dense
  refine ⟨⟨hfits.dense, hfits.fit, ?_⟩, hconstructs, fun ho hc => ?_, fun ho hlogged => ?_⟩
  · intro entry hentry
    rw [h.eq] at hentry
    exact (happends.appended.keeps.trans hcollapses.keeps).at (hbody.neat.reported entry hentry)
  · have hc3 := (happends.appended.keeps.trans hcollapses.keeps).clean hc
    have hc2 := (hbody.keeps hbegins.neat).clean hc3
    have ho2 := (hfirst.orderly ho).opens hbegins.opens
    have hr1 : b.graph.Retains b1.graph := .create hb.dense hcreate
    have hr3 := hbody.retains ho2 hc3
    have hphis := hbegins.isPhi hd1 hc2
    have hsettles := (hgraph (hbody.constructs.orderly ho2) fun x hx => hr3.keeps.at (hphis x hx).2).1
    have hr := ((hr1.trans (hbegins.retains (hfirst.orderly ho) hc2)).trans hr3).trans happends.retains
    exact hr.reroutes hsettles.reroutes fun x hx hhas => (hphis x hx).1 (hr1.keeps.has hhas)
  · have ho1 := hfirst.orderly ho
    have hlogged1 : b1.Logged := by
      intro x hacts
      rw [heffects]
      exact hlogged x (Silent.create ho rfl hcreate x hacts)
    have hlogged3 := hbody.logged (ho1.opens hbegins.opens) (hbegins.logged ho1 hlogged1)
    intro x hacts
    rw [h.eq]
    exact hlogged3 x (happends.silent x (hcollapses.silent x hacts))

end LoopPhis

end SeaOfNodes
