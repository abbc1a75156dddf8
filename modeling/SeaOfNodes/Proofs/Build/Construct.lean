import SeaOfNodes.Build.Value
import SeaOfNodes.Proofs.Build.Request
import SeaOfNodes.Proofs.Graph.Acts

/-!
The steps of the builder construct: whatever result they have, they change the graph in the ways
that `Graph.Constructs` lists. Whether they have one is no matter here, so no handle that they are
given has to be known.
-/
namespace SeaOfNodes

open SeaOfNodes.Graph

variable {Q : NodeId → Builder → Prop} {cases inputs : List NodeId} {op : Op} {region : NodeId}
  {tag : MemoryTag} {target : Option NodeId} {ty : Ty}

namespace Does

variable {α : Type} {b : Builder}

theorem of_ok {m : BuildM α} {Q : α → Builder → Prop} (h : ∀ a b', m b = .ok (a, b') → Q a b') :
    Does AnyFault b m Q := by
  unfold Does Yields
  split
  · rename_i r hr
    exact h r.1 r.2 hr
  · exact trivial

theorem of_edit {f : Graph → Except Fault Graph} {Q : Unit → Builder → Prop}
    (h : ∀ g, f b.graph = .ok g → Q () { b with graph := g }) : Does AnyFault b (BuildM.edit f) Q := by
  refine of_ok fun a b' hb' => ?_
  obtain ⟨g, hg, hb'⟩ := bind_eq_ok_iff.1 hb'
  cases Except.ok.inj hb'
  exact h g hg

theorem of_editWith {f : Graph → Except Fault (NodeId × Graph)}
    (h : ∀ id g, f b.graph = .ok (id, g) → Q id { b with graph := g }) :
    Does AnyFault b (BuildM.editWith f) Q := by
  refine of_ok fun a b' hb' => ?_
  obtain ⟨⟨id, g⟩, hg, hb'⟩ := bind_eq_ok_iff.1 hb'
  obtain ⟨rfl, rfl⟩ := Prod.mk.inj (Except.ok.inj hb')
  exact h id g hg

theorem look_eq (f : Graph → Except Fault α) :
    Does AnyFault b (BuildM.look f) fun a b' => b' = b ∧ f b.graph = .ok a := by
  refine look ?_
  cases f b.graph with
  | ok a => exact ⟨rfl, rfl⟩
  | error e => exact trivial

theorem look_same (f : Graph → Except Fault α) :
    Does AnyFault b (BuildM.look f) fun _ b' => b' = b :=
  (look_eq f).imp fun _ _ h => h.1

theorem lift_eq (m : Except Fault α) :
    Does AnyFault b (liftM m : BuildM α) fun a b' => b' = b ∧ m = .ok a := by
  refine lift ?_
  cases m with
  | ok a => exact ⟨rfl, rfl⟩
  | error e => exact trivial

theorem lift_same (m : Except Fault α) : Does AnyFault b (liftM m : BuildM α) fun _ b' => b' = b :=
  (lift_eq m).imp fun _ _ h => h.1

theorem mapM_each {β : Type} {f : α → BuildM β} {R : α → β → Prop} (xs : List α)
    (hf : ∀ a, Does AnyFault b (f a) fun y b' => b' = b ∧ R a y) :
    Does AnyFault b (xs.mapM f) fun ys b' => b' = b ∧ ∀ y ∈ ys, ∃ a ∈ xs, R a y := by
  induction xs with
  | nil => exact .pure ⟨rfl, by simp⟩
  | cons a xs ih =>
    rw [List.mapM_cons]
    refine (hf a).bind ?_
    rintro y b ⟨rfl, hy⟩
    refine ih.bind ?_
    rintro ys b ⟨rfl, hys⟩
    refine .pure ⟨rfl, List.forall_mem_cons.2 ⟨⟨a, .head _, hy⟩, fun z hz => ?_⟩⟩
    obtain ⟨a, ha, hz⟩ := hys z hz
    exact ⟨a, .tail _ ha, hz⟩

end Does

/-! ### Changes without effects -/

/-- A change of construction that gives no node an effect. -/
structure Graph.Quiet (g g' : Graph) : Prop where
  constructs : g.Constructs g'
  retains : g.Orderly → g'.Clean → g.Retains g'
  silent : g.Orderly → g.Silent g'

namespace Graph.Quiet

variable {g g' g'' : Graph} {id : NodeId}

theorem refl (g : Graph) : Quiet g g := ⟨.refl g, fun _ _ => .refl g, fun _ => .refl g⟩

theorem trans (hd : g'.Dense) (hfit : g'.PhisFit) (h1 : Quiet g g') (h2 : Quiet g' g'') :
    Quiet g g'' where
  constructs := h1.constructs.trans h2.constructs
  retains ho hc := by
    have hkeeps := (h2.constructs.fits hd hfit).spares.keeps
    exact (h1.retains ho (hkeeps.clean hc)).trans (h2.retains (h1.constructs.orderly ho) hc)
  silent ho := (h1.silent ho).trans (h2.silent (h1.constructs.orderly ho))

theorem create (hd : g.Dense) (hop : op ≠ .phi ∧ op.acts = false)
    (h : g.create op ty inputs = .ok (id, g')) : Quiet g g' :=
  ⟨.create hop.1 h, fun _ _ => .create hd h, fun ho => .create ho hop.2 h⟩

theorem attachControl {c : NodeId} (hid : g.At id fun op _ => op ≠ .phi)
    (h : g.attachControl id c = .ok g') : Quiet g g' :=
  ⟨.control hid h, fun _ _ => .attachControl h, fun _ => .of_enters (attachControl_spec h).1 rfl rfl⟩

theorem of_slots (hc : g.Constructs g') (hslots : g'.slots = g.slots) (hmemory : g'.memory = g.memory)
    (hroots : ∀ r ∈ g.roots, r ∈ g'.roots) : Quiet g g' :=
  ⟨hc, fun _ _ => .of_slots hslots hmemory hroots, fun _ => .of_enters (.refl g') hslots hmemory⟩

theorem markRoot (hid : g.Has id) : Quiet g (g.markRoot id) :=
  ⟨.root hid, fun _ _ => .markRoot id, fun _ => .of_enters (.refl _) rfl rfl⟩

theorem origins (origins : Nat) : Quiet g { g with origins := origins } :=
  .of_slots (.origins origins g) rfl rfl fun _ hr => hr

theorem deadNode (hid : g.At id fun op ty => op = .constant ∧ ty.isDead = true) :
    Quiet g { g with deadNode := some id } :=
  .of_slots (.dead hid) rfl rfl fun _ hr => hr

theorem addPhi {region phi : NodeId} {cases : List NodeId} {ty : Ty} (hd : g.Dense)
    (hmerge : g.MergeOf region cases.length) (hregion : g.At region fun op _ => op = .region)
    (h : g.addPhi region cases ty = .ok (phi, g')) : Quiet g g' :=
  ⟨.phi hmerge hregion h, fun _ _ => .addPhi hd h, fun ho => .addPhi ho h⟩

theorem appendInput {input : NodeId} (hid : g.At id fun op _ => op.isMerge = false ∧ op ≠ .phi)
    (h : g.appendInput id input = .ok g') : Quiet g g' :=
  ⟨.body hid h, fun _ _ => .appendInput h, fun _ => .appendInput h⟩

end Graph.Quiet

namespace Builder

/-- The operation of an error. -/
def IsError (g : Graph) (id : NodeId) : Prop := g.At id fun op _ => ∃ span, op = .error span

theorem not_isError {id : NodeId} (hc : g.Clean) : ¬ IsError g id := by
  intro herror
  refine hc.not_error (herror.mono ?_)
  rintro op ty ⟨span, rfl⟩
  rfl

/-- A builder whose graph has no free slots and phis that fit, and whose table of errors has nodes
of errors. -/
structure Neat (b : Builder) : Prop where
  dense : b.graph.Dense
  fit : b.graph.PhisFit
  reported : ∀ entry ∈ b.reported, IsError b.graph entry.2

/-- All nodes that act are recorded. -/
def Logged (b : Builder) : Prop :=
  ∀ x, b.graph.Acts x → ∃ control, (x, control) ∈ b.effects

/-- Steps lead from `b` to `b'`. -/
structure Builds (b b' : Builder) : Prop where
  neat : b'.Neat
  constructs : b.graph.Constructs b'.graph
  retains : b.graph.Orderly → b'.graph.Clean → b.graph.Retains b'.graph
  logged : b.graph.Orderly → b.Logged → b'.Logged

/-- Steps that are part of a construction lead from `b` to `b'`, and the cursor is where it was. -/
structure Rests (b b' : Builder) : Prop where
  neat : b'.Neat
  keeps : Keeps b.graph b'.graph
  orderly : b.graph.Orderly → b'.graph.Orderly
  retains : b.graph.Orderly → b'.graph.Clean → b.graph.Retains b'.graph
  logged : b.graph.Orderly → b.Logged → b'.Logged
  cursor : b'.cursor = b.cursor
  effects : b'.effects = b.effects

/-- Steps lead from `b` to `b'` and leave the cursor where it is. -/
structure Stays (b b' : Builder) : Prop extends Builds b b' where
  cursor : b'.cursor = b.cursor
  effects : b'.effects = b.effects

/-- The path of the cursor goes on. Its end sees what it saw and the new effects, but for loads. -/
structure Threads (b b' : Builder) : Prop where
  control : b'.cursor.control = b.cursor.control
  sees : ∀ x, b.graph.Firm x → b.graph.Sees b.cursor.memory x → b'.graph.Sees b'.cursor.memory x
  records : ∀ entry ∈ b'.effects, entry ∈ b.effects ∨ entry.2 = b.cursor.control ∧
    b'.graph.Has entry.1 ∧ (b'.graph.Firm entry.1 → b'.graph.Sees b'.cursor.memory entry.1)

/-- Steps lead from `b` to `b'` on one path. -/
structure Advances (b b' : Builder) : Prop extends Builds b b' where
  threads : b.graph.Orderly → b'.graph.Clean → b.Threads b'

variable {b b' b'' : Builder} {id : NodeId} {g : Graph}

section

variable (h : b.Builds b') (hb : b.Neat)
include h hb

theorem Builds.keeps : Keeps b.graph b'.graph :=
  (h.constructs.fits hb.dense hb.fit).spares.keeps

theorem Builds.at {P : Op → Ty → Prop} (hid : b.graph.At id P) : b'.graph.At id P :=
  (h.keeps hb).at hid

theorem Builds.has (hid : b.graph.Has id) : b'.graph.Has id :=
  (h.keeps hb).has hid

theorem Builds.mergeOf {n : Nat} (hid : b.graph.MergeOf id n) : b'.graph.MergeOf id n :=
  (h.constructs.fits hb.dense hb.fit).spares.merge hid

end

theorem Builds.trans (h1 : b.Builds b') (h2 : b'.Builds b'') : b.Builds b'' where
  neat := h2.neat
  constructs := h1.constructs.trans h2.constructs
  retains ho hc := (h1.retains ho ((h2.keeps h1.neat).clean hc)).trans
    (h2.retains (h1.constructs.orderly ho) hc)
  logged ho h := h2.logged (h1.constructs.orderly ho) (h1.logged ho h)

theorem Neat.builds (h : b.Neat) (hq : b.graph.Quiet b'.graph) (hreported : b'.reported = b.reported)
    (heffects : b'.effects = b.effects) : b.Builds b' := by
  have hfits := hq.constructs.fits h.dense h.fit
  have hkeeps := hfits.spares.keeps
  refine ⟨⟨hfits.dense, hfits.fit, ?_⟩, hq.constructs, hq.retains, ?_⟩
  · intro entry hentry
    rw [hreported] at hentry
    exact hkeeps.at (h.reported entry hentry)
  · intro ho hlogged x hacts
    rw [heffects]
    exact hlogged x (hq.silent ho x hacts)

theorem Neat.stays (h : b.Neat) (hq : b.graph.Quiet g) : b.Stays { b with graph := g } :=
  ⟨h.builds hq rfl rfl, rfl, rfl⟩

theorem Neat.refl (h : b.Neat) : b.Stays b := h.stays (.refl _)

theorem Stays.trans (h1 : b.Stays b') (h2 : b'.Stays b'') : b.Stays b'' :=
  ⟨h1.toBuilds.trans h2.toBuilds, h2.cursor.trans h1.cursor, h2.effects.trans h1.effects⟩

theorem Stays.rests (h : b.Stays b') (hb : b.Neat) : b.Rests b' :=
  ⟨h.neat, h.keeps hb, h.constructs.orderly, h.retains, h.logged, h.cursor, h.effects⟩

theorem Stays.advances (h : b.Stays b') : b.Advances b' := by
  refine ⟨h.toBuilds, fun ho hc => ⟨by rw [h.cursor], ?_, ?_⟩⟩
  · intro x hx hsees
    rw [h.cursor]
    exact (h.retains ho hc).sees hx.has hsees
  · intro entry hentry
    rw [h.effects] at hentry
    exact .inl hentry

theorem Neat.advances (h : b.Neat) : b.Advances b := h.refl.advances

theorem Threads.trans (h1 : b.Threads b') (hk1 : Keeps b.graph b'.graph) (hk2 : Keeps b'.graph b''.graph)
    (h2 : b'.Threads b'') : b.Threads b'' := by
  refine ⟨h2.control.trans h1.control, ?_, ?_⟩
  · intro x hx hsees
    exact h2.sees x (hk1.at hx) (h1.sees x hx hsees)
  · intro entry hentry
    rcases h2.records entry hentry with hentry | ⟨hcontrol, hhas, hnew⟩
    · rcases h1.records entry hentry with hentry | ⟨hcontrol, hhas, hnew⟩
      · exact .inl hentry
      · refine .inr ⟨hcontrol, hk2.has hhas, fun hfirm => ?_⟩
        have hfirm' := (hk2.firm_iff hhas).1 hfirm
        exact h2.sees entry.1 hfirm' (hnew hfirm')
    · exact .inr ⟨hcontrol.trans h1.control, hhas, hnew⟩

theorem Advances.trans (h1 : b.Advances b') (h2 : b'.Advances b'') : b.Advances b'' := by
  refine ⟨h1.toBuilds.trans h2.toBuilds, fun ho hc => ?_⟩
  have hk2 := h2.keeps h1.neat
  have hc1 := hk2.clean hc
  have hk1 := (h1.retains ho hc1).keeps
  exact (h1.threads ho hc1).trans hk1 hk2 (h2.threads (h1.constructs.orderly ho) hc)

end Builder

/-- Whether a request asks for a phi. -/
def Request.isPhi : Request → Bool
  | .phi .. => true
  | _ => false

open SeaOfNodes.Builder

/-- A step of the builder goes on along its path as construction does, if it has a result. -/
def Works {α : Type} (m : BuildM α) : Prop :=
  ∀ b, b.Neat → Does AnyFault b m fun _ b' => b.Advances b'

namespace Works

variable {α β : Type} {m : BuildM α} {f : α → BuildM β}

@[simp] theorem pure (a : α) : Works (Pure.pure a : BuildM α) := fun _ h => h.advances

@[simp] theorem bind (hm : Works m) (hf : ∀ a, Works (f a)) : Works (m >>= f) := by
  intro b hb
  refine (hm b hb).bind ?_
  intro a b1 h1
  refine (hf a b1 h1.neat).imp ?_
  intro c b2 h2
  exact h1.trans h2

@[simp] theorem map {f : α → β} (hm : Works m) : Works (f <$> m) :=
  fun b hb => Does.map (hm b hb)

@[simp] theorem look (f : Graph → Except Fault α) : Works (BuildM.look f) := by
  intro b hb
  refine (Does.look_same f).imp ?_
  rintro a _ rfl
  exact hb.advances

@[simp] theorem lift (m : Except Fault α) : Works (liftM m : BuildM α) := by
  intro b hb
  refine (Does.lift_same m).imp ?_
  rintro a _ rfl
  exact hb.advances

@[simp] theorem get : Works (MonadState.get : BuildM Builder) := fun _ h => h.advances

theorem of_modify {f : Builder → Builder} (hgraph : ∀ b, (f b).graph = b.graph)
    (hreported : ∀ b, (f b).reported = b.reported) (hcursor : ∀ b, (f b).cursor = b.cursor)
    (heffects : ∀ b, (f b).effects = b.effects) : Works (modify f) := by
  intro b hb
  have hq : b.graph.Quiet (f b).graph := by
    rw [hgraph]
    exact .refl _
  exact .of_modify (Stays.advances ⟨hb.builds hq (hreported b) (heffects b), hcursor b, heffects b⟩)

@[simp] theorem ite {c : Prop} [Decidable c] {m' : BuildM α} (hm : Works m) (hm' : Works m') :
    Works (if c then m else m') := by
  split
  · exact hm
  · exact hm'

end Works

namespace BuildM

variable {b : Builder} {id : NodeId}

@[simp] theorem works_typeOf (id : NodeId) : Works (typeOf id) := .look _

@[simp] theorem works_cursor : Works cursor := by simp [cursor]

@[simp] theorem works_setSpan (s : Span) : Works (setSpan s) :=
  .of_modify (fun _ => rfl) (fun _ => rfl) (fun _ => rfl) fun _ => rfl

@[simp] theorem works_isDead : Works isDead := by simp [isDead]

theorem setSpan_builds (span : Span) (hb : b.Neat) :
    Does AnyFault b (setSpan span) fun _ b' => b.Stays b' :=
  .of_modify ⟨hb.builds (.refl _) rfl rfl, rfl, rfl⟩

theorem setCursor_builds (c : Cursor) (hb : b.Neat) :
    Does AnyFault b (setCursor c) fun _ b' => b.Builds b' ∧ b' = { b with cursor := c } :=
  .of_modify ⟨hb.builds (.refl _) rfl rfl, rfl⟩

/-! ### Single nodes -/

theorem create_creates (op : Op) (ty : Ty) (inputs : List NodeId) :
    Does AnyFault b (create op ty inputs) fun id b' =>
      b' = { b with graph := b'.graph } ∧ b.graph.create op ty inputs = .ok (id, b'.graph) :=
  .of_editWith fun _ _ hc => ⟨rfl, hc⟩

theorem memory_created {g : Graph} (ho : b.graph.Orderly)
    (hc : b.graph.create op ty inputs = .ok (id, g)) : g.memory[id]? = none := by
  rw [(create_frame ho.dense hc).2.1]
  cases he : b.graph.memory[id]? with
  | none => rfl
  | some e => exact absurd (ho.plain id e he).has (create_self ho.dense hc).1

theorem create_builds (hop : op ≠ .phi ∧ op.acts = false) (hb : b.Neat) :
    Does AnyFault b (create op ty inputs) fun id b' =>
      b.Stays b' ∧ (b'.graph.At id fun op' _ => op' = op) ∧
        (b.graph.Orderly → b'.graph.memory[id]? = none) := by
  refine (create_creates op ty inputs).imp ?_
  rintro id b' ⟨hb', hc⟩
  obtain ⟨-, us, hself⟩ := create_self hb.dense hc
  exact ⟨hb' ▸ hb.stays (.create hb.dense hop hc), ⟨_, hself, rfl⟩, fun ho => memory_created ho hc⟩

@[simp] theorem works_create {op : Op} (ty : Ty) (inputs : List NodeId)
    (hop : op ≠ .phi ∧ op.acts = false) : Works (create op ty inputs) :=
  fun _ hb => (create_builds hop hb).imp fun _ _ h => h.1.advances

@[simp] theorem works_constant (ty : Ty) : Works (constant ty) := works_create ty [] (by simp)

theorem attachControl_builds {c : NodeId} (hid : b.graph.At id fun op _ => op ≠ .phi) (hb : b.Neat) :
    Does AnyFault b (edit fun g => g.attachControl id c) fun _ b' =>
      b.Stays b' ∧ b'.graph.memory = b.graph.memory :=
  .of_edit fun _ ha => ⟨hb.stays (.attachControl hid ha), (attachControl_spec ha).1.memory⟩

end BuildM

/-- Steps lead from `b` to `b'` on one path, and the node `id` is about to become its latest
effect. -/
structure Builder.Readies (id : NodeId) (b b' : Builder) : Prop where
  neat : b'.Neat
  constructs : b.graph.Constructs b'.graph
  retains : b.graph.Orderly → b'.graph.Clean → b.graph.Retains b'.graph
  threads : b.graph.Orderly → b'.graph.Clean → b.Threads b'
  plain : b'.graph.At id fun op _ => op.isMerge = false ∧ op ≠ .phi
  free : b.graph.Orderly → b'.graph.memory[id]? = none
  logged : b.graph.Orderly → b.Logged → ∀ x ≠ id, b'.graph.Acts x → ∃ control, (x, control) ∈ b'.effects

namespace Builder.Readies

variable {b0 b : Builder} {id : NodeId} {g : Graph}

theorem quiet (h : b0.Readies id b) (hq : b.graph.Quiet g) (hmemory : g.memory = b.graph.memory) :
    b0.Readies id { b with graph := g } := by
  have hstays := h.neat.stays hq
  have hkeeps := hstays.keeps h.neat
  refine ⟨hstays.neat, h.constructs.trans hq.constructs, ?_, ?_, hkeeps.at h.plain, ?_, ?_⟩
  · exact fun ho hc => (h.retains ho (hkeeps.clean hc)).trans (hq.retains (h.constructs.orderly ho) hc)
  · exact fun ho hc => (h.threads ho (hkeeps.clean hc)).trans (h.retains ho (hkeeps.clean hc)).keeps hkeeps
      (hstays.advances.threads (h.constructs.orderly ho) hc)
  · intro ho
    exact hmemory ▸ h.free ho
  · exact fun ho hlogged x hx hacts => h.logged ho hlogged x hx (hq.silent (h.constructs.orderly ho) x hacts)

theorem attachMemory (h : b0.Readies id b)
    (ha : b.graph.attachMemory id ⟨b.cursor.memory, target, tag⟩ = .ok g) :
    b0.Advances { b with
      graph := g, cursor := { b.cursor with memory := id }
      effects := (id, b.cursor.control) :: b.effects } := by
  have hconstructs : b.graph.Constructs g := .memory h.plain ha
  have hfits := hconstructs.fits h.neat.dense h.neat.fit
  have hkeeps := hfits.spares.keeps
  have hback : g.Sees id b.cursor.memory := by
    refine Back.sees (.inl ⟨⟨b.cursor.memory, target, tag⟩, ?_, rfl⟩)
    rw [(attachMemory_spec ha).1.memory, getElem?_insert_id, if_pos rfl]
  have hretains : b0.graph.Orderly → b.graph.Retains g := fun ho => .attachMemory (h.free ho) ha
  refine ⟨⟨⟨hfits.dense, hfits.fit, ?_⟩, h.constructs.trans hconstructs, ?_, ?_⟩, ?_⟩
  · exact fun entry hentry => hkeeps.at (h.neat.reported entry hentry)
  · exact fun ho hc => (h.retains ho (hkeeps.clean hc)).trans (hretains ho)
  · intro ho hlogged x hacts
    by_cases hx : x = id
    · subst hx
      exact ⟨b.cursor.control, List.mem_cons_self⟩
    · obtain ⟨k, hmem⟩ := h.logged ho hlogged x hx (hacts.of_attachMemory ha hx)
      exact ⟨k, List.mem_cons_of_mem _ hmem⟩
  · intro ho hc
    have ht := h.threads ho (hkeeps.clean hc)
    have hr := hretains ho
    refine ⟨ht.control, ?_, ?_⟩
    · intro x hx hsees
      have hx1 := (h.retains ho (hkeeps.clean hc)).keeps.at hx
      exact hback.trans (hr.sees hx1.has (ht.sees x hx hsees))
    · intro entry hentry
      rcases List.mem_cons.1 hentry with rfl | hentry
      · exact .inr ⟨ht.control, hkeeps.has h.plain.has, fun _ => .refl _ _⟩
      · refine (ht.records entry hentry).imp_right ?_
        rintro ⟨hcontrol, hhas, hnew⟩
        refine ⟨hcontrol, hkeeps.has hhas, fun hfirm => ?_⟩
        exact hback.trans (hr.sees hhas (hnew ((hkeeps.firm_iff hhas).1 hfirm)))

end Builder.Readies

namespace BuildM

variable {b : Builder} {id : NodeId} {b0 : Builder} {g : Graph} {x : NodeId}

theorem threadMemory_advances (h0 : b0.Readies id b) :
    Does AnyFault b (threadMemory id target tag) fun _ b' => b0.Advances b' := by
  refine Does.bind (Q := fun c b1 => c = b.cursor ∧ b1 = b) ⟨rfl, rfl⟩ ?_
  rintro _ b ⟨rfl, rfl⟩
  refine Does.bind (Q := fun _ b1 => b1 = { b with graph := b1.graph } ∧
    b.graph.attachMemory id ⟨b.cursor.memory, target, tag⟩ = .ok b1.graph) (.of_edit ?_) ?_
  · exact fun g hg => ⟨rfl, hg⟩
  rintro _ b1 ⟨hb1, ha⟩
  refine .of_modify ?_
  rw [hb1]
  exact h0.attachMemory ha

theorem create_readies (hop : op ≠ .phi) (hmerge : op.isMerge = false) (hb : b.Neat) :
    Does AnyFault b (create op ty inputs) fun id b' => b.Readies id b' := by
  refine (create_creates op ty inputs).imp ?_
  rintro id b' ⟨hb', hc⟩
  obtain ⟨-, us, hself⟩ := create_self hb.dense hc
  have hconstructs : b.graph.Constructs b'.graph := .create hop hc
  have hfits := hconstructs.fits hb.dense hb.fit
  have hretains : b.graph.Retains b'.graph := .create hb.dense hc
  have hcursor : b'.cursor = b.cursor := by rw [hb']
  have heffects : b'.effects = b.effects := by rw [hb']
  refine ⟨⟨hfits.dense, hfits.fit, ?_⟩, hconstructs, fun _ _ => hretains, ?_, ?_, ?_, ?_⟩
  · intro entry hentry
    rw [hb'] at hentry
    exact hretains.keeps.at (hb.reported entry hentry)
  · refine fun _ _ => ⟨by rw [hcursor], fun x hx hsees => ?_, fun entry hentry => .inl ?_⟩
    · rw [hcursor]
      exact hretains.sees hx.has hsees
    · exact heffects ▸ hentry
  · exact ⟨_, hself, hmerge, hop⟩
  · exact fun ho => memory_created ho hc
  · intro ho hlogged x hx hacts
    rw [heffects]
    exact hlogged x (hacts.of_create ho hc hx)

theorem works_effect (hop : op ≠ .phi) (hmerge : op.isMerge = false) : Works (do
      let id ← create op ty inputs
      threadMemory id target tag
      return id) := by
  intro b hb
  refine (create_readies hop hmerge hb).bind fun id b1 h1 => ?_
  exact (threadMemory_advances h1).bind fun _ b' h => .pure h

@[simp] theorem works_newSlot (ty : Ty) : Works (newSlot ty) :=
  fun _ hb => Stays.advances ⟨hb.builds (.refl _) rfl rfl, rfl, rfl⟩

theorem memoryTag_same (base : NodeId) : Does AnyFault b (memoryTag base) fun _ b' => b' = b := by
  refine (Does.look_same _).bind ?_
  rintro op _ rfl
  split <;> exact .pure rfl

@[simp] theorem works_memoryTag (base : NodeId) : Works (memoryTag base) := by
  intro b hb
  refine (memoryTag_same base).imp ?_
  rintro tag _ rfl
  exact hb.advances

/-! ### Errors -/

theorem newError_reports (blame : Blame) (hb : b.Neat) : Does AnyFault b (newError blame) fun id b' =>
    b.Stays b' ∧ b.graph.Reports b'.graph ∧ IsError b'.graph id := by
  refine .of_ok fun id b' h => ?_
  obtain ⟨⟨id', g⟩, hc, h⟩ := bind_eq_ok_iff.1 h
  obtain ⟨rfl, rfl⟩ := Prod.mk.inj (Except.ok.inj h)
  let g0 : Graph := { b.graph with origins := (blame.stamp b.graph.origins).2 }
  have horigins : b.graph.Quiet g0 := .origins _
  have hfits0 := horigins.constructs.fits hb.dense hb.fit
  have hquiet : b.graph.Quiet g :=
    horigins.trans hfits0.dense hfits0.fit (.create hfits0.dense (by simp) hc)
  obtain ⟨-, us, hnode⟩ := create_self hfits0.dense hc
  have hself : IsError g id' := ⟨_, hnode, _, rfl⟩
  have hstays := hb.stays hquiet
  refine ⟨⟨⟨⟨hstays.neat.dense, hstays.neat.fit, ?_⟩, hquiet.constructs, hquiet.retains,
    hstays.logged⟩, rfl, rfl⟩, .inr ⟨_, _, _, _, hc⟩, hself⟩
  intro entry hentry
  rcases List.mem_cons.1 hentry with rfl | hentry
  · exact hself
  · exact hstays.neat.reported entry hentry

theorem errorNode_reports (blame : Blame) (hb : b.Neat) :
    Does AnyFault b (errorNode blame) fun id b' =>
      b.Stays b' ∧ b.graph.Reports b'.graph ∧ IsError b'.graph id := by
  refine Does.get.bind ?_
  rintro _ _ ⟨rfl, rfl⟩
  dsimp only
  split
  · rename_i id hid
    obtain ⟨origin, -, hlookup⟩ := Option.bind_eq_some_iff.1 hid
    obtain ⟨l1, l2, heq, -⟩ := List.lookup_eq_some_iff.1 hlookup
    exact .pure ⟨hb.refl, .inl rfl, hb.reported (origin, id) (by simp [heq])⟩
  · exact newError_reports blame hb

/-! ### Requests -/

theorem works_emitBinary (op : BinaryOp) (lhs rhs : NodeId) (ty : Ty) :
    Works (emitBinary op lhs rhs ty) := by
  refine .ite (by simp) (.bind (by simp) fun _ => .bind (by simp) fun _ => ?_)
  split <;> simp

theorem works_emitUnary (op : UnaryOp) (operand : NodeId) (ty : Ty) :
    Works (emitUnary op operand ty) := by
  refine .ite ?_ (.bind ?_ fun _ => .ite ?_ ?_) <;> simp

theorem works_emitCompare (op : CompareOp) (lhs rhs : NodeId) (ty : Ty) :
    Works (emitCompare op lhs rhs ty) := by
  refine .ite ?_ (.bind ?_ fun _ => .ite ?_ ?_) <;> simp

theorem works_emitCast (value : NodeId) (ty : Ty) : Works (emitCast value ty) := by
  refine .ite (by simp) (.bind (by simp) fun source => .ite (by simp) ?_)
  split
  · exact works_effect (by simp) rfl
  · simp

theorem works_emitCoerce (value : NodeId) (ty : Ty) : Works (emitCoerce value ty) := by
  refine .bind ?_ fun _ => .ite ?_ (.ite ?_ ?_) <;> simp

theorem works_emitProjection (value : NodeId) (index : Nat) (ty : Ty) :
    Works (emitProjection value index ty) := by
  refine .ite (by simp) (.bind (by simp) fun op => ?_)
  split <;> simp

theorem works_emitAlloca (declared ty : Ty) : Works (emitAlloca declared ty) := by
  exact .bind (by simp) fun slot => works_effect (by simp) rfl

theorem loadSource_sees {base effect e : NodeId} {offset fuel : Nat}
    (h : loadSource g base offset ty fuel effect = .ok (.after e)) (hx : g.Firm x)
    (hsees : g.Sees effect x) : g.Sees e x := by
  induction fuel generalizing effect with
  | zero => contradiction
  | succ fuel ih =>
    obtain ⟨op, hop, h⟩ := bind_eq_ok_iff.1 h
    have hlast : (Pure.pure (.after effect) : Except Fault LoadSource) = .ok (.after e) → g.Sees e x := by
      intro heq
      cases Except.ok.inj heq
      exact hsees
    split at h
    · split at h
      · exact hlast h
      obtain ⟨value, -, h⟩ := bind_eq_ok_iff.1 h
      split at h
      · exact hlast h
      obtain ⟨t, -, h⟩ := bind_eq_ok_iff.1 h
      split at h
      · have h := Except.ok.inj h
        contradiction
      · exact hlast h
    · split at h
      · rename_i e' he'
        refine ih h ?_
        -- A load is not firm, so that `x` is seen behind it.
        rcases Relation.ReflTransGen.cases_head hsees with rfl | ⟨y, hback, hsees⟩
        · obtain ⟨node, hn, hfirm⟩ := hx
          exact absurd (Except.ok.inj ((op_of_get? hn).symm.trans hop)) (hfirm _)
        · rcases hback with ⟨other, ho, rfl⟩ | ⟨node, hn, hy⟩
          · cases he'.symm.trans ho
            exact hsees
          · have hload := Except.ok.inj ((op_of_get? hn).symm.trans hop)
            simp [Node.memories, hload] at hy
      · exact hlast h
    · exact hlast h

theorem works_emitLoad (base : NodeId) (offset : Nat) (ty : Ty) : Works (emitLoad base offset ty) := by
  intro b hb
  refine Does.bind (Q := fun c b1 => c = b.cursor ∧ b1 = b) ⟨rfl, rfl⟩ ?_
  rintro _ b ⟨rfl, rfl⟩
  refine (Does.look_eq _).bind ?_
  rintro source b ⟨rfl, hsource⟩
  split
  · exact .pure hb.advances
  · rename_i effect
    refine (memoryTag_same base).bind ?_
    rintro tag b rfl
    refine (create_builds (by simp) hb).bind fun id b1 ⟨h1, hid, hfree⟩ => ?_
    refine (setCursor_builds _ h1.neat).bind ?_
    rintro _ b2 ⟨h2, rfl⟩
    have hbuilds := h1.toBuilds.trans h2
    have h2 : b.Readies id { b1 with cursor := { b.cursor with memory := effect } } := by
      refine ⟨hbuilds.neat, hbuilds.constructs, hbuilds.retains, ?_, hid.mono ?_, hfree, ?_⟩
      · refine fun ho hc => ⟨rfl, fun x hx hsees => ?_, fun entry hentry => ?_⟩
        · exact (h1.retains ho hc).sees hx.has (loadSource_sees hsource hx hsees)
        · exact .inl (h1.effects ▸ hentry)
      · rintro op ty rfl
        exact ⟨rfl, by simp⟩
      · exact fun ho hlogged x _ hacts => hbuilds.logged ho hlogged x hacts
    exact (threadMemory_advances h2).bind fun _ b3 h3 => .pure h3

theorem works_emitStore (base : NodeId) (offset : Nat) (value : NodeId) (ty : Ty) :
    Works (emitStore base offset value ty) := by
  exact .bind (by simp) fun tag => works_effect (by simp) rfl

theorem works_emitAddressOf (base : NodeId) (offset : Nat) (ty : Ty) :
    Works (emitAddressOf base offset ty) := by
  refine .bind ?_ fun _ => .ite ?_ ?_ <;> simp

theorem works_emitBranch (condition control : NodeId) (taken : Bool) (ty : Ty) :
    Works (emitBranch condition control taken ty) := by
  intro b hb
  refine (create_builds (by simp) hb).bind fun id b1 ⟨h1, hid, _⟩ => ?_
  refine (attachControl_builds (hid.mono ?_) h1.neat).bind fun _ b' ⟨h2, _⟩ =>
    .pure (h1.trans h2).advances
  simp

theorem works_emitCall (callee : NodeId) (arguments : List NodeId) (ty : Ty) :
    Works (emitCall callee arguments ty) := by
  intro b hb
  refine (create_readies (by simp) rfl hb).bind fun id b1 h1 => ?_
  refine Does.bind (Q := fun _ b2 => b2 = b1) rfl ?_
  rintro c b1 rfl
  refine Does.bind (Q := fun _ b2 => b.Readies id b2) (.of_edit fun g ha => ?_) fun _ b2 h2 => ?_
  · have hplain : b1.graph.At id fun op _ => op ≠ .phi := h1.plain.mono fun _ _ h => h.2
    exact h1.quiet (.attachControl hplain ha) (attachControl_spec ha).1.memory
  · exact (threadMemory_advances h2).bind fun _ b3 h3 => .pure h3

theorem attachEnd_stays {e : MemoryEffect} (h0 : b0.Stays b)
    (hid : b.graph.At id fun op _ => op = .return_ ∨ op = .exit)
    (hfree : b0.graph.Orderly → b.graph.memory[id]? = none) :
    Does AnyFault b (edit fun g => g.attachMemory id e) fun _ b' =>
      b0.Stays b' ∧ b'.graph.Has id ∧ b'.graph.Sees id e.previous := by
  refine .of_edit fun g ha => ?_
  have hplain : b.graph.At id fun op _ => op.isMerge = false ∧ op ≠ .phi := by
    refine hid.mono ?_
    rintro op ty (rfl | rfl)
    · exact ⟨rfl, by simp⟩
    · exact ⟨rfl, by simp⟩
  have hconstructs : b.graph.Constructs g := .memory hplain ha
  have hfits := hconstructs.fits h0.neat.dense h0.neat.fit
  have hkeeps := hfits.spares.keeps
  have hmemory : ∀ x : NodeId, g.memory[x]? = if x = id then some e else b.graph.memory[x]? := by
    intro x
    rw [(attachMemory_spec ha).1.memory, getElem?_insert_id]
  refine ⟨⟨⟨⟨hfits.dense, hfits.fit, ?_⟩, h0.constructs.trans hconstructs, ?_, ?_⟩,
    h0.cursor, h0.effects⟩, hkeeps.has hid.has, Back.sees (.inl ⟨e, by rw [hmemory, if_pos rfl], rfl⟩)⟩
  · exact fun entry hentry => hkeeps.at (h0.neat.reported entry hentry)
  · exact fun ho hc => (h0.retains ho (hkeeps.clean hc)).trans (.attachMemory (hfree ho) ha)
  · intro ho hlogged x hacts
    refine h0.logged ho hlogged x (hacts.of_attachMemory ha ?_)
    rintro rfl
    refine hacts.false_of (hkeeps.at hid) ?_
    rintro op ty hacts (rfl | rfl)
    · simp at hacts
    · simp at hacts

theorem terminate_builds {op : Op} {ty : Ty} {inputs : List NodeId} (hop : op = .return_ ∨ op = .exit)
    (hb : b.Neat) : Does AnyFault b (terminate op ty inputs) fun id b' =>
      b.Stays b' ∧ b'.graph.Has id ∧ b'.graph.Sees id b.cursor.memory := by
  have hphi : op ≠ .phi ∧ op.acts = false := by rcases hop with rfl | rfl <;> simp
  refine (create_builds hphi hb).bind fun id b1 ⟨h1, hid, hfree⟩ => ?_
  refine Does.bind (Q := fun c b2 => c = b.cursor ∧ b2 = b1) ⟨h1.cursor, rfl⟩ ?_
  rintro _ _ ⟨rfl, rfl⟩
  refine (attachControl_builds (hid.mono ?_) h1.neat).bind fun _ b2 ⟨h2, hmemory⟩ => ?_
  · rintro op' ty' rfl
    exact hphi.1
  refine (attachEnd_stays (h1.trans h2) ((h2.at h1.neat hid).mono ?_) ?_).bind fun _ b3 h3 => .pure h3
  · rintro op' ty' rfl
    exact hop
  · rw [hmemory]
    exact hfree

theorem markRoot_builds (hid : b.graph.Has id) (hb : b.Neat) :
    Does AnyFault b (markRoot id) fun _ b' => b.Stays b' ∧ b'.graph.Rooted id := by
  refine .of_edit fun g hg => ?_
  cases hg
  exact ⟨hb.stays (.markRoot hid), rooted_markRoot hid⟩

/-! ### Requests but phis -/

theorem works_emit (r : Request) (ty : Ty) (hr : r.isPhi = false) : Works (emit r ty) := by
  cases r with
  | constant _ => exact works_constant ty
  | binary op lhs rhs => exact works_emitBinary op lhs rhs ty
  | unary op operand => exact works_emitUnary op operand ty
  | compare op lhs rhs => exact works_emitCompare op lhs rhs ty
  | cast value _ => exact works_emitCast value ty
  | coerce value _ => exact works_emitCoerce value ty
  | build _ members => exact .ite (works_constant ty) (works_create ty members (by simp))
  | projection value index => exact works_emitProjection value index ty
  | parameter entry index => exact works_create ty [entry] (by simp)
  | alloca declared => exact works_emitAlloca declared ty
  | load base offset _ => exact works_emitLoad base offset ty
  | store base offset value => exact works_emitStore base offset value ty
  | addressOf base offset _ => exact works_emitAddressOf base offset ty
  | branch condition control taken => exact works_emitBranch condition control taken ty
  | region predecessors => exact works_create ty predecessors (by simp)
  | loop entry => exact works_create ty [entry] (by simp)
  | phi region cases kind => contradiction
  | call callee arguments => exact works_emitCall callee arguments ty
  | return_ value =>
    exact fun b hb => (terminate_builds (.inl rfl) hb).imp fun _ _ h => h.1.advances
  | exit value =>
    intro b hb
    refine (terminate_builds (.inr rfl) hb).bind fun id b1 ⟨h1, hid, _⟩ => ?_
    exact (markRoot_builds hid h1.neat).bind fun _ b2 ⟨h2, _⟩ => .pure (h1.trans h2).advances
  | function name _ =>
    intro b hb
    refine (create_builds (by simp) hb).bind fun id b1 ⟨h1, hid, _⟩ => ?_
    exact (markRoot_builds hid.has h1.neat).bind fun _ b2 ⟨h2, _⟩ => .pure (h1.trans h2).advances

theorem works_newError (blame : Blame) : Works (newError blame) :=
  fun _ hb => (newError_reports blame hb).imp fun _ _ h => h.1.advances

theorem works_errorNode (blame : Blame) : Works (errorNode blame) :=
  fun _ hb => (errorNode_reports blame hb).imp fun _ _ h => h.1.advances

@[simp] theorem works_fail (message : String) : Works (fail message) := works_newError _

theorem make_infer {r : Request}
    (herror : ∀ blame, r.infer b.graph = .ok (.error blame) → Does AnyFault b (errorNode blame) Q)
    (hemit : ∀ ty, r.infer b.graph = .ok ty → ty.isError = false → Does AnyFault b (emit r ty) Q) :
    Does AnyFault b (make r) Q := by
  refine (Does.look_eq _).bind ?_
  rintro ty b ⟨rfl, hr⟩
  split
  · exact herror _ hr
  · rename_i hty
    refine hemit _ hr ?_
    cases ty <;> first | rfl | exact absurd rfl (hty _)

@[simp] theorem works_make (r : Request) (hr : r.isPhi = false) : Works (make r) := by
  intro b hb
  exact make_infer (fun blame _ => works_errorNode blame b hb) fun ty _ _ => works_emit r ty hr b hb

theorem make_return_builds (value : Option NodeId) (hb : b.Neat) :
    Does AnyFault b (make (.return_ value)) fun id b' =>
      b.Stays b' ∧ (b'.graph.Clean → b'.graph.Sees id b.cursor.memory) := by
  refine make_infer (fun blame _ => ?_) fun ty _ _ => ?_
  · refine (errorNode_reports blame hb).imp fun id b' ⟨hs, _, herror⟩ => ⟨hs, fun hc => ?_⟩
    exact absurd herror (not_isError hc)
  · exact (terminate_builds (.inl rfl) hb).imp fun id b' ⟨hs, _, hsees⟩ => ⟨hs, fun _ => hsees⟩

theorem make_constant_builds (ty : Ty) (hb : b.Neat) :
    Does AnyFault b (make (.constant ty)) fun _ b' => b.Stays b' :=
  make_infer (fun blame _ => (errorNode_reports blame hb).imp fun _ _ h => h.1)
    fun ty _ _ => (create_builds (by simp) hb).imp fun _ _ h => h.1

/-! ### Control -/

theorem taken_iff_of_isDeadControl {g : Graph} {x : NodeId} {dead : Bool}
    (h : g.isDeadControl x = .ok dead) : dead = false ↔ Taken g x := by
  obtain ⟨t, ht, hdead⟩ := bind_eq_ok_iff.1 h
  cases hdead
  unfold ty at ht
  split at ht
  · rename_i node hn
    cases ht
    simp [Taken, At, hn]
  · contradiction

theorem anyM_taken {xs : List NodeId} {live : Bool}
    (h : (xs.anyM fun x => do return !(← g.isDeadControl x) : Except Fault Bool) = .ok live) :
    live = true ↔ ∃ x ∈ xs, Taken g x := by
  induction xs with
  | nil =>
    cases h
    simp
  | cons x xs ih =>
    obtain ⟨found, hfound, h⟩ := bind_eq_ok_iff.1 h
    obtain ⟨dead, hdead, hfound⟩ := bind_eq_ok_iff.1 hfound
    have htaken := taken_iff_of_isDeadControl hdead
    cases hfound
    cases dead with
    | false =>
      cases h
      simp [htaken.1 rfl]
    | true =>
      have hnot : ¬ Taken g x := fun hx => by simpa using htaken.2 hx
      rw [ih h]
      simp [hnot]

theorem infer_region {predecessors : List NodeId}
    (h : Request.infer g (.region predecessors) = .ok ty) :
    ty.isError = false ∧ (ty.isDead = false ↔ ∃ x ∈ predecessors, Taken g x) := by
  obtain ⟨live, hlive, h⟩ := bind_eq_ok_iff.1 h
  cases h
  rw [← anyM_taken hlive]
  cases live <;> simp [Ty.isError, Ty.isDead]

theorem make_region_builds (predecessors : List NodeId) (hb : b.Neat) :
    Does AnyFault b (make (.region predecessors)) fun id b' =>
      b.Stays b' ∧ b'.graph.MergeOf id predecessors.length ∧
        (b'.graph.At id fun op _ => op = .region) ∧
        (Taken b'.graph id ↔ ∃ x ∈ predecessors, Taken b.graph x) := by
  refine make_infer ?_ ?_
  · intro blame h
    exact absurd (infer_region h).1 (by simp [Ty.isError])
  · intro ty hty _
    refine (create_creates .region ty predecessors).imp ?_
    rintro id b' ⟨hb', hc⟩
    obtain ⟨-, us, hself⟩ := create_self hb.dense hc
    refine ⟨hb' ▸ hb.stays (.create hb.dense (by simp) hc), ⟨_, hself, rfl, rfl⟩, ⟨_, hself, rfl⟩, ?_⟩
    rw [← (infer_region hty).2]
    simp [Taken, At, hself, Ty.isDead_stamp]

theorem make_loop_creates (entry : NodeId) :
    Does AnyFault b (make (.loop entry)) fun id b' =>
      b' = { b with graph := b'.graph } ∧ ∃ ty, b.graph.create .loop ty [entry] = .ok (id, b'.graph) ∧
        (ty.isDead = false ↔ Taken b.graph entry) := by
  refine make_infer ?_ ?_
  · intro blame h
    obtain ⟨live, -, h⟩ := bind_eq_ok_iff.1 h
    exact absurd (Except.ok.inj h) (by simp)
  · intro ty hty _
    obtain ⟨dead, hdead, hty⟩ := bind_eq_ok_iff.1 hty
    cases hty
    refine (create_creates .loop _ [entry]).imp fun id b' h => ⟨h.1, _, h.2, ?_⟩
    rw [← taken_iff_of_isDeadControl hdead]
    cases dead <;> simp [Ty.isDead]

theorem make_function_builds (name : String) (params : List Ty) (result : Ty) (level : Level String)
    (hb : b.Neat) :
    Does AnyFault b (make (.function name (.function params result level))) fun id b' =>
      b.Stays b' ∧ (b'.graph.At id fun op _ => op = .function name) ∧ b'.graph.Rooted id := by
  refine make_infer ?_ ?_
  · intro blame h
    exact absurd (Except.ok.inj h) (by simp)
  · intro ty _ _
    refine (create_builds (by simp) hb).bind fun id b1 ⟨h1, hid, _⟩ => ?_
    refine (markRoot_builds hid.has h1.neat).bind fun _ b2 ⟨h2, hrooted⟩ => .pure ?_
    exact ⟨h1.trans h2, h2.at h1.neat hid, hrooted⟩

theorem isDead_control (live : Bool) : (Ty.control live).isDead = !live := by cases live <;> rfl

theorem inferBranch_taken {condition control : NodeId} {taken : Bool}
    (h : inferBranch g condition control taken = .ok ty) (herror : ty.isError = false) :
    ∃ level, (g.At condition fun _ t => t = .bool level) ∧
      (ty.isDead = false ↔ Taken g control ∧ level ≠ .const !taken) := by
  obtain ⟨t, ht, h⟩ := bind_eq_ok_iff.1 h
  have hcondition : g.At condition fun _ t' => t' = t := by
    unfold Graph.ty at ht
    split at ht
    · rename_i node hn
      exact ⟨node, hn, Except.ok.inj ht⟩
    · contradiction
  split at h
  · rename_i level
    refine ⟨level, hcondition, ?_⟩
    obtain ⟨dead, hdead, h⟩ := bind_eq_ok_iff.1 h
    rw [← taken_iff_of_isDeadControl hdead]
    cases dead with
    | true =>
      cases h
      simp [Ty.dead, isDead_control]
    | false =>
      cases h
      simp [isDead_control]
  · cases h
    contradiction
  · cases h
    contradiction

theorem make_branch_builds (condition control : NodeId) (taken : Bool) (hb : b.Neat) :
    Does AnyFault b (make (.branch condition control taken)) fun id b' =>
      b.Stays b' ∧ b'.graph.Has id ∧ (b'.graph.Clean → ∃ level,
        (b.graph.At condition fun _ ty => ty = .bool level) ∧
          (Taken b'.graph id ↔ Taken b.graph control ∧ level ≠ .const !taken)) := by
  refine make_infer ?_ ?_
  · intro blame _
    refine (errorNode_reports blame hb).imp ?_
    rintro id b' ⟨hstays, -, herror⟩
    exact ⟨hstays, herror.has, fun hclean => absurd herror (not_isError hclean)⟩
  · intro ty hty herror
    change Does AnyFault b (emitBranch condition control taken ty) _
    refine (create_creates _ _ _).bind fun id b1 ⟨hb1, hc⟩ => ?_
    obtain ⟨-, us, hself⟩ := create_self hb.dense hc
    have h1 : b.Stays b1 := hb1 ▸ hb.stays (.create hb.dense (by simp) hc)
    refine (attachControl_builds ⟨_, hself, by simp⟩ h1.neat).bind fun _ b2 ⟨h2, _⟩ => .pure ?_
    have hkeeps := h2.keeps h1.neat
    refine ⟨h1.trans h2, hkeeps.has ⟨_, hself⟩, fun _ => ?_⟩
    obtain ⟨level, hcondition, hlive⟩ := inferBranch_taken hty herror
    refine ⟨level, hcondition, ?_⟩
    rw [hkeeps.taken_iff ⟨_, hself⟩, ← hlive]
    simp [Taken, At, hself, Ty.isDead_stamp]

/-! ### Phis -/

theorem newPhi_addsPhi (region : NodeId) (cases : List NodeId) (ty : Ty) :
    Does AnyFault b (newPhi region cases ty) fun id b' =>
      b' = { b with graph := b'.graph } ∧ b.graph.addPhi region cases ty = .ok (id, b'.graph) := by
  refine .of_ok fun id b' h => ?_
  obtain ⟨⟨phi, b1⟩, h1, h⟩ := bind_eq_ok_iff.1 h
  obtain ⟨⟨phi', g1⟩, hc, h1⟩ := bind_eq_ok_iff.1 h1
  obtain ⟨rfl, rfl⟩ := Prod.mk.inj (Except.ok.inj h1)
  obtain ⟨⟨_, b2⟩, h2, h⟩ := bind_eq_ok_iff.1 h
  obtain ⟨g2, h2, h3⟩ := bind_eq_ok_iff.1 h2
  obtain ⟨g3, ha, h2⟩ := bind_eq_ok_iff.1 h2
  cases h2
  cases Except.ok.inj h3
  obtain ⟨rfl, rfl⟩ := Prod.mk.inj (Except.ok.inj h)
  refine ⟨rfl, bind_eq_ok_iff.2 ⟨(phi', g1), hc, bind_eq_ok_iff.2 ⟨g3, ha, rfl⟩⟩⟩

theorem make_phi_builds (kind : PhiKind) (hmerge : b.graph.MergeOf region cases.length)
    (hregion : b.graph.At region fun op _ => op = .region) (hb : b.Neat) :
    Does AnyFault b (make (.phi region cases kind)) fun _ b' => b.Stays b' := by
  have hnew : ∀ ty, Does AnyFault b (newPhi region cases ty) fun _ b' => b.Stays b' := by
    intro ty
    refine (newPhi_addsPhi region cases ty).imp ?_
    rintro id b' ⟨hb', hadd⟩
    exact hb' ▸ hb.stays (.addPhi hb.dense hmerge hregion hadd)
  refine make_infer (fun blame _ => ?_) fun ty _ _ => ?_
  · exact (errorNode_reports blame hb).imp fun _ _ h => h.1
  change Does AnyFault b (emitPhi region cases kind ty) _
  unfold emitPhi
  split
  · exact hnew ty
  · split
    · exact .pure hb.refl
    · split
      · exact (create_builds (by simp) hb).imp fun _ _ h => h.1
      · exact hnew ty

theorem back_addPhi {g' : Graph} {phi : NodeId} (hd : g.Dense)
    (h : g.addPhi region cases ty = .ok (phi, g')) (hx : x ∈ cases) : g'.Back phi x := by
  obtain ⟨ty, us, hself⟩ := (addPhi_spec hd h).self
  exact .inr ⟨_, hself, hx⟩

theorem make_phi_memory_builds (hmerge : b.graph.MergeOf region cases.length)
    (hregion : b.graph.At region fun op _ => op = .region) (hb : b.Neat) :
    Does AnyFault b (make (.phi region cases .memory)) fun id b' =>
      b.Stays b' ∧ ∀ x ∈ cases, b'.graph.Sees id x := by
  refine make_infer (fun blame h => ?_) fun ty hty _ => ?_
  · exact absurd (Except.ok.inj h) (by simp)
  cases hty
  change Does AnyFault b (emitPhi region cases .memory .memory) _
  unfold emitPhi
  dsimp only
  split
  · rename_i id hsame
    obtain ⟨rest, rfl, hrest⟩ := allSame_eq_some hsame
    refine .pure ⟨hb.refl, List.forall_mem_cons.2 ⟨.refl _ _, fun x hx => ?_⟩⟩
    rw [hrest x hx]
    exact .refl _ _
  · refine (newPhi_addsPhi region cases .memory).imp ?_
    rintro id b' ⟨hb', hadd⟩
    exact ⟨hb' ▸ hb.stays (.addPhi hb.dense hmerge hregion hadd), fun x hx => (back_addPhi hb.dense hadd hx).sees⟩

theorem make_phi_opens {header case : NodeId} (ty : Ty) (hmerge : b.graph.MergeOf header 1)
    (hb : b.Neat) :
    Does AnyFault b (make (.phi header [case] (.loop ty))) fun id b' =>
      b.Rests b' ∧ b'.graph.MergeOf header 1 ∧
        ((∃ ty, b.graph.addPhi header [case] ty = .ok (id, b'.graph)) ∨
          b.graph.Reports b'.graph ∧ IsError b'.graph id) := by
  refine make_infer ?_ ?_
  · intro blame _
    refine (errorNode_reports blame hb).imp ?_
    rintro id b' ⟨hstays, hreports, hself⟩
    exact ⟨hstays.rests hb, hstays.mergeOf hb hmerge, .inr ⟨hreports, hself⟩⟩
  · intro ty _ _
    refine (newPhi_addsPhi header [case] ty).imp ?_
    rintro id b' ⟨hb', hadd⟩
    have hadds := addPhi_spec hb.dense hadd
    have hpersists := Persists.of_addsPhi hadds
    have hneat : b'.Neat := by
      refine ⟨hadds.dense, hb.fit.persists hpersists ?_, ?_⟩
      · intro phi hx hlive
        obtain rfl := (hadds.has.1 hlive.has).resolve_right hx
        exact ⟨header, 1, hadds.phiAt, hpersists.merge hmerge⟩
      · intro entry hentry
        rw [hb'] at hentry
        exact hpersists.keeps.at (hb.reported entry hentry)
    refine ⟨⟨hneat, hpersists.keeps, fun ho => ho.addPhi hadd, fun _ _ => .addPhi hb.dense hadd,
      ?_, by rw [hb'], by rw [hb']⟩, hpersists.merge hmerge, .inl ⟨ty, hadd⟩⟩
    intro ho hlogged x hacts
    rw [show b'.effects = b.effects by rw [hb']]
    exact hlogged x (Silent.addPhi ho hadd x hacts)

/-! ### Dead control -/

theorem deadControl_builds (hb : b.Neat) : Does AnyFault b (editWith deadControl) fun id b' =>
    b.Stays b' ∧ (b.graph.Orderly → b'.graph.IsDead id) := by
  refine .of_editWith fun id g h => ?_
  rcases deadControl_cases h with ⟨hfound, -, rfl⟩ | ⟨g1, hc, rfl⟩
  · exact ⟨hb.stays (.refl _), fun ho => ho.dead _ hfound⟩
  · obtain ⟨-, us, hself⟩ := create_self hb.dense hc
    have hdead : g1.IsDead id := ⟨_, hself, rfl, Ty.isDead_stamp _ _⟩
    have hfits := Fits.create hb.dense hb.fit (by simp) hc
    have hquiet := Quiet.trans hfits.dense hfits.fit (.create hb.dense (by simp) hc) (.deadNode hdead)
    exact ⟨hb.stays hquiet, fun _ => hdead⟩

@[simp] theorem works_deadControl : Works (editWith deadControl) :=
  fun _ hb => (deadControl_builds hb).imp fun _ _ h => h.1.advances

theorem kill_builds (hb : b.Neat) : Does AnyFault b kill fun _ b' => b.Builds b' ∧
    b'.effects = b.effects ∧ b'.cursor.memory = b.cursor.memory ∧
      (b.graph.Orderly → b'.graph.IsDead b'.cursor.control) := by
  refine (deadControl_builds hb).bind fun dead b1 ⟨h1, hdead⟩ => ?_
  refine .of_modify ⟨h1.toBuilds.trans (h1.neat.builds (.refl _) rfl rfl), h1.effects, ?_, hdead⟩
  rw [← h1.cursor]

/-! ### Values of any type -/

@[simp] theorem works_resolveAddress (base : NodeId) (offset : Nat) :
    Works (resolveAddress base offset) := by
  refine .bind (.look _) fun op => ?_
  split
  · refine .bind (.look _) fun _ => .bind (.lift _) fun _ => .pure _
  · exact .pure _

theorem works_loadAggregate (base : NodeId) (offset : Nat) (ty : Ty)
    {members : NodeId → Nat → List Nat → BuildM (List NodeId)}
    (hmembers : ∀ base offset offsets, Works (members base offset offsets)) :
    Works (loadAggregate base offset ty members) := by
  refine .bind (works_resolveAddress base offset) fun place => .bind (.lift _) fun offsets => ?_
  exact .bind (hmembers _ _ _) fun ids => works_make _ rfl

mutual

theorem works_loadValue (base : NodeId) (offset : Nat) :
    (ty : Ty) → Works (loadValue base offset ty)
  | .struct _ _ ts | .array _ ts | .tuple ts => by
    rw [loadValue]
    exact works_loadAggregate base offset _ fun base offset offsets =>
      works_loadMembers base offset ts offsets
  | .int .. | .float .. | .bool _ | .rune _ | .string _ | .pointer .. | .function .. | .void
  | .control _ | .memory | .error _ => by
    simp only [loadValue]
    exact .bind (works_resolveAddress base offset) fun place => works_make _ rfl

theorem works_loadMembers (base : NodeId) (offset : Nat) :
    (ts : List Ty) → (os : List Nat) → Works (loadMembers base offset ts os)
  | t :: ts, o :: os => by
    rw [loadMembers]
    refine .bind (.lift _) fun o => .bind (works_loadValue base o t) fun member => ?_
    exact .bind (works_loadMembers base offset ts os) fun members => .pure _
  | [], _ | _ :: _, [] => by
    simp only [loadMembers]
    exact .pure _

end

theorem works_storeScalar (base : NodeId) (offset : Nat) (value : NodeId) :
    Works (storeScalar base offset value) := by
  exact .bind (works_make _ rfl) fun _ => .pure _

theorem works_storeAggregate (base : NodeId) (offset : Nat) (ty : Ty) (value : NodeId)
    {members : NodeId → Nat → List Nat → BuildM Unit}
    (hmembers : ∀ base offset offsets, Works (members base offset offsets)) :
    Works (storeAggregate base offset ty value members) := by
  refine .bind (works_resolveAddress base offset) fun place => .bind (works_typeOf value) fun ty => ?_
  exact .ite (works_storeScalar _ _ value) (.bind (.lift _) fun offsets => hmembers _ _ offsets)

mutual

theorem works_storeValue (base : NodeId) (offset : Nat) (value : NodeId) :
    (ty : Ty) → Works (storeValue base offset value ty)
  | .struct _ _ ts | .array _ ts | .tuple ts => by
    rw [storeValue]
    exact works_storeAggregate base offset _ value fun base offset offsets =>
      works_storeMembers base offset value 0 ts offsets
  | .int .. | .float .. | .bool _ | .rune _ | .string _ | .pointer .. | .function .. | .void
  | .control _ | .memory | .error _ => by
    simp only [storeValue]
    exact .bind (works_resolveAddress base offset) fun place => works_storeScalar _ _ value

theorem works_storeMembers (base : NodeId) (offset : Nat) (value : NodeId) (index : Nat) :
    (ts : List Ty) → (os : List Nat) → Works (storeMembers base offset value index ts os)
  | t :: ts, o :: os => by
    rw [storeMembers]
    refine .bind (works_make _ rfl) fun member => .bind (.lift _) fun o => ?_
    exact .bind (works_storeValue base o member t) fun _ =>
      works_storeMembers base offset value (index + 1) ts os
  | [], _ | _ :: _, [] => by
    simp only [storeMembers]
    exact .pure _

end

theorem works_coerceAggregate (value : NodeId) (target : Ty) {members : BuildM (List NodeId)}
    (hmembers : Works members) : Works (coerceAggregate value target members) := by
  refine .bind (works_typeOf value) fun ty => .ite (works_make _ rfl) (.ite (.pure _) ?_)
  exact .ite (works_make _ rfl) (.bind hmembers fun ids => works_make _ rfl)

mutual

theorem works_coerce (value : NodeId) : (ty : Ty) → Works (coerce value ty)
  | .struct _ _ ts | .array _ ts | .tuple ts => by
    rw [coerce]
    exact works_coerceAggregate value _ (works_coerceMembers value 0 ts)
  | .int .. | .float .. | .bool _ | .rune _ | .string _ | .pointer .. | .function .. | .void
  | .control _ | .memory | .error _ => by
    simp only [coerce]
    exact works_make _ rfl

theorem works_coerceMembers (value : NodeId) (index : Nat) :
    (ts : List Ty) → Works (coerceMembers value index ts)
  | [] => by
    rw [coerceMembers]
    exact .pure _
  | t :: ts => by
    rw [coerceMembers]
    refine .bind (works_make _ rfl) fun member => .bind (works_coerce member t) fun member => ?_
    exact .bind (works_coerceMembers value (index + 1) ts) fun members => .pure _

end

theorem works_spillAs (value : NodeId) (ty : Ty) : Works (spillAs value ty) := by
  exact .bind (works_make _ rfl) fun address =>
    .bind (works_storeValue address 0 value ty) fun _ => .pure _

theorem works_spill (value : NodeId) : Works (spill value) := by
  exact .bind (works_typeOf value) fun ty => works_spillAs value _

end BuildM

end SeaOfNodes
