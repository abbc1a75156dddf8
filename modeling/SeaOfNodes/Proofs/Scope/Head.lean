import SeaOfNodes.Proofs.Scope.Construct

/-!
Heads of loops while they are open. A loop is entered with a phi for each variable and for memory,
which has one case, the value from before the loop. Whatever the body builds, the phis stay like
that until the loop is closed (`Inside.open`): more cases go to the phis of loops that are closed,
and these are other ones.
-/
namespace SeaOfNodes

open SeaOfNodes.Graph

/-! ### Cases of a phi -/

namespace Graph

variable {g g' : Graph} {p x : NodeId} {C : NodeId → Prop}

/-- A phi that no other node stands for, and the values that are its cases. -/
def Chooses (g : Graph) (p : NodeId) (C : NodeId → Prop) : Prop :=
  ∃ node region cases, g.get? p = some node ∧ node.replaced = false ∧
    node.inputs = region :: cases ∧ ∀ c, c ∈ cases ↔ C c

theorem Chooses.has (h : g.Chooses p C) : g.Has p := by
  obtain ⟨node, _, _, hn, -⟩ := h
  exact ⟨node, hn⟩

theorem Chooses.congr {C' : NodeId → Prop} (h : g.Chooses p C) (hiff : ∀ c, C c ↔ C' c) :
    g.Chooses p C' := by
  obtain ⟨node, region, cases, hn, hlive, hinputs, hmem⟩ := h
  exact ⟨node, region, cases, hn, hlive, hinputs, fun c => (hmem c).trans (hiff c)⟩

theorem Chooses.appendInput {input : NodeId} (h : g.Chooses p C)
    (ha : g.appendInput x input = .ok g') : g'.Chooses p fun c => C c ∨ p = x ∧ c = input := by
  obtain ⟨node, region, cases, hn, hlive, hinputs, hmem⟩ := h
  obtain ⟨other, ho, henters, -⟩ := appendInput_spec ha
  have hget := get?_mapNode (Node.append input) ⟨other, ho⟩ p
  by_cases hp : p = x
  · rw [if_pos hp, hn] at hget
    obtain ⟨us, hus, -⟩ := henters.node hget
    refine ⟨_, region, cases ++ [input], hus, hlive, by simp [Node.append, hinputs], fun c => ?_⟩
    simp [hmem, hp]
  · rw [if_neg hp, hn] at hget
    obtain ⟨us, hus, -⟩ := henters.node hget
    exact ⟨_, region, cases, hus, hlive, hinputs, fun c => by simp [hmem, hp]⟩

theorem Chooses.replace {old new : NodeId} (h : g.Chooses p C) (hreg : g.Registered)
    (hold : g.memory[old]? = none) (hr : g.replace old new = .ok g') (hne : old ≠ new)
    (hp : p ≠ old) : g'.Chooses p fun c => ∃ c', C c' ∧ c = if c' = old then new else c' := by
  obtain ⟨node, region, cases, hn, hlive, hinputs, hmem⟩ := h
  obtain ⟨us, es, hus, hes⟩ := get?_replace hr hne hn
  have hstand : (g.turnOf old new).standIn node = new := by
    unfold Turn.standIn turnOf
    simp [hold]
  refine ⟨_, if region = old then new else region,
    cases.map fun c => if c = old then new else c, hes, by simp [hlive, hp], ?_, fun c => ?_⟩
  · simp [hreg.inputs_turnOf hus hn hlive, hstand, hinputs]
  · simp only [List.mem_map, hmem]
    exact exists_congr fun c' => and_congr_right fun _ => eq_comm

/-- Phis that no other nodes stand for, and the values that are their cases. -/
structure Heads (g : Graph) (S : NodeId → NodeId → Prop) (ps : List NodeId) : Prop where
  registered : g.Registered
  effect : ∀ p ∈ ps, g.memory[p]? = none
  chooses : ∀ p ∈ ps, g.Chooses p (S p)

namespace Heads

variable {S S' : NodeId → NodeId → Prop} {ps : List NodeId}

theorem congr (h : Heads g S ps) (hiff : ∀ p ∈ ps, ∀ c, S p c ↔ S' p c) : Heads g S' ps :=
  ⟨h.registered, h.effect, fun p hp => (h.chooses p hp).congr (hiff p hp)⟩

theorem appendInput {input : NodeId} (h : Heads g S ps) (ha : g.appendInput x input = .ok g') :
    Heads g' (fun p c => S p c ∨ p = x ∧ c = input) ps := by
  refine ⟨h.registered.appendInput ha, fun p hp => ?_, fun p hp => (h.chooses p hp).appendInput ha⟩
  obtain ⟨node, -, henters, -⟩ := appendInput_spec ha
  rw [henters.memory]
  exact h.effect p hp

theorem replace {old new : NodeId} (h : Heads g S (old :: ps)) (hr : g.replace old new = .ok g')
    (hne : old ≠ new) (hnot : old ∉ ps) :
    Heads g' (fun p c => ∃ c', S p c' ∧ c = if c' = old then new else c') ps := by
  obtain ⟨hold, heffect⟩ := List.forall_mem_cons.1 h.effect
  refine ⟨h.registered.replace hr, fun p hp => ?_, fun p hp => ?_⟩
  · obtain ⟨us, g1, -, hturned, -, rfl⟩ := replace_spec hr hne
    change g1.memory[p]? = none
    rw [hturned.memory, heffect p hp]
    rfl
  · refine (h.chooses p (List.mem_cons_of_mem _ hp)).replace h.registered hold hr hne ?_
    rintro rfl
    exact hnot hp

end Heads

end Graph

/-! ### Nodes that stay as they are -/

namespace Graph

variable {g g' : Graph} {p x header : NodeId} {node : Node} {phis xs : List NodeId}

/-- A handle has a node, whatever its users are. -/
def Shows (g : Graph) (p : NodeId) (node : Node) : Prop :=
  ∃ us, g.get? p = some { node with users := us }

namespace Shows

section

variable (h : g.Shows p node)
include h

theorem has : g.Has p := by
  obtain ⟨us, hus⟩ := h
  exact ⟨_, hus⟩

theorem kind : g.At p fun op _ => op = node.op := by
  obtain ⟨us, hus⟩ := h
  exact ⟨_, hus, rfl⟩

theorem enters {g1 : Graph} (he : Enters g1 g') (hslots : g1.slots = g.slots) :
    g'.Shows p node := by
  obtain ⟨us, hus⟩ := h
  have hget : g1.get? p = g.get? p := by
    unfold get?
    rw [hslots]
  obtain ⟨us', hus', -⟩ := he.node (hget.trans hus)
  exact ⟨us', hus'⟩

theorem create {op : Op} {ty : Ty} {inputs : List NodeId} {id : NodeId} (hd : g.Dense)
    (hc : g.create op ty inputs = .ok (id, g')) : g'.Shows p node := by
  obtain ⟨us, hus⟩ := h
  obtain ⟨us', hus'⟩ := (Extends.create hd hc).node hus
  exact ⟨us', hus'⟩

theorem addsPhi {region phi : NodeId} {cases : List NodeId} (ha : AddsPhi g region cases phi g') :
    g'.Shows p node := by
  obtain ⟨us, hus⟩ := h
  obtain ⟨us', hus'⟩ := ha.node hus
  exact ⟨us', hus'⟩

theorem appendInput {input : NodeId} (ha : g.appendInput x input = .ok g') (hp : p ≠ x) :
    g'.Shows p node := by
  obtain ⟨us, hus⟩ := h
  obtain ⟨other, ho, henters, -⟩ := appendInput_spec ha
  have hget := get?_mapNode (Node.append input) ⟨other, ho⟩ p
  rw [if_neg hp, hus] at hget
  obtain ⟨us', hus', -⟩ := henters.node hget
  exact ⟨us', hus'⟩

theorem replace {old new : NodeId} (hr : g.replace old new = .ok g') (hp : p ≠ old)
    (hin : old ∉ node.inputs) : g'.Shows p node := by
  by_cases hne : old = new
  · exact replace_self hr hne ▸ h
  · obtain ⟨us, hus⟩ := h
    obtain ⟨users, es, -, hes⟩ := get?_replace hr hne hus
    have hinputs : (g.turnOf old new).inputs users p { node with users := us } = node.inputs := by
      unfold Turn.inputs
      split
      · have hin : (g.turnOf old new).old ∉ ({ node with users := us } : Node).inputs := hin
        rw [Node.rename_of_not_mem hin]
      · rfl
    refine ⟨es, ?_⟩
    rwa [hinputs, beq_eq_false_iff_ne.2 hp, Bool.or_false] at hes

theorem reports (hd : g.Dense) (hr : g.Reports g') : g'.Shows p node := by
  rcases hr with rfl | ⟨origins, span, ty, id, hc⟩
  · exact h
  · have hd' : ({ g with origins := origins } : Graph).Dense := ⟨hd.free, hd.has_iff⟩
    exact create (g := { g with origins := origins }) h hd' hc

theorem opens (hd : g.Dense) (ho : Opens header phis g g') : g'.Shows p node := by
  induction ho with
  | nil => exact h
  | phi hadd _ ih =>
    have hadds := addPhi_spec hd hadd
    exact ih (h.addsPhi hadds) hadds.dense
  | error hreports _ _ ih => exact ih (h.reports hd hreports) (hreports.persists hd).1

theorem appends (ha : Appends xs g g') (hp : p ∉ xs) : g'.Shows p node := by
  induction ha with
  | nil => exact h
  | cons happend _ ih =>
    rw [List.mem_cons, not_or] at hp
    exact ih (h.appendInput happend hp.1) hp.2

theorem collapses (hc : Collapses phis g g') (hp : p ∉ phis) (hin : ∀ x ∈ node.inputs, x ∉ phis) :
    g'.Shows p node := by
  induction hc with
  | nil => exact h
  | cons hold hr _ ih =>
    refine ih (h.replace hr ?_ fun hmem => hin _ hmem hold)
    rintro rfl
    exact hp hold

end

end Shows

/-- Whatever is built, a phi without an error among its inputs keeps them. A loop gives inputs to
phis and replaces them, but these are its own. -/
theorem Constructs.shows (h : Constructs g g') (hd : g.Dense) (hfit : g.PhisFit)
    (hp : g.Shows p node) (hphi : node.op = .phi)
    (hin : ∀ x ∈ node.inputs, g.At x fun op _ => op.isError = false) : g'.Shows p node := by
  induction h with
  | refl g => exact hp
  | trans hc _ ih1 ih2 =>
    have hfits := hc.fits hd hfit
    refine ih2 hfits.dense hfits.fit (ih1 hd hfit hp hin) ?_
    exact fun x hx => hfits.spares.keeps.at (hin x hx)
  | create _ hcreate => exact hp.create hd hcreate
  | control _ hattach => exact hp.enters (attachControl_spec hattach).1 rfl
  | memory _ hattach => exact hp.enters (attachMemory_spec hattach).1 rfl
  | root _ => exact hp
  | origins _ _ => exact hp
  | dead _ => exact hp
  | phi _ _ hadd => exact hp.addsPhi (addPhi_spec hd hadd)
  | body hid happend =>
    refine hp.appendInput happend ?_
    rintro rfl
    exact hp.kind.false_of hid fun op ty hop hnot => hnot.2 (hop.trans hphi)
  | @loop header entry ty phis paths g g1 g2 g3 g4 g5 hcreate hopens _ happends hcollapses ih =>
    have hd1 := hd.create hcreate
    obtain ⟨hopen, -⟩ := hopens.fits hd hfit hcreate
    -- The head has new phis and nodes of errors.
    have hnot : ∀ {x}, g.At x (fun op _ => op.isError = false) → x ∉ phis := by
      intro x hx hmem
      rcases (hopens.opened hd1).listed x hmem with herror | ⟨hfresh, -⟩
      · refine herror.false_of (hopen.spares.keeps.at hx) ?_
        rintro op ty ⟨span, rfl⟩ hsound
        contradiction
      · exact hfresh ((has_create hd hcreate).2 (.inr hx.has))
    have hpnot : p ∉ phis := hnot (hp.kind.mono fun op ty hop => by rw [hop, hphi]; rfl)
    have hpheader : p ≠ header := by
      rintro rfl
      exact (create_self hd hcreate).1 hp.has
    have hbody := ih hopen.dense hopen.fit ((hp.create hd hcreate).opens hd1 hopens)
      fun x hx => hopen.spares.keeps.at (hin x hx)
    exact (hbody.appends happends (by simp [hpheader, hpnot])).collapses hcollapses hpnot
      fun x hx => hnot (hin x hx)

end Graph

/-! ### Entering a loop -/

theorem Does.and {α : Type} {F : Fault → Prop} {b : Builder} {m : BuildM α}
    {Q Q' : α → Builder → Prop} (h : Does F b m Q) (h' : Does F b m Q') :
    Does F b m fun a b' => Q a b' ∧ Q' a b' := by
  unfold Does Yields at *
  split
  · rename_i r hr
    rw [hr] at h h'
    exact ⟨h, h'⟩
  · rename_i f hf
    rw [hf] at h
    exact h

/-- A phi that was added to the head of a loop with a value that was there. -/
def Graph.OpenedAt (g₀ g : Graph) (header p : NodeId) : Prop :=
  ¬ g₀.Has p ∧ ∃ node v, g.Shows p node ∧ node.op = .phi ∧ node.replaced = false ∧
    node.inputs = [header, v] ∧ g₀.At v fun op _ => op.isError = false

theorem Graph.Opened.openedAt {g0 g g1 g2 : Graph} {header p : NodeId} {phis phis' : List NodeId}
    (h : Opened header phis g g1) (hp : p ∈ phis) (ho : Opens header phis' g1 g2)
    (hopened : g1.IsPhi p → g0.OpenedAt g1 header p) (hphi : g2.IsPhi p) :
    g0.OpenedAt g2 header p := by
  rcases h.listed p hp with herror | ⟨-, hphi1, -⟩
  · exact absurd ((ho.opened h.dense).persists.keeps.at herror) hphi.not_error
  · obtain ⟨hfresh, node, v, hshows, hfacts⟩ := hopened hphi1
    exact ⟨hfresh, node, v, hshows.opens h.dense ho, hfacts⟩

namespace LoopPhis

variable {b b' : Builder} {g0 : Graph} {header case : NodeId}

theorem make_phi_opened (ty : Ty) (hk : Keeps g0 b.graph) (hb : b.Neat)
    (hmerge : b.graph.MergeOf header 1) (hcase : g0.At case fun op _ => op.isError = false) :
    Does AnyFault b (BuildM.make (.phi header [case] (.loop ty))) fun phi b' =>
      Begins header [phi] b b' ∧ (b'.graph.IsPhi phi → g0.OpenedAt b'.graph header phi) := by
  refine ((make_phi_begins ty hmerge hb).and (BuildM.make_phi_opens ty hmerge hb)).imp ?_
  rintro phi b' ⟨⟨hbegins, -⟩, -, -, hopens⟩
  refine ⟨hbegins, fun hphi => ?_⟩
  rcases hopens with ⟨ty, hadd⟩ | ⟨-, herror⟩
  · have hadds := addPhi_spec hb.dense hadd
    obtain ⟨ty, us, hself⟩ := hadds.self
    exact ⟨fun hhas => hadds.fresh (hk.has hhas), { op := .phi, ty, inputs := [header, case] }, case,
      ⟨us, hself⟩, rfl, rfl, rfl, hcase⟩
  · exact absurd herror hphi.not_error

theorem openEntries_opened {entries : List (Nat × String × Binding)} (scope : Scope)
    (hk : Keeps g0 b.graph) (hb : b.Neat) (hmerge : b.graph.MergeOf header 1)
    (hentries : ∀ e ∈ entries, ∀ id, e.2.2.heldValue? = some id →
      g0.At id fun op _ => op.isError = false) :
    Does AnyFault b (openEntries header entries scope) fun r b' =>
      ∀ v ∈ r.1, b'.graph.IsPhi v.phi → g0.OpenedAt b'.graph header v.phi := by
  induction entries generalizing b scope with
  | nil => exact .pure (by simp)
  | cons entry entries ih =>
    obtain ⟨depth, name, binding⟩ := entry
    obtain ⟨hentry, hrest⟩ := List.forall_mem_cons.1 hentries
    cases binding with
    | held id ty =>
      refine (make_phi_opened ty hk hb hmerge (hentry id rfl)).bind ?_
      rintro phi b1 ⟨h1, hphi⟩
      have hopened := h1.opens.opened hb.dense
      refine ((openEntries_begins entries _ h1.merge h1.neat).and (ih _
        (hk.trans hopened.persists.keeps) h1.neat h1.merge hrest)).bind ?_
      rintro r b2 ⟨⟨h2, -⟩, hr⟩
      exact .pure (List.forall_mem_cons.2
        ⟨hopened.openedAt List.mem_cons_self h2.opens hphi, hr⟩)
    | type ty | value id | slot address ty => exact ih scope hk hb hmerge hrest

theorem enter_opened {scope : Scope} (hb : b.Neat) (hmerge : b.graph.MergeOf header 1)
    (hscope : ∀ e ∈ scope.entries, ∀ id, e.2.2.heldValue? = some id →
      b.graph.At id fun op _ => op.isError = false)
    (hmemory : b.graph.At b.cursor.memory fun op _ => op.isError = false) :
    Does AnyFault b (enter scope header) fun r b' =>
      ∀ p ∈ r.1.nodes, b'.graph.IsPhi p → b.graph.OpenedAt b'.graph header p := by
  refine ((openEntries_begins scope.entries scope hmerge hb).and
    (openEntries_opened scope (.refl _) hb hmerge hscope)).bind ?_
  rintro ⟨locals, scope⟩ b1 ⟨⟨h1, hcursor⟩, hlocals⟩
  have hopened := h1.opens.opened hb.dense
  refine Does.get.bind ?_
  rintro _ _ ⟨rfl, rfl⟩
  rw [← hcursor] at hmemory
  refine (make_phi_opened .memory hopened.persists.keeps h1.neat h1.merge hmemory).bind
    fun memory b2 ⟨h2, hphi⟩ => ?_
  refine Does.bind (Q := fun _ b3 => b3.graph = b2.graph) (.of_modify rfl) ?_
  rintro _ b3 hgraph
  refine .pure fun p hp hphi3 => ?_
  rw [hgraph] at hphi3 ⊢
  rcases List.mem_append.1 hp with hp | hp
  · obtain ⟨v, hv, rfl⟩ := List.mem_map.1 hp
    exact hopened.openedAt hp h2.opens (hlocals v hv) hphi3
  · obtain rfl := List.mem_singleton.1 hp
    exact hphi hphi3

/-- The head of a loop that is not closed: each phi has the value from before the loop. -/
structure Open (g : Graph) (phis : LoopPhis) (entry : NodeId → NodeId) : Prop where
  header : g.Has phis.header ∧ phis.header ∉ phis.nodes
  nodup : phis.nodes.Nodup
  heads : Heads g (fun p c => c = entry p) phis.nodes
  entry : ∀ p ∈ phis.nodes, g.Has (entry p) ∧ entry p ∉ phis.nodes

/-- The value that a phi has from before its loop. -/
def entryOf (g : Graph) (p : NodeId) : NodeId := ((g.get? p).bind fun node => node.inputs[1]?).getD p

/-- A loop that was entered from `b₀` with values that are no errors, and whose body is built up to
`b`. -/
structure Inside (scope : Scope) (b₀ : Builder) (phis : LoopPhis) (b : Builder) : Prop where
  neat : b₀.Neat
  orderly : b₀.graph.Orderly
  header : b₀.graph.MergeOf phis.header 1
  values : ∀ e ∈ scope.entries, ∀ id, e.2.2.heldValue? = some id →
    b₀.graph.At id fun op _ => op.isError = false
  memory : b₀.graph.At b₀.cursor.memory fun op _ => op.isError = false
  entered : ∃ inside b₁, enter scope phis.header b₀ = .ok ((phis, inside), b₁) ∧
    (∀ p ∈ phis.nodes, b₁.graph.IsPhi p) ∧ b₁.graph.Constructs b.graph

theorem Inside.open {b0 : Builder} {scope : Scope} {phis : LoopPhis} (h : Inside scope b0 phis b) :
    Open b.graph phis (entryOf b.graph) := by
  obtain ⟨hb0, ho, hmerge, hscope, hmemory, inside, b1, henter, hphis, hbody⟩ := h
  have hresult := (enter_begins scope hmerge hb0).and (enter_opened hb0 hmerge hscope hmemory)
  unfold Does Yields at hresult
  rw [henter] at hresult
  obtain ⟨⟨-, hbegins, -⟩, hopenedAt⟩ := hresult
  have hopened := hbegins.opens.opened hb0.dense
  have ho1 : b1.graph.Orderly := ho.opens hbegins.opens
  have hfits := hbody.fits hbegins.neat.dense hbegins.neat.fit
  have hkeeps := hopened.persists.keeps.trans hfits.spares.keeps
  have hfresh : ∀ p ∈ phis.nodes, ¬ b0.graph.Has p := fun p hp => (hopenedAt p hp (hphis p hp)).1
  -- The phis are as they were when the loop was entered.
  have hhead : ∀ p ∈ phis.nodes, ∃ node, b.graph.Shows p node ∧ node.op = .phi ∧
      node.replaced = false ∧ node.inputs = [phis.header, entryOf b.graph p] ∧
      b0.graph.Has (entryOf b.graph p) := by
    intro p hp
    obtain ⟨-, node, v, hshows, hop, hlive, hinputs, hv⟩ := hopenedAt p hp (hphis p hp)
    have hsound : ∀ x ∈ node.inputs, b1.graph.At x fun op _ => op.isError = false := by
      rw [hinputs]
      refine List.forall_mem_cons.2 ⟨hbegins.merge.isMerge.mono ?_, List.forall_mem_cons.2
        ⟨hopened.persists.keeps.at hv, List.forall_mem_nil _⟩⟩
      intro op ty hop
      cases op <;> first | rfl | contradiction
    have hshows := hbody.shows hbegins.neat.dense hbegins.neat.fit hshows hop hsound
    have hentry : entryOf b.graph p = v := by
      obtain ⟨us, hus⟩ := hshows
      simp [entryOf, hus, hinputs]
    exact ⟨node, hshows, hop, hlive, hentry ▸ hinputs, hentry ▸ hv.has⟩
  have horderly := hbody.orderly ho1
  refine ⟨⟨?_, fun hmem => hfresh _ hmem hmerge.has⟩, ?_, ⟨horderly.registered, ?_, ?_⟩, ?_⟩
  · exact hkeeps.has hmerge.has
  · refine List.nodup_iff_count_le_one.2 fun p => ?_
    by_cases hp : p ∈ phis.nodes
    · rcases hopened.listed p hp with herror | ⟨-, -, hcount, -⟩
      · exact absurd herror (hphis p hp).not_error
      · exact hcount.le
    · rw [List.count_eq_zero_of_not_mem hp]
      exact Nat.zero_le 1
  · intro p hp
    obtain ⟨node, hshows, hop, -⟩ := hhead p hp
    cases he : b.graph.memory[p]? with
    | none => rfl
    | some e =>
      refine (hshows.kind.false_of (horderly.plain p e he) ?_).elim
      rintro op ty heq ⟨-, hnot⟩
      exact hnot (heq.trans hop)
  · intro p hp
    obtain ⟨node, ⟨us, hus⟩, -, hlive, hinputs, -⟩ := hhead p hp
    exact ⟨_, _, _, hus, hlive, hinputs, by simp⟩
  · intro p hp
    obtain ⟨node, -, -, -, -, hhas⟩ := hhead p hp
    exact ⟨hkeeps.has hhas, fun hmem => hfresh _ hmem hhas⟩

end LoopPhis

end SeaOfNodes
