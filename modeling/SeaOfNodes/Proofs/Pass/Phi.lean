import SeaOfNodes.Proofs.Parse.Built
import SeaOfNodes.Proofs.Pass.Invariant

/-!
Phis along an optimization. The phis of a graph that was built fit. Moves and constants keep them
fitting, and so does a phi that takes one of its cases. A region that folds may leave a phi behind:
dead control takes the place of a region while its phis stay, and a phi that is its own case at the
one live predecessor stays when that takes the place of the region. Nothing else does
(`construct_optimize_phisFit_iff`).
-/
namespace SeaOfNodes

namespace Graph

variable {g g' g1 : Graph} {id x old new phi region : NodeId} {phis : List NodeId} {n : Nat}
  {node : Node} {fold : Fold} {position : Nat} {r : Option NodeId × Graph}

/-- A graph that is in order and whose phis fit. -/
structure Regular (g : Graph) : Prop where
  orderly : g.Orderly
  fit : g.PhisFit

/-! ### Constants -/

theorem AddsConstant.constructs (h : g.AddsConstant g') (hd : g.Dense) : g.Constructs g' := by
  cases h with
  | none => exact .refl g
  | constant hc => exact .create (by simp) hc
  | dead hc =>
    obtain ⟨-, us, hself⟩ := create_self hd hc
    exact .trans (.create (by simp) hc) (.dead ⟨_, hself, rfl, Ty.isDead_stamp _ _⟩)

theorem Regular.constructs (h : g.Regular) (hc : g.Constructs g') : g'.Regular :=
  ⟨hc.orderly h.orderly, (hc.fits h.orderly.dense h.fit).fit⟩

theorem Orderly.deadControl (h : g.Orderly) (hd : g.deadControl = .ok (id, g')) : g'.IsDead id := by
  rcases deadControl_cases hd with ⟨hdead, -, rfl⟩ | ⟨g1, hc, rfl⟩
  · exact h.dead _ hdead
  · obtain ⟨-, us, hself⟩ := create_self h.dense hc
    exact ⟨_, hself, rfl, Ty.isDead_stamp _ _⟩

/-! ### Moves -/

theorem Registered.moveConsumers {us : List User} (hreg : g.Registered)
    (hus : ∀ u ∈ us, u.edge.isValue = true ∨ u.edge = .previous)
    (h : moveConsumers old new us g = .ok g') : g'.Registered := by
  induction us generalizing g with
  | nil =>
    cases h
    exact hreg
  | cons u us ih =>
    rw [moveConsumers_cons old new u us g (hus u List.mem_cons_self)] at h
    obtain ⟨g1, h1, h⟩ := bind_eq_ok_iff.1 h
    exact ih (hreg.redirect h1) (fun v hv => hus v (List.mem_cons_of_mem _ hv)) h

theorem PhisFit.setPrevious {previous : NodeId} (h : g.PhisFit)
    (hs : g.setPrevious id previous = .ok g') : g'.PhisFit := by
  obtain ⟨e, he, henters, -⟩ := setPrevious_spec hs
  refine h.persists (.of_enters henters rfl (fun _ => rfl) rfl) fun phi hx hlive => ?_
  exact absurd (henters.has.1 hlive.has) hx

theorem Lifts.steps (hl : g.Lifts id g') : ∃ e b us g1 g2, g.memory[id]? = some e ∧
    g.users id = .ok us ∧ SwapSteps id e.previous b (us.filter g.flows) g g1 g2 g' := by
  obtain ⟨e, b, he, -, -, hswap⟩ := hl
  obtain ⟨_, hconsumers, -⟩ := bind_eq_ok_iff.1 hswap
  obtain ⟨us, hus, -⟩ := bind_eq_ok_iff.1 hconsumers
  obtain ⟨g1, g2, hsteps⟩ := swap_steps hus hswap
  exact ⟨e, b.previous, us, g1, g2, he, hus, hsteps⟩

theorem Orderly.lifts (h : g.Orderly) (hl : g.Lifts id g') : g'.Orderly := by
  obtain ⟨e, before, us, g1, g2, -, -, hsteps⟩ := hl.steps
  have hreg : g1.Registered := h.registered.moveConsumers
    (fun u hu => flows_edge (List.mem_filter.1 hu).2) hsteps.consumers
  have h1 : g1.Orderly := h.turned hsteps.turned hreg fun x r hr => ⟨r, hsteps.phiRegion ▸ hr⟩
  exact (h1.setPrevious hsteps.first).setPrevious hsteps.second

theorem Regular.lifts (h : g.Regular) (hl : g.Lifts id g') : g'.Regular := by
  refine ⟨h.orderly.lifts hl, ?_⟩
  obtain ⟨e, before, us, g1, g2, he, hus, hsteps⟩ := hl.steps
  have hholds : ∀ u ∈ us.filter g.flows, g.edgeHolds id u = true := fun u hu =>
    ((mem_users hus).1 (List.mem_filter.1 hu).1).2
  have hfit1 : g1.PhisFit := by
    intro phi hlive
    obtain ⟨region, n, hat, hmerge⟩ := h.fit phi (hsteps.turned.livePhi.1 hlive)
    refine ⟨region, n, hsteps.turned.phiAt hholds (by rw [hsteps.phiRegion]) hat ?_,
      hsteps.turned.mergeOf.2 hmerge⟩
    rintro rfl
    refine hmerge.isMerge.false_of (h.orderly.plain _ e he) ?_
    intro op ty htrue
    simp [htrue]
  exact (hfit1.setPrevious hsteps.first).setPrevious hsteps.second

/-! ### Phis that take a case -/

theorem Orderly.mem_phisOf (h : g.Orderly) (hphis : g.phisOf region = .ok phis) (hx : x ∈ phis) :
    g.IsPhi x := by
  obtain ⟨us, -, hphis⟩ := bind_eq_ok_iff.1 hphis
  cases hphis
  rw [List.mem_eraseDups] at hx
  have hregion := (List.mem_filter.1 hx).2
  simp only [decide_eq_true_eq] at hregion
  exact h.entries x region hregion.1

theorem Orderly.mem_phisOf_of_phiAt (h : g.Orderly) (hphis : g.phisOf region = .ok phis)
    (hlive : g.LivePhi phi) (hat : g.PhiAt phi region n) : phi ∈ phis := by
  obtain ⟨us, hus, hphis⟩ := bind_eq_ok_iff.1 hphis
  cases hphis
  have hr : g.Refers phi .control region := hat.control
  obtain ⟨edge, -, hu⟩ := h.registered.exists_user hus hlive.isLive hr
  rw [List.mem_eraseDups, List.mem_filter]
  exact ⟨List.mem_map.2 ⟨_, hu, rfl⟩, by simp [hat.entry, hlive.isLive]⟩

theorem PhisFit.not_strands (h : g.PhisFit) (hphi : g.IsPhi old) : ¬ g.Strands old new := by
  rintro ⟨-, phi, n, hlive, hat, -⟩
  exact (h.mergeOf hlive hat).not_isPhi hphi

theorem Regular.replace (h : g.Regular) (hr : g.replace old new = .ok g')
    (hstrands : ¬ g.Strands old new) : g'.Regular :=
  ⟨h.orderly.replace hr,
    (phisFit_replace_iff h.orderly.registered h.orderly.plain h.fit hr).2 hstrands⟩

/-! ### Phis that stay at a region -/

/-- A phi that is one of its own cases. -/
def FeedsItself (g : Graph) (phi : NodeId) : Prop := ∃ node, g.get? phi = some node ∧ phi ∈ node.inputs

theorem FeedsItself.replace (h : g.FeedsItself phi) (hr : g.replace old new = .ok g')
    (hne : old ≠ new) (hphi : phi ≠ old) : g'.FeedsItself phi := by
  obtain ⟨node, hn, hmem⟩ := h
  obtain ⟨us, es, -, hes⟩ := get?_replace hr hne hn
  refine ⟨_, hes, ?_⟩
  unfold Turn.inputs
  split
  · refine List.mem_map.2 ⟨phi, hmem, ?_⟩
    exact if_neg hphi
  · exact hmem

theorem mem_of_caseAt {case : NodeId} (h : g.caseAt phi position = .ok case) :
    ∃ node, g.get? phi = some node ∧ case ∈ node.inputs := by
  obtain ⟨node, hn, h⟩ := bind_eq_ok_iff.1 h
  split at h
  · rename_i hcase
    cases h
    exact ⟨node, get?_of_node hn, List.mem_of_getElem? hcase⟩
  · contradiction

/-- Phis take their cases at one predecessor of their region. Those that stay are their own cases. -/
theorem Regular.selectCase (h : g.Regular) (hphis : ∀ x ∈ phis, g.IsPhi x)
    (hall : ∀ {phi n}, g.LivePhi phi → g.PhiAt phi region n → phi ∈ phis ∨ g.FeedsItself phi)
    (hs : selectCase position phis g = .ok g') (hlive : g'.LivePhi phi)
    (hat : g'.PhiAt phi region n) : g'.FeedsItself phi := by
  induction phis generalizing g with
  | nil =>
    cases hs
    exact (hall hlive hat).resolve_left List.not_mem_nil
  | cons first rest ih =>
    have hfirst := hphis first List.mem_cons_self
    obtain ⟨case, hcase, hs⟩ := bind_eq_ok_iff.1 hs
    obtain ⟨g1, hr, hs⟩ := bind_eq_ok_iff.1 hs
    have h1 : g1.Regular := h.replace hr (h.fit.not_strands hfirst)
    refine ih h1 (fun x hx => (keeps_replace hr).at (hphis x (List.mem_cons_of_mem _ hx))) ?_ hs
    intro phi n hlive1 hat1
    by_cases hne : first = case
    · -- The first phi is its own case, and nothing is replaced.
      obtain rfl := replace_self hr hne
      rcases hall hlive1 hat1 with hmem | hself
      · rcases List.mem_cons.1 hmem with rfl | hmem
        · obtain ⟨node, hn, hmem⟩ := mem_of_caseAt hcase
          exact .inr ⟨node, hn, hne ▸ hmem⟩
        · exact .inl hmem
      · exact .inr hself
    · -- The phi is another one, which belongs to the region that it belonged to.
      obtain ⟨hlive0, hother⟩ := (livePhi_replace hr hne).1 hlive1
      obtain ⟨r, m, hat0, hmerge⟩ := h.fit phi hlive0
      have hr0 : r ≠ first := by
        rintro rfl
        exact hmerge.not_isPhi hfirst
      obtain ⟨rfl, rfl⟩ := hat1.unique (phiAt_replace hr hne hother hat0 hr0)
      rcases hall hlive0 hat0 with hmem | hself
      · exact .inl ((List.mem_cons.1 hmem).resolve_left hother)
      · exact .inr (hself.replace hr hne hother)

/-! ### Regions that fold -/

theorem selectCase_keeps (h : selectCase position phis g = .ok g') : Keeps g g' := by
  induction phis generalizing g with
  | nil =>
    obtain rfl := Except.ok.inj h
    exact .refl g
  | cons phi phis ih =>
    obtain ⟨case, -, h⟩ := bind_eq_ok_iff.1 h
    obtain ⟨g1, hr, h⟩ := bind_eq_ok_iff.1 h
    exact (keeps_replace hr).trans (ih h)

theorem Regular.run_keeps (h : g.Regular) (hrun : fold.run g id = .ok r) : Keeps g r.2 := by
  rcases run_adds hrun with hadds | ⟨-, node, only, phis, -, -, -, -, hselect⟩
  · exact ((hadds.constructs h.orderly.dense).fits h.orderly.dense h.fit).spares.keeps
  · exact selectCase_keeps hselect

theorem run_has (h : fold.run g id = .ok r) : g.Has id := by
  have hop : ∃ op, g.op id = .ok op := by
    cases fold <;>
    · obtain ⟨op, hop, -⟩ := bind_eq_ok_iff.1 h
      exact ⟨op, hop⟩
  obtain ⟨op, hop⟩ := hop
  obtain ⟨node, hn, -⟩ := get?_of_op hop
  exact ⟨node, hn⟩

section

variable (hn : g.get? id = some node) (hmerge : node.op.isMerge = true)
  (h : fold.run g id = .ok (some new, g1))
include hn hmerge h

theorem run_of_isMerge : fold = .control ∧ g.foldRegion id = .ok (some new, g1) := by
  have hop : node.op = .region ∨ node.op = .loop := by
    cases hop : node.op <;> simp [hop, Op.isMerge] at hmerge ⊢
  have hconstant : g.foldConstant id = .ok (none, g) := by
    rcases hop with hop | hop <;>
      simp [foldConstant, operatorType?, node_of_get? hn, hop, keep, bind, Except.bind, pure,
        Except.pure]
  unfold Fold.run at h
  cases fold with
  | operator =>
    rcases hop with hop | hop <;>
      simp [foldOperator, op_of_get? hn, hop, hconstant, bind, Except.bind] at h
  | comparison =>
    rcases hop with hop | hop <;>
      simp [foldComparison, op_of_get? hn, hop, keep, bind, Except.bind] at h
  | load =>
    rcases hop with hop | hop <;> simp [foldLoad, op_of_get? hn, hop, keep, bind, Except.bind] at h
  | control =>
    refine ⟨rfl, ?_⟩
    rcases hop with hop | hop <;>
      simpa [foldControl, op_of_get? hn, hop, bind, Except.bind] using h

/-- A fold drops a node where paths join: no predecessor is taken, and it is dead, or one is, and
its phis take their cases there. -/
theorem run_merge : g.deadControl = .ok (new, g1) ∨ Selects fold id g (some new, g1) := by
  obtain ⟨rfl, hregion⟩ := run_of_isMerge hn hmerge h
  obtain ⟨node', hn', hregion⟩ := bind_eq_ok_iff.1 hregion
  cases hn.symm.trans (get?_of_node hn')
  obtain ⟨positions, hpositions, hregion⟩ := bind_eq_ok_iff.1 hregion
  split at hregion
  · obtain ⟨dead, -, hregion⟩ := bind_eq_ok_iff.1 hregion
    split at hregion
    · exact absurd (Except.ok.inj hregion) (by simp)
    · obtain ⟨⟨dead, g2⟩, hdead, hregion⟩ := bind_eq_ok_iff.1 hregion
      obtain ⟨hnew, rfl⟩ := Prod.mk.inj (Except.ok.inj hregion)
      cases hnew
      exact .inl hdead
  · obtain ⟨phis, hphis, hregion⟩ := bind_eq_ok_iff.1 hregion
    obtain ⟨g2, hselect, hregion⟩ := bind_eq_ok_iff.1 hregion
    obtain ⟨-, rfl⟩ := Prod.mk.inj (Except.ok.inj hregion)
    exact .inr ⟨rfl, node, _, phis, hn, hmerge, hpositions, hphis, hselect⟩
  · exact absurd (Except.ok.inj hregion) (by simp)

end

/-- A change takes the region from a phi: dead control takes its place, or a node that does not join
as many paths takes it while the phi is one of its own cases. -/
def Event.Abandons (ev : Event) : Prop :=
  match ev.change with
  | .lift _ => False
  | .replace region new => ∃ phi n, ev.before.LivePhi phi ∧ ev.before.PhiAt phi region n ∧
    (ev.before.IsDead new ∨ ev.before.FeedsItself phi ∧ ¬ ev.before.MergeOf new n)

theorem IsDead.not_mergeOf (h : g.IsDead id) : ¬ g.MergeOf id n := by
  intro hmerge
  refine hmerge.isMerge.false_of h ?_
  rintro op ty htrue ⟨rfl, -⟩
  contradiction

theorem Event.Abandons.strands {ev : Event} (h : ev.Abandons)
    (hev : ev.change = .replace region new) (hfit : ev.before.PhisFit) :
    ev.before.Strands region new := by
  unfold Abandons at h
  rw [hev] at h
  obtain ⟨phi, n, hlive, hat, hway⟩ := h
  have hmerge := hfit.mergeOf hlive hat
  have hnot : ¬ ev.before.MergeOf new n := by
    rcases hway with hdead | ⟨-, hnot⟩
    · exact hdead.not_mergeOf
    · exact hnot
  refine ⟨?_, phi, n, hlive, hat, hnot⟩
  rintro rfl
  exact hnot hmerge

theorem Regular.run_replace {g2 : Graph} (h : g.Regular) (hrun : fold.run g id = .ok (some new, g1))
    (h1 : g1.Regular) (hr : g1.replace id new = .ok g2)
    (habandons : ¬ Event.Abandons ⟨g1, .replace id new, g2⟩) : g2.Regular := by
  refine h1.replace hr ?_
  rintro ⟨hne, phi, n, hlive, hat, hnot⟩
  refine habandons ⟨phi, n, hlive, hat, ?_⟩
  -- The node has a phi, so paths join at it, before the fold as after it.
  obtain ⟨node, hn⟩ := run_has hrun
  obtain ⟨node1, hn1, hop, -⟩ := (h.run_keeps hrun).node hn
  have hmerge : node.op.isMerge = true := by
    obtain ⟨other, ho, hother, -⟩ := h1.fit.mergeOf hlive hat
    cases hn1.symm.trans ho
    rw [← hop]
    exact hother
  rcases run_merge hn hmerge hrun with hdead | ⟨-, node, only, phis, -, -, -, hphis, hselect⟩
  · exact .inl (h.orderly.deadControl hdead)
  · refine .inr ⟨?_, hnot⟩
    exact h.selectCase (fun x hx => h.orderly.mem_phisOf hphis hx)
      (fun hlive hat => .inl (h.orderly.mem_phisOf_of_phiAt hphis hlive hat)) hselect hlive hat

/-! ### Optimizations -/

theorem kept_orderly : Kept Orderly fun _ => False where
  constant h hadds := (hadds.constructs h.dense).orderly h
  lift h hl := h.lifts hl
  select _ _ _ _ h hr := h.replace hr
  replace _ _ h _ hr _ := h.replace hr

theorem kept_regular : Kept Regular Event.Abandons where
  constant h hadds := h.constructs (hadds.constructs h.orderly.dense)
  lift h hl := h.lifts hl
  select h0 hphis hphi hkeeps h hr :=
    h.replace hr (h.fit.not_strands (hkeeps.at (h0.orderly.mem_phisOf hphis hphi)))
  replace h hrun h1 _ hr habandons := h.run_replace hrun h1 hr habandons

/-- Phis fit all along an optimization exactly if no change takes the region from one. -/
theorem Regular.visits_iff (h : g.Regular) (options : OptimizeOptions) :
    (∀ g', OptimizeVisits options g g' → g'.PhisFit) ↔
      ∀ ev, OptimizeMakes options g ev → ¬ ev.Abandons := by
  constructor
  · intro hvisits ev hev habandons
    have hbefore := hvisits _ (.inr ⟨ev, hev, .inl rfl⟩)
    have hafter := hvisits _ (.inr ⟨ev, hev, .inr rfl⟩)
    have ho : ev.before.Orderly := (kept_orderly.roundsMake hev.2 h.orderly fun _ _ => id).1
    have hhappens := hev.2.happens
    obtain ⟨before, change, after⟩ := ev
    cases change with
    | lift id => exact habandons
    | replace region new =>
      have hstrands := habandons.strands rfl hbefore
      exact (phisFit_replace_iff ho.registered ho.plain hbefore hhappens).1 hafter hstrands
  · intro habandons g' hv
    exact (kept_regular.visits h habandons hv).fit

end Graph

open SeaOfNodes.Graph

/-- The phis of a graph that was built fit. They fit all along its optimization exactly if no change
takes the region from a phi. -/
theorem construct_optimize_phisFit_iff {text : String} {promote : Bool} {c : Construction}
    (h : construct text promote = .ok c) (options : OptimizeOptions) :
    c.graph.PhisFit ∧ ((∀ g', OptimizeVisits options c.graph g' → g'.PhisFit) ↔
      ∀ ev, OptimizeMakes options c.graph ev → ¬ ev.Abandons) :=
  ⟨construct_phisFit h, Regular.visits_iff ⟨construct_orderly h, construct_phisFit h⟩ options⟩

theorem construct_optimize_phisFit_loop : ∃ c,
    construct "func main() \x7b var i int; for i < 3 \x7b i += 1; \x7d \x7d" true = .ok c ∧
      c.graph.PhisFit ∧ ((∀ g', OptimizeVisits {} c.graph g' → g'.PhisFit) ↔
        ∀ ev, OptimizeMakes {} c.graph ev → ¬ ev.Abandons) := by
  have hok : passes (fun _ => true)
      (construct "func main() \x7b var i int; for i < 3 \x7b i += 1; \x7d \x7d" true) = true := by
    decide +kernel
  obtain ⟨c, hc, -⟩ := exists_ok_of_passes hok
  exact ⟨c, hc, construct_optimize_phisFit_iff hc {}⟩

/-- A loop that nothing leaves, which is found out only by looking at the values of variables. -/
def deadBreaks : String :=
  "func main() \x7b for \x7b var t bool = false; var y int = 1; if t \x7b break; \x7d " ++
    "var u bool = false; var z int = 2; if u \x7b break; \x7d \x7d \x7d"

/-- The region behind such a loop is found to be dead, and a phi of it stays. -/
theorem not_phisFit_deadBreaks : ∃ c, construct deadBreaks false = .ok c ∧
    ∃ g', OptimizeVisits {} c.graph g' ∧ ¬ g'.PhisFit := by
  have hrun : passes (fun c => passes (fun r => !decide r.2.PhisFit) (optimizeRounds {} 8 {} c.graph))
      (construct deadBreaks false) = true := by decide +kernel
  obtain ⟨c, hc, hrun⟩ := exists_ok_of_passes hrun
  obtain ⟨r, hr, hnot⟩ := exists_ok_of_passes hrun
  rw [Bool.not_eq_true', decide_eq_false_iff_not] at hnot
  -- If all graphs on the way had phis that fit, so would the last one.
  refine ⟨c, hc, Classical.byContradiction fun hnone => hnot ?_⟩
  have hregular : c.graph.Regular := ⟨construct_orderly hc, construct_phisFit hc⟩
  have habandons := (hregular.visits_iff {}).1 fun g' hv =>
    Classical.byContradiction fun hg' => hnone ⟨g', hv, hg'⟩
  exact (kept_regular.rounds hregular (fun ev hev => habandons ev ⟨rfl, hev⟩) hr).fit

end SeaOfNodes
