import SeaOfNodes.Proofs.Pass.Optimize

/-!
Invariants of optimizations. An optimization moves accesses, adds constants, puts the cases of phis
in their place and puts what a fold found in the place of a node. A property that these keep, save
for certain changes, holds of every graph that an optimization comes by unless it makes such a
change (`Kept.visits`), and of the graph that it ends with (`Kept.rounds`).
-/
namespace SeaOfNodes

namespace Graph

variable {g g' : Graph} {id region phi case new : NodeId} {phis : List NodeId} {ev : Event}
  {fold : Fold} {node : Node} {r : Option NodeId × Graph}

theorem get?_of_node (h : g.node id = .ok node) : g.get? id = some node := by
  unfold Graph.node at h
  split at h
  · rename_i hn
    rw [hn, Except.ok.inj h]
  · contradiction

theorem get?_of_op {op : Op} (h : g.op id = .ok op) :
    ∃ node, g.get? id = some node ∧ node.op = op := by
  unfold Graph.op at h
  split at h
  · rename_i node hn
    exact ⟨node, hn, Except.ok.inj h⟩
  · contradiction

/-! ### What a fold does to a graph -/

/-- A fold leaves a graph as it is or adds a constant, which may become the node for dead control. -/
inductive AddsConstant (g : Graph) : Graph → Prop where
  | none : AddsConstant g g
  | constant {ty : Ty} {id : NodeId} {g' : Graph} :
    g.create .constant ty [] = .ok (id, g') → AddsConstant g g'
  | dead {id : NodeId} {g' : Graph} :
    g.create .constant .dead [] = .ok (id, g') → AddsConstant g { g' with deadNode := some id }

/-- A fold selects the cases of the phis of a region that has one live predecessor. -/
structure Selects (fold : Fold) (id : NodeId) (g : Graph) (r : Option NodeId × Graph) : Prop where
  control : fold = .control
  selects : ∃ node only phis, g.get? id = some node ∧ node.op.isMerge = true ∧
    g.livePositions 0 node.inputs = .ok [only] ∧ g.phisOf id = .ok phis ∧
    selectCase only phis g = .ok r.2

theorem keep_adds : Yields AnyFault g.keep fun r => g.AddsConstant r.2 := .ok .none

theorem foldTo_adds (ty : Ty) : Yields AnyFault (g.foldTo ty) fun r => g.AddsConstant r.2 :=
  .bind_any fun _ h => .pure (.constant h)

theorem deadControl_adds : Yields AnyFault g.deadControl fun r => g.AddsConstant r.2 := by
  cases h : g.deadControl with
  | error f => exact trivial
  | ok r =>
    obtain ⟨id, g'⟩ := r
    rcases deadControl_cases h with ⟨-, -, rfl⟩ | ⟨g1, hc, rfl⟩
    · exact .ok .none
    · exact .ok (.dead hc)

theorem foldToDead_adds : Yields AnyFault g.foldToDead fun r => g.AddsConstant r.2 :=
  deadControl_adds.bind fun _ h => .pure h

theorem foldConstant_adds (id : NodeId) :
    Yields AnyFault (g.foldConstant id) fun r => g.AddsConstant r.2 := by
  refine .bind_any fun ty _ => ?_
  split
  · split
    · exact foldTo_adds _
    · exact keep_adds
  · exact keep_adds

theorem foldOperator_adds (id : NodeId) :
    Yields AnyFault (g.foldOperator id) fun r => g.AddsConstant r.2 := by
  refine .bind_any fun op _ => ?_
  split
  · refine .bind_any fun operand _ => .bind_any fun built _ => ?_
    split
    · exact .pure .none
    · exact foldConstant_adds id
  · exact foldConstant_adds id

theorem foldComparison_adds (id : NodeId) :
    Yields AnyFault (g.foldComparison id) fun r => g.AddsConstant r.2 := by
  refine .bind_any fun op _ => ?_
  split
  · refine .bind_any fun lhs _ => .bind_any fun rhs _ => ?_
    split
    · exact keep_adds
    · refine .bind_any fun ty _ => ?_
      split
      · exact keep_adds
      · exact foldTo_adds _
  · exact keep_adds

theorem foldBranch_adds (id : NodeId) (taken : Bool) :
    Yields AnyFault (g.foldBranch id taken) fun r => g.AddsConstant r.2 := by
  refine .bind_any fun ty _ => ?_
  split
  · exact keep_adds
  · refine .bind_any fun dead _ => ?_
    split
    · exact keep_adds
    · split
      · exact .pure .none
      · exact foldToDead_adds

theorem foldPhi_adds (id : NodeId) :
    Yields AnyFault (g.foldPhi id) fun r => g.AddsConstant r.2 := by
  refine .bind_any fun node _ => ?_
  split
  · exact trivial
  · split
    · exact keep_adds
    · refine .bind_any fun region _ => .bind_any fun taken _ => ?_
      split
      · exact keep_adds
      · split
        · exact .pure .none
        · refine .bind_any fun tys _ => .bind_any fun ty _ => ?_
          dsimp only
          split
          · exact foldTo_adds _
          · exact keep_adds

theorem foldLoad_adds (id : NodeId) :
    Yields AnyFault (g.foldLoad id) fun r => g.AddsConstant r.2 := by
  refine .bind_any fun op _ => ?_
  split
  · exact .bind_any fun found _ => .pure .none
  · exact keep_adds

theorem foldRegion_adds (hn : g.get? id = some node) (hmerge : node.op.isMerge = true) :
    Yields AnyFault (g.foldRegion id) fun r => g.AddsConstant r.2 ∨ Selects .control id g r := by
  refine .bind_ok (node_of_get? hn) (.bind_any fun positions hpositions => ?_)
  split
  · refine .bind_any fun dead _ => ?_
    split
    · exact keep_adds.imp fun _ h => .inl h
    · exact foldToDead_adds.imp fun _ h => .inl h
  · refine .bind_any fun phis hphis => .bind_any fun g' hselect => .pure (.inr ⟨rfl, ?_⟩)
    exact ⟨node, _, phis, hn, hmerge, hpositions, hphis, hselect⟩
  · exact keep_adds.imp fun _ h => .inl h

theorem run_adds (h : fold.run g id = .ok r) : g.AddsConstant r.2 ∨ Selects fold id g r := by
  cases fold with
  | operator => exact .inl ((foldOperator_adds id).result h)
  | comparison => exact .inl ((foldComparison_adds id).result h)
  | load => exact .inl ((foldLoad_adds id).result h)
  | control =>
    have hcontrol : Yields AnyFault (g.foldControl id) fun r =>
        g.AddsConstant r.2 ∨ Selects .control id g r := by
      refine .bind_any fun op hop => ?_
      obtain ⟨node, hn, hop⟩ := get?_of_op hop
      split
      · exact (foldBranch_adds id _).imp fun _ h => .inl h
      · exact foldRegion_adds hn (hop ▸ rfl)
      · exact foldRegion_adds hn (hop ▸ rfl)
      · exact (foldPhi_adds id).imp fun _ h => .inl h
      · exact keep_adds.imp fun _ h => .inl h
    exact hcontrol.result h

/-! ### The worklist -/

/-- What holds of a worklist and a graph at the start of a simplification holds of the empty worklist
at its end, if it stays when a node is dropped and when one is simplified. The nodes that use what took
the place of a node are on the worklist afterwards. -/
theorem simplifyQueue_induct {P : List NodeId → Graph → Prop} {E : Event → Prop}
    (skip : ∀ {id queue g}, P (id :: queue) g → g.isLive id = false → P queue g)
    (step : ∀ {id queue queue' g node found g'}, P (id :: queue) g → g.isLive id = true →
      g.get? id = some node → (∀ ev, TryMakes id (foldsFor node.op) g ev → E ev) →
      g.simplify id = .ok (found, g') → queue ⊆ queue' →
      (∀ new us, found = some new → g'.users new = .ok us → ∀ u ∈ us, u.node ∈ queue') → P queue' g')
    {fuel count : Nat} {queue : List NodeId} {queued : Std.ExtTreeSet NodeId} (h : P queue g)
    (hqueued : ∀ y, y ∈ queued → y ∈ queue) (hE : ∀ ev, QueueMakes queue queued g ev → E ev)
    (hs : simplifyQueue fuel queue queued g = .ok (count, g')) : P [] g' := by
  induction fuel generalizing g queue queued count with
  | zero => contradiction
  | succ fuel ih =>
    cases queue with
    | nil =>
      cases Except.ok.inj hs
      exact h
    | cons id queue =>
      have herased : ∀ y, y ∈ queued.erase id → y ∈ queue := by
        intro y hy
        obtain ⟨hne, hy⟩ := Std.ExtTreeSet.mem_erase.1 hy
        refine (List.mem_cons.1 (hqueued y hy)).resolve_left fun heq => hne ?_
        rw [heq]
        exact Std.ReflCmp.compare_self
      rw [simplifyQueue] at hs
      cases hlive : g.isLive id with
      | false =>
        rw [hlive] at hs
        exact ih (skip h hlive) herased (fun ev hev => hE ev (.skip hlive hev)) hs
      | true =>
        rw [hlive] at hs
        obtain ⟨⟨found, g1⟩, hsimplify, hs⟩ := bind_eq_ok_iff.1 hs
        obtain ⟨node, hn, -⟩ := isLive_iff.1 hlive
        have hstep {queue'} := @step id queue queue' g node found g1 h hlive hn
          (fun ev hev => hE ev (.here hlive hn hev)) hsimplify
        cases found with
        | none =>
          have hkept := hstep (List.Subset.refl queue) fun _ _ hnew => absurd hnew.symm (Option.some_ne_none _)
          exact ih hkept herased (fun ev hev => hE ev (.kept hlive hsimplify hev)) hs
        | some new =>
          obtain ⟨us, hus, hs⟩ := bind_eq_ok_iff.1 hs
          have hfresh : g1.lookAgain new (queued.erase id) = .ok _ := bind_eq_ok_iff.2 ⟨us, hus, rfl⟩
          obtain ⟨⟨count', g2⟩, hqueue, hs⟩ := bind_eq_ok_iff.1 hs
          cases Except.ok.inj hs
          refine ih (hstep (List.subset_append_left _ _) ?_) ?_
            (fun ev hev => hE ev (.replaced hlive hsimplify hfresh hev)) hqueue
          · intro new' us' hnew' hus' u hu
            cases hnew'
            cases hus.symm.trans hus'
            -- A user that is not on the worklist yet is put on it.
            by_cases hmem : u.node ∈ queued.erase id
            · exact List.mem_append_left _ (herased _ hmem)
            · refine List.mem_append_right _ (List.mem_filter.2 ⟨?_, ?_⟩)
              · rw [List.mem_eraseDups]
                exact List.mem_append_left _ (List.mem_map.2 ⟨u, hu, rfl⟩)
              · rw [Std.ExtTreeSet.mem_iff_contains, Bool.not_eq_true] at hmem
                rw [hmem]
                rfl
          · intro y hy
            rcases Std.ExtTreeSet.mem_insertMany_list.1 hy with hy | hy
            · exact List.mem_append_left _ (herased y hy)
            · exact List.mem_append_right _ (List.contains_iff_mem.1 hy)

theorem mem_liveIds (h : g.isLive id = true) : id ∈ g.liveIds := by
  obtain ⟨node, hn, -⟩ := isLive_iff.1 h
  exact List.mem_filter.2 ⟨mem_ids hn, h⟩

theorem mem_liveIds_of_queued (h : id ∈ Std.ExtTreeSet.ofList g.liveIds) : id ∈ g.liveIds :=
  List.contains_iff_mem.1 (Std.ExtTreeSet.mem_ofList.1 h)

/-! ### Invariants -/

/-- An optimization keeps `I` unless it puts a node in the place of another by a change that is
`bad`. -/
structure Kept (I : Graph → Prop) (bad : Event → Prop) : Prop where
  constant : ∀ {g g' : Graph}, I g → g.AddsConstant g' → I g'
  lift : ∀ {g g' : Graph} {id : NodeId}, I g → g.Lifts id g' → I g'
  /-- A phi of a region takes one of its cases; other phis of the region may have done so before. -/
  select : ∀ {g₀ g g' : Graph} {region phi case : NodeId} {phis : List NodeId}, I g₀ →
    g₀.phisOf region = .ok phis → phi ∈ phis → Keeps g₀ g → I g → g.replace phi case = .ok g' → I g'
  /-- A node takes the place of another for which a fold found it. -/
  replace : ∀ {g g₁ g₂ : Graph} {fold : Fold} {id new : NodeId}, I g →
    fold.run g id = .ok (some new, g₁) → I g₁ → new ≠ id → g₁.replace id new = .ok g₂ →
      ¬ bad ⟨g₁, .replace id new, g₂⟩ → I g₂

namespace Kept

variable {I : Graph → Prop} {bad : Event → Prop} {options : OptimizeOptions} {folds : List Fold}
  {found : Option NodeId} {fuel limit position steps : Nat} {g0 : Graph}
  {ids queue rest : List NodeId} {queued : Std.ExtTreeSet NodeId}

/-! #### Moves -/

theorem climbMakes (hI : Kept I bad) (hev : ClimbMakes id g ev) (h : I g) :
    I ev.before ∧ I ev.after := by
  induction hev with
  | here hl => exact ⟨h, hI.lift h hl⟩
  | later hl _ ih => exact ih (hI.lift h hl)

theorem climb (hI : Kept I bad) (h : I g) (hc : climb id fuel g = .ok (steps, g')) : I g' := by
  induction fuel generalizing g steps with
  | zero => contradiction
  | succ fuel ih =>
    rw [climb] at hc
    cases he : g.memory[id]? with
    | none =>
      rw [he] at hc
      cases Except.ok.inj hc
      exact h
    | some effect =>
      rw [he] at hc
      obtain ⟨pass, hpass, hc⟩ := bind_eq_ok_iff.1 hc
      cases pass with
      | false =>
        cases Except.ok.inj hc
        exact h
      | true =>
        cases hb : g.memory[effect.previous]? with
        | none =>
          simp only [hb] at hc
          cases Except.ok.inj hc
          exact h
        | some before =>
          simp only [hb] at hc
          obtain ⟨g1, hswap, hc⟩ := bind_eq_ok_iff.1 hc
          obtain ⟨⟨steps', g2⟩, hclimb, hc⟩ := bind_eq_ok_iff.1 hc
          cases Except.ok.inj hc
          exact ih (hI.lift h ⟨effect, before, he, hpass, hb, hswap⟩) hclimb

theorem climbAllMakes (hI : Kept I bad) {ids : List NodeId} (hev : ClimbAllMakes ids g ev)
    (h : I g) : I ev.before ∧ I ev.after := by
  induction hev with
  | here hc => exact hI.climbMakes hc h
  | later hc _ ih => exact ih (hI.climb h hc)

theorem climbAll (hI : Kept I bad) (h : I g) (hc : climbAll ids g = .ok (steps, g')) : I g' := by
  induction ids generalizing g steps with
  | nil =>
    cases Except.ok.inj hc
    exact h
  | cons id ids ih =>
    obtain ⟨⟨steps1, g1⟩, h1, hc⟩ := bind_eq_ok_iff.1 hc
    obtain ⟨⟨steps2, g2⟩, h2, hc⟩ := bind_eq_ok_iff.1 hc
    cases Except.ok.inj hc
    exact ih (hI.climb h h1) h2

/-! #### Folds -/

section

variable (hI : Kept I bad)
include hI

theorem selectCase {g0 : Graph} {rest : List NodeId} {position : Nat} (h0 : I g0)
    (hphis : g0.phisOf region = .ok phis) (hrest : rest ⊆ phis) (hkeeps : Keeps g0 g) (h : I g)
    (hs : selectCase position rest g = .ok g') : I g' := by
  induction rest generalizing g with
  | nil =>
    cases hs
    exact h
  | cons phi rest ih =>
    obtain ⟨hphi, hrest⟩ := List.cons_subset.1 hrest
    obtain ⟨case, -, hs⟩ := bind_eq_ok_iff.1 hs
    obtain ⟨g1, hr, hs⟩ := bind_eq_ok_iff.1 hs
    exact ih hrest (hkeeps.trans (keeps_replace hr)) (hI.select h0 hphis hphi hkeeps h hr) hs

theorem selectMakes {g0 : Graph} {rest : List NodeId} {position : Nat}
    (hev : SelectMakes position rest g ev) (h0 : I g0) (hphis : g0.phisOf region = .ok phis)
    (hrest : rest ⊆ phis) (hkeeps : Keeps g0 g) (h : I g) : I ev.before ∧ I ev.after := by
  induction hev with
  | here hcase hr => exact ⟨h, hI.select h0 hphis (hrest List.mem_cons_self) hkeeps h hr⟩
  | later hcase hr _ ih =>
    obtain ⟨hphi, hrest⟩ := List.cons_subset.1 hrest
    exact ih hrest (hkeeps.trans (keeps_replace hr)) (hI.select h0 hphis hphi hkeeps h hr)

theorem run (h : I g) (hr : fold.run g id = .ok r) : I r.2 := by
  rcases run_adds hr with hadds | ⟨-, node, only, phis, -, -, -, hphis, hselect⟩
  · exact hI.constant h hadds
  · exact hI.selectCase h hphis (List.Subset.refl _) (.refl g) h hselect

theorem foldMakes (hev : FoldMakes id fold g ev) (h : I g) : I ev.before ∧ I ev.after := by
  cases hev with
  | region _ _ _ hphis hselect =>
    exact hI.selectMakes hselect h hphis (List.Subset.refl _) (.refl g) h

theorem tryMakes (hev : TryMakes id folds g ev) (h : I g)
    (hbad : ∀ ev, TryMakes id folds g ev → ¬ bad ev) : I ev.before ∧ I ev.after := by
  induction hev with
  | fold hfold => exact hI.foldMakes hfold h
  | replace hrun hdiffers hr =>
    have h1 := hI.run h hrun
    refine ⟨h1, hI.replace h hrun h1 (fun heq => hdiffers (.inl heq)) hr ?_⟩
    exact hbad _ (.replace hrun hdiffers hr)
  | next hrun hnone _ ih =>
    exact ih (hI.run h hrun) fun ev' hev' => hbad ev' (.next hrun hnone hev')

theorem simplifyBy (h : I g) (hbad : ∀ ev, TryMakes id folds g ev → ¬ bad ev)
    (hs : simplifyBy id folds g = .ok (found, g')) : I g' := by
  induction folds generalizing g with
  | nil =>
    cases Except.ok.inj hs
    exact h
  | cons fold folds ih =>
    obtain ⟨⟨found1, g1⟩, hrun, hs⟩ := bind_eq_ok_iff.1 hs
    have h1 := hI.run h hrun
    -- The next fold is tried if this one found nothing new.
    have hnext : (∀ new, found1 = some new → new = id ∨ g1.isLive id = false) →
        simplifyBy id folds g1 = .ok (found, g') → I g' := fun hnone hs =>
      ih h1 (fun ev hev => hbad ev (.next hrun hnone hev)) hs
    cases found1 with
    | none => exact hnext (by simp) hs
    | some new =>
      dsimp only at hs
      split at hs
      · rename_i hsame
        refine hnext ?_ hs
        rintro _ ⟨⟩
        exact hsame
      · rename_i hdiffers
        obtain ⟨g2, hr, hs⟩ := bind_eq_ok_iff.1 hs
        cases Except.ok.inj hs
        refine hI.replace h hrun h1 (fun heq => hdiffers (.inl heq)) hr ?_
        exact hbad _ (.replace hrun hdiffers hr)

end

/-! #### The worklist -/

theorem simplify (hI : Kept I bad) (h : I g) (hn : g.get? id = some node)
    (hbad : ∀ ev, TryMakes id (foldsFor node.op) g ev → ¬ bad ev)
    (hs : g.simplify id = .ok (found, g')) : I g' := by
  unfold Graph.simplify at hs
  rw [op_of_get? hn] at hs
  exact hI.simplifyBy h hbad hs

theorem queueMakes (hI : Kept I bad) (hev : QueueMakes queue queued g ev) (h : I g)
    (hbad : ∀ ev, QueueMakes queue queued g ev → ¬ bad ev) : I ev.before ∧ I ev.after := by
  induction hev with
  | here hlive hn htry => exact hI.tryMakes htry h fun ev' hev' => hbad ev' (.here hlive hn hev')
  | skip hlive _ ih => exact ih h fun ev' hev' => hbad ev' (.skip hlive hev')
  | kept hlive hs _ ih =>
    obtain ⟨node, hn, -⟩ := isLive_iff.1 hlive
    have h1 := hI.simplify h hn (fun ev' hev' => hbad ev' (.here hlive hn hev')) hs
    exact ih h1 fun ev' hev' => hbad ev' (.kept hlive hs hev')
  | replaced hlive hs hfresh _ ih =>
    obtain ⟨node, hn, -⟩ := isLive_iff.1 hlive
    have h1 := hI.simplify h hn (fun ev' hev' => hbad ev' (.here hlive hn hev')) hs
    exact ih h1 fun ev' hev' => hbad ev' (.replaced hlive hs hfresh hev')

theorem simplifyAll (hI : Kept I bad) {count : Nat} (h : I g)
    (hbad : ∀ ev, QueueMakes g.liveIds (.ofList g.liveIds) g ev → ¬ bad ev)
    (hs : g.simplifyAll = .ok (count, g')) : I g' :=
  simplifyQueue_induct (P := fun _ => I) (fun h _ => h)
    (fun h _ hn hbad hs _ _ => hI.simplify h hn hbad hs) h (fun _ => mem_liveIds_of_queued) hbad hs

/-! #### Rounds -/

theorem reorderIf (hI : Kept I bad) {moved : Nat} (h : I g)
    (hr : g.reorderIf options = .ok (moved, g')) : I g' := by
  unfold Graph.reorderIf at hr
  split at hr
  · exact hI.climbAll h hr
  · cases Except.ok.inj hr
    exact h

theorem simplifyIf (hI : Kept I bad) {simplified : Nat} (h : I g)
    (hbad : options.simplify = true →
      ∀ ev, QueueMakes g.liveIds (.ofList g.liveIds) g ev → ¬ bad ev)
    (hs : g.simplifyIf options = .ok (simplified, g')) : I g' := by
  unfold Graph.simplifyIf at hs
  split at hs
  · rename_i hsimplify
    exact hI.simplifyAll h (hbad hsimplify) hs
  · cases Except.ok.inj hs
    exact h

theorem roundsMake (hI : Kept I bad) (hev : RoundsMake options limit g ev) (h : I g)
    (hbad : ∀ ev, RoundsMake options limit g ev → ¬ bad ev) : I ev.before ∧ I ev.after := by
  induction hev with
  | reorder _ hclimb => exact hI.climbAllMakes hclimb h
  | simplify hreorder hsimplify hqueue =>
    exact hI.queueMakes hqueue (hI.reorderIf h hreorder)
      fun ev' hev' => hbad ev' (.simplify hreorder hsimplify hev')
  | next hreorder hsimplify hprogress _ ih =>
    have h2 := hI.simplifyIf (hI.reorderIf h hreorder)
      (fun hon ev' hev' => hbad ev' (.simplify hreorder hon hev')) hsimplify
    exact ih h2 fun ev' hev' => hbad ev' (.next hreorder hsimplify hprogress hev')

theorem rounds (hI : Kept I bad) {stats stats' : OptimizeStats} (h : I g)
    (hbad : ∀ ev, RoundsMake options limit g ev → ¬ bad ev)
    (hr : optimizeRounds options limit stats g = .ok (stats', g')) : I g' := by
  induction limit generalizing g stats with
  | zero =>
    cases Except.ok.inj hr
    exact h
  | succ limit ih =>
    rw [optimizeRounds_succ] at hr
    obtain ⟨⟨moved, g1⟩, hreorder, hr⟩ := bind_eq_ok_iff.1 hr
    obtain ⟨⟨simplified, g2⟩, hsimplify, hr⟩ := bind_eq_ok_iff.1 hr
    have h2 := hI.simplifyIf (hI.reorderIf h hreorder)
      (fun hon ev hev => hbad ev (.simplify hreorder hon hev)) hsimplify
    dsimp only at hr
    split at hr
    · cases Except.ok.inj hr
      exact h2
    · rename_i hprogress
      exact ih h2 (fun ev hev => hbad ev (.next hreorder hsimplify hprogress hev)) hr

theorem visits (hI : Kept I bad) (h : I g) (hbad : ∀ ev, OptimizeMakes options g ev → ¬ bad ev)
    (hv : OptimizeVisits options g g') : I g' := by
  rcases hv with rfl | ⟨ev, hev, hg'⟩
  · exact h
  · have hboth := hI.roundsMake hev.2 h fun ev' hev' => hbad ev' ⟨hev.1, hev'⟩
    rcases hg' with rfl | rfl
    · exact hboth.1
    · exact hboth.2

end Kept

end Graph

end SeaOfNodes
