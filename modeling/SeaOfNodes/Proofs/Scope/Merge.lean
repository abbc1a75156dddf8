import SeaOfNodes.Proofs.Pass.Phi
import SeaOfNodes.Proofs.Scope.Arrival
import SeaOfNodes.Proofs.Scope.Name

/-!
Joins select. Behind a join of two or more arms a variable has, for a path that came by an arm, the
value that it had at the end of this arm, whether the join made a phi for it, a constant or nothing
(`merge_selects`). A single arm goes on as it is.
-/
namespace SeaOfNodes

open SeaOfNodes.Graph

variable {before : NodeId} {node : Node}

/-! ### Variables -/

/-- The value of a variable at the end of an arm; an arm that does not have it leaves it as it
was. -/
def Arm.valueOf (arm : Arm) (depth : Nat) (name : String) (before : NodeId) : NodeId :=
  ((arm.scope.get? depth name).bind Binding.heldValue?).getD before

/-- A value that was merged from cases which `ty` describes. -/
def Graph.Joined (g₀ g : Graph) (region : NodeId) (cases : List NodeId) (v : NodeId) : Prop :=
  ∃ ty, Merged g₀ g region cases ty v ∧
    ∀ c ∈ cases, ∀ x, (g₀.At c fun _ t => t.Describes x) → ty.Describes x

/-- What merging the variables in `entries` comes to. -/
structure EntriesMerged (g₀ : Graph) (region : NodeId) (arms : List Arm)
    (entries : List (Nat × String × Binding)) (scope : Scope) (g : Graph) (s : Scope) (g' : Graph) :
    Prop where
  dense : g'.Dense
  shows : ∀ {x node}, g.Shows x node → g'.Shows x node
  depth : s.depth = scope.depth
  others : ∀ d n, (d, n) ∉ entries.map Scope.place → s.get? d n = scope.get? d n
  fixed : ∀ d n x, (d, n, x) ∈ entries → x.heldValue? = none → s.get? d n = some x
  held : ∀ d n before ty, (d, n, .held before ty) ∈ entries → ∃ v,
    s.get? d n = some (.held v ty) ∧ Joined g₀ g' region (BuildM.casesOf arms d n before) v ∧
      ((∀ arm ∈ arms, arm.valueOf d n before = before) → v = before)
  made : ∀ x, g'.Has x → g.Has x ∨ (g'.At x fun op _ => op = .constant ∨ op = .phi) ∧
    ∃ d n before ty, (d, n, .held before ty) ∈ entries ∧ s.get? d n = some (.held x ty) ∧
      ¬ ∀ arm ∈ arms, arm.valueOf d n before = before

/-- The variables that are merged, and the graph so far. -/
structure EntriesKnown (g₀ : Graph) (region : NodeId) (arms : List Arm)
    (entries : List (Nat × String × Binding)) (scope : Scope) (g : Graph) : Prop where
  dense : g.Dense
  shows : ∀ {x node}, g₀.Shows x node → g.Shows x node
  region : g.Has region
  places : (entries.map Scope.place).Nodup
  bound : ∀ d n x, (d, n, x) ∈ entries → scope.get? d n = some x
  values : ∀ d n before ty, (d, n, .held before ty) ∈ entries → ty.isProper = true ∧
    ∀ arm ∈ arms, g₀.At (arm.valueOf d n before) fun _ t => t.sameShape ty = true

section Entries

variable {F : Fault → Prop} {b : Builder} {g0 g g1 g' : Graph} {region v : NodeId} {arms : List Arm}
  {entries : List (Nat × String × Binding)} {scope scope' s : Scope} {d : Nat} {n : String}
  {y : Binding} {cases : List NodeId}

theorem Graph.Joined.mono (h : Joined g0 g region cases v)
    (hshows : ∀ {x node}, g.Shows x node → g'.Shows x node) : Joined g0 g' region cases v := by
  obtain ⟨ty, hmerged, hty⟩ := h
  exact ⟨ty, hmerged.mono hshows, hty⟩

theorem EntriesMerged.cons (h : EntriesMerged g0 region arms entries scope' g1 s g')
    (hplace : (d, n) ∉ entries.map Scope.place) (hdepth : scope'.depth = scope.depth)
    (hother : ∀ d' n', ¬ (d' = d ∧ n' = n) → scope'.get? d' n' = scope.get? d' n')
    (hshows : ∀ {x node}, g.Shows x node → g1.Shows x node)
    (hfixed : y.heldValue? = none → scope'.get? d n = some y)
    (hheld : ∀ before ty, y = .held before ty → ∃ v, scope'.get? d n = some (.held v ty) ∧
      Joined g0 g1 region (BuildM.casesOf arms d n before) v ∧
        ((∀ arm ∈ arms, arm.valueOf d n before = before) → v = before))
    (hmade : ∀ x, g1.Has x → g.Has x ∨ (g1.At x fun op _ => op = .constant ∨ op = .phi) ∧
      ∃ before ty, y = .held before ty ∧ scope'.get? d n = some (.held x ty) ∧
        ¬ ∀ arm ∈ arms, arm.valueOf d n before = before) :
    EntriesMerged g0 region arms ((d, n, y) :: entries) scope g s g' := by
  have hself : s.get? d n = scope'.get? d n := h.others d n hplace
  refine ⟨h.dense, fun hx => h.shows (hshows hx), h.depth.trans hdepth, ?_, ?_, ?_, ?_⟩
  · intro d' n' hnot
    rw [List.map_cons, List.mem_cons, not_or] at hnot
    rw [h.others d' n' hnot.2]
    exact hother d' n' fun ⟨hd, hn⟩ => hnot.1 (Prod.ext hd hn)
  · intro d' n' x hx hnone
    rcases List.mem_cons.1 hx with heq | hx
    · obtain ⟨rfl, rfl, rfl⟩ : d' = d ∧ n' = n ∧ x = y := by simpa using heq
      exact hself.trans (hfixed hnone)
    · exact h.fixed d' n' x hx hnone
  · intro d' n' before ty hx
    rcases List.mem_cons.1 hx with heq | hx
    · obtain ⟨rfl, rfl, hy⟩ : d' = d ∧ n' = n ∧ .held before ty = y := by simpa using heq
      obtain ⟨v, hv, hjoined, hagree⟩ := hheld before ty hy.symm
      exact ⟨v, hself.trans hv, hjoined.mono h.shows, hagree⟩
    · exact h.held d' n' before ty hx
  · intro x hx
    rcases h.made x hx with hx | ⟨hop, d', n', before, ty, hmem, hfacts⟩
    · rcases hmade x hx with hx | ⟨⟨node, hn, hop⟩, before, ty, rfl, hget, hnot⟩
      · exact .inl hx
      · obtain ⟨us, hus⟩ := h.shows (.refl hn)
        exact .inr ⟨⟨_, hus, hop⟩, d, n, before, ty, List.mem_cons_self, hself.trans hget, hnot⟩
    · exact .inr ⟨hop, d', n', before, ty, List.mem_cons_of_mem _ hmem, hfacts⟩

theorem EntriesKnown.cons (h : EntriesKnown g0 region arms ((d, n, y) :: entries) scope g)
    (hother : ∀ d' n', ¬ (d' = d ∧ n' = n) → scope'.get? d' n' = scope.get? d' n')
    (hdense : g1.Dense) (hshows : ∀ {x node}, g.Shows x node → g1.Shows x node) :
    EntriesKnown g0 region arms entries scope' g1 := by
  obtain ⟨hplace, hplaces⟩ := List.nodup_cons.1 h.places
  obtain ⟨node, hn⟩ := h.region
  refine ⟨hdense, fun hx => hshows (h.shows hx), (hshows (.refl hn)).has, hplaces, ?_,
    fun d' n' before ty hx => h.values d' n' before ty (List.mem_cons_of_mem _ hx)⟩
  intro d' n' x hx
  rw [hother d' n' ?_]
  · exact h.bound d' n' x (List.mem_cons_of_mem _ hx)
  · rintro ⟨rfl, rfl⟩
    exact hplace (List.mem_map.2 ⟨_, hx, rfl⟩)

namespace BuildM

theorem casesOf_eq (before : NodeId) :
    casesOf arms d n before = arms.map fun arm => arm.valueOf d n before := rfl

theorem joined_of_agree (hne : arms ≠ []) (hall : ∀ arm ∈ arms, arm.valueOf d n before = before)
    (hn : g0.get? before = some node) : Joined g0 g region (casesOf arms d n before) before := by
  have hcases : ∀ c ∈ casesOf arms d n before, c = before := by simpa [casesOf_eq] using hall
  refine ⟨node.ty, .same ?_ hcases, ?_⟩
  · obtain ⟨arm, rest, rfl⟩ := List.exists_cons_of_ne_nil hne
    exact List.mem_map.2 ⟨arm, List.mem_cons_self, hall arm List.mem_cons_self⟩
  · rintro c hc x ⟨other, ho, hx⟩
    obtain rfl := hcases c hc
    cases hn.symm.trans ho
    exact hx

theorem mergeEntries_merges (hne : arms ≠ [])
    (h : EntriesKnown g0 region arms entries scope b.graph) :
    Does F b (mergeEntries region arms entries scope) fun s b' =>
      EntriesMerged g0 region arms entries scope b.graph s b'.graph := by
  induction entries generalizing b scope with
  | nil =>
    exact .pure ⟨h.dense, fun h => h, rfl, fun _ _ _ => rfl, by simp, by simp, fun _ hx => .inl hx⟩
  | cons entry entries ih =>
    obtain ⟨d, n, y⟩ := entry
    have hplace := (List.nodup_cons.1 h.places).1
    have hkeeps : Keeps g0 b.graph := keeps_of_shows h.shows
    have hbound := h.bound d n y List.mem_cons_self
    rw [mergeEntries]
    split
    · refine (ih (h.cons (fun _ _ _ => rfl) h.dense fun hx => hx)).imp fun s b' hs => ?_
      refine hs.cons hplace rfl (fun _ _ _ => rfl) (fun hx => hx) (fun _ => hbound) ?_
        fun x hx => .inl hx
      rintro before ty rfl
      contradiction
    · rename_i before hbefore
      obtain ⟨ty, rfl⟩ : ∃ ty, y = .held before ty := by
        cases y <;> simp_all [Binding.heldValue?]
      obtain ⟨hproper, hvalues⟩ := h.values d n before ty List.mem_cons_self
      have hagree : (casesOf arms d n before).all (· == before) = true ↔
          ∀ arm ∈ arms, arm.valueOf d n before = before := by
        simp [casesOf_eq]
      dsimp only
      split
      · rename_i hall
        have hall := hagree.1 hall
        refine (ih (h.cons (fun _ _ _ => rfl) h.dense fun hx => hx)).imp fun s b' hs => ?_
        refine hs.cons hplace rfl (fun _ _ _ => rfl) (fun hx => hx) (fun _ => hbound) ?_
          fun x hx => .inl hx
        rintro _ _ ⟨rfl, rfl⟩
        obtain ⟨arm, harm⟩ := List.exists_mem_of_ne_nil arms hne
        obtain ⟨node, hn, -⟩ := hvalues arm harm
        rw [hall arm harm] at hn
        exact ⟨before, hbound, joined_of_agree hne hall hn, fun _ => rfl⟩
      · rename_i hsome
        have hnot : ¬ ∀ arm ∈ arms, arm.valueOf d n before = before := fun hall =>
          hsome (hagree.2 hall)
        have hcases : ∀ c ∈ casesOf arms d n before,
            b.graph.At c fun _ t => t.sameShape ty = true := by
          intro c hc
          obtain ⟨arm, harm, rfl⟩ := List.mem_map.1 hc
          exact hkeeps.at (hvalues arm harm)
        have hcne : casesOf arms d n before ≠ [] := by simpa [casesOf_eq] using hne
        refine (make_phi_value_merges h.dense h.region hproper hcne hcases).bind ?_
        rintro v b1 ⟨hadds, t, hmerged, ht⟩
        have hother : ∀ d' n', ¬ (d' = d ∧ n' = n) →
            (scope.set d n (.held v ty)).get? d' n' = scope.get? d' n' :=
          fun d' n' hne => Scope.get?_set_of_ne hne
        have hself : (scope.set d n (.held v ty)).get? d n = some (.held v ty) :=
          Scope.get?_set_self hbound
        refine (ih (h.cons hother hadds.dense hadds.shows)).imp fun s b' hs => ?_
        refine hs.cons hplace Scope.depth_set hother hadds.shows (fun hnone => ?_) ?_ ?_
        · contradiction
        · rintro _ _ ⟨rfl, rfl⟩
          refine ⟨v, hself, ⟨t, hmerged.of_shows h.shows, fun c hc x hx => ?_⟩,
            fun hall => absurd hall hnot⟩
          exact ht c hc x (hkeeps.at hx)
        · intro x hx
          rcases hadds.has hx with hx | rfl
          · exact .inl hx
          · by_cases hhas : b.graph.Has x
            · exact .inl hhas
            · exact .inr ⟨hmerged.made (fun c hc => (hcases c hc).has) hhas, before, ty, rfl, hself, hnot⟩

end BuildM

end Entries

/-! ### Joins -/

def Graph.takenArms (g : Graph) (arms : List Arm) : List Arm :=
  arms.filter fun arm => decide (Taken g arm.cursor.control)

/-- The arm without the frames that the scope before the join does not have. -/
def Arm.cut (depth : Nat) (arm : Arm) : Arm := { arm with scope := arm.scope.truncate depth }

/-- What a join is made of: the nodes of its arms are there, and each variable of the scope from
before the arms has, in every arm that is taken, a value of its declared type that is no error. -/
structure Joinable (g : Graph) (parent : Scope) (arms : List Arm) : Prop where
  dense : g.Dense
  registered : g.Registered
  distinct : parent.Distinct
  controls : ∀ arm ∈ arms, g.Has arm.cursor.control
  memories : ∀ arm ∈ g.takenArms arms, g.Has arm.cursor.memory
  values : ∀ d n before ty, parent.get? d n = some (.held before ty) → ty.isProper = true ∧
    ∀ arm ∈ g.takenArms arms, g.At (arm.valueOf d n before) fun _ t => t.sameShape ty = true

structure Joins (parent : Scope) (live : List Arm) (g : Graph) (region : NodeId) (join : Join)
    (g' : Graph) : Prop where
  /-- There is one region more, with the arms as predecessors in their order. -/
  fresh : ¬ g.Has region
  node : ∃ node, g'.Shows region node ∧ node.op = .region ∧
    node.inputs = live.map fun arm => arm.cursor.control
  only : ∀ x, (g'.At x fun op _ => op = .region) → g.Has x ∨ x = region
  kept : ∀ x node, g.get? x = some node → g'.Shows x node
  place : join.region = some region ∧ join.cursor.control = region
  /-- Memory is in the state of the arm that control came by. -/
  memory : ∀ i arm, live[i]? = some arm →
    g'.selected region i join.cursor.memory = arm.cursor.memory
  /-- The frames have the names that they had, and only variables change. -/
  depth : join.scope.depth = parent.depth
  absent : ∀ d n, parent.get? d n = none → join.scope.get? d n = none
  fixed : ∀ d n x, parent.get? d n = some x → x.heldValue? = none → join.scope.get? d n = some x
  /-- A variable has the value of the arm that control came by. -/
  held : ∀ d n before ty, parent.get? d n = some (.held before ty) → ∃ v,
    join.scope.get? d n = some (.held v ty) ∧
    ((∀ arm ∈ live, arm.valueOf d n before = before) → v = before) ∧
    ∀ i arm, live[i]? = some arm → ∀ ρ, g.Admits ρ (arm.valueOf d n before) →
      g'.arrival region i ρ v = ρ (arm.valueOf d n before)
  /-- Only memory and variables that differ between the arms get nodes. -/
  made : ∀ x, g'.Has x → g.Has x ∨ x = region ∨ x = join.cursor.memory ∨
    ∃ d n before ty, parent.get? d n = some (.held before ty) ∧
      join.scope.get? d n = some (.held x ty) ∧ ¬ ∀ arm ∈ live, arm.valueOf d n before = before

/-- A join in steps: `g₁` has the region, `g₂` the merged variables and `g'` the state of memory. -/
structure JoinSteps (parent : Scope) (arms : List Arm) (g : Graph) (region : NodeId) (g₁ g₂ : Graph)
    (join : Join) (g' : Graph) : Prop where
  fresh : ¬ g.Has region
  adds : AddsOne g region g₁
  node : ∃ node, g₁.Shows region node ∧ node.op = .region ∧
    node.inputs = arms.map fun arm => arm.cursor.control
  entries : EntriesMerged g region arms parent.entries parent g₁ join.scope g₂
  memory : AddsOne g₂ join.cursor.memory g'
  state : Merged g₂ g' region (arms.map fun arm => arm.cursor.memory) .memory join.cursor.memory
  memories : ∀ x ∈ arms.map fun arm => arm.cursor.memory, g.Has x
  place : join.region = some region ∧ join.cursor.control = region

section Join

variable {F : Fault → Prop} {b : Builder} {parent : Scope} {arms : List Arm} {g : Graph} {arm : Arm}
  {n : String} {x : NodeId}

theorem Graph.Registered.has_input (h : g.Registered) {y : NodeId} (hn : g.get? x = some node)
    (hy : y ∈ node.inputs) : g.Has y := by
  have hrefers : g.Refers x (.value 0) y := ⟨node, hn, hy⟩
  obtain ⟨-, -, other, ho, -⟩ := h x _ y hrefers
  exact ⟨other, ho⟩

namespace BuildM

theorem liveArms_filters (h : ∀ arm ∈ arms, b.graph.Has arm.cursor.control) (index : Nat) :
    Does F b (liveArms index arms) fun live b' => b' = b ∧
      live.map Prod.snd = b.graph.takenArms arms := by
  induction arms generalizing index with
  | nil => exact .pure ⟨rfl, rfl⟩
  | cons arm arms ih =>
    obtain ⟨harm, hrest⟩ := List.forall_mem_cons.1 h
    refine (isTaken_does harm).bind ?_
    rintro dead b ⟨rfl, hdead⟩
    refine (ih hrest (index + 1)).bind ?_
    rintro rest b ⟨rfl, hlive⟩
    refine .pure ⟨rfl, ?_⟩
    unfold takenArms at hlive ⊢
    cases dead with
    | true =>
      have hnot : ¬ Taken b.graph arm.cursor.control := fun htaken => by simpa using hdead.2 htaken
      simp [hnot, hlive]
    | false => simp [hdead.1 rfl, hlive]

theorem make_region_addsOne {predecessors : List NodeId} (hd : b.graph.Dense)
    (h : ∀ x ∈ predecessors, b.graph.Has x) :
    Does F b (make (.region predecessors)) fun id b' => AddsOne b.graph id b'.graph ∧
      ¬ b.graph.Has id ∧ ∃ node, b'.graph.Shows id node ∧ node.op = .region ∧
        node.inputs = predecessors := by
  have hinfer : Yields F (Request.infer b.graph (.region predecessors)) fun ty =>
      ∃ live, ty = .control live := by
    refine Yields.bind (Yields.anyM fun x hx => ?_) fun live _ => .pure ⟨live, rfl⟩
    exact (isDeadControl_yields (h x hx)).bind fun _ _ => .pure trivial
  refine Does.bind (Q := fun ty b' => (∃ live, ty = .control live) ∧ b' = b)
    (.look (hinfer.imp fun ty hty => ⟨hty, rfl⟩)) ?_
  rintro _ _ ⟨⟨live, rfl⟩, rfl⟩
  refine (create_addsOne hd h).imp ?_
  rintro id b' ⟨hadds, hfresh, node, hshows, hop, -, hinputs⟩
  exact ⟨hadds, hfresh, node, hshows, hop, hinputs⟩

theorem mergeLive_steps {live : List (Nat × Arm)} (hne : arms ≠ [])
    (h : Joinable b.graph parent arms) (htaken : b.graph.takenArms arms = arms)
    (hlive : live.map Prod.snd = arms) :
    Does F b (mergeLive parent live) fun join b' =>
      ∃ region g1 g2, JoinSteps parent arms b.graph region g1 g2 join b'.graph := by
  unfold mergeLive
  rw [hlive]
  refine (make_region_addsOne h.dense (by simpa using h.controls)).bind ?_
  rintro region b1 ⟨hadds1, hfresh, node, hshows, hnode⟩
  have hentries : EntriesKnown b.graph region arms parent.entries parent b1.graph :=
    { dense := hadds1.dense
      shows := hadds1.shows
      region := hshows.has
      places := h.distinct.nodup_places
      bound := fun d n x hx => h.distinct.mem_entries_iff.1 hx
      values := fun d n before ty hx => by
        have hvalues := h.values d n before ty (h.distinct.mem_entries_iff.1 hx)
        rwa [htaken] at hvalues }
  refine (mergeEntries_merges hne hentries).bind ?_
  rintro scope b2 hmerged
  have hmemories : ∀ x ∈ arms.map fun arm => arm.cursor.memory, b.graph.Has x := by
    have hmemories := h.memories
    rw [htaken] at hmemories
    simpa using hmemories
  have hkeeps : Keeps b.graph b2.graph := keeps_of_shows fun hx => hmerged.shows (hadds1.shows hx)
  refine (make_phi_memory_merges hmerged.dense (hmerged.shows hshows).has fun x hx =>
    hkeeps.has (hmemories x hx)).bind ?_
  rintro memory b3 ⟨hadds3, hmemory⟩
  exact .pure ⟨region, b1.graph, b2.graph, hfresh, hadds1, ⟨node, hshows, hnode⟩, hmerged, hadds3,
    hmemory, hmemories, ⟨rfl, rfl⟩⟩

end BuildM

namespace JoinSteps

variable {g1 g2 g' : Graph} {region : NodeId} {join : Join}

section

variable (h : JoinSteps parent arms g region g1 g2 join g')
include h

theorem shows {x : NodeId} {node : Node} (hx : g.Shows x node) : g'.Shows x node :=
  h.memory.shows (h.entries.shows (h.adds.shows hx))

theorem known (hreg : g.Registered) {cases : List NodeId} (hcases : ∀ c ∈ cases, g.Has c) :
    Merged.Known g g' region cases :=
  ⟨h.fresh, fun hn _ hy => hreg.has_input hn hy, hcases, fun hn => h.shows (.refl hn)⟩

theorem only (hregion : g'.At x fun op _ => op = .region) : g.Has x ∨ x = region := by
  have hnot : ∀ {g}, Keeps g g' → ¬ g.At x fun op _ => op = .constant ∨ op = .phi := by
    intro g hkeeps hkind
    refine hregion.false_of (hkeeps.at hkind) ?_
    simp
  by_cases hx2 : g2.Has x
  · rcases h.entries.made x hx2 with hx1 | ⟨hkind, -⟩
    · exact h.adds.has hx1
    · exact absurd hkind (hnot (keeps_of_shows h.memory.shows))
  · obtain rfl := (h.memory.has hregion.has).resolve_left hx2
    have hkeeps : Keeps g g2 := keeps_of_shows fun hx => h.entries.shows (h.adds.shows hx)
    exact absurd (h.state.made (fun c hc => hkeeps.has (h.memories c hc)) hx2) (hnot (.refl g'))

theorem held (hj : Joinable g parent arms) (htaken : g.takenArms arms = arms) {d : Nat} {ty : Ty}
    (hx : parent.get? d n = some (.held before ty)) :
    ∃ v, join.scope.get? d n = some (.held v ty) ∧
      ((∀ arm ∈ arms, arm.valueOf d n before = before) → v = before) ∧
      ∀ i arm, arms[i]? = some arm → ∀ ρ, g.Admits ρ (arm.valueOf d n before) →
        g'.arrival region i ρ v = ρ (arm.valueOf d n before) := by
  obtain ⟨v, hv, ⟨t, hmerged, ht⟩, hagree⟩ :=
    h.entries.held d n before ty (hj.distinct.mem_entries_iff.2 hx)
  refine ⟨v, hv, hagree, fun i arm hi ρ hρ => ?_⟩
  have hcase : (BuildM.casesOf arms d n before)[i]? = some (arm.valueOf d n before) := by
    simp [BuildM.casesOf_eq, hi]
  have hcases : ∀ c ∈ BuildM.casesOf arms d n before, g.Has c := by
    intro c hc
    obtain ⟨arm, harm, rfl⟩ := List.mem_map.1 hc
    rw [← htaken] at harm
    exact ((hj.values d n before ty hx).2 arm harm).has
  exact (hmerged.mono h.memory.shows).arrival_eq (h.known hj.registered hcases) hcase hρ
    (ht _ (List.mem_of_getElem? hcase) _ hρ)

theorem joins (hj : Joinable g parent arms) (htaken : g.takenArms arms = arms) :
    Joins parent arms g region join g' := by
  obtain ⟨node, hshows, hnode⟩ := h.node
  refine ⟨h.fresh, ⟨node, h.memory.shows (h.entries.shows hshows), hnode⟩, fun x hx => h.only hx,
    fun x node hn => h.shows (.refl hn), h.place, ?_, h.entries.depth, ?_, ?_,
    fun d n before ty hx => h.held hj htaken hx, ?_⟩
  · intro i arm hi
    have hstate := h.state.of_shows fun hx => h.entries.shows (h.adds.shows hx)
    refine hstate.selected_memory (h.known hj.registered h.memories) ?_
    simp [hi]
  · intro d n hnone
    rw [← hnone]
    refine h.entries.others d n fun hmem => ?_
    obtain ⟨⟨d', n', x⟩, hx, heq⟩ := List.mem_map.1 hmem
    cases heq
    simp [hj.distinct.mem_entries_iff, hnone] at hx
  · intro d n x hx
    exact h.entries.fixed d n x (hj.distinct.mem_entries_iff.2 hx)
  · intro x hx
    rcases h.memory.has hx with hx | rfl
    · rcases h.entries.made x hx with hx | ⟨-, d, n, before, ty, hmem, hfacts⟩
      · exact (h.adds.has hx).imp_right .inl
      · exact .inr (.inr (.inr ⟨d, n, before, ty, hj.distinct.mem_entries_iff.1 hmem, hfacts⟩))
    · exact .inr (.inr (.inl rfl))

end

end JoinSteps

theorem valueOf_cut {d : Nat} {x : Binding} (h : parent.get? d n = some x) :
    (arm.cut parent.depth).valueOf d n before = arm.valueOf d n before := by
  have hd : d < parent.depth := (Scope.binds_of_get? h).lt_depth
  simp [Arm.valueOf, Arm.cut, Scope.get?_truncate hd]

theorem takenArms_cut (depth : Nat) :
    g.takenArms (arms.map (Arm.cut depth)) = (g.takenArms arms).map (Arm.cut depth) := by
  unfold takenArms
  rw [List.filter_map]
  rfl

theorem takenArms_taken : g.takenArms (g.takenArms arms) = g.takenArms arms := by
  simp [takenArms]

theorem Joinable.cut (h : Joinable g parent arms) :
    Joinable g parent ((g.takenArms arms).map (Arm.cut parent.depth)) := by
  have htaken : g.takenArms ((g.takenArms arms).map (Arm.cut parent.depth)) =
      (g.takenArms arms).map (Arm.cut parent.depth) := by
    rw [takenArms_cut, takenArms_taken]
  refine ⟨h.dense, h.registered, h.distinct, ?_, ?_, ?_⟩
  · intro arm harm
    obtain ⟨a, ha, rfl⟩ := List.mem_map.1 harm
    exact h.controls a (List.mem_filter.1 ha).1
  · intro arm harm
    rw [htaken] at harm
    obtain ⟨a, ha, rfl⟩ := List.mem_map.1 harm
    exact h.memories a ha
  · intro d n before ty hx
    refine ⟨(h.values d n before ty hx).1, fun arm harm => ?_⟩
    rw [htaken] at harm
    obtain ⟨a, ha, rfl⟩ := List.mem_map.1 harm
    rw [valueOf_cut hx]
    exact (h.values d n before ty hx).2 a ha

theorem Joins.of_cut {live : List Arm} {region : NodeId} {join : Join} {g' : Graph}
    (h : Joins parent (live.map (Arm.cut parent.depth)) g region join g') :
    Joins parent live g region join g' := by
  have hagree : ∀ {d n x} {before : NodeId}, parent.get? d n = some x →
      ((∀ arm ∈ live.map (Arm.cut parent.depth), arm.valueOf d n before = before) ↔
        ∀ arm ∈ live, arm.valueOf d n before = before) := by
    intro d n x before hx
    simp [valueOf_cut hx]
  have hlive : ∀ {i : Nat} {arm : Arm}, live[i]? = some arm →
      (live.map (Arm.cut parent.depth))[i]? = some (arm.cut parent.depth) := by
    intro i arm hi
    simp [hi]
  obtain ⟨node, hnode, hop, hinputs⟩ := h.node
  rw [List.map_map] at hinputs
  refine ⟨h.fresh, ⟨node, hnode, hop, hinputs⟩, h.only, h.kept, h.place,
    fun i arm hi => h.memory i (arm.cut parent.depth) (hlive hi), h.depth, h.absent, h.fixed, ?_, ?_⟩
  · intro d n before ty hx
    obtain ⟨v, hv, hsame, harrival⟩ := h.held d n before ty hx
    refine ⟨v, hv, fun hall => hsame ((hagree hx).2 hall), fun i arm hi ρ hρ => ?_⟩
    have harm := harrival i _ (hlive hi) ρ
    rw [valueOf_cut hx] at harm
    exact harm hρ
  · intro x hx
    rcases h.made x hx with hx | hx | hx | ⟨d, n, before, ty, hparent, hget, hnot⟩
    · exact .inl hx
    · exact .inr (.inl hx)
    · exact .inr (.inr (.inl hx))
    · exact .inr (.inr (.inr ⟨d, n, before, ty, hparent, hget, fun hall =>
        hnot ((hagree hparent).2 hall)⟩))

theorem merge_two (h : Joinable b.graph parent arms)
    (htwo : 2 ≤ (b.graph.takenArms arms).length) :
    Does F b (BuildM.merge parent arms) fun join b' =>
      ∃ region, Joins parent (b.graph.takenArms arms) b.graph region join b'.graph := by
  have hcontrols : ∀ arm ∈ arms.map (Arm.cut parent.depth), b.graph.Has arm.cursor.control := by
    simpa [Arm.cut] using h.controls
  refine (BuildM.liveArms_filters hcontrols 0).bind ?_
  rintro live b ⟨rfl, hall⟩
  rw [takenArms_cut] at hall
  have hlength : live.length = (b.graph.takenArms arms).length := by
    simpa using congrArg List.length hall
  have hne : (b.graph.takenArms arms).map (Arm.cut parent.depth) ≠ [] := by
    rw [← List.length_pos_iff]
    simp only [List.length_map]
    omega
  have htaken : b.graph.takenArms ((b.graph.takenArms arms).map (Arm.cut parent.depth)) =
      (b.graph.takenArms arms).map (Arm.cut parent.depth) := by
    rw [takenArms_cut, takenArms_taken]
  split
  · simp at hlength
    omega
  · simp at hlength
    omega
  · refine (BuildM.mergeLive_steps hne h.cut htaken hall).imp ?_
    rintro join b' ⟨region, g1, g2, hsteps⟩
    exact ⟨region, (hsteps.joins h.cut htaken).of_cut⟩

theorem merge_one (h : Joinable b.graph parent arms) (hone : b.graph.takenArms arms = [arm]) :
    Does F b (BuildM.merge parent arms) fun join b' => b' = b ∧
      join.scope = arm.scope.truncate parent.depth ∧ join.cursor = arm.cursor ∧
      join.region = none := by
  have hcontrols : ∀ arm ∈ arms.map (Arm.cut parent.depth), b.graph.Has arm.cursor.control := by
    simpa [Arm.cut] using h.controls
  refine (BuildM.liveArms_filters hcontrols 0).bind ?_
  rintro live b ⟨rfl, hall⟩
  rw [takenArms_cut, hone] at hall
  obtain ⟨⟨index, a⟩, rfl⟩ : ∃ p, live = [p] := by
    rw [← List.length_eq_one_iff]
    simpa using congrArg List.length hall
  obtain rfl : a = arm.cut parent.depth := by simpa using hall
  exact .pure ⟨rfl, rfl, rfl, rfl⟩

/-- Where two or more arms meet there is a region with the arms as its predecessors, and every
variable and the state of memory are, for a path that came by an arm, what they were at its end.
A single arm goes on as it is. -/
theorem merge_selects (h : Joinable b.graph parent arms) :
    (2 ≤ (b.graph.takenArms arms).length → ∃ join b' region,
      BuildM.merge parent arms b = .ok (join, b') ∧
        Joins parent (b.graph.takenArms arms) b.graph region join b'.graph) ∧
    ∀ arm, b.graph.takenArms arms = [arm] → ∃ join, BuildM.merge parent arms b = .ok (join, b) ∧
      join.scope = arm.scope.truncate parent.depth ∧ join.cursor = arm.cursor ∧
      join.region = none := by
  constructor
  · intro htwo
    obtain ⟨⟨join, b'⟩, hrun, region, hjoins⟩ := (merge_two h htwo).exists_ok
    exact ⟨join, b', region, hrun, hjoins⟩
  · intro arm hone
    obtain ⟨⟨join, b'⟩, hrun, rfl, hfacts⟩ := (merge_one h hone).exists_ok
    exact ⟨join, hrun, hfacts⟩

/-- Whether arms can be joined, in a graph that was built. -/
def Graph.joinable (g : Graph) (parent : Scope) (arms : List Arm) : Bool :=
  decide (parent.Distinct ∧ (∀ arm ∈ arms, g.Has arm.cursor.control) ∧
    ∀ arm ∈ g.takenArms arms, g.Has arm.cursor.memory) &&
  parent.entries.all fun (d, n, x) =>
    match x with
    | .held before ty => ty.isProper && (g.takenArms arms).all fun arm =>
      decide (g.At (arm.valueOf d n before) fun _ t => t.sameShape ty = true)
    | _ => true

theorem Joinable.of_joinable (hd : g.Dense) (hreg : g.Registered)
    (h : g.joinable parent arms = true) : Joinable g parent arms := by
  simp only [joinable, Bool.and_eq_true, decide_eq_true_eq, List.all_eq_true] at h
  obtain ⟨⟨hdistinct, hcontrols, hmemories⟩, hvalues⟩ := h
  refine ⟨hd, hreg, hdistinct, hcontrols, hmemories, fun d n before ty hx => ?_⟩
  simpa using hvalues _ (hdistinct.mem_entries_iff.2 hx)

end Join

/-- Two sides of a branch and a path that is not taken. The outer `x` is changed by the first side,
`y` becomes the same number on both, and `z` is not changed. -/
def diamond : BuildM (Scope × List Arm) := do
  let int := Ty.int .int .bottom
  let entry ← BuildM.make (.function "f" (.function [.bool .bottom] .void .bottom))
  let condition ← BuildM.make (.parameter entry 0)
  let left ← BuildM.make (.branch condition entry true)
  let right ← BuildM.make (.branch condition entry false)
  let dead ← BuildM.editWith Graph.deadControl
  let one ← BuildM.constant (.intOf .int 1)
  let two ← BuildM.constant (.intOf .int 2)
  let again ← BuildM.constant (.intOf .int 2)
  let parent : Scope := ⟨[[("f", .value entry)],
    [("x", .held one int), ("y", .held one int), ("z", .held one int)], [("x", .held two int)]]⟩
  let first := ((parent.set 1 "x" (.held two int)).set 1 "y" (.held two int)).push
  let second := (parent.set 1 "y" (.held again int)).push
  return (parent, [⟨first, ⟨left, entry⟩⟩, ⟨parent, ⟨dead, entry⟩⟩, ⟨second, ⟨right, left⟩⟩])

theorem works_diamond : Works diamond := by
  refine .bind (BuildM.works_make _ rfl) fun entry => .bind (BuildM.works_make _ rfl) fun condition =>
    .bind (BuildM.works_make _ rfl) fun left => .bind (BuildM.works_make _ rfl) fun right =>
    .bind BuildM.works_deadControl fun dead => .bind (BuildM.works_constant _) fun one =>
    .bind (BuildM.works_constant _) fun two => .bind (BuildM.works_constant _) fun again => .pure _

theorem merge_selects_diamond : ∃ b parent arms, Joinable b.graph parent arms ∧
    (b.graph.takenArms arms).length = 2 ∧ ∃ join b' region,
      BuildM.merge parent arms b = .ok (join, b') ∧
        Joins parent (b.graph.takenArms arms) b.graph region join b'.graph := by
  have hrun : passes (fun r => r.2.graph.joinable r.1.1 r.1.2 &&
      (r.2.graph.takenArms r.1.2).length == 2) (diamond Builder.initial) = true := by
    decide +kernel
  obtain ⟨⟨⟨parent, arms⟩, b⟩, hdiamond, hrun⟩ := exists_ok_of_passes hrun
  obtain ⟨hcheck, hlength⟩ := Bool.and_eq_true_iff.1 hrun
  have hlength : (b.graph.takenArms arms).length = 2 := by simpa using hlength
  have hbuilds := works_diamond Builder.initial Builder.neat_initial
  unfold Does Yields at hbuilds
  rw [hdiamond] at hbuilds
  have horderly := (Builder.constructs_initial.trans hbuilds.constructs).orderly orderly_empty
  have hjoinable : Joinable b.graph parent arms :=
    .of_joinable horderly.dense horderly.registered hcheck
  exact ⟨b, parent, arms, hjoinable, hlength, (merge_selects hjoinable).1 (by omega)⟩

end SeaOfNodes
