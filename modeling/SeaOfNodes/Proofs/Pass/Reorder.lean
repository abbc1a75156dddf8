import SeaOfNodes.Proofs.Pass.Run

/-!
Moving accesses up the chain of memory. A move keeps the graph well-formed, and the chains end as they
did before.
-/
namespace SeaOfNodes.Graph

variable {g g' : Graph} {id x previous before : NodeId} {e b : MemoryEffect} 
  {new old : NodeId} {us : List User}

/-! ### Whether an access can move -/

/-- Whether an entry that holds is that of an edge along which memory flows. -/
def flows (g : Graph) (user : User) : Bool :=
  match user.edge with
  | .previous => true
  | .value _ => (g.get? user.node).any fun node => node.op == .phi && node.ty == .memory
  | _ => false

theorem memoryConsumers_eq (hus : g.users id = .ok us) :
    g.memoryConsumers id = .ok (us.filter g.flows) := by
  unfold memoryConsumers
  rw [hus]
  refine filterM_eq_ok fun u hu => ?_
  obtain ⟨node, hn⟩ := users_has hus u hu
  unfold carriesMemory flows
  cases u.edge <;> simp [node_of_get? hn, hn, Bind.bind, Except.bind, Pure.pure, Except.pure]

/-! ### One move -/

theorem moveConsumers_cons (old new : NodeId) (u : User) (us : List User) (g : Graph)
    (hu : u.edge.isValue = true ∨ u.edge = .previous) :
    moveConsumers old new (u :: us) g = g.redirect old new none u >>= moveConsumers old new us := by
  obtain ⟨x, edge⟩ := u
  cases edge with
  | previous => rfl
  | value position =>
    simp only [moveConsumers, redirect, replaceInput, bind, Except.bind]
    cases g.node x with
    | error f => rfl
    | ok node => simp only [Option.getD_none, ite_self]
  | control => simp [Edge.isValue] at hu
  | target => simp [Edge.isValue] at hu

theorem moveConsumers_spec (hus : ∀ u ∈ us, u.edge.isValue = true ∨ u.edge = .previous)
    (h : moveConsumers old new us g = .ok g') :
    EdgesTurned ⟨old, new, new⟩ us g g' ∧ g'.phiRegion = g.phiRegion := by
  induction us generalizing g with
  | nil =>
    obtain rfl := Except.ok.inj h
    exact ⟨.nil _ g, rfl⟩
  | cons u us ih =>
    rw [moveConsumers_cons old new u us g (hus u List.mem_cons_self)] at h
    obtain ⟨g1, h1, h⟩ := bind_eq_ok_iff.1 h
    obtain ⟨hturned, hregion⟩ := redirect_spec (t := ⟨old, new, new⟩) h1 rfl
    obtain ⟨hturned', hregion'⟩ := ih (fun v hv => hus v (List.mem_cons_of_mem _ hv)) h
    exact ⟨hturned.cons hturned', hregion'.trans hregion⟩

theorem moveConsumers_ok (hus : ∀ u ∈ us, u.edge.isValue = true ∨ u.edge = .previous)
    (h : Turnable ⟨old, new, new⟩ us g) : ∃ g', moveConsumers old new us g = .ok g' := by
  induction us generalizing g with
  | nil => exact ⟨g, rfl⟩
  | cons u us ih =>
    rw [moveConsumers_cons old new u us g (hus u List.mem_cons_self)]
    obtain ⟨g1, h1⟩ : ∃ g1, g.redirect old new none u = .ok g1 := redirect_ok h rfl
    obtain ⟨hturned, -⟩ := redirect_spec (t := ⟨old, new, new⟩) h1 rfl
    obtain ⟨g', h'⟩ := ih (fun v hv => hus v (List.mem_cons_of_mem _ hv)) (h.turned hturned)
    exact ⟨g', bind_eq_ok_iff.2 ⟨g1, h1, h'⟩⟩

theorem flows_edge {u : User} (h : g.flows u = true) : u.edge.isValue = true ∨ u.edge = .previous := by
  unfold flows at h
  split at h
  · rename_i hu
    exact .inr hu
  · rename_i hu
    exact .inl (hu ▸ rfl)
  · contradiction

theorem setPrevious_frame (h : g.setPrevious id previous = .ok g') :
    Keeps g g' ∧ g'.slots.size = g.slots.size ∧
      ∀ (x : NodeId) e, g.memory[x]? = some e → ∃ e', g'.memory[x]? = some e' := by
  obtain ⟨e, he, henters, -⟩ := setPrevious_spec h
  refine ⟨⟨henters.keeps.node⟩, henters.size, ?_⟩
  intro x e' hx
  rw [henters.memory]
  rw [getElem?_insert_id]
  split
  · exact ⟨_, rfl⟩
  · exact ⟨e', hx⟩

/-- The steps of a move: the edges along which memory flows from `id` are turned to `previous`, and
the two get other predecessors. -/
structure SwapSteps (id previous before : NodeId) (us : List User) (g g₁ g₂ g' : Graph) : Prop where
  consumers : moveConsumers id previous us g = .ok g₁
  turned : EdgesTurned ⟨id, previous, previous⟩ us g g₁
  phiRegion : g₁.phiRegion = g.phiRegion
  first : g₁.setPrevious id before = .ok g₂
  second : g₂.setPrevious previous id = .ok g'

theorem swap_steps (hus : g.users id = .ok us) (h : g.swap id previous before = .ok g') :
    ∃ g1 g2, SwapSteps id previous before (us.filter g.flows) g g1 g2 g' := by
  obtain ⟨users, hconsumers, h⟩ := bind_eq_ok_iff.1 h
  cases hconsumers.symm.trans (memoryConsumers_eq hus)
  obtain ⟨g1, h1, h⟩ := bind_eq_ok_iff.1 h
  obtain ⟨g2, h2, h3⟩ := bind_eq_ok_iff.1 h
  obtain ⟨hturned, hregion⟩ :=
    moveConsumers_spec (fun u hu => flows_edge (List.mem_filter.1 hu).2) h1
  exact ⟨g1, g2, h1, hturned, hregion, h2, h3⟩

theorem swap_ok (he : g.memory[id]? = some e) (hb : g.memory[e.previous]? = some b)
    (hid : g.Has id) (hprevious : g.Has e.previous) (hbefore : g.Has b.previous) :
    ∃ g', g.swap id e.previous b.previous = .ok g' := by
  obtain ⟨us, hus⟩ := users_ok hid
  have hflows : ∀ u ∈ us.filter g.flows, u.edge.isValue = true ∨ u.edge = .previous := fun u hu =>
    flows_edge (List.mem_filter.1 hu).2
  obtain ⟨g1, h1⟩ := moveConsumers_ok hflows
    (turnable_users hus (List.filter_subset_self us) hprevious hprevious)
  obtain ⟨hturned, -⟩ := moveConsumers_spec hflows h1
  obtain ⟨e1, he1⟩ : ∃ e1, g1.memory[id]? = some e1 := ⟨_, by rw [hturned.memory, he]; rfl⟩
  obtain ⟨b1, hb1⟩ : ∃ b1, g1.memory[e.previous]? = some b1 := ⟨_, by rw [hturned.memory, hb]; rfl⟩
  obtain ⟨g2, h2⟩ := setPrevious_ok he1 (hturned.has.2 hbefore)
  obtain ⟨hkeeps2, -, hmemory2⟩ := setPrevious_frame h2
  obtain ⟨b2, hb2⟩ := hmemory2 _ _ hb1
  obtain ⟨g3, h3⟩ := setPrevious_ok hb2 (hkeeps2.has (hturned.has.2 hid))
  exact ⟨g3, bind_eq_ok_iff.2 ⟨_, memoryConsumers_eq hus,
    bind_eq_ok_iff.2 ⟨g1, h1, bind_eq_ok_iff.2 ⟨g2, h2, h3⟩⟩⟩⟩

theorem chains_swap (hends : g.ChainsEnd) (he : g.memory[id]? = some e)
    (hb : g.memory[e.previous]? = some b) {us : List User} (hus : g.users id = .ok us)
    (hbefore : ∀ x, g'.before? x =
      if x = e.previous then some id else if x = id then some b.previous
      else if ⟨x, .previous⟩ ∈ us then some e.previous else g.before? x) :
    g'.ChainsEnd ∧ ∃ n, Chain.EndsIn g.before? (n + 1) id ∧ Chain.EndsIn g'.before? n id := by
  have hid : g.before? id = some e.previous := before?_eq_some_iff.2 ⟨e, he, rfl⟩
  have hprevious : g.before? e.previous = some b.previous := before?_eq_some_iff.2 ⟨b, hb, rfl⟩
  have hne : id ≠ e.previous := by
    intro heq
    exact (hends id).not_leads_back hid (heq ▸ .refl id)
  let moved (x : NodeId) : Prop := x = e.previous ∨ x = id ∨ (⟨x, .previous⟩ : User) ∈ us
  have hkept : ∀ x, ¬ moved x → g'.before? x = g.before? x := by
    intro x hx
    simp only [moved, not_or] at hx
    rw [hbefore, if_neg hx.1, if_neg hx.2.1, if_neg hx.2.2]
  -- The chain above the two effects meets neither of them nor what follows them.
  have habove : ∀ x, moved x → ¬ Chain.Leads g.before? b.previous x := by
    have hnot : ¬ Chain.Leads g.before? b.previous e.previous :=
      (hends e.previous).not_leads_back hprevious
    have hnot' : ¬ Chain.Leads g.before? b.previous id :=
      fun hl => hnot (hl.trans (.step hid (.refl _)))
    rintro x (rfl | rfl | hx) hl
    · exact hnot hl
    · exact hnot' hl
    · obtain ⟨-, hx⟩ := edgeHolds_previous_iff.1 ((mem_users hus).1 hx).2
      exact hnot' (hl.trans (.step (before?_eq_some_iff.2 hx) (.refl _)))
  obtain ⟨n, hn⟩ := hends b.previous
  have hn' : Chain.EndsIn g'.before? n b.previous := hn.of_not_leads hkept habove
  have hid' : Chain.EndsIn g'.before? (n + 1) id :=
    .step (by rw [hbefore, if_neg hne, if_pos rfl]) hn'
  have hprevious' : Chain.EndsIn g'.before? (n + 2) e.previous :=
    .step (by rw [hbefore, if_pos rfl]) hid'
  refine ⟨?_, n + 1, .step hid (.step hprevious hn), hid'⟩
  refine Chain.ends_of_moved hkept hends ?_
  intro x hx
  by_cases hxp : x = e.previous
  · exact ⟨id, by rw [hbefore, if_pos hxp], _, hid'⟩
  by_cases hxi : x = id
  · exact ⟨b.previous, by rw [hbefore, if_neg hxp, if_pos hxi], _, hn'⟩
  have hxu : (⟨x, .previous⟩ : User) ∈ us := (hx.resolve_left hxp).resolve_left hxi
  exact ⟨e.previous, by rw [hbefore, if_neg hxp, if_neg hxi, if_pos hxu], _, hprevious'⟩

end SeaOfNodes.Graph
