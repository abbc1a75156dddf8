import SeaOfNodes.Proofs.Pass.Phi

/-!
When an optimization comes to rest. Reordering makes no move exactly if no access can pass the effect
before it, and a round without rewrites is the last one exactly then. Reordering itself does not bring
a graph to rest, since each of two independent stores can pass the other one.
-/
namespace SeaOfNodes.Graph

variable {g g' g1 g2 : Graph} {id : NodeId} {n : Nat}

/-- No access can pass the effect before it. -/
def AtRest (g : Graph) : Prop := ∀ id ∈ g.liveIds.filter g.isAccess, ∀ g', ¬ g.Lifts id g'

theorem climb_steps {fuel : Nat} (h : climb id (fuel + 1) g = .ok (n, g')) :
    (n = 0 ↔ ∀ g1, ¬ g.Lifts id g1) ∧ (n = 0 → g' = g) := by
  have hstuck : (∀ g1, ¬ g.Lifts id g1) → Except.ok (ε := Fault) (0, g) = .ok (n, g') →
      (n = 0 ↔ ∀ g1, ¬ g.Lifts id g1) ∧ (n = 0 → g' = g) := by
    intro hnone heq
    cases Except.ok.inj heq
    exact ⟨iff_of_true rfl hnone, fun _ => rfl⟩
  unfold climb at h
  cases he : g.memory[id]? with
  | none =>
    simp only [he] at h
    refine hstuck ?_ h
    rintro g1 ⟨e, -, he', -⟩
    simp [he] at he'
  | some e =>
    simp only [he] at h
    obtain ⟨pass, hpass, h⟩ := bind_eq_ok_iff.1 h
    cases pass with
    | false =>
      refine hstuck ?_ h
      rintro g1 ⟨e', -, he', hpass', -⟩
      cases he.symm.trans he'
      simp [hpass] at hpass'
    | true =>
      cases hb : g.memory[e.previous]? with
      | none =>
        simp only [hb] at h
        refine hstuck ?_ h
        rintro g1 ⟨e', b, he', -, hb', -⟩
        cases he.symm.trans he'
        simp [hb] at hb'
      | some b =>
        simp only [hb] at h
        obtain ⟨g1, hswap, h⟩ := bind_eq_ok_iff.1 h
        obtain ⟨⟨steps, g2⟩, -, h⟩ := bind_eq_ok_iff.1 h
        cases Except.ok.inj h
        have hlifts : g.Lifts id g1 := ⟨e, b, he, hpass, hb, hswap⟩
        exact ⟨iff_of_false (Nat.succ_ne_zero _) fun hnone => hnone g1 hlifts, nofun⟩

theorem climbAll_steps {ids : List NodeId} (h : climbAll ids g = .ok (n, g')) :
    (n = 0 ↔ ∀ id ∈ ids, ∀ g1, ¬ g.Lifts id g1) ∧ (n = 0 → g' = g) := by
  induction ids generalizing g n with
  | nil =>
    cases Except.ok.inj h
    simp
  | cons id ids ih =>
    obtain ⟨⟨steps, g1⟩, hclimb, h⟩ := bind_eq_ok_iff.1 h
    obtain ⟨⟨more, g2⟩, hrest, h⟩ := bind_eq_ok_iff.1 h
    cases Except.ok.inj h
    obtain ⟨hzero, hsame⟩ := climb_steps hclimb
    rw [Nat.add_eq_zero_iff, List.forall_mem_cons, ← hzero]
    by_cases hsteps : steps = 0
    · obtain rfl := hsame hsteps
      obtain ⟨hzero', hsame'⟩ := ih hrest
      exact ⟨and_congr_right fun _ => hzero', fun h => hsame' h.2⟩
    · exact ⟨iff_of_false (fun h => hsteps h.1) fun h => hsteps h.1, fun h => absurd h.1 hsteps⟩

theorem optimizeRounds_moved_le {options : OptimizeOptions} {limit : Nat} {stats stats' : OptimizeStats}
    (h : optimizeRounds options limit stats g = .ok (stats', g')) : stats.moved ≤ stats'.moved := by
  induction limit generalizing stats g with
  | zero =>
    cases Except.ok.inj h
    exact Nat.le_refl _
  | succ limit ih =>
    rw [optimizeRounds_succ] at h
    obtain ⟨⟨moved, g1⟩, -, h⟩ := bind_eq_ok_iff.1 h
    obtain ⟨⟨simplified, g2⟩, -, h⟩ := bind_eq_ok_iff.1 h
    have hround : stats.moved ≤ (afterRound stats moved simplified).moved := Nat.le_add_right _ _
    dsimp only at h
    split at h
    · cases Except.ok.inj h
      exact hround
    · exact hround.trans (ih h)

/-- Reordering makes no move exactly on a graph at rest, and a round without rewrites is the last one
exactly if its graph was. -/
theorem optimizeRounds_rests_iff {options : OptimizeOptions} {limit : Nat} {stats : OptimizeStats}
    (hreorder : options.reorder = true) (hmoved : g.reorderMemory = .ok (n, g₁))
    (hsimplified : g₁.simplifyIf options = .ok (0, g₂)) :
    (n = 0 ↔ g.AtRest) ∧
      (optimizeRounds options (limit + 1) stats g = .ok (afterRound stats 0 0, g₂) ↔ g.AtRest) := by
  have hrest : n = 0 ↔ g.AtRest := (climbAll_steps hmoved).1
  have hround : g.reorderIf options = .ok (n, g₁) := by rw [reorderIf, if_pos hreorder, hmoved]
  refine ⟨hrest, ?_⟩
  rw [← hrest, optimizeRounds_succ, hround]
  change (g₁.simplifyIf options >>= _) = _ ↔ _
  rw [hsimplified]
  change (if n = 0 ∧ 0 = 0 then _ else _) = _ ↔ _
  split
  · rename_i hzero
    exact iff_of_true (by rw [hzero.1]) hzero.1
  · rename_i hne
    -- The moves of this round are counted, so the round is not the last one.
    refine iff_of_false (fun h => ?_) fun hzero => hne ⟨hzero, rfl⟩
    have hle := optimizeRounds_moved_le h
    simp only [afterRound] at hle
    omega

/-- Two stores to the members of a local. -/
def twoMembers : String := "func main() \x7b var p (int, int); \x7d"

/-- The second of the stores moves past the first one, and then each of them past the other. -/
theorem reorder_twoMembers : ∃ c g1 g2 g3, construct twoMembers false = .ok c ∧
    c.graph.reorderMemory = .ok (1, g1) ∧ g1.simplifyIf {} = .ok (0, g2) ∧
    g1.reorderMemory = .ok (2, g3) := by
  have hrun : passes (fun c => passes (fun r => decide (r.1 = 1) &&
      (passes (fun s => decide (s.1 = 0)) (r.2.simplifyIf {}) &&
        passes (fun s => decide (s.1 = 2)) r.2.reorderMemory)) c.graph.reorderMemory)
      (construct twoMembers false) = true := by decide +kernel
  obtain ⟨c, hc, hrun⟩ := exists_ok_of_passes hrun
  obtain ⟨⟨n, g1⟩, hmoved, hrun⟩ := exists_ok_of_passes hrun
  simp only [Bool.and_eq_true, decide_eq_true_eq] at hrun
  obtain ⟨rfl, hsimplified, hagain⟩ := hrun
  obtain ⟨⟨_, g2⟩, hsimplified, hzero⟩ := exists_ok_of_passes hsimplified
  obtain ⟨⟨_, g3⟩, hagain, htwo⟩ := exists_ok_of_passes hagain
  obtain rfl := of_decide_eq_true hzero
  obtain rfl := of_decide_eq_true htwo
  exact ⟨c, g1, g2, g3, hc, hmoved, hsimplified, hagain⟩

theorem optimizeRounds_rests_iff_twoMembers : ∃ c g₁ g₂, construct twoMembers false = .ok c ∧
    c.graph.reorderMemory = .ok (1, g₁) ∧ g₁.simplifyIf {} = .ok (0, g₂) ∧
    (1 = 0 ↔ c.graph.AtRest) ∧
      (optimizeRounds {} 8 {} c.graph = .ok (afterRound {} 0 0, g₂) ↔ c.graph.AtRest) := by
  obtain ⟨c, g₁, g₂, -, hc, hmoved, hsimplified, -⟩ := reorder_twoMembers
  exact ⟨c, g₁, g₂, hc, hmoved, hsimplified, optimizeRounds_rests_iff rfl hmoved hsimplified⟩

/-- What reordering leaves behind can be moved again. -/
theorem not_atRest_reordered : ∃ c g₁, construct twoMembers false = .ok c ∧
    c.graph.reorderMemory = .ok (1, g₁) ∧ ¬ g₁.AtRest := by
  obtain ⟨c, g₁, -, g₃, hc, hmoved, -, hagain⟩ := reorder_twoMembers
  exact ⟨c, g₁, hc, hmoved, fun hrest => absurd ((climbAll_steps hagain).1.2 hrest) (by decide)⟩

end SeaOfNodes.Graph
