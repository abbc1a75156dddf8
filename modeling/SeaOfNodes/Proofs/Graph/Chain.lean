import Mathlib.Data.Fintype.Card
import SeaOfNodes.Proofs.Graph.Replace
import SeaOfNodes.Proofs.Graph.Slots

/-!
The chain of memory. Every effect names the effect before it, and a walk along these names ends if
they form no circle. A walk is counted in steps, so that a bound on the steps of a pass comes with
the fact that the walk ends.
-/
namespace SeaOfNodes

namespace Chain

variable {α : Type} {next next' : α → Option α} {a b c : α} {m n : Nat}

/-- The walk from `a` along `next` ends after `n` steps. -/
inductive EndsIn (next : α → Option α) : Nat → α → Prop where
  | here {a : α} : next a = none → EndsIn next 0 a
  | step {a b : α} {n : Nat} : next a = some b → EndsIn next n b → EndsIn next (n + 1) a

/-- The walk from `a` along `next` ends. -/
def Ends (next : α → Option α) (a : α) : Prop := ∃ n, EndsIn next n a

/-- The walk from `a` along `next` comes to `b`, which may be `a` itself. -/
inductive Leads (next : α → Option α) : α → α → Prop where
  | refl (a : α) : Leads next a a
  | step {a b c : α} : next a = some b → Leads next b c → Leads next a c

theorem EndsIn.unique (hm : EndsIn next m a) (hn : EndsIn next n a) : m = n := by
  induction hm generalizing n with
  | here h =>
    cases hn with
    | here => rfl
    | step h' => rw [h] at h'; contradiction
  | step h _ ih =>
    cases hn with
    | here h' => rw [h] at h'; contradiction
    | step h' hb =>
      rw [h] at h'
      cases h'
      rw [ih hb]

theorem Leads.trans (hab : Leads next a b) (hbc : Leads next b c) : Leads next a c := by
  induction hab with
  | refl => exact hbc
  | step h _ ih => exact .step h (ih hbc)

theorem leads_iff : Leads next a b ↔ b = a ∨ ∃ c, next a = some c ∧ Leads next c b := by
  constructor
  · intro h
    cases h with
    | refl => exact .inl rfl
    | step hnext h => exact .inr ⟨_, hnext, h⟩
  · rintro (rfl | ⟨c, hnext, h⟩)
    · exact .refl _
    · exact .step hnext h

section

variable (h : EndsIn next n a)
include h

theorem EndsIn.leads (hab : Leads next a b) : ∃ m ≤ n, EndsIn next m b := by
  induction hab generalizing n with
  | refl => exact ⟨n, Nat.le_refl _, h⟩
  | step hnext _ ih =>
    cases h with
    | here hnone => rw [hnone] at hnext; contradiction
    | step hnext' hb =>
      rw [hnext] at hnext'
      cases hnext'
      obtain ⟨m, hm, hends⟩ := ih hb
      exact ⟨m, by omega, hends⟩

theorem EndsIn.tail (hnext : next a = some b) : ∃ m, n = m + 1 ∧ EndsIn next m b := by
  cases h with
  | here hnone =>
    simp [hnone] at hnext
  | step hnext' hb =>
    rw [hnext] at hnext'
    cases hnext'
    exact ⟨_, rfl, hb⟩

theorem EndsIn.not_leads_back (hnext : next a = some b) : ¬ Leads next b a := by
  intro hback
  cases h with
  | here hnone => rw [hnone] at hnext; contradiction
  | step hnext' hb =>
    rw [hnext] at hnext'
    cases hnext'
    obtain ⟨m, hm, hends⟩ := hb.leads hback
    have := hends.unique (.step hnext hb)
    omega

theorem EndsIn.level (hm : m ≤ n) : ∃ b, EndsIn next m b := by
  induction h with
  | here hnone =>
    obtain rfl : m = 0 := by omega
    exact ⟨_, .here hnone⟩
  | @step a b n hnext hb ih =>
    by_cases hmn : m = n + 1
    · subst hmn
      exact ⟨a, .step hnext hb⟩
    · exact ih (by omega)

/-- A walk whose every step starts at one of `size` places has at most `size` steps. -/
theorem EndsIn.le_of_places {size : Nat} (place : α → Nat)
    (hplace : ∀ x y, next x = some y → place x < size)
    (hinj : ∀ x y x' y', next x = some x' → next y = some y' → place x = place y → x = y) :
    n ≤ size := by
  have hlevel : ∀ k : Fin n, ∃ b, EndsIn next (k + 1) b := fun k => h.level k.isLt
  choose at_ hat using hlevel
  have hnext : ∀ k, ∃ y, next (at_ k) = some y := by
    intro k
    cases hat k with
    | step hstep _ => exact ⟨_, hstep⟩
  let f : Fin n → Fin size := fun k => ⟨place (at_ k), by
    obtain ⟨y, hy⟩ := hnext k
    exact hplace _ y hy⟩
  have hf : Function.Injective f := by
    intro i j hij
    obtain ⟨y, hy⟩ := hnext i
    obtain ⟨z, hz⟩ := hnext j
    have hsame : at_ i = at_ j := hinj _ _ _ _ hy hz (congrArg Fin.val hij)
    have := (hat i).unique (hsame ▸ hat j)
    exact Fin.ext (by omega)
  simpa using Fintype.card_le_of_injective f hf

end

theorem Ends.not_leads_back (h : Ends next a) (hnext : next a = some b) : ¬ Leads next b a := by
  obtain ⟨n, h⟩ := h
  exact h.not_leads_back hnext

theorem Ends.step (hnext : next a = some b) (h : Ends next b) : Ends next a := by
  obtain ⟨n, h⟩ := h
  exact ⟨n + 1, .step hnext h⟩

/-! ### Moving steps -/

section Redirect

variable {moved : α → Prop} (hkept : ∀ x, ¬ moved x → next' x = next x)
include hkept

theorem EndsIn.of_not_leads (h : EndsIn next n a) (hnot : ∀ x, moved x → ¬ Leads next a x) :
    EndsIn next' n a := by
  induction h with
  | @here a hnone =>
    have ha : ¬ moved a := fun hm => hnot a hm (.refl a)
    exact .here (by rw [hkept a ha, hnone])
  | @step a b n hnext _ ih =>
    have ha : ¬ moved a := fun hm => hnot a hm (.refl a)
    exact .step (by rw [hkept a ha, hnext]) (ih fun x hm hl => hnot x hm (.step hnext hl))

theorem ends_of_moved (h : ∀ x, Ends next x)
    (hto : ∀ x, moved x → ∃ s, next' x = some s ∧ Ends next' s) (a : α) : Ends next' a := by
  obtain ⟨n, ha⟩ := h a
  have hmoves : ∀ x, moved x → Ends next' x := by
    intro x hx
    obtain ⟨s, hs, hends⟩ := hto x hx
    exact hends.step hs
  induction ha with
  | @here a hnone =>
    by_cases hm : moved a
    · exact hmoves a hm
    · exact ⟨0, .here (by rw [hkept a hm, hnone])⟩
  | @step a b n hnext _ ih =>
    by_cases hm : moved a
    · exact hmoves a hm
    · exact ih.step (by rw [hkept a hm, hnext])

end Redirect

end Chain

namespace Graph

variable {g g' : Graph} {id x old new : NodeId} {n : Nat}

def before? (g : Graph) (id : NodeId) : Option NodeId := g.memory[id]?.map MemoryEffect.previous

/-- Every walk up the chain of memory ends. -/
def ChainsEnd (g : Graph) : Prop := ∀ id, Chain.Ends g.before? id

theorem before?_eq_some_iff {p : NodeId} :
    g.before? id = some p ↔ ∃ e, g.memory[id]? = some e ∧ e.previous = p := by
  simp [before?]

theorem EdgesTurned.before? {t : Turn} {us : List User} (h : EdgesTurned t us g g')
    (hus : ∀ x, ⟨x, .previous⟩ ∈ us → ∃ e, g.memory[x]? = some e) (x : NodeId) :
    g'.before? x = if ⟨x, .previous⟩ ∈ us then some t.state else g.before? x := by
  unfold Graph.before?
  rw [h.memory]
  by_cases hx : (⟨x, .previous⟩ : User) ∈ us
  · obtain ⟨e, he⟩ := hus x hx
    simp [he, hx, Turn.effect]
  · cases g.memory[x]? <;> simp [hx, Turn.effect]

theorem before?_replace (h : g.replace old new = .ok g') (hne : old ≠ new) :
    ∃ us, g.users old = .ok us ∧ ∀ x, g'.before? x =
      if ⟨x, .previous⟩ ∈ us then some (g.turnOf old new).state else g.before? x := by
  obtain ⟨us, g1, hus, hturned, -, rfl⟩ := replace_spec h hne
  refine ⟨us, hus, ?_⟩
  refine hturned.before? ?_
  intro x hx
  obtain ⟨-, e, he, -⟩ := edgeHolds_previous_iff.1 ((mem_users hus).1 hx).2
  exact ⟨e, he⟩

theorem endsIn_le_size (hmem : ∀ id e, g.memory[id]? = some e → g.Has id)
    (h : Chain.EndsIn g.before? n id) : n ≤ g.slots.size := by
  have hhas : ∀ x y, g.before? x = some y → g.Has x := by
    intro x y hx
    obtain ⟨e, he, -⟩ := before?_eq_some_iff.1 hx
    exact hmem x e he
  refine h.le_of_places NodeId.index (fun x y hx => (hhas x y hx).index_lt) ?_
  intro x y x' y' hx hy hindex
  exact (hhas x x' hx).eq_of_index (hhas y y' hy) hindex

end Graph

end SeaOfNodes
