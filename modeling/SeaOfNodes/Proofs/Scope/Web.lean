import Mathlib.Data.List.Nodup
import Mathlib.Data.List.Perm.Basic
import Mathlib.Data.List.Perm.Subperm
import SeaOfNodes.Graph.Basic

/-!
Visits of phis that refer to each other. Each phi of a web has one value from before the loop and
some that the paths back bring. A visit goes through the phis once and replaces one if it has no
value but its own and the one from before the loop; replacing a phi can make another one redundant,
but only one that is visited later.

The orders of a web replace the same phis exactly if no phi needs another one to be replaced first
(`visits_perm_iff`).
-/
namespace SeaOfNodes

/-- The phis at the head of a loop: the value that each has before the loop, and those that the
paths back bring. -/
structure Web where
  entry : NodeId → NodeId
  brings : NodeId → NodeId → Prop

namespace Web

variable {w : Web} {p c : NodeId} {vs order rest replaced done : List NodeId}

/-- When `done` are replaced, a phi has no value but its own and the one from before the loop. -/
def Redundant (w : Web) (done : List NodeId) (p : NodeId) : Prop :=
  ∀ c, w.brings p c → c = p ∨ c = w.entry p ∨ c ∈ done ∧ w.entry c = w.entry p

/-- A visit of phis in an order replaces those that are redundant at their turn. -/
inductive Visits (w : Web) : List NodeId → List NodeId → List NodeId → Prop where
  | nil {done : List NodeId} : Visits w done [] []
  | replace {done rest replaced : List NodeId} {p : NodeId} : w.Redundant done p →
    Visits w (p :: done) rest replaced → Visits w done (p :: rest) (p :: replaced)
  | keep {done rest replaced : List NodeId} {p : NodeId} : ¬ w.Redundant done p →
    Visits w done rest replaced → Visits w done (p :: rest) replaced

/-- A phi that is replaced if those of `vs` that it needs are visited before it. -/
inductive Collapsible (w : Web) (vs : List NodeId) : NodeId → Prop where
  | intro {p : NodeId} : p ∈ vs →
    (∀ c, w.brings p c → c ≠ p → c ≠ w.entry p → w.entry c = w.entry p) →
    (∀ c, w.brings p c → c ≠ p → c ≠ w.entry p → Collapsible w vs c) → Collapsible w vs p

theorem Redundant.mono {done' : List NodeId} (h : w.Redundant done p) (hsub : done ⊆ done') :
    w.Redundant done' p :=
  fun c hc => (h c hc).imp_right fun h => h.imp_right fun h => ⟨hsub h.1, h.2⟩

theorem exists_visits (w : Web) (done order : List NodeId) :
    ∃ replaced, w.Visits done order replaced := by
  induction order generalizing done with
  | nil => exact ⟨[], .nil⟩
  | cons p order ih =>
    by_cases hp : w.Redundant done p
    · obtain ⟨replaced, h⟩ := ih (p :: done)
      exact ⟨_, .replace hp h⟩
    · obtain ⟨replaced, h⟩ := ih done
      exact ⟨_, .keep hp h⟩

namespace Visits

theorem sublist (h : w.Visits done order replaced) : replaced.Sublist order := by
  induction h with
  | nil => exact .slnil
  | replace _ _ ih => exact ih.cons_cons _
  | keep _ _ ih => exact ih.cons _

theorem mem_of_redundant (h : w.Visits done order replaced) (hp : p ∈ order)
    (hred : w.Redundant done p) : p ∈ replaced := by
  induction h with
  | nil => exact hp
  | @replace done rest replaced q _ _ ih =>
    rcases List.mem_cons.1 hp with rfl | hp
    · exact List.mem_cons_self
    · exact List.mem_cons_of_mem _ (ih hp (hred.mono (List.subset_cons_self _ _)))
  | keep hnot _ ih =>
    rcases List.mem_cons.1 hp with rfl | hp
    · exact absurd hred hnot
    · exact ih hp hred

theorem collapsible (h : w.Visits done order replaced) (horder : order ⊆ vs)
    (hdone : ∀ p ∈ done, w.Collapsible vs p) : ∀ p ∈ replaced, w.Collapsible vs p := by
  induction h with
  | nil => simp
  | @replace done rest replaced q hred _ ih =>
    obtain ⟨hq, hrest⟩ := List.cons_subset.1 horder
    have hcollapsible : w.Collapsible vs q := by
      refine .intro hq (fun c hc hne hentry => ?_) fun c hc hne hentry => ?_
      · exact (((hred c hc).resolve_left hne).resolve_left hentry).2
      · exact hdone c (((hred c hc).resolve_left hne).resolve_left hentry).1
    have hdone' : ∀ p ∈ q :: done, w.Collapsible vs p := List.forall_mem_cons.2 ⟨hcollapsible, hdone⟩
    exact List.forall_mem_cons.2 ⟨hcollapsible, ih hrest hdone'⟩
  | keep _ _ ih => exact ih (List.cons_subset.1 horder).2 hdone

theorem append_iff {order' : List NodeId} : w.Visits done (order ++ order') replaced ↔
    ∃ r r', replaced = r ++ r' ∧ w.Visits done order r ∧ w.Visits (r.reverse ++ done) order' r' := by
  induction order generalizing done replaced with
  | nil =>
    constructor
    · exact fun h => ⟨[], replaced, rfl, .nil, h⟩
    · rintro ⟨r, r', rfl, ⟨⟩, h⟩
      exact h
  | cons p order ih =>
    constructor
    · intro h
      cases h with
      | replace hp h =>
        obtain ⟨r, r', rfl, h, h'⟩ := ih.1 h
        exact ⟨p :: r, r', rfl, .replace hp h, by simpa using h'⟩
      | keep hp h =>
        obtain ⟨r, r', rfl, h, h'⟩ := ih.1 h
        exact ⟨r, r', rfl, .keep hp h, h'⟩
    · rintro ⟨r, r', rfl, h, h'⟩
      cases h with
      | replace hp h => exact .replace hp (ih.2 ⟨_, r', rfl, h, by simpa using h'⟩)
      | keep hp h => exact .keep hp (ih.2 ⟨_, r', rfl, h, h'⟩)

theorem unique {replaced' : List NodeId} (h : w.Visits done order replaced)
    (h' : w.Visits done order replaced') : replaced = replaced' := by
  induction h generalizing replaced' with
  | nil => cases h'; rfl
  | replace hp _ ih =>
    cases h' with
    | replace _ h' => rw [ih h']
    | keep hnot _ => exact absurd hp hnot
  | keep hnot _ ih =>
    cases h' with
    | replace hp _ => exact absurd hp hnot
    | keep _ h' => exact ih h'

end Visits

theorem exists_saturated (w : Web) (vs : List NodeId) : ∃ t : List NodeId, t.Nodup ∧ t ⊆ vs ∧
    w.Visits [] t t ∧ ∀ p, w.Collapsible vs p → p ∈ t := by
  -- A list that cannot be extended by one more phi has them all.
  suffices hext : ∀ n, ∀ t : List NodeId, t.Nodup → t ⊆ vs → w.Visits [] t t →
      vs.length - t.length ≤ n → ∃ t' : List NodeId, t'.Nodup ∧ t' ⊆ vs ∧ w.Visits [] t' t' ∧
        ∀ p ∈ vs, w.Redundant t' p → p ∈ t' by
    obtain ⟨t, hnodup, hsub, hvisits, hall⟩ :=
      hext _ [] List.nodup_nil (List.nil_subset vs) .nil (Nat.le_refl _)
    refine ⟨t, hnodup, hsub, hvisits, fun p hp => ?_⟩
    induction hp with
    | @intro p hp hentry _ ih =>
      refine hall p hp fun c hc => ?_
      by_cases hne : c = p
      · exact .inl hne
      · by_cases hce : c = w.entry p
        · exact .inr (.inl hce)
        · exact .inr (.inr ⟨ih c hc hne hce, hentry c hc hne hce⟩)
  intro n
  induction n with
  | zero =>
    intro t hnodup hsub hvisits hlength
    refine ⟨t, hnodup, hsub, hvisits, fun p hp _ => Classical.byContradiction fun hnot => ?_⟩
    have hsub' : p :: t ⊆ vs := List.cons_subset.2 ⟨hp, hsub⟩
    have hle := (List.subperm_of_subset (List.nodup_cons.2 ⟨hnot, hnodup⟩) hsub').length_le
    rw [List.length_cons] at hle
    omega
  | succ n ih =>
    intro t hnodup hsub hvisits hlength
    by_cases hmore : ∃ p ∈ vs, w.Redundant t p ∧ p ∉ t
    · obtain ⟨p, hp, hred, hnot⟩ := hmore
      refine ih (t ++ [p]) ?_ ?_ ?_ ?_
      · exact List.nodup_append_comm.1 (List.nodup_cons.2 ⟨hnot, hnodup⟩)
      · exact List.append_subset.2 ⟨hsub, List.cons_subset.2 ⟨hp, List.nil_subset vs⟩⟩
      · refine Visits.append_iff.2 ⟨t, [p], rfl, hvisits, .replace (hred.mono ?_) .nil⟩
        simp
      · rw [List.length_append, List.length_singleton]
        omega
    · exact ⟨t, hnodup, hsub, hvisits, fun p hp hred =>
        Classical.byContradiction fun hnot => hmore ⟨p, hp, hred, hnot⟩⟩

theorem Collapsible.exists_order (h : w.Collapsible vs p) (hnodup : vs.Nodup) : ∃ order : List NodeId,
    order.Perm vs ∧ ∀ replaced, w.Visits [] order replaced → p ∈ replaced := by
  obtain ⟨t, htnodup, hsub, hvisits, hall⟩ := w.exists_saturated vs
  refine ⟨t ++ vs.filter (· ∉ t), ?_, fun replaced hr => ?_⟩
  · have hmem : ∀ q ∈ vs, q ∈ t ∨ q ∈ vs.filter (· ∉ t) := fun q hq => by
      by_cases hqt : q ∈ t
      · exact .inl hqt
      · exact .inr (List.mem_filter.2 ⟨hq, by simpa using hqt⟩)
    refine (List.perm_ext_iff_of_nodup ?_ hnodup).2 fun q => ?_
    · refine List.nodup_append'.2 ⟨htnodup, hnodup.filter _, fun q hqt hq => ?_⟩
      simpa [hqt] using (List.mem_filter.1 hq).2
    · refine ⟨fun hq => ?_, fun hq => List.mem_append.2 (hmem q hq)⟩
      exact (List.mem_append.1 hq).elim (fun hq => hsub hq) fun hq => (List.mem_filter.1 hq).1
  · obtain ⟨r, r', rfl, hr, -⟩ := Visits.append_iff.1 hr
    rw [hr.unique hvisits]
    exact List.mem_append_left _ (hall p h)

/-- If no phi of `vs` needs another one, then the visit of another phi behind them does not depend
on their order either. -/
theorem visits_perm {last : NodeId} {o1 o2 r1 r2 : List NodeId} (hnodup : vs.Nodup)
    (hdirect : ∀ p ∈ vs, w.Collapsible vs p → w.Redundant [] p)
    (ho1 : o1.Perm vs) (ho2 : o2.Perm vs) (h1 : w.Visits [] (o1 ++ [last]) r1)
    (h2 : w.Visits [] (o2 ++ [last]) r2) : r1.Perm r2 := by
  have hmem : ∀ {o r : List NodeId}, o.Perm vs → w.Visits [] o r →
      r.Nodup ∧ ∀ p, p ∈ r ↔ p ∈ vs ∧ w.Redundant [] p := by
    intro o r ho h
    refine ⟨(ho.nodup_iff.2 hnodup).sublist h.sublist, fun p => ⟨fun hp => ?_, fun hp => ?_⟩⟩
    · have hvs := ho.mem_iff.1 (h.sublist.subset hp)
      exact ⟨hvs, hdirect p hvs (h.collapsible ho.subset (by simp) p hp)⟩
    · exact h.mem_of_redundant (ho.mem_iff.2 hp.1) hp.2
  obtain ⟨r1, l1, rfl, h1, hl1⟩ := Visits.append_iff.1 h1
  obtain ⟨r2, l2, rfl, h2, hl2⟩ := Visits.append_iff.1 h2
  obtain ⟨hn1, hm1⟩ := hmem ho1 h1
  obtain ⟨hn2, hm2⟩ := hmem ho2 h2
  have hr : r1.Perm r2 := (List.perm_ext_iff_of_nodup hn1 hn2).2 fun p => by rw [hm1, hm2]
  have hred : w.Redundant (r1.reverse ++ []) last ↔ w.Redundant (r2.reverse ++ []) last := by
    constructor
    · exact fun h => h.mono fun p hp => by simpa [hr.mem_iff] using hp
    · exact fun h => h.mono fun p hp => by simpa [hr.mem_iff] using hp
  have hl : l1 = l2 := by
    cases hl1 with
    | replace hp hnil => cases hnil; cases hl2 with
      | replace _ hnil => cases hnil; rfl
      | keep hnot _ => exact absurd (hred.1 hp) hnot
    | keep hnot hnil => cases hnil; cases hl2 with
      | replace hp _ => exact absurd (hred.2 hp) hnot
      | keep _ hnil => cases hnil; rfl
  exact hl ▸ hr.append_right l1

/-- The orders of `vs` agree on what is replaced exactly if no phi of `vs` needs another one. -/
theorem visits_perm_iff {last : NodeId} (hnodup : vs.Nodup) (hlast : last ∉ vs) :
    (∀ o1 o2 r1 r2 : List NodeId, o1.Perm vs → o2.Perm vs → w.Visits [] (o1 ++ [last]) r1 →
      w.Visits [] (o2 ++ [last]) r2 → r1.Perm r2) ↔
      ∀ p ∈ vs, w.Collapsible vs p → w.Redundant [] p := by
  refine ⟨fun hagree p hp hcollapsible => Classical.byContradiction fun hnot => ?_,
    fun hdirect _ _ _ _ => visits_perm hnodup hdirect⟩
  -- One order replaces the phi; another one visits it first and keeps it.
  obtain ⟨o1, ho1, hall⟩ := hcollapsible.exists_order hnodup
  obtain ⟨r1, h1⟩ := w.exists_visits [] (o1 ++ [last])
  have ho2 : (p :: vs.erase p).Perm vs := (List.perm_cons_erase hp).symm
  obtain ⟨r2, h2⟩ := w.exists_visits [] (p :: vs.erase p ++ [last])
  have hr := hagree _ _ _ _ ho1 ho2 h1 h2
  have hp1 : p ∈ r1 := by
    obtain ⟨r, r', rfl, h1, -⟩ := Visits.append_iff.1 h1
    exact List.mem_append_left _ (hall r h1)
  have hp2 : p ∉ r2 := by
    cases h2 with
    | replace hp _ => exact absurd hp hnot
    | keep _ h2 =>
      intro hp2
      rcases List.mem_append.1 (h2.sublist.subset hp2) with hmem | hmem
      · exact hnodup.not_mem_erase hmem
      · exact hlast (List.mem_singleton.1 hmem ▸ hp)
  exact hp2 (hr.mem_iff.1 hp1)

end Web

end SeaOfNodes
