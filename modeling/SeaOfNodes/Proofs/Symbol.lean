import Mathlib.Data.Finset.Card
import Mathlib.Data.Finset.Dedup
import SeaOfNodes.Symbol

/-!
Texts and numbers of a symbol table. The table is two maps that are kept in step, one from numbers to
texts and one from texts to numbers. They stay inverse to each other whatever is added, as long as there
are numbers left (`insertAll_interns`), so that numbers can be compared instead of texts.
-/
namespace SeaOfNodes

namespace SymbolTable

variable {t : SymbolTable} {ws vs : List String} {w s : String} {i : Nat}

/-- The numbers of a table stand for the texts that were added, each for one. -/
structure Interns (ws : List String) (t : SymbolTable) : Prop where
  inverse : ∀ s i, t.indexOf? s = some i ↔ t.get? i = some s
  added : ∀ s, (∃ i, t.indexOf? s = some i) ↔ s ∈ ws

theorem interns_empty : Interns [] empty :=
  ⟨fun s i => by simp [empty, indexOf?, get?], fun s => by simp [empty, indexOf?]⟩

/-- There is a number for each text, and there are no others. -/
theorem Interns.size_eq (h : Interns ws t) : t.texts.size = ws.toFinset.card := by
  have hmem : ∀ s, s ∈ t.texts.toList ↔ s ∈ ws := by
    intro s
    rw [← h.added s, List.mem_iff_getElem?]
    exact exists_congr fun i => by rw [h.inverse, get?, Array.getElem?_toList]
  have hnodup : t.texts.toList.Nodup := by
    rw [List.nodup_iff_getElem?_ne_getElem?]
    intro i j hij hj heq
    rw [Array.getElem?_toList, Array.getElem?_toList] at heq
    obtain ⟨s, hs⟩ : ∃ s, t.texts[j]? = some s := ⟨_, Array.getElem?_eq_getElem hj⟩
    have hsame := ((h.inverse s i).2 (heq.trans hs)).symm.trans ((h.inverse s j).2 hs)
    exact absurd (Option.some.inj hsame) (Nat.ne_of_lt hij)
  have hsame : t.texts.toList.toFinset = ws.toFinset := by
    ext s
    rw [List.mem_toFinset, List.mem_toFinset, hmem]
  rw [← hsame, List.toFinset_card_of_nodup hnodup, Array.length_toList]

/-- What one more text changes: it has the number that was given, and no other text is touched. -/
theorem Interns.insert (h : Interns ws t) (hroom : (ws ++ [w]).toFinset.card ≤ pow2 32) :
    Interns (ws ++ [w]) (t.insert w).2 ∧ (t.insert w).2.indexOf? w = some (t.insert w).1 ∧
      ∀ s i, t.indexOf? s = some i → (t.insert w).2.indexOf? s = some i := by
  unfold SymbolTable.insert
  split
  · rename_i n hn
    have hw : w ∈ ws := (h.added w).1 ⟨n, hn⟩
    refine ⟨⟨h.inverse, fun s => ?_⟩, hn, fun s i hs => hs⟩
    rw [h.added, List.mem_append, List.mem_singleton]
    exact ⟨.inl, fun hs => hs.elim id (· ▸ hw)⟩
  · rename_i hnone
    have hw : w ∉ ws := fun hw => by simpa [hnone] using (h.added w).2 hw
    have hsize : t.texts.size % pow2 32 = t.texts.size := by
      have hcard : (ws ++ [w]).toFinset.card = ws.toFinset.card + 1 := by
        simp [hw]
      have := h.size_eq
      exact Nat.mod_eq_of_lt (by omega)
    have hnew : ∀ s, (t.numbers.insert w t.texts.size)[s]? =
        if w = s then some t.texts.size else t.numbers[s]? := fun s => by
      rw [Std.HashMap.getElem?_insert]
      simp
    rw [hsize]
    refine ⟨⟨fun s i => ?_, fun s => ?_⟩, by simp [indexOf?], fun s i hs => ?_⟩
    · simp only [indexOf?, get?, hnew, Array.getElem?_push]
      have hfresh : t.texts[i]? ≠ some w := fun hi => by
        simpa [hnone] using (h.inverse w i).2 hi
      have hbound : t.texts[i]? = some s → i ≠ t.texts.size := by
        rintro hi rfl
        simp at hi
      by_cases hs : w = s
      · subst hs
        by_cases hi : i = t.texts.size
        · simp [hi]
        · simp [hi, Ne.symm hi, hfresh]
      · rw [if_neg hs]
        by_cases hi : i = t.texts.size
        · subst hi
          exact iff_of_false (fun hi => hbound ((h.inverse s _).1 hi) rfl) (by simp [hs])
        · rw [if_neg hi]
          exact h.inverse s i
    · simp only [indexOf?, hnew, List.mem_append]
      by_cases hs : w = s
      · simp [hs]
      · rw [if_neg hs, ← indexOf?, h.added]
        simp [Ne.symm hs]
    · have hne : w ≠ s := fun hws => by simp [← hws, hnone] at hs
      rw [indexOf?, hnew, if_neg hne]
      exact hs

/-- The numbers of texts that are added one after the other. -/
def insertAll (t : SymbolTable) : List String → List Nat × SymbolTable
  | [] => ([], t)
  | text :: texts =>
    let (n, t) := t.insert text
    let (ns, t) := t.insertAll texts
    (n :: ns, t)

@[simp] theorem length_insertAll (t : SymbolTable) (ws : List String) :
    (t.insertAll ws).1.length = ws.length := by
  induction ws generalizing t with
  | nil => rfl
  | cons w ws ih => exact congrArg (· + 1) (ih _)

theorem insertAll_append (t : SymbolTable) (us vs : List String) :
    (t.insertAll (us ++ vs)).2 = ((t.insertAll us).2.insertAll vs).2 := by
  induction us generalizing t with
  | nil => rfl
  | cons u us ih => exact ih _

theorem card_toFinset_le_append (us vs : List String) :
    us.toFinset.card ≤ (us ++ vs).toFinset.card := by
  rw [List.toFinset_append]
  exact Finset.card_le_card Finset.subset_union_left

/-- What many texts change: they have the numbers that were given. -/
theorem Interns.insertAll (h : Interns ws t) (vs : List String)
    (hroom : (ws ++ vs).toFinset.card ≤ pow2 32) :
    Interns (ws ++ vs) (t.insertAll vs).2 ∧
      (∀ a ∈ vs.zip (t.insertAll vs).1, (t.insertAll vs).2.indexOf? a.1 = some a.2) ∧
      ∀ s i, t.indexOf? s = some i → (t.insertAll vs).2.indexOf? s = some i := by
  induction vs generalizing t ws with
  | nil => exact ⟨(List.append_nil ws).symm ▸ h, by simp, fun s i hs => hs⟩
  | cons v vs ih =>
    rw [List.append_cons] at hroom ⊢
    obtain ⟨hinsert, hgiven, hkept⟩ := h.insert ((card_toFinset_le_append _ vs).trans hroom)
    obtain ⟨hall, hnumbers, hkept'⟩ := ih hinsert hroom
    refine ⟨hall, ?_, fun s i hs => hkept' s i (hkept s i hs)⟩
    exact List.forall_mem_cons.2 ⟨hkept' v _ hgiven, hnumbers⟩

end SymbolTable

open SeaOfNodes.SymbolTable in
/-- After any insertions into a fresh table, with fewer than 2^32 different texts: looking up a text and
looking up a number are inverse to each other, the numbers in use are those below the number of
different texts, later insertions keep the numbers and the texts that were there, and the numbers that
were given stand for their texts, so that two of them are equal if and only if their texts are. -/
theorem insertAll_interns {ws : List String} {symbols : List Nat} {t : SymbolTable}
    (h : empty.insertAll ws = (symbols, t)) (hroom : ws.toFinset.card < pow2 32) :
    (∀ s i, t.indexOf? s = some i ↔ t.get? i = some s) ∧
      (∀ i, (∃ s, t.get? i = some s) ↔ i < ws.toFinset.card) ∧
      (∀ us vs, ws = us ++ vs → ∀ s i,
        ((empty.insertAll us).2.indexOf? s = some i → t.indexOf? s = some i) ∧
        ((empty.insertAll us).2.get? i = some s → t.get? i = some s)) ∧
      symbols.length = ws.length ∧ (∀ a ∈ ws.zip symbols, t.get? a.2 = some a.1) ∧
      ∀ a ∈ ws.zip symbols, ∀ b ∈ ws.zip symbols, a.2 = b.2 ↔ a.1 = b.1 := by
  obtain ⟨rfl, rfl⟩ := Prod.mk.inj (h : ((empty.insertAll ws).1, (empty.insertAll ws).2) = _)
  obtain ⟨hall, hsymbols, -⟩ := interns_empty.insertAll ws hroom.le
  have hvalue : ∀ a ∈ ws.zip (empty.insertAll ws).1, (empty.insertAll ws).2.get? a.2 = some a.1 :=
    fun a ha => (hall.inverse _ _).1 (hsymbols a ha)
  refine ⟨hall.inverse, fun i => ?_, ?_, by simp, hvalue,
    fun a ha b hb => ⟨fun hab => ?_, fun hab => ?_⟩⟩
  · rw [← List.nil_append ws, ← hall.size_eq, get?]
    exact ⟨fun ⟨s, hs⟩ => (Array.getElem?_eq_some_iff.1 hs).1,
      fun hi => ⟨_, Array.getElem?_eq_getElem hi⟩⟩
  · rintro us vs rfl s i
    have hpart : us.toFinset.card ≤ pow2 32 := (card_toFinset_le_append us vs).trans hroom.le
    have hbefore := (interns_empty.insertAll us hpart).1
    have hkept := (hbefore.insertAll vs hroom.le).2.2 s i
    rw [← insertAll_append] at hkept
    exact ⟨hkept, fun hs => (hall.inverse s i).1 (hkept ((hbefore.inverse s i).2 hs))⟩
  · exact Option.some.inj ((hvalue a ha).symm.trans (hab ▸ hvalue b hb))
  · exact Option.some.inj ((hsymbols a ha).symm.trans (hab ▸ hsymbols b hb))

theorem insertAll_interns_again :
    ["a", "b", "a"].toFinset.card < pow2 32 ∧
      ∀ i, (∃ s, (SymbolTable.empty.insertAll ["a", "b", "a"]).2.get? i = some s) ↔ i < 2 := by
  have hcard : ["a", "b", "a"].toFinset.card = 2 := by decide
  have hroom : ["a", "b", "a"].toFinset.card < pow2 32 := by
    rw [hcard]
    decide
  exact ⟨hroom, hcard ▸ (insertAll_interns rfl hroom).2.1⟩

end SeaOfNodes
