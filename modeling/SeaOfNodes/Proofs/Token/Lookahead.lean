import Mathlib.Logic.Function.Basic
import SeaOfNodes.Proofs.Token.Tiling

/-!
Looking ahead takes nothing. Readers of one text are used in any order: tokens are taken, looked at any
number of tokens ahead, and a reader goes on from where another one is. All that a reader answers is
then decided by the number of tokens that it has taken (`answers_readAll`): tokens that were read ahead,
by itself or by the reader that it was copied from, make no difference.
-/
namespace SeaOfNodes

namespace Lexer

theorem readAll_ahead (ts : List Token) (position : Nat) (rest : List Char) (last : Option TokenKind) :
    (mk position rest ts last).readAll = (ts ++ (mk position rest [] last).readAll.1,
      (mk position rest [] last).readAll.2) := by
  induction ts with
  | nil => rfl
  | cons t ts ih =>
    rw [readAll]
    simp [next, ih]

theorem read_readAll (l : Lexer) : match read l with
    | .ok none l' => l.readAll = (l.ahead, none) ∧ l'.readAll = l.readAll ∧ l'.ahead = l.ahead
    | .ok (some t) l' => { l' with ahead := l'.ahead ++ [t] }.readAll = l.readAll ∧ l'.ahead = l.ahead
    | .error e _ => l.readAll = (l.ahead, some e) := by
  obtain ⟨position, rest, ahead, last⟩ := l
  rw [readAll_ahead ahead, readAll_eq, read]
  cases hfound : (scan last position rest).found with
  | error e => simp
  | ok r =>
    cases r with
    | none =>
      refine ⟨by simp, ?_, rfl⟩
      rw [readAll_ahead ahead, readAll_eq, scan_none hfound]
      rfl
    | some t =>
      refine ⟨?_, rfl⟩
      rw [readAll_ahead (ahead ++ [t])]
      simp

/-- What stands behind `k` tokens of a text: a token, the end of the text, or an error. -/
def answer (all : List Token × Option SourceError) (k : Nat) : Except SourceError (Option Token) :=
  match all.1[k]?, all.2 with
  | some t, _ => .ok (some t)
  | none, none => .ok none
  | none, some e => .error e

/-- A step gives an answer, and leaves some tokens to be read if it does not fail. -/
def Gives (m : LexM (Option Token)) (l : Lexer) (r : Except SourceError (Option Token))
    (after : List Token × Option SourceError) : Prop :=
  match m l with
  | .ok t l' => r = .ok t ∧ l'.readAll = after
  | .error e _ => r = .error e

/-- Taking a token gives the first one, and leaves the others. -/
theorem gives_next (l : Lexer) :
    Gives next l (answer l.readAll 0) (l.readAll.1.drop 1, l.readAll.2) := by
  obtain ⟨position, rest, ahead, last⟩ := l
  unfold Gives
  cases ahead with
  | cons t ts =>
    dsimp only [next]
    rw [readAll_ahead (t :: ts), readAll_ahead ts]
    exact ⟨rfl, rfl⟩
  | nil =>
    have hread := read_readAll ⟨position, rest, [], last⟩
    dsimp only [next]
    split at hread
    · rename_i hr
      rw [hr]
      dsimp only
      rw [hread.2.1, hread.1]
      exact ⟨rfl, rfl⟩
    · rename_i t l' hr
      obtain ⟨position', rest', ahead', last'⟩ := l'
      obtain ⟨hall, rfl⟩ := hread
      rw [hr, ← hall, readAll_ahead]
      exact ⟨rfl, rfl⟩
    · rename_i hr
      rw [hr, hread]
      rfl

/-- Reading ahead keeps all tokens, and stops early only at the end of the text or at an error. -/
theorem readAhead_readAll (n : Nat) (l : Lexer) : match readAhead n l with
    | .ok _ l' => l'.readAll = l.readAll ∧
      (l.ahead.length + n ≤ l'.ahead.length ∨ l'.readAll = (l'.ahead, none))
    | .error e _ => l.readAll.2 = some e ∧ l.readAll.1.length < l.ahead.length + n := by
  induction n generalizing l with
  | zero => exact ⟨rfl, .inl (Nat.le_refl _)⟩
  | succ n ih =>
    have hread := read_readAll l
    simp only [readAhead, bind, EStateM.bind]
    split at hread
    · rename_i l' hr
      rw [hr]
      obtain ⟨hend, hall, hahead⟩ := hread
      exact ⟨hall, .inr (by rw [hall, hend, hahead])⟩
    · rename_i t l' hr
      obtain ⟨hall, hahead⟩ := hread
      have hrest := ih { l' with ahead := l'.ahead ++ [t] }
      have hmore : (l'.ahead ++ [t]).length + n = l.ahead.length + (n + 1) := by
        rw [hahead, List.length_append, List.length_singleton]
        omega
      rw [hr]
      rw [hall] at hrest
      simp only [hmore] at hrest
      exact hrest
    · rename_i hr
      rw [hr, hread]
      simp

theorem gives_peekNth (n : Nat) (l : Lexer) : Gives (peekNth n) l (answer l.readAll n) l.readAll := by
  have hread := readAhead_readAll (n + 1 - l.ahead.length) l
  have hpeek : peekNth n l = match readAhead (n + 1 - l.ahead.length) l with
      | .ok _ l' => .ok l'.ahead[n]? l'
      | .error e l' => .error e l' := by
    have hget : ∀ s : Lexer, (get : LexM Lexer) s = .ok s s := fun _ => rfl
    simp only [peekNth, bind, EStateM.bind, hget]
    cases readAhead (n + 1 - l.ahead.length) l <;> rfl
  rw [Gives, hpeek]
  split at hread
  · rename_i l' _
    obtain ⟨hall, hlength⟩ := hread
    refine ⟨?_, hall⟩
    rw [← hall]
    rcases hlength with hlength | hend
    · obtain ⟨position, rest, ahead, last⟩ := l'
      have hlt : n < ahead.length := by dsimp only at hlength; omega
      rw [readAll_ahead, answer, List.getElem?_append_left hlt, List.getElem?_eq_getElem hlt]
    · rw [hend, answer]
      cases l'.ahead[n]? <;> rfl
  · have hahead : l.ahead.length ≤ l.readAll.1.length := by
      obtain ⟨position, rest, ahead, last⟩ := l
      simp [readAll_ahead ahead]
    have hnone : l.readAll.1[n]? = none := List.getElem?_eq_none (by omega)
    simp [answer, hread.1, hnone]

end Lexer

/-! ### Many readers -/

/-- What is asked of the readers of a text, which have numbers. -/
inductive Call where
  | next (reader : Nat)
  | peek (reader : Nat)
  | peekNth (reader n : Nat)
  /-- One reader becomes a copy of another one. -/
  | copy (source target : Nat)

namespace Call

open Function (update)

/-- A step of one reader. -/
def ask (readers : Nat → Lexer) (r : Nat) (m : LexM (Option Token)) :
    Except SourceError (Option Token) × (Nat → Lexer) :=
  match m (readers r) with
  | .ok t l => (.ok t, update readers r l)
  | .error e l => (.error e, update readers r l)

/-- What the readers answer. -/
def run (readers : Nat → Lexer) : Call → Except SourceError (Option Token) × (Nat → Lexer)
  | .next r => ask readers r Lexer.next
  | .peek r => ask readers r Lexer.peek
  | .peekNth r n => ask readers r (Lexer.peekNth n)
  | .copy source target => (.ok none, update readers target (readers source))

/-- What is to be answered, by the number of tokens that each reader has taken. -/
def count (all : List Token × Option SourceError) (taken : Nat → Nat) :
    Call → Except SourceError (Option Token) × (Nat → Nat)
  | .next r => (Lexer.answer all (taken r), update taken r (taken r + 1))
  | .peek r => (Lexer.answer all (taken r), taken)
  | .peekNth r n => (Lexer.answer all (taken r + n), taken)
  | .copy source target => (.ok none, update taken target (taken source))

/-- The answers to calls one after the other, up to the first error. -/
def answers {σ : Type} (step : σ → Call → Except SourceError (Option Token) × σ) :
    σ → List Call → List (Except SourceError (Option Token))
  | _, [] => []
  | s, call :: calls =>
    match step s call with
    | (.ok t, s') => .ok t :: answers step s' calls
    | (.error e, _) => [.error e]

/-- Every reader has the tokens before it that it has not taken. -/
def Behind (all : List Token × Option SourceError) (readers : Nat → Lexer) (taken : Nat → Nat) : Prop :=
  ∀ r, (readers r).readAll = (all.1.drop (taken r), all.2)

section

variable {all : List Token × Option SourceError} {readers : Nat → Lexer} {taken : Nat → Nat}

theorem Behind.answer_eq (h : Behind all readers taken) (r n : Nat) :
    Lexer.answer (readers r).readAll n = Lexer.answer all (taken r + n) := by
  rw [h r, Lexer.answer, Lexer.answer, List.getElem?_drop]

theorem Behind.update (h : Behind all readers taken) {r k : Nat} {l : Lexer}
    (hl : l.readAll = (all.1.drop k, all.2)) :
    Behind all (Function.update readers r l) (Function.update taken r k) := by
  intro r'
  by_cases hr : r' = r
  · subst hr
    simpa using hl
  · simpa [hr] using h r'

theorem Behind.ask (h : Behind all readers taken) {r k : Nat} {m : LexM (Option Token)}
    {a : Except SourceError (Option Token)} (hm : Lexer.Gives m (readers r) a (all.1.drop k, all.2)) :
    (ask readers r m).1 = a ∧
      ((∃ t, a = .ok t) → Behind all (ask readers r m).2 (Function.update taken r k)) := by
  unfold Lexer.Gives at hm
  unfold Call.ask
  split at hm
  · exact ⟨hm.1.symm, fun _ => h.update hm.2⟩
  · exact ⟨hm.symm, by simp [hm]⟩

theorem Behind.look (h : Behind all readers taken) (r n : Nat) :
    (Call.ask readers r (Lexer.peekNth n)).1 = Lexer.answer all (taken r + n) ∧
      ((∃ t, Lexer.answer all (taken r + n) = .ok t) →
        Behind all (Call.ask readers r (Lexer.peekNth n)).2 taken) := by
  have hpeek := Lexer.gives_peekNth n (readers r)
  rw [h.answer_eq, h r] at hpeek
  have hask := h.ask hpeek
  rwa [Function.update_eq_self] at hask

theorem Behind.step (h : Behind all readers taken) (call : Call) :
    (call.run readers).1 = (call.count all taken).1 ∧
      ((∃ t, (call.count all taken).1 = .ok t) →
        Behind all (call.run readers).2 (call.count all taken).2) := by
  cases call with
  | next r =>
    have hnext := Lexer.gives_next (readers r)
    rw [h.answer_eq, h r, List.drop_drop] at hnext
    exact h.ask hnext
  | peek r =>
    rw [run, Lexer.peek_eq_peekNth]
    exact h.look r 0
  | peekNth r n => exact h.look r n
  | copy source target => exact ⟨rfl, fun _ => h.update (h source)⟩

theorem Behind.answers (h : Behind all readers taken) (calls : List Call) :
    answers run readers calls = answers (count all) taken calls := by
  induction calls generalizing readers taken with
  | nil => rfl
  | cons call calls ih =>
    obtain ⟨hanswer, hbehind⟩ := h.step call
    rcases hrun : call.run readers with ⟨a, readers'⟩
    rcases hcount : call.count all taken with ⟨a', taken'⟩
    rw [hrun, hcount] at hanswer hbehind
    obtain rfl : a = a' := hanswer
    rw [Call.answers, Call.answers, hrun, hcount]
    cases a with
    | error e => rfl
    | ok t => exact congrArg _ (ih (hbehind ⟨t, rfl⟩))

end

end Call

/-- Readers of one text answer every sequence of calls by the plain tokens of that text, up to the first
error: taking a token gives the first one that this reader has not taken, looking ahead gives what
would be taken later, and neither what was looked at nor another reader makes a difference. -/
theorem answers_readAll (text : String) (calls : List Call) :
    Call.answers Call.run (fun _ => Lexer.ofString text) calls =
      Call.answers (Call.count (Lexer.ofString text).readAll) (fun _ => 0) calls :=
  Call.Behind.answers (fun _ => rfl) calls

end SeaOfNodes
