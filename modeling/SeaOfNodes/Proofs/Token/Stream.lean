import Mathlib.Tactic.Common
import SeaOfNodes.Token.Lexer

/-!
The tokens that a reader still has before it. `Lexer.tokens` is what the steps of a reader are
about: taking a token takes the first one, and looking ahead changes none.
-/
namespace SeaOfNodes

variable {cs text : List Char} {last : Option TokenKind} {position : Nat}

theorem utf8ByteSize_ofList (cs : List Char) : (String.ofList cs).utf8ByteSize = byteLength cs := by
  unfold String.utf8ByteSize
  rw [String.toByteArray_ofList, List.utf8Encode]
  induction cs with
  | nil => rfl
  | cons c cs ih => simp [byteLength, ih]

/-! ### One token -/

theorem numeral_pos {fraction : Bool} {c : Char} (h : c.isDigit = true) :
    1 ≤ (numeral fraction (c :: cs)).2 := by
  have hwhole : 1 ≤ ((c :: cs).takeWhile isDigitChar).length := by simp [isDigitChar, h]
  unfold numeral
  split
  · split
    · dsimp only
      omega
    · exact hwhole
  · exact hwhole

theorem leadingSign?_pos {k : TokenKind} (h : leadingSign? cs = some k) : 1 ≤ k.sign.length := by
  have hall : ∀ k ∈ TokenKind.signs, 1 ≤ k.sign.length := by decide +kernel
  exact hall k (List.mem_of_find?_eq_some h)

/-- No token is empty. -/
theorem lexeme_pos {c : Char} {kind : TokenKind} {n : Nat} (h : lexeme last c cs = .token kind n) :
    1 ≤ n := by
  unfold lexeme at h
  split at h
  · split at h
    · cases h
      omega
    · contradiction
  split at h
  · split at h
    · cases h
      omega
    · contradiction
  split at h
  · rename_i hdigit
    cases h
    exact numeral_pos hdigit
  split at h
  · rename_i hword
    have hc : isWordChar c = true := by
      unfold isWordChar Char.isAlphanum
      simp only [Bool.or_eq_true] at hword ⊢
      tauto
    cases h
    simp [hc]
  · split at h
    · rename_i k hk
      cases h
      exact leadingSign?_pos hk
    · contradiction

theorem length_skipGap_le (comment : Bool) (position : Nat) (cs : List Char) :
    (skipGap comment position cs).2.length ≤ cs.length := by
  fun_induction skipGap comment position cs with
  | case1 => simp
  | case2 _ c cs ih | case3 _ _ c cs _ _ ih | case4 _ _ c cs _ _ _ ih =>
    simp only [List.length_cons] at ih ⊢
    omega
  | case5 => simp

theorem scan_shorter {t : Token} (h : (scan last position text).found = .ok (some t)) :
    (scan last position text).rest.length < text.length := by
  have hgap := length_skipGap_le false position text
  unfold scan at h ⊢
  split at h
  · cases h
  · rename_i start c cs heq
    rw [heq] at hgap
    split at h
    · rename_i kind n hlexeme
      have hn := lexeme_pos hlexeme
      simp only [List.length_drop, List.length_cons] at hgap ⊢
      omega
    · cases h
    · cases h

theorem scan_none {last : Option TokenKind} {position : Nat} {text : List Char}
    (h : (scan last position text).found = .ok none) : (scan last position text).rest = [] := by
  unfold scan at h ⊢
  split at h
  · rfl
  · split at h <;> cases h

/-! ### All tokens -/

/-- The tokens of a text, up to its end or the first place where there is none. -/
def stream (last : Option TokenKind) (position : Nat) (text : List Char) : List Token :=
  match _h : (scan last position text).found with
  | .ok (some t) => t :: stream (some t.kind) (scan last position text).position
      (scan last position text).rest
  | _ => []
termination_by text.length
decreasing_by exact scan_shorter _h

theorem stream_cons {t : Token} (h : (scan last position text).found = .ok (some t)) :
    stream last position text = t :: stream (some t.kind) (scan last position text).position
      (scan last position text).rest := by
  rw [stream]
  split
  · rename_i t' h'
    rw [h] at h'
    cases Except.ok.inj h'
    rfl
  · rename_i hnot
    exact absurd h (hnot t)

theorem stream_nil {last : Option TokenKind} {position : Nat} {text : List Char}
    (h : ∀ t, (scan last position text).found ≠ .ok (some t)) : stream last position text = [] := by
  rw [stream]
  split
  · rename_i t h'
    exact absurd h' (h t)
  · rfl

namespace Lexer

variable {l l' : Lexer} {n : Nat} {r : Option Token}

/-- The tokens that were not read yet. -/
def coming (l : Lexer) : List Token := stream l.last l.position l.rest

/-- The tokens that were not taken yet. -/
def tokens (l : Lexer) : List Token := l.ahead ++ l.coming

theorem read_spec (h : read l = .ok r l') : l'.ahead = l.ahead ∧ l.coming = r.toList ++ l'.coming ∧
    (r = none → l'.coming = []) := by
  unfold read at h
  dsimp only at h
  split at h
  · rename_i hfound
    cases h
    have hend : stream l.last (scan l.last l.position l.rest).position
        (scan l.last l.position l.rest).rest = [] := by
      rw [scan_none hfound]
      exact stream_nil fun t ht => by cases ht
    refine ⟨rfl, ?_, fun _ => hend⟩
    rw [coming, stream_nil (by simp [hfound])]
    exact hend.symm
  · rename_i t hfound
    cases h
    exact ⟨rfl, stream_cons hfound, by simp⟩
  · cases h

theorem next_spec (h : next l = .ok r l') : l.tokens = r.toList ++ l'.tokens ∧
    (r = none → l'.tokens = []) := by
  unfold next at h
  split at h
  · rename_i t ahead hahead
    cases h
    exact ⟨by simp [tokens, hahead, coming], by simp⟩
  · rename_i hahead
    obtain ⟨hsame, hcoming, hend⟩ := read_spec h
    refine ⟨by simp [tokens, hsame, hahead, hcoming], fun hnone => ?_⟩
    simp [tokens, hsame, hahead, hend hnone]

theorem readAhead_spec (h : readAhead n l = .ok () l') : l'.tokens = l.tokens ∧
    (l.ahead.length + n ≤ l'.ahead.length ∨ l'.coming = []) := by
  induction n generalizing l with
  | zero =>
    cases h
    exact ⟨rfl, .inl (Nat.le_refl _)⟩
  | succ n ih =>
    unfold readAhead at h
    simp only [bind, EStateM.bind] at h
    split at h
    · rename_i r l1 hread
      obtain ⟨hsame, hcoming, hend⟩ := read_spec hread
      cases r with
      | none =>
        cases h
        exact ⟨by simp [tokens, hsame, hcoming], .inr (hend rfl)⟩
      | some t =>
        change readAhead n { l1 with ahead := l1.ahead ++ [t] } = _ at h
        obtain ⟨htokens, hlength⟩ := ih h
        have hadded : (mk l1.position l1.rest (l1.ahead ++ [t]) l1.last).coming = l1.coming := rfl
        refine ⟨?_, hlength.imp_left fun hlength => ?_⟩
        · rw [htokens, tokens, hadded, tokens, hcoming, hsame]
          simp
        · simp only [List.length_append, List.length_singleton, hsame] at hlength
          omega
    · cases h

/-- Looking at the next token is looking no token further. -/
theorem peek_eq_peekNth : peek = peekNth 0 := by
  funext l
  have hpeek : peekNth 0 l = (readAhead (1 - l.ahead.length) >>= fun _ =>
      return (← get).ahead[0]?) l := rfl
  rw [hpeek]
  obtain ⟨position, rest, _ | ⟨token, ahead⟩, last⟩ := l
  · show (read >>= _) _ = ((read >>= _) >>= _) _
    simp only [bind, EStateM.bind]
    cases read ⟨position, rest, [], last⟩ with
    | error e l => rfl
    | ok token? l => cases token? <;> exact congrArg (EStateM.Result.ok · _) List.head?_eq_getElem?
  · simp [readAhead]
    rfl

theorem peekNth_spec (h : peekNth n l = .ok r l') :
    l'.tokens = l.tokens ∧ r = l.tokens[n]? := by
  have hget : ∀ s : Lexer, (get : LexM Lexer) s = .ok s s := fun _ => rfl
  simp only [peekNth, bind, EStateM.bind, hget] at h
  split at h
  · rename_i l1 hread
    cases h
    obtain ⟨htokens, hlength⟩ := readAhead_spec hread
    refine ⟨htokens, ?_⟩
    rw [← htokens, tokens]
    rcases hlength with hlength | hend
    · rw [List.getElem?_append_left (by omega)]
    · rw [hend, List.append_nil]
  · cases h

end Lexer

end SeaOfNodes
