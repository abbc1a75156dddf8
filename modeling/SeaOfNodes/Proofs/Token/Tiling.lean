import SeaOfNodes.Proofs.Token.Stream

/-!
Tokens tile the text that they are read from. Taking tokens until there are no more (`readAll`) cuts a
text into gaps and tokens: a gap holds only blanks and comments, the span of a token says where in the
text it stands, and a sign is the longest one that stands there.
-/
namespace SeaOfNodes

variable {position n : Nat} {c : Char} {cs : List Char} {last : Option TokenKind} {kind : TokenKind}
  {rest text : List Char} {ts : List Token}

/-! ### Gaps -/

/-- A comment, without the line break behind it. -/
def IsComment (cs : List Char) : Prop := ∃ line, cs = '/' :: '/' :: line ∧ '\n' ∉ line

inductive Gap : List Char → Prop where
  | nil : Gap []
  | blank {c : Char} {cs : List Char} : isBlank c = true → Gap cs → Gap (c :: cs)
  | comment {line cs : List Char} : IsComment line → Gap cs → Gap (line ++ '\n' :: cs)

/-- What can stand at the end of a text: a gap, and a comment that runs to the end. -/
def Trails (cs : List Char) : Prop :=
  ∃ gap comment, cs = gap ++ comment ∧ Gap gap ∧ (comment = [] ∨ IsComment comment)

theorem skipGap_comment (position : Nat) (cs : List Char) :
    ('\n' ∉ cs ∧ skipGap true position cs = (position + byteLength cs, [])) ∨
      ∃ line more, cs = line ++ '\n' :: more ∧ '\n' ∉ line ∧
        skipGap true position cs = skipGap false (position + byteLength (line ++ ['\n'])) more := by
  induction cs generalizing position with
  | nil => exact .inl ⟨by simp, by simp [skipGap, byteLength]⟩
  | cons c cs ih =>
    by_cases hc : c = '\n'
    · subst hc
      exact .inr ⟨[], cs, rfl, by simp, by simp [skipGap, byteLength]⟩
    · have hstep : skipGap true position (c :: cs) = skipGap true (position + c.utf8Size) cs := by
        rw [skipGap, if_pos rfl, bne_iff_ne.2 hc]
      rcases ih (position + c.utf8Size) with ⟨hcs, hskip⟩ | ⟨line, more, rfl, hline, hskip⟩
      · refine .inl ⟨by simp [hcs, Ne.symm hc], ?_⟩
        rw [hstep, hskip, byteLength, Nat.add_assoc]
      · refine .inr ⟨c :: line, more, rfl, by simp [hline, Ne.symm hc], ?_⟩
        rw [hstep, hskip, List.cons_append, byteLength, Nat.add_assoc]

/-- What is skipped in front of a token is a gap, and the token starts neither with a blank nor as a
comment does. -/
theorem skipGap_gap (position : Nat) (cs : List Char) :
    ∃ gap rest, cs = gap ++ rest ∧ skipGap false position cs = (position + byteLength gap, rest) ∧
      (rest = [] → Trails gap) ∧ ∀ c more, rest = c :: more →
        Gap gap ∧ isBlank c = false ∧ ¬ (c = '/' ∧ more.head? = some '/') := by
  induction hn : cs.length using Nat.strongRecOn generalizing position cs with
  | ind n ih =>
    cases cs with
    | nil => exact ⟨[], [], rfl, rfl, fun _ => ⟨[], [], rfl, .nil, .inl rfl⟩, by simp⟩
    | cons c cs =>
      subst hn
      by_cases hblank : isBlank c = true
      · obtain ⟨gap, rest, rfl, hskip, hend, htoken⟩ := ih cs.length (by simp) (position + c.utf8Size) cs rfl
        refine ⟨c :: gap, rest, rfl, ?_, fun hrest => ?_, fun d more hrest => ?_⟩
        · rw [skipGap, if_neg (by simp), if_pos hblank, hskip, byteLength, Nat.add_assoc]
        · obtain ⟨g, comment, rfl, hg, hcomment⟩ := hend hrest
          exact ⟨c :: g, comment, rfl, .blank hblank hg, hcomment⟩
        · exact ⟨.blank hblank (htoken d more hrest).1, (htoken d more hrest).2⟩
      by_cases hslash : c = '/' ∧ cs.head? = some '/'
      · obtain ⟨rfl, hhead⟩ := hslash
        obtain ⟨cs, rfl⟩ := List.head?_eq_some_iff.1 hhead
        have hopen : skipGap false position ('/' :: '/' :: cs) =
            skipGap true (position + byteLength ['/', '/']) cs := by
          simp [skipGap, hblank, byteLength, Nat.add_assoc]
        rcases skipGap_comment (position + byteLength ['/', '/']) cs with
          ⟨hcs, hskip⟩ | ⟨line, more, rfl, hline, hskip⟩
        · refine ⟨'/' :: '/' :: cs, [], by simp, ?_, fun _ => ?_, by simp⟩
          · rw [hopen, hskip]
            simp [byteLength, Nat.add_assoc]
          · exact ⟨[], _, rfl, .nil, .inr ⟨cs, rfl, hcs⟩⟩
        · have hcomment : IsComment ('/' :: '/' :: line) := ⟨line, rfl, hline⟩
          obtain ⟨gap, rest, rfl, hrest', hend, htoken⟩ := ih more.length (by simp; omega)
            (position + byteLength ['/', '/'] + byteLength (line ++ ['\n'])) more rfl
          refine ⟨'/' :: '/' :: line ++ '\n' :: gap, rest, by simp, ?_, fun hrest => ?_, fun d more hrest => ?_⟩
          · rw [hopen, hskip, hrest']
            simp [byteLength, Nat.add_assoc]
          · obtain ⟨g, comment, rfl, hg, hlast⟩ := hend hrest
            exact ⟨_ ++ '\n' :: g, comment, by simp, .comment hcomment hg, hlast⟩
          · exact ⟨.comment hcomment (htoken d more hrest).1, (htoken d more hrest).2⟩
      · refine ⟨[], c :: cs, rfl, ?_, by simp, fun d more hrest => ?_⟩
        · rw [skipGap, if_neg hblank, if_neg hslash]
          rfl
        · cases hrest
          exact ⟨.nil, by simpa using hblank, hslash⟩

/-! ### Kinds of tokens -/

inductive Spells (last : Option TokenKind) (c : Char) (cs : List Char) : TokenKind → Nat → Prop where
  | quoted {kind : TokenKind} {n : Nat} : c = '"' ∧ kind = .stringLiteral ∨ c = '\'' ∧ kind = .runeLiteral →
    quoted c cs = (true, n) → Spells last c cs kind (n + 1)
  | number {kind : TokenKind} {n : Nat} : c.isDigit = true →
    numeral (last != some .dot) (c :: cs) = (kind, n) → Spells last c cs kind n
  | word : c.isDigit = false → (c.isAlpha || c == '_') = true → Spells last c cs
    (wordKind (String.ofList ((c :: cs).takeWhile isWordChar))) ((c :: cs).takeWhile isWordChar).length
  | sign {kind : TokenKind} : c ≠ '"' → c ≠ '\'' → c.isDigit = false → (c.isAlpha || c == '_') = false →
    leadingSign? (c :: cs) = some kind → Spells last c cs kind kind.sign.length

theorem lexeme_eq_token_iff :
    lexeme last c cs = .token kind n ↔ Spells last c cs kind n := by
  constructor
  · intro h
    unfold lexeme at h
    split at h
    · rename_i hc
      subst hc
      split at h
      · rename_i m hm
        cases h
        exact .quoted (.inl ⟨rfl, rfl⟩) hm
      · contradiction
    rename_i hstring
    split at h
    · rename_i hc
      subst hc
      split at h
      · rename_i m hm
        cases h
        exact .quoted (.inr ⟨rfl, rfl⟩) hm
      · contradiction
    rename_i hrune
    split at h
    · rename_i hdigit
      cases h
      exact .number hdigit rfl
    rename_i hdigit
    split at h
    · rename_i hword
      cases h
      exact .word (by simpa using hdigit) hword
    rename_i hword
    split at h
    · rename_i k hk
      cases h
      exact .sign hstring hrune (by simpa using hdigit) (by simpa using hword) hk
    · contradiction
  · intro h
    cases h with
    | quoted hc hn =>
      rcases hc with ⟨rfl, rfl⟩ | ⟨rfl, rfl⟩
      · simp [lexeme, hn]
      · simp [lexeme, hn]
    | number hc hn =>
      have hquote : c ≠ '"' ∧ c ≠ '\'' := by constructor <;> rintro rfl <;> contradiction
      simp [lexeme, hquote, hc, hn]
    | word hdigit hc =>
      have hquote : c ≠ '"' ∧ c ≠ '\'' := by constructor <;> rintro rfl <;> contradiction
      simp only [lexeme, hquote, hdigit, hc, if_true, if_false, Bool.false_eq_true]
    | sign h1 h2 h3 h4 h => simp [lexeme, h1, h2, h3, h4, h]

/-- The longest sign that starts a text. -/
def IsLongestSign (kind : TokenKind) (cs : List Char) : Prop :=
  kind.sign <+: cs ∧ ∀ k ∈ TokenKind.signs, k.sign <+: cs → k.sign.length ≤ kind.sign.length

/-- Longer signs come first in the table, so that the first one that fits is the longest. -/
theorem isLongestSign_of_leadingSign? (h : leadingSign? cs = some kind) : IsLongestSign kind cs := by
  obtain ⟨hkind, before, after, hsigns, hbefore⟩ := List.find?_eq_some_iff_append.1 h
  have hsorted : TokenKind.signs.Pairwise fun a b => b.sign.length ≤ a.sign.length := by decide +kernel
  refine ⟨List.isPrefixOf_iff_prefix.1 hkind, fun k hk hprefix => ?_⟩
  rw [hsigns] at hk hsorted
  rcases List.mem_append.1 hk with hk | hk
  · have := hbefore k hk
    simp [List.isPrefixOf_iff_prefix.2 hprefix] at this
  · rcases List.mem_cons.1 hk with rfl | hk
    · exact Nat.le_refl _
    · exact (List.pairwise_cons.1 (List.pairwise_append.1 hsorted).2.1).1 k hk

theorem wordKind_not_mem_signs (word : String) : wordKind word ∉ TokenKind.signs := by
  unfold wordKind
  split
  · rename_i k _
    cases k <;> decide
  · split <;> decide

theorem numeral_not_mem_signs (fraction : Bool) (cs : List Char) :
    (numeral fraction cs).1 ∉ TokenKind.signs := by
  have hkinds : TokenKind.floatLiteral ∉ TokenKind.signs ∧ TokenKind.integerLiteral ∉ TokenKind.signs := by
    decide
  unfold numeral
  split
  · split
    · exact hkinds.1
    · exact hkinds.2
  · exact hkinds.2

theorem Spells.isLongestSign (h : Spells last c cs kind n) (hkind : kind ∈ TokenKind.signs) :
    IsLongestSign kind (c :: cs) ∧ n = kind.sign.length := by
  cases h with
  | quoted hc hn =>
    rcases hc with ⟨-, rfl⟩ | ⟨-, rfl⟩
    · exact absurd hkind (by decide)
    · exact absurd hkind (by decide)
  | number hc hn =>
    have := numeral_not_mem_signs (last != some .dot) (c :: cs)
    rw [hn] at this
    contradiction
  | word _ hc => exact absurd hkind (wordKind_not_mem_signs _)
  | sign _ _ _ _ hsign => exact ⟨isLongestSign_of_leadingSign? hsign, rfl⟩

/-! ### One token -/

theorem scan_eq_none (h : (scan last position text).found = .ok none) : Trails text := by
  obtain ⟨gap, rest, rfl, hskip, hend, -⟩ := skipGap_gap position text
  unfold scan at h
  rw [hskip] at h
  cases rest with
  | nil => simpa using hend rfl
  | cons c cs =>
    dsimp only at h
    split at h <;> cases h

theorem scan_eq_some {t : Token} (h : (scan last position text).found = .ok (some t)) :
    ∃ gap c cs n, text = gap ++ c :: cs ∧ Gap gap ∧ isBlank c = false ∧
      ¬ (c = '/' ∧ cs.head? = some '/') ∧ Spells last c cs t.kind n ∧
      t.text.toList = (c :: cs).take n ∧ t.span.start = position + byteLength gap ∧
      t.span.stop = t.span.start + byteLength ((c :: cs).take n) ∧
      (scan last position text).position = t.span.stop ∧
      (scan last position text).rest = (c :: cs).drop n := by
  obtain ⟨gap, rest, rfl, hskip, -, htoken⟩ := skipGap_gap position text
  unfold scan at h ⊢
  rw [hskip] at h ⊢
  cases rest with
  | nil => cases h
  | cons c cs =>
    obtain ⟨hgap, hblank, hcomment⟩ := htoken c cs rfl
    dsimp only at h ⊢
    split at h
    · rename_i kind n hlexeme
      cases Except.ok.inj h
      exact ⟨gap, c, cs, n, rfl, hgap, hblank, hcomment, lexeme_eq_token_iff.1 hlexeme,
        String.toList_ofList, rfl, rfl, rfl, rfl⟩
    · cases h
    · cases h

/-! ### All tokens -/

/-- A text that starts at a place is cut into gaps and tokens, and some rest. Every token stands where
its span says, and a sign is the longest one that could be read there. -/
inductive Tiles : Nat → List Char → List Token → List Char → Prop where
  | rest (position : Nat) (text : List Char) : Tiles position text [] text
  | token {position : Nat} {gap more rest : List Char} {t : Token} {ts : List Token} : Gap gap →
    t.text.toList ≠ [] → t.span.start = position + byteLength gap →
    t.span.stop = t.span.start + byteLength t.text.toList →
    (t.kind ∈ TokenKind.signs →
      t.text.toList = t.kind.sign ∧ IsLongestSign t.kind (t.text.toList ++ more)) →
    Tiles t.span.stop more ts rest → Tiles position (gap ++ t.text.toList ++ more) (t :: ts) rest

theorem Tiles.place {text rest : List Char} {ts : List Token} (h : Tiles position text ts rest) {t : Token}
    (ht : t ∈ ts) : ∃ before after, text = before ++ t.text.toList ++ after ∧ t.text.toList ≠ [] ∧
      t.span.start = position + byteLength before ∧
      t.span.stop = t.span.start + byteLength t.text.toList := by
  induction h with
  | rest => contradiction
  | @token position gap more rest t' ts hgap hne hstart hstop _ _ ih =>
    rcases List.mem_cons.1 ht with rfl | ht
    · exact ⟨gap, more, rfl, hne, hstart, hstop⟩
    · obtain ⟨before, after, rfl, hne', hstart', hstop'⟩ := ih ht
      refine ⟨gap ++ t'.text.toList ++ before, after, by simp, hne', ?_, hstop'⟩
      simp only [byteLength_append]
      omega

theorem Tiles.ordered (h : Tiles position text ts rest) :
    ts.Pairwise fun t t' => t.span.stop ≤ t'.span.start := by
  induction h with
  | rest => exact .nil
  | token _ _ _ _ _ hrest ih =>
    refine .cons (fun t' ht' => ?_) ih
    obtain ⟨before, -, -, -, hstart, -⟩ := hrest.place ht'
    omega

theorem splitAtByte_byteLength (before after : List Char) :
    splitAtByte (byteLength before) (before ++ after) = (before, after) := by
  induction before with
  | nil => cases after <;> rfl
  | cons c before ih =>
    obtain ⟨k, hk⟩ := Nat.exists_eq_succ_of_ne_zero (Nat.ne_of_gt c.utf8Size_pos)
    have hsplit : byteLength (c :: before) = (k + byteLength before) + 1 := by
      rw [byteLength]
      omega
    rw [List.cons_append, hsplit, splitAtByte, ← hsplit, byteLength, Nat.add_sub_cancel_left, ih]

theorem Source.isBoundary_byteLength {s : Source} {before after : List Char}
    (h : s.text.toList = before ++ after) : s.isBoundary (byteLength before) = true := by
  have hsize : s.size = byteLength before + byteLength after := by
    rw [size, ← String.ofList_toList (s := s.text), utf8ByteSize_ofList, h, byteLength_append]
  rw [isBoundary, Source.before, h, splitAtByte_byteLength, hsize]
  simp

namespace Lexer

variable {l l' : Lexer} {t : Token}

theorem next_shortens (h : next l = .ok (some t) l') :
    l'.ahead.length + l'.rest.length < l.ahead.length + l.rest.length := by
  unfold next at h
  split at h
  · rename_i hahead
    cases h
    simp [hahead]
  · unfold read at h
    dsimp only at h
    split at h
    · cases h
    · rename_i hfound
      cases h
      exact Nat.add_lt_add_left (scan_shorter hfound) _
    · cases h

/-- The tokens that are taken one after the other, up to the end of the text or the first error. -/
def readAll (l : Lexer) : List Token × Option SourceError :=
  match _h : next l with
  | .ok none _ => ([], none)
  | .ok (some t) l' => (t :: (readAll l').1, (readAll l').2)
  | .error e _ => ([], some e)
termination_by l.ahead.length + l.rest.length
decreasing_by all_goals exact next_shortens _h

theorem readAll_eq (position : Nat) (text : List Char) (last : Option TokenKind) :
    (mk position text [] last).readAll = match (scan last position text).found with
      | .ok none => ([], none)
      | .ok (some t) =>
        let after := (mk (scan last position text).position (scan last position text).rest []
          (some t.kind)).readAll
        (t :: after.1, after.2)
      | .error e => ([], some e) := by
  rw [readAll]
  simp only [next, read]
  cases hfound : (scan last position text).found with
  | ok r =>
    cases r with
    | none => rfl
    | some t => rfl
  | error e => rfl

theorem tiles_readAll (position : Nat) (text : List Char) (last : Option TokenKind) :
    ∃ rest, Tiles position text (mk position text [] last).readAll.1 rest ∧
      ((mk position text [] last).readAll.2 = none → Trails rest) := by
  induction hn : text.length using Nat.strongRecOn generalizing position text last with
  | ind n ih =>
    rw [readAll_eq]
    split
    · rename_i hfound
      exact ⟨text, .rest _ _, fun _ => scan_eq_none hfound⟩
    · rename_i t hfound
      have hshorter := scan_shorter hfound
      obtain ⟨gap, c, cs, m, rfl, hgap, -, -, hspells, htext, hstart, hstop, hposition, hrest⟩ :=
        scan_eq_some hfound
      have hm := lexeme_pos (lexeme_eq_token_iff.2 hspells)
      rw [hrest] at hshorter
      rw [hposition, hrest]
      obtain ⟨rest, htiles, hend⟩ := ih _ (hn ▸ hshorter) t.span.stop ((c :: cs).drop m) (some t.kind) rfl
      refine ⟨rest, ?_, hend⟩
      have hsplit : gap ++ c :: cs = gap ++ t.text.toList ++ (c :: cs).drop m := by
        rw [htext, List.append_assoc, List.take_append_drop]
      rw [hsplit]
      refine .token hgap ?_ hstart (htext ▸ hstop) (fun hkind => ?_) htiles
      · rw [htext]
        exact List.ne_nil_of_length_pos (by simp; omega)
      · obtain ⟨hlongest, rfl⟩ := hspells.isLongestSign hkind
        rw [htext, List.take_append_drop]
        exact ⟨(List.prefix_iff_eq_take.1 hlongest.1).symm, hlongest⟩
    · exact ⟨text, .rest _ _, by simp⟩

end Lexer

/-- The tokens of a text have spans that are not empty, lie between whole characters and follow each
other; between them there are only blanks and comments, and behind them too if there was no error. A
sign is the longest one that stands at its place. -/
theorem readAll_tiles (text : String) :
    ∃ rest, Tiles 0 text.toList (Lexer.ofString text).readAll.1 rest ∧
      ((Lexer.ofString text).readAll.2 = none → Trails rest) ∧
      (Lexer.ofString text).readAll.1.Pairwise (fun t t' => t.span.stop ≤ t'.span.start) ∧
      ∀ t ∈ (Lexer.ofString text).readAll.1, t.span.start < t.span.stop ∧
        (Source.mk text .memory).isBoundary t.span.start = true ∧
        (Source.mk text .memory).isBoundary t.span.stop = true := by
  obtain ⟨rest, htiles, hend⟩ := Lexer.tiles_readAll 0 text.toList none
  refine ⟨rest, htiles, hend, htiles.ordered, fun t ht => ?_⟩
  obtain ⟨before, after, htext, hne, hstart, hstop⟩ := htiles.place ht
  rw [Nat.zero_add] at hstart
  have hbytes : 0 < byteLength t.text.toList :=
    Nat.lt_of_lt_of_le (List.length_pos_iff.2 hne) (length_le_byteLength _)
  have hboundary : (Source.mk text .memory).isBoundary t.span.stop = true := by
    rw [hstop, hstart, ← byteLength_append]
    exact Source.isBoundary_byteLength (s := ⟨text, .memory⟩) htext
  refine ⟨by omega, ?_, hboundary⟩
  rw [hstart]
  exact Source.isBoundary_byteLength (s := ⟨text, .memory⟩) (htext.trans (List.append_assoc ..))

end SeaOfNodes
