import Mathlib.Data.List.Find
import SeaOfNodes.Proofs.Token.Tiling

/-!
Tokens with one space between them. What a token is depends on its own characters, on the kind of the
token before it, and on nothing behind it if a space follows there. So a text is read the same way when
its gaps are replaced by single spaces (`readAll_respaced`).
-/
namespace SeaOfNodes

variable {position n : Nat} {c : Char} {cs rest : List Char} {last : Option TokenKind} {kind : TokenKind}

/-! ### One token -/

/-- What can stand behind a token: nothing, or a space and more. -/
def Spaced (cs : List Char) : Prop := cs = [] ∨ ∃ more, cs = ' ' :: more

theorem Spaced.span {p : Char → Bool} (h : Spaced rest) (hspace : p ' ' = false)
    (hcs : ∀ c ∈ cs, p c = true) : (cs ++ rest).takeWhile p = cs ∧ (cs ++ rest).dropWhile p = rest := by
  have hrest : rest.takeWhile p = [] ∧ rest.dropWhile p = rest := by
    rcases h with rfl | ⟨more, rfl⟩
    · exact ⟨rfl, rfl⟩
    · simp [hspace]
  rw [List.takeWhile_append_of_pos hcs, List.dropWhile_append_of_pos hcs, hrest.1, hrest.2]
  exact ⟨List.append_nil cs, rfl⟩

theorem quoted_take {quote : Char} (hquote : quote ≠ '\\') (h : quoted quote cs = (true, n))
    (rest : List Char) : quoted quote (cs.take n ++ rest) = (true, n) := by
  fun_induction quoted quote cs generalizing n with
  | case1 => cases h
  | case2 cs => cases h
  | case3 d cs hd closed m heq ih =>
    cases h
    simp [quoted, hd, ih heq]
  | case4 cs => cases h
  | case5 cs hescape hne =>
    cases h
    have hstep : quoted quote (quote :: rest) = (true, 1) := by
      rw [quoted, if_neg hne, if_pos rfl]
      exact fun d ds hescape => absurd hescape hquote
    simpa using hstep
  | case6 c cs hescape hne hc closed m heq ih =>
    cases h
    have hbackslash : c ≠ '\\' := by
      rintro rfl
      cases cs with
      | nil => cases heq
      | cons d ds => exact hescape d ds rfl rfl
    rw [List.take_succ_cons, List.cons_append, quoted, if_neg hne, if_neg hc, ih heq]
    exact fun d ds hescape => absurd hescape hbackslash

theorem quoted_le (quote : Char) (cs : List Char) : (quoted quote cs).2 ≤ cs.length := by
  fun_induction quoted quote cs with
  | case1 => simp
  | case2 cs => simp
  | case3 d cs hd closed m heq ih => simpa [heq] using ih
  | case4 cs => simp
  | case5 cs => simp
  | case6 c cs hescape hne hc closed m heq ih => simpa [heq] using ih

theorem numeral_le (fraction : Bool) (cs : List Char) : (numeral fraction cs).2 ≤ cs.length := by
  have hcs := congrArg List.length (List.takeWhile_append_dropWhile (p := isDigitChar) (l := cs))
  rw [List.length_append] at hcs
  unfold numeral
  dsimp only
  split
  · rename_i d more hdrop
    have hmore := (List.takeWhile_prefix isDigitChar (l := d :: more)).length_le
    rw [hdrop] at hcs
    simp only [List.length_cons] at hcs hmore
    split <;> dsimp only <;> omega
  · omega

theorem numeral_take {fraction : Bool} (hn : numeral fraction cs = (kind, n)) (h : Spaced rest) :
    numeral fraction (cs.take n ++ rest) = (kind, n) := by
  obtain ⟨ds, more, hds, hmore⟩ :
      ∃ ds more, cs.takeWhile isDigitChar = ds ∧ cs.dropWhile isDigitChar = more := ⟨_, _, rfl, rfl⟩
  have hcs : ds ++ more = cs := by rw [← hds, ← hmore, List.takeWhile_append_dropWhile]
  have hdigits : ∀ c ∈ ds, isDigitChar c = true := hds ▸ List.all_eq_true.1 List.all_takeWhile
  have hinteger : numeral fraction (cs.take ds.length ++ rest) = (.integerLiteral, ds.length) := by
    obtain ⟨htake, hdrop⟩ := h.span rfl hdigits
    rw [← hcs, List.take_left, numeral, htake, hdrop]
    rcases h with rfl | ⟨more, rfl⟩ <;> rfl
  rw [numeral, hds, hmore] at hn
  split at hn
  · rename_i d more
    split at hn
    · -- The digits behind the point are a part of the number.
      rename_i hd
      cases hn
      obtain ⟨es, hes⟩ : ∃ es, (d :: more).takeWhile isDigitChar = d :: es := by
        simp [isDigitChar, (Bool.and_eq_true_iff.1 hd).2]
      have hall : ∀ c ∈ d :: es, isDigitChar c = true := hes ▸ List.all_eq_true.1 List.all_takeWhile
      have hagain : (d :: (es ++ rest)).takeWhile isDigitChar = d :: es :=
        (h.span rfl hall).1
      have htake : cs.take (ds.length + 1 + (d :: es).length) = ds ++ '.' :: d :: es := by
        rw [← hcs, Nat.add_assoc, List.take_length_add_append, Nat.add_comm 1, List.take_succ_cons, ← hes,
          ← List.prefix_iff_eq_take.1 (List.takeWhile_prefix _)]
      rw [hes, htake, List.append_assoc, numeral, List.takeWhile_append_of_pos hdigits,
        List.dropWhile_append_of_pos hdigits]
      simp [isDigitChar, hd, hagain]
    · cases hn
      exact hinteger
  · cases hn
    exact hinteger

theorem Spaced.prefix_iff {s : List Char} (h : Spaced rest) (hs : ' ' ∉ s) :
    s <+: cs ++ rest ↔ s <+: cs := by
  induction s generalizing cs with
  | nil => simp
  | cons x s ih =>
    simp only [List.mem_cons, not_or] at hs
    cases cs with
    | nil =>
      rcases h with rfl | ⟨more, rfl⟩
      · rfl
      · simp [Ne.symm hs.1]
    | cons y cs => rw [List.cons_append, List.cons_prefix_cons, List.cons_prefix_cons, ih hs.2]

theorem leadingSign?_sign (hk : kind ∈ TokenKind.signs) (h : Spaced rest) :
    leadingSign? (kind.sign ++ rest) = some kind := by
  have hspace : ∀ k ∈ TokenKind.signs, ' ' ∉ k.sign := by decide +kernel
  have halone : ∀ k ∈ TokenKind.signs, leadingSign? k.sign = some k := by decide +kernel
  rw [← halone kind hk]
  refine List.find?_congr fun k hk' => ?_
  rw [Bool.eq_iff_iff, List.isPrefixOf_iff_prefix, List.isPrefixOf_iff_prefix]
  exact h.prefix_iff (hspace k hk')

theorem Spells.le (h : Spells last c cs kind n) : n ≤ (c :: cs).length := by
  cases h with
  | quoted hc hn => exact Nat.succ_le_succ (by simpa [hn] using quoted_le c cs)
  | number hc hn => simpa [hn] using numeral_le (last != some .dot) (c :: cs)
  | word => exact (List.takeWhile_prefix _).length_le
  | sign _ _ _ _ h => exact (isLongestSign_of_leadingSign? h).1.length_le

theorem Spells.take (h : Spells last c cs kind n) (hrest : Spaced rest) :
    ∃ ds, (c :: cs).take n = c :: ds ∧ Spells last c (ds ++ rest) kind n := by
  cases h with
  | @quoted kind n hc hn =>
    have hquote : c ≠ '\\' := by rcases hc with ⟨rfl, -⟩ | ⟨rfl, -⟩ <;> decide
    exact ⟨cs.take n, rfl, .quoted hc (quoted_take hquote hn rest)⟩
  | @number kind n hc hn =>
    have hpos : 1 ≤ (numeral (last != some .dot) (c :: cs)).2 := numeral_pos hc
    rw [hn] at hpos
    obtain ⟨m, rfl⟩ := Nat.exists_eq_add_of_le' hpos
    exact ⟨cs.take m, rfl, .number hc (numeral_take hn hrest)⟩
  | word hdigit hc =>
    have hword : isWordChar c = true := by
      unfold isWordChar Char.isAlphanum
      simp only [Bool.or_eq_true] at hc ⊢
      tauto
    have hself : (c :: cs).takeWhile isWordChar = c :: cs.takeWhile isWordChar := by
      rw [List.takeWhile_cons, if_pos hword]
    have hall : ∀ d ∈ c :: cs.takeWhile isWordChar, isWordChar d = true :=
      hself ▸ List.all_eq_true.1 List.all_takeWhile
    have hagain := (hrest.span rfl hall).1
    refine ⟨cs.takeWhile isWordChar, ?_, ?_⟩
    · rw [← hself]
      exact (List.prefix_iff_eq_take.1 (List.takeWhile_prefix _)).symm
    · rw [hself, ← hagain]
      exact .word hdigit hc
  | sign h1 h2 h3 h4 h =>
    have hprefix := (isLongestSign_of_leadingSign? h).1
    obtain ⟨ds, hds⟩ : ∃ ds, kind.sign = c :: ds := by
      obtain ⟨more, hmore⟩ := hprefix
      cases hsign : kind.sign with
      | nil => exact absurd hsign (List.ne_nil_of_length_pos (leadingSign?_pos h))
      | cons d ds =>
        rw [hsign] at hmore
        exact ⟨ds, by rw [(List.cons.inj hmore).1]⟩
    refine ⟨ds, by rw [← List.prefix_iff_eq_take.1 hprefix, hds], .sign h1 h2 h3 h4 ?_⟩
    rw [← List.cons_append, ← hds]
    exact leadingSign?_sign (List.mem_of_find?_eq_some h) hrest

theorem scan_take {text : List Char} {t : Token} (h : (scan last position text).found = .ok (some t))
    (hrest : Spaced rest) (start : Nat) :
    ∃ t', scan last start (t.text.toList ++ rest) =
      ⟨.ok (some t'), start + byteLength t.text.toList, rest⟩ ∧ t'.kind = t.kind ∧ t'.text = t.text := by
  obtain ⟨gap, c, cs, n, -, -, hblank, hcomment, hspells, htext, -⟩ := scan_eq_some h
  obtain ⟨ds, hds, hagain⟩ := hspells.take hrest
  have hlength : n = (c :: ds).length := by
    rw [← hds, List.length_take, Nat.min_eq_left hspells.le]
  have hhead : ¬ (c = '/' ∧ (ds ++ rest).head? = some '/') := by
    rintro ⟨rfl, hnext⟩
    cases ds with
    | nil => rcases hrest with rfl | ⟨more, rfl⟩ <;> simp at hnext
    | cons d ds =>
      cases cs with
      | nil => cases n <;> simp at hds
      | cons e es =>
        obtain ⟨m, rfl⟩ : ∃ m, n = m + 2 := ⟨ds.length, by simpa using hlength⟩
        cases (List.cons.inj hds).2
        exact hcomment ⟨rfl, hnext⟩
  have hskip : skipGap false start (c :: (ds ++ rest)) = (start, c :: (ds ++ rest)) := by
    rw [skipGap, if_neg (by simp), if_neg (by simp [hblank]), if_neg hhead]
  rw [htext, hds, List.cons_append, scan, hskip]
  dsimp only
  rw [lexeme_eq_token_iff.2 hagain, hlength, ← List.cons_append]
  dsimp only
  rw [List.take_left, List.drop_left]
  refine ⟨_, rfl, rfl, ?_⟩
  rw [← hds, ← htext, String.ofList_toList]

/-! ### All tokens -/

theorem scan_space (last : Option TokenKind) (position : Nat) (cs : List Char) :
    scan last position (' ' :: cs) = scan last (position + 1) cs := by
  have hskip : skipGap false position (' ' :: cs) = skipGap false (position + 1) cs := by
    rfl
  rw [scan, hskip, scan]

/-- The texts of tokens with single spaces between them. -/
def respaced (ts : List Token) : List Char := [' '].intercalate (ts.map fun t => t.text.toList)

theorem respaced_cons (t : Token) (ts : List Token) :
    ∃ rest, Spaced rest ∧ respaced (t :: ts) = t.text.toList ++ rest ∧
      (ts = [] ∧ rest = [] ∨ rest = ' ' :: respaced ts) := by
  cases ts with
  | nil => exact ⟨[], .inl rfl, by simp [respaced], .inl ⟨rfl, rfl⟩⟩
  | cons t' ts =>
    exact ⟨' ' :: respaced (t' :: ts), .inr ⟨_, rfl⟩, by simp [respaced],
      .inr rfl⟩

namespace Lexer

theorem readAll_space (position : Nat) (cs : List Char) (last : Option TokenKind) :
    (mk position (' ' :: cs) [] last).readAll = (mk (position + 1) cs [] last).readAll := by
  rw [readAll_eq, scan_space, ← readAll_eq]

theorem readAll_respaced_from (position start : Nat) (text : List Char) (last : Option TokenKind)
    (h : (mk position text [] last).readAll.2 = none) :
    ∃ ts, (mk start (respaced (mk position text [] last).readAll.1) [] last).readAll =
      (ts, none) ∧ ts.map (fun t => (t.kind, t.text)) =
        (mk position text [] last).readAll.1.map fun t => (t.kind, t.text) := by
  induction hn : text.length using Nat.strongRecOn generalizing position start text last with
  | ind n ih =>
    rw [readAll_eq position] at h ⊢
    cases hfound : (scan last position text).found with
    | error e => simp [hfound] at h
    | ok r =>
      rw [hfound] at h
      cases r with
      | none => exact ⟨[], by rw [readAll_eq]; rfl, rfl⟩
      | some t =>
        have hshorter := hn ▸ scan_shorter hfound
        obtain ⟨rest, hspaced, hcons, hrest⟩ := respaced_cons t (mk (scan last position text).position
          (scan last position text).rest [] (some t.kind)).readAll.1
        obtain ⟨t', hscan, hkind, htext⟩ := scan_take hfound hspaced start
        obtain ⟨ts, hts, hsame⟩ : ∃ ts, (mk (start + byteLength t.text.toList) rest []
            (some t.kind)).readAll = (ts, none) ∧ ts.map (fun t => (t.kind, t.text)) =
              (mk (scan last position text).position (scan last position text).rest []
                (some t.kind)).readAll.1.map fun t => (t.kind, t.text) := by
          rcases hrest with ⟨hnil, rfl⟩ | rfl
          · simpa [hnil, respaced] using ih _ hshorter _ (start + byteLength t.text.toList) _ _ h rfl
          · rw [readAll_space]
            exact ih _ hshorter _ _ _ _ h rfl
        refine ⟨t' :: ts, ?_, by simp [hkind, htext, hsame]⟩
        rw [hcons, readAll_eq, hscan]
        dsimp only
        rw [hkind, hts]

end Lexer

/-- A text that is read without an error is read the same way when its gaps are single spaces: as
tokens of the same kinds with the same texts, and without an error. -/
theorem readAll_respaced (text : String) (h : (Lexer.ofString text).readAll.2 = none) :
    let spaced := " ".intercalate ((Lexer.ofString text).readAll.1.map Token.text)
    (Lexer.ofString spaced).readAll.2 = none ∧
      (Lexer.ofString spaced).readAll.1.map (fun t => (t.kind, t.text)) =
        (Lexer.ofString text).readAll.1.map fun t => (t.kind, t.text) := by
  intro spaced
  have hspaced : Lexer.ofString spaced = ⟨0, respaced (Lexer.ofString text).readAll.1, [], none⟩ := by
    simp only [Lexer.ofString, spaced, String.toList_intercalate, respaced, List.map_map]
    rfl
  obtain ⟨ts, hread, hsame⟩ := Lexer.readAll_respaced_from 0 0 text.toList none h
  rw [hspaced, Lexer.ofString, hread]
  exact ⟨rfl, hsame⟩

/-- Tokens that stand close together, and a string with a gap in it. -/
theorem readAll_respaced_adjacent :
    let text := "x.0.1 1.5.6 a/ /b 1abc<<=\"a //b\"// c"
    let spaced := "x . 0 . 1 1.5 . 6 a / / b 1 abc <<= \"a //b\""
    (Lexer.ofString text).readAll.2 = none ∧
      " ".intercalate ((Lexer.ofString text).readAll.1.map Token.text) = spaced ∧
      (Lexer.ofString spaced).readAll.2 = none ∧
      (Lexer.ofString spaced).readAll.1.map (fun t => (t.kind, t.text)) =
        (Lexer.ofString text).readAll.1.map fun t => (t.kind, t.text) := by
  intro text spaced
  have hread : (Lexer.ofString text).readAll.2 = none := by decide +kernel
  have hspaced : " ".intercalate ((Lexer.ofString text).readAll.1.map Token.text) = spaced := by
    decide +kernel
  exact ⟨hread, hspaced, hspaced ▸ readAll_respaced text hread⟩

end SeaOfNodes
