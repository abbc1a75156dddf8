import SeaOfNodes.Parse.Expression
import SeaOfNodes.Proofs.Token.Stream

/-!
Every text has a string literal. Where a literal ends is found when tokens are read (`quoted`), and its
escapes are resolved when it is used (`unescape`); both take a backslash together with the character
behind it. So the literal that is written for a text (`stringLiteral`) is one token, whatever follows it,
and stands for that text.
-/
namespace SeaOfNodes

theorem unescapeChars_escapeChars (cs : List Char) : unescapeChars (escapeChars cs) = cs := by
  induction cs with
  | nil => rfl
  | cons c cs ih =>
    unfold escapeChars
    split
    · simp_all [unescapeChars, escaped]
    split
    · simp_all [unescapeChars, escaped]
    split
    · simp_all [unescapeChars, escaped]
    · rename_i hbackslash _ _
      rw [unescapeChars, ih]
      exact fun d ds hescape => absurd hescape hbackslash

/-- The body that is written for a text is closed by the quote behind it, and by none in it. -/
theorem quoted_escapeChars (cs more : List Char) :
    quoted '"' (escapeChars cs ++ '"' :: more) = (true, (escapeChars cs).length + 1) := by
  induction cs with
  | nil => simp [escapeChars, quoted]
  | cons c cs ih =>
    unfold escapeChars
    split
    · simp [quoted, ih]
    split
    · simp [quoted, ih]
    split
    · simp [quoted, ih]
    · rename_i hbackslash hquote hbreak
      rw [List.cons_append, quoted, if_neg hbreak, if_neg hquote, ih]
      · rfl
      · exact fun d ds hescape => absurd hescape hbackslash

theorem unquoted_stringLiteral (s : String) : unquoted (stringLiteral s) = .ok s := by
  have hinner : inner? (stringLiteral s).toList = some (escapeChars s.toList) := by
    have hquote : ('"' : Char).utf8Size = 1 := rfl
    simp [stringLiteral, inner?, hquote]
  simp [unquoted, hinner, unescape, unescapeChars_escapeChars]

/-- The literal that is written for a text is read as one token, which takes all of it and nothing of
what follows, and it stands for that text. -/
theorem next_stringLiteral (s : String) (more : List Char) (position : Nat) (last : Option TokenKind) :
    Lexer.next ⟨position, (stringLiteral s).toList ++ more, [], last⟩ =
        .ok (some ⟨.stringLiteral, ⟨position, position + (stringLiteral s).utf8ByteSize⟩, stringLiteral s⟩)
          ⟨position + (stringLiteral s).utf8ByteSize, more, [], some .stringLiteral⟩ ∧
      unquoted (stringLiteral s) = .ok s := by
  refine ⟨?_, unquoted_stringLiteral s⟩
  have htext : (stringLiteral s).toList ++ more = '"' :: (escapeChars s.toList ++ '"' :: more) := by
    simp [stringLiteral]
  have hlength : (escapeChars s.toList).length + 1 + 1 = (stringLiteral s).toList.length := by
    simp [stringLiteral]
  have hskip : skipGap false position ('"' :: (escapeChars s.toList ++ '"' :: more)) =
      (position, (stringLiteral s).toList ++ more) := by
    rw [htext]
    simp [skipGap, show isBlank '"' = false from rfl]
  have hlexeme : lexeme last '"' (escapeChars s.toList ++ '"' :: more) =
      .token .stringLiteral (stringLiteral s).toList.length := by
    simp [lexeme, quoted_escapeChars, hlength]
  have hbytes : byteLength (stringLiteral s).toList = (stringLiteral s).utf8ByteSize := by
    rw [← utf8ByteSize_ofList, String.ofList_toList]
  have hscan : scan last position ((stringLiteral s).toList ++ more) =
      ⟨.ok (some ⟨.stringLiteral, ⟨position, position + (stringLiteral s).utf8ByteSize⟩, stringLiteral s⟩),
        position + (stringLiteral s).utf8ByteSize, more⟩ := by
    rw [htext, scan, hskip, htext]
    dsimp only
    rw [hlexeme, ← htext]
    simp [hbytes]
  simp [Lexer.next, Lexer.read, hscan]

end SeaOfNodes
