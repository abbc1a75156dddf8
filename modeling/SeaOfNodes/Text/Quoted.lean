import SeaOfNodes.Text.Unprintable

/-!
Texts and characters between quotes, as the printers show constants.
-/
namespace SeaOfNodes

def hexadecimal (n : Nat) : String := String.ofList (Nat.toDigits 16 n)

/-- How a character is shown between a pair of `quote`s. -/
def quoteChar (quote c : Char) : String :=
  if c = quote then "\\" ++ String.singleton c
  else match c with
    | '\x00' => "\\0"
    | '\t' => "\\t"
    | '\r' => "\\r"
    | '\n' => "\\n"
    | '\\' => "\\\\"
    | c => if isUnprintable c then "\\u\x7b" ++ hexadecimal c.toNat ++ "\x7d"
      else String.singleton c

def quoteString (s : String) : String :=
  "\"" ++ String.join (s.toList.map (quoteChar '"')) ++ "\""

def quoteRune (c : Char) : String := "'" ++ quoteChar '\'' c ++ "'"

end SeaOfNodes
