/-!
Escapes in string and rune literals. `unescape` reads the body of a literal; `escape` writes a
body that reads as a given text.
-/
namespace SeaOfNodes

/-- What a backslash followed by `c` stands for. -/
def escaped : Char → Char
  | 'n' => '\n'
  | 't' => '\t'
  | 'r' => '\r'
  | '0' => '\x00'
  | c => c

/-- Resolves the escapes of a literal's body. A backslash at the end stands for itself. -/
def unescapeChars : List Char → List Char
  | '\\' :: c :: cs => escaped c :: unescapeChars cs
  | c :: cs => c :: unescapeChars cs
  | [] => []

def unescape (body : String) : String := String.ofList (unescapeChars body.toList)

/-- The body of a string literal that stands for `cs`. -/
def escapeChars : List Char → List Char
  | [] => []
  | c :: cs =>
    if c = '\\' then '\\' :: '\\' :: escapeChars cs
    else if c = '"' then '\\' :: '"' :: escapeChars cs
    else if c = '\n' then '\\' :: 'n' :: escapeChars cs
    else c :: escapeChars cs

/-- The string literal for a text. -/
def stringLiteral (s : String) : String :=
  String.ofList ('"' :: escapeChars s.toList ++ ['"'])

end SeaOfNodes
