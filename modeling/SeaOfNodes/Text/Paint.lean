/-!
Coloured terminal text. Every printer takes a flag that says whether colours are wanted.
-/
namespace SeaOfNodes

inductive Hue where
  | red | green | yellow | blue | magenta | cyan | white | brightRed
  deriving DecidableEq, Repr

/-- The number that selects a colour on a terminal. -/
def Hue.code : Hue → String
  | .red => "31"
  | .green => "32"
  | .yellow => "33"
  | .blue => "34"
  | .magenta => "35"
  | .cyan => "36"
  | .white => "37"
  | .brightRed => "91"

def resetCode : String := "\x1b[0m"

/-- Text between a style and the code that ends it. Where the text itself ends a style, this one
goes on. -/
def styled (style text : String) : String :=
  let start := "\x1b[" ++ style ++ "m"
  start ++ text.replace resetCode (resetCode ++ start) ++ resetCode

/-- `text` in colour if colours are wanted, and unchanged otherwise. -/
def paint (coloured : Bool) (hue : Hue) (text : String) : String :=
  if coloured then styled hue.code text else text

/-- `text` with styles that are set one after the other, if they are wanted. -/
def mark (styles : List String) (wanted : Bool) (text : String) : String :=
  if wanted then String.join (styles.map fun style => "\x1b[" ++ style ++ "m") ++ text ++ resetCode
  else text

def paintBold (coloured : Bool) (hue : Hue) (text : String) : String :=
  if coloured then styled ("1;" ++ hue.code) text else text

end SeaOfNodes
