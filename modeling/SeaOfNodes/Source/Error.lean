import SeaOfNodes.Source.Basic

/-!
What can be wrong with a program. A `SourceError` ends construction at once; a `Diagnostic` is an
error in a graph that was built to its end.
-/
namespace SeaOfNodes

/-- The two literals that can be left open. -/
inductive OpenLiteral where
  | string
  | rune
  deriving DecidableEq, Repr

def OpenLiteral.display : OpenLiteral → String
  | .string => "string"
  | .rune => "rune"

/-- The statements that leave a loop, start its next turn or leave a function. -/
inductive Jump where
  | break_
  | continue_
  | return_
  deriving DecidableEq, Repr

def Jump.display : Jump → String
  | .break_ => "break"
  | .continue_ => "continue"
  | .return_ => "return"

inductive Cause where
  | unexpectedToken (expected found : String)
  | unexpectedEnd (context : String)
  | unexpectedCharacter (character : Char)
  | unterminated (literal : OpenLiteral)
  | redeclared (name : String)
  | unresolved (name : String)
  | unknownType (name : String)
  | typeTooLarge (ty : String)
  | missingMain
  | invalidMain
  | wrongArity (callee : String) (expected found : Nat)
  | misplaced (jump : Jump)
  | missingReturn (function ty : String)
  deriving DecidableEq, Repr

def Cause.message : Cause → String
  | .unexpectedToken expected found => s!"expected {expected}, found `{found}`"
  | .unexpectedEnd context => s!"unexpected end of file while parsing {context}"
  | .unexpectedCharacter character => s!"unexpected character `{character}`"
  | .unterminated literal => "unterminated " ++ literal.display ++ " literal"
  | .redeclared name => s!"`{name}` is already declared in this scope"
  | .unresolved name => s!"cannot find `{name}` in this scope"
  | .unknownType name => s!"unknown type `{name}`"
  | .typeTooLarge ty => s!"type `{ty}` is too large"
  | .missingMain => "no `main` function declared"
  | .invalidMain => "`main` must take no parameters and return nothing"
  | .wrongArity callee expected found =>
    s!"`{callee}` takes {expected} argument(s) but {found} were supplied"
  | .misplaced jump => "`" ++ jump.display ++ "` is not allowed here"
  | .missingReturn function ty => s!"function `{function}` must return a value of type `{ty}`"

structure SourceError where
  cause : Cause
  span : Span
  deriving DecidableEq, Repr

namespace SourceError

def message (e : SourceError) : String := e.cause.message

def render (coloured : Bool) (s : Source) (e : SourceError) : String :=
  s.annotate coloured e.span e.message

end SourceError

/-- Why a file could not be read as source text. -/
inductive ReadFailure where
  | notFound
  | notDirectory
  | isDirectory
  | nameTooLong
  | zeroByte
  | notText
  deriving DecidableEq, Repr

def ReadFailure.message : ReadFailure → String
  | .notFound => "No such file or directory (os error 2)"
  | .notDirectory => "Not a directory (os error 20)"
  | .isDirectory => "Is a directory (os error 21)"
  | .nameTooLong => "File name too long (os error 36)"
  | .zeroByte => "file name contained an unexpected NUL byte"
  | .notText => "stream did not contain valid UTF-8"

structure LoadError where
  path : String
  reason : ReadFailure
  deriving DecidableEq, Repr

def LoadError.message (e : LoadError) : String :=
  "failed to read `" ++ e.path ++ "`: " ++ e.reason.message

/-- An error that a finished graph still holds. -/
structure Diagnostic where
  span : Span
  message : String
  deriving DecidableEq, Repr

def Diagnostic.render (coloured : Bool) (s : Source) (d : Diagnostic) : String :=
  s.annotate coloured d.span d.message

end SeaOfNodes
