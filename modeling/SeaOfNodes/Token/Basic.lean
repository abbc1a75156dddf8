import SeaOfNodes.Source.Span

/-!
Tokens of the language: their kinds, the classes of operators and the words and signs that spell
them.
-/
namespace SeaOfNodes

inductive Keyword where
  | func | var | const | type | struct | if_ | else_ | for_ | break_ | continue_ | return_
  | defer | as_ | nil
  deriving DecidableEq, Repr

namespace Keyword

def all : List Keyword :=
  [func, var, const, type, struct, if_, else_, for_, break_, continue_, return_, defer, as_, nil]

def text : Keyword → String
  | .func => "func"
  | .var => "var"
  | .const => "const"
  | .type => "type"
  | .struct => "struct"
  | .if_ => "if"
  | .else_ => "else"
  | .for_ => "for"
  | .break_ => "break"
  | .continue_ => "continue"
  | .return_ => "return"
  | .defer => "defer"
  | .as_ => "as"
  | .nil => "nil"

def ofText? (word : String) : Option Keyword := all.find? (·.text == word)

theorem mem_all (k : Keyword) : k ∈ all := by cases k <;> decide

end Keyword

inductive TokenKind where
  | keyword (word : Keyword)
  | identifier
  | booleanLiteral | runeLiteral | integerLiteral | floatLiteral | stringLiteral
  | openParen | closeParen | openBracket | closeBracket | openBrace | closeBrace
  | semicolon | comma | colon | dot
  | bang | tilde | asterisk | minus | ampersand
  | plus | slash | percent | logicalAnd | logicalOr | caret | bar | shiftLeft | shiftRight
  | equalEqual | notEqual | less | lessEqual | greater | greaterEqual
  | equals | plusEquals | minusEquals | asteriskEquals | slashEquals | percentEquals
  | caretEquals | ampersandEquals | barEquals | shiftLeftEquals | shiftRightEquals
  deriving DecidableEq, Repr

namespace TokenKind

/-- How a kind is named in messages. A keyword or a sign stands for itself. -/
def describe : TokenKind → String
  | .keyword word => word.text
  | .identifier => "identifier"
  | .booleanLiteral => "boolean literal"
  | .runeLiteral => "rune literal"
  | .integerLiteral => "integer literal"
  | .floatLiteral => "float literal"
  | .stringLiteral => "string literal"
  | .openParen => "("
  | .closeParen => ")"
  | .openBracket => "["
  | .closeBracket => "]"
  | .openBrace => "\x7b"
  | .closeBrace => "\x7d"
  | .semicolon => ";"
  | .comma => ","
  | .colon => ":"
  | .dot => "."
  | .bang => "!"
  | .tilde => "~"
  | .asterisk => "*"
  | .minus => "-"
  | .ampersand => "&"
  | .plus => "+"
  | .slash => "/"
  | .percent => "%"
  | .logicalAnd => "&&"
  | .logicalOr => "||"
  | .caret => "^"
  | .bar => "|"
  | .shiftLeft => "<<"
  | .shiftRight => ">>"
  | .equalEqual => "=="
  | .notEqual => "!="
  | .less => "<"
  | .lessEqual => "<="
  | .greater => ">"
  | .greaterEqual => ">="
  | .equals => "="
  | .plusEquals => "+="
  | .minusEquals => "-="
  | .asteriskEquals => "*="
  | .slashEquals => "/="
  | .percentEquals => "%="
  | .caretEquals => "^="
  | .ampersandEquals => "&="
  | .barEquals => "|="
  | .shiftLeftEquals => "<<="
  | .shiftRightEquals => ">>="

/-- The kinds spelled by signs, longer spellings first. -/
def signs : List TokenKind :=
  [shiftLeftEquals, shiftRightEquals,
    equalEqual, notEqual, lessEqual, greaterEqual, shiftLeft, shiftRight, logicalAnd, logicalOr,
    plusEquals, minusEquals, asteriskEquals, slashEquals, percentEquals, ampersandEquals,
    barEquals, caretEquals,
    openParen, closeParen, openBracket, closeBracket, openBrace, closeBrace, semicolon, comma,
    bang, tilde, colon, dot, asterisk, minus, equals, plus, slash, percent, caret, ampersand,
    bar, less, greater]

def sign (k : TokenKind) : List Char := k.describe.toList

def isAssignment : TokenKind → Bool
  | .equals | .plusEquals | .minusEquals | .asteriskEquals | .slashEquals | .percentEquals
  | .caretEquals | .ampersandEquals | .barEquals | .shiftLeftEquals | .shiftRightEquals => true
  | _ => false

def isComparison : TokenKind → Bool
  | .notEqual | .equalEqual | .less | .lessEqual | .greater | .greaterEqual => true
  | _ => false

def isBitShift : TokenKind → Bool
  | .shiftLeft | .shiftRight => true
  | _ => false

def isTerm : TokenKind → Bool
  | .plus | .minus => true
  | _ => false

def isFactor : TokenKind → Bool
  | .asterisk | .slash | .percent => true
  | _ => false

def isUnary : TokenKind → Bool
  | .asterisk | .bang | .tilde | .minus | .ampersand => true
  | _ => false

def opensGroup : TokenKind → Bool
  | .openParen | .openBracket | .openBrace => true
  | _ => false

def closesGroup : TokenKind → Bool
  | .closeParen | .closeBracket | .closeBrace => true
  | _ => false

end TokenKind

structure Token where
  kind : TokenKind
  span : Span
  text : String
  deriving DecidableEq, Repr

end SeaOfNodes
