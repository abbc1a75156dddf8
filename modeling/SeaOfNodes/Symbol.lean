import Std.Data.HashMap
import SeaOfNodes.Number.Power

/-!
Symbol tables: every text gets the next free number when it is first seen, and keeps it.
-/
namespace SeaOfNodes

/-- Texts in the order of their numbers, and the number of each text. -/
structure SymbolTable where
  texts : Array String := #[]
  numbers : Std.HashMap String Nat := ∅

namespace SymbolTable

def empty : SymbolTable := {}

def get? (t : SymbolTable) (n : Nat) : Option String := t.texts[n]?

/-- The number of a text. -/
def indexOf? (t : SymbolTable) (text : String) : Option Nat := t.numbers[text]?

/-- The number of `text`, which is added if it is new. Numbers have 32 bits. -/
def insert (t : SymbolTable) (text : String) : Nat × SymbolTable :=
  match t.indexOf? text with
  | some n => (n, t)
  | none =>
    let n := t.texts.size % pow2 32
    (n, ⟨t.texts.push text, t.numbers.insert text n⟩)

end SymbolTable

end SeaOfNodes
