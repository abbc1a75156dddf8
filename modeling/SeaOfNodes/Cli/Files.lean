import SeaOfNodes.Source.Error

/-!
Files in memory, and what is found under a path that starts in the working directory. The root of
the tree is the working directory. Above it there are directories only.
-/
namespace SeaOfNodes.Cli

inductive Entry where
  | missing (reason : ReadFailure)
  | directory
  | file (bytes : ByteArray)

/-- The names between the slashes of a path, without those that stay at one place. -/
def namesOf (path : String) : List String :=
  (path.splitOn "/").filter fun name => name ≠ "" ∧ name ≠ "."

structure Files where
  entries : List (List String × Entry) := []

/-- A place that a path leads to. -/
inductive Place where
  | above
  | inside (names : List String)
  deriving DecidableEq, Repr

namespace Files

def ofList (entries : List (String × Entry)) : Files :=
  ⟨entries.map fun (path, entry) => (namesOf path, entry)⟩

/-- What stands at a place. Whatever has something in it is a directory. -/
def entry (f : Files) : Place → Entry
  | .above => .directory
  | .inside names =>
    match f.entries.lookup names with
    | some entry => entry
    | none =>
      if names.isEmpty || f.entries.any fun e => names.isPrefixOf e.1 then .directory
      else .missing .notFound

/-- The longest name that an entry can have, and the longest path, in bytes. -/
def maxName : Nat := 255

def maxPath : Nat := 4095

/-- The place that a name leads to from a directory. -/
def enter (f : Files) (place : Place) (name : String) : Except ReadFailure Place :=
  match f.entry place, name, place with
  | .missing reason, _, _ => .error reason
  | .file _, _, _ => .error .notDirectory
  | .directory, "", place | .directory, ".", place => .ok place
  | .directory, "..", .inside (name :: names) => .ok (.inside (name :: names).dropLast)
  | .directory, "..", _ => .ok .above
  | .directory, name, place =>
    if maxName < name.utf8ByteSize then .error .nameTooLong
    else
      match place with
      | .above => .error .notFound
      | .inside names =>
        match f.entry (.inside (names ++ [name])) with
        | .missing reason => .error reason
        | _ => .ok (.inside (names ++ [name]))

def start (path : String) : Place := if path.toList.head? = some '/' then .above else .inside []

def resolve (f : Files) (path : String) : Except ReadFailure Place :=
  if path.toList.contains '\x00' then .error .zeroByte
  else if path.isEmpty then .error .notFound
  else if maxPath < path.utf8ByteSize then .error .nameTooLong
  else (path.splitOn "/").foldlM f.enter (start path)

def find (f : Files) (path : String) : Entry :=
  match f.resolve path with
  | .ok place => f.entry place
  | .error reason => .missing reason

end Files

end SeaOfNodes.Cli
