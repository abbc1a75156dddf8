import SeaOfNodes.Ty.Print

/-!
Members of aggregates, by place, by name and by index value.
-/
namespace SeaOfNodes.Ty

def memberIndex? : Ty → String → Option Nat
  | .struct _ ls _, label => ls.findIdx? (· == label)
  | _, _ => none

def element (t : Ty) (i : Nat) : Ty :=
  match t with
  | .error e => .error e
  | t =>
    match t.members[i]? with
    | some m => m
    | none =>
      if t.isAggregate then fail ("no member " ++ toString i ++ " in `" ++ t.name ++ "`")
      else fail ("`" ++ t.name ++ "` has no members")

def member (t : Ty) (label : String) : Ty :=
  match t with
  | .error e => .error e
  | t =>
    match t.memberIndex? label with
    | some i => t.element i
    | none => fail ("member `" ++ label ++ "` not found in `" ++ t.name ++ "`")

/-- A number as the place of a member: it has to fit into 64 bits. -/
def placeOf? (v : Int) : Option Nat := if 0 ≤ v ∧ v < pow2 64 then some v.toNat else none

def indexInto (members : List Ty) (i : Ty) : Ty :=
  match i with
  | .int _ (.const v) =>
    match (placeOf? v).bind (members[·]?) with
    | some t => t
    | none => fail ("index " ++ toString v ++ " out of range for array of length " ++
        toString members.length)
  | .int .. => fail "non-constant member access"
  | .error e => .error e
  | i => fail ("cannot index with a value of type `" ++ i.name ++ "`")

/-- `t` indexed with a value of type `i`. -/
def index (t i : Ty) : Ty :=
  match t with
  | .error e => .error e
  | .array _ ts => indexInto ts i
  | t => fail ("cannot index into `" ++ t.name ++ "`")

end SeaOfNodes.Ty
