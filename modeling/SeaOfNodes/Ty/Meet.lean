import SeaOfNodes.Ty.Print

/-!
Where values merge: `meet` goes down the lattice as far as both operands require. Beside it stand
the values that declarations start with and the types that literals take on.
-/
namespace SeaOfNodes.Ty

/-- The error with the smaller message. -/
def leastBlame (a b : Blame) : Blame := if b.message < a.message then b else a

/-- Pointers meet when they point to one shape. `nil` without a pointee takes the other's. -/
def meetPointer (p : Ty) (l : Level Unit) (q : Ty) (m : Level Unit) : Ty :=
  if isUntypedNil p l then .pointer q (l.meet m)
  else if isUntypedNil q m || p.sameShape q then .pointer p (l.meet m)
  else
    let (x, y) := sortedPair p.name q.name
    mismatch ("*" ++ x) ("*" ++ y)

mutual

/-- The greatest type below both, or an error if their kinds differ. -/
def meet : Ty → Ty → Ty
  | .error a, .error b => .error (leastBlame a b)
  | .error a, _ => .error a
  | _, .error b => .error b
  | .int w l, .int v m =>
    match w.unify? v with
    | some u => .int u (l.meet m)
    | none => mismatched (.int w l) (.int v m)
  | .float w l, .float v m =>
    match w.unify? v with
    | some u => .float u (l.meet m)
    | none => mismatched (.float w l) (.float v m)
  | .bool l, .bool m => .bool (l.meet m)
  | .rune l, .rune m => .rune (l.meet m)
  | .string l, .string m => .string (l.meet m)
  | .pointer p l, .pointer q m => meetPointer p l q m
  | .struct n ls ts, .struct m ks us =>
    if n = m then
      match meets ts us with
      | .ok vs => .struct n (ls.take vs.length) (vs.take ls.length)
      | .error e => .error e
    else mismatched (.struct n ls ts) (.struct m ks us)
  | .array e ts, .array f us =>
    if ts.length = us.length then
      match meets ts us with
      | .ok vs => .array e vs
      | .error b => .error b
    else mismatched (.array e ts) (.array f us)
  | .tuple ts, .tuple us =>
    if ts.length = us.length then
      match meets ts us with
      | .ok vs => .tuple vs
      | .error e => .error e
    else mismatched (.tuple ts) (.tuple us)
  | .function ps r l, .function qs s m =>
    if sameSignature ps r qs s then .function ps r (l.meet m)
    else mismatched (.function ps r l) (.function qs s m)
  | .void, .void => .void
  | .memory, .memory => .memory
  | .control a, .control b => .control (a || b)
  | a, b => mismatched a b

/-- Members meet in pairs; the first error wins. -/
def meets : List Ty → List Ty → Except Blame (List Ty)
  | t :: ts, u :: us =>
    match meet t u with
    | .error e => .error e
    | v =>
      match meets ts us with
      | .ok vs => .ok (v :: vs)
      | .error e => .error e
  | _, _ => .ok []

end

/-- The type of a value that is one of two. -/
def phi (a b : Ty) : Ty := if a == b then a else a.meet b

def firstError? : List Ty → Option Blame
  | [] => none
  | .error e :: _ => some e
  | _ :: ts => firstError? ts

mutual

/-- The value that a declaration without an initializer starts with. -/
def zero : Ty → Ty
  | .int w _ => intOf w 0
  | .float w _ => .float w (.const .zero)
  | .bool _ => .bool (.const false)
  | .rune _ => .rune (.const '\x00')
  | .string _ => .string (.const "")
  | .pointer p _ => .pointer p (.const ())
  | .struct n ls ts =>
    match firstError? (zeros ts) with
    | some e => .error e
    | none => .struct n ls (zeros ts)
  | .array e ts =>
    match firstError? (zeros ts) with
    | some b => .error b
    | none => .array e (zeros ts)
  | .tuple ts =>
    match firstError? (zeros ts) with
    | some e => .error e
    | none => .tuple (zeros ts)
  | .function ps r l =>
    fail ("`" ++ name (.function ps r l) ++ "` has no zero value and must be initialized")
  | .void => .void
  | .control b => .control b
  | .memory => .memory
  | .error e => .error e

def zeros : List Ty → List Ty
  | [] => []
  | t :: ts => t.zero :: zeros ts

end

mutual

/-- The type with the widths that untyped numbers have when nothing else decides. -/
def concrete : Ty → Ty
  | .int .untyped l => .int .int (l.map IntWidth.int.wrap)
  | .float .untyped l => .float .float l
  | .struct n ls ts => .struct n ls (concretes ts)
  | .array e ts => .array e (concretes ts)
  | .tuple ts => .tuple (concretes ts)
  | t => t

def concretes : List Ty → List Ty
  | [] => []
  | t :: ts => t.concrete :: concretes ts

end

end SeaOfNodes.Ty
