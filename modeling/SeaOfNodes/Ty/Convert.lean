import SeaOfNodes.Ty.Arithmetic

/-!
Conversions: `cast` is the one a program asks for, `assignTo` the one of an initializer, an
argument or a returned value to its declared type.
-/
namespace SeaOfNodes

/-- The character with a code point. -/
def runeOf (v : Int) : Level Char :=
  if 0 ≤ v ∧ v < pow2 32 then
    if UInt32.isValidChar v.toNat.toUInt32 then .const (Char.ofNat v.toNat) else .bottom
  else .bottom

namespace Ty

def cannotCast (t target : Ty) : Ty := fail ("cannot cast `" ++ t.name ++ "` to `" ++ target.name ++ "`")

/-- A sized integer is truncated; an untyped one becomes a constant only if it fits. -/
def castInt (v : IntWidth) (w : IntWidth) (l : Level Int) : Ty :=
  .int w <| l.bind fun a =>
    if v ≠ .untyped then .const (w.wrap a) else if w.fits a then .const a else .bottom

def floatToInt (w : IntWidth) (l : Level Double) : Ty :=
  .int w <| l.bind fun d =>
    match d.truncate? with
    | some v => .const (w.wrap v)
    | none => .bottom

/-- The conversion between two scalars that `Primitive.castable` allows. -/
def castScalar (t target : Ty) : Ty :=
  match t, target with
  | .int v l, .int w _ => castInt v w l
  | .int _ l, .float w _ => .float w (l.map fun v => w.round (.ofInt v))
  | .float _ l, .int w _ => floatToInt w l
  | .float _ l, .float w _ => .float w (l.map w.round)
  | .int _ l, .rune _ => .rune (l.bind runeOf)
  | .rune l, .int w _ => .int w (l.map fun c => w.wrap c.toNat)
  | .int _ l, .bool _ => .bool (l.map (· != 0))
  | .bool l, .int w _ => .int w (l.map fun b => if b then 1 else 0)
  | .int _ l, .string _ => .string ((l.bind runeOf).map String.singleton)
  | .rune l, .string _ => .string (l.map String.singleton)
  | t, target => cannotCast t target

/-- The explicit conversion to a declared type. -/
def cast (t target : Ty) : Ty :=
  match t, target with
  | .error e, _ => .error e
  | _, .error e => .error e
  | t, target =>
    if t.sameShape target then t
    else match t, target with
      | .pointer _ l, .pointer p _ => .pointer p l
      | t, target =>
        match t.primitive?, target.primitive? with
        | some a, some b => if a.castable b then castScalar t target else cannotCast t target
        | _, _ => cannotCast t target

/-- Whether the conversion makes a new string when the program runs. -/
def materializesString (t target : Ty) : Bool :=
  match target, t with
  | .string _, .string _ => false
  | .string _, _ => true
  | _, _ => false

def cannotUse (t target : Ty) : Ty :=
  fail ("cannot use value of type `" ++ t.name ++ "` as `" ++ target.name ++ "`")

/-- An untyped integer takes a width it fits. -/
def assignInt (w : IntWidth) (l : Level Int) : Ty :=
  match l with
  | .const v =>
    if w.fits v then .int w l else fail ("constant " ++ toString v ++ " overflows `" ++ w.name ++ "`")
  | l => .int w l

mutual

/-- The implicit conversion to a declared type. -/
def assignTo : Ty → Ty → Ty
  | .error e, _ => .error e
  | _, .error e => .error e
  | .int v l, .int w m =>
    if v = .untyped then assignInt w l
    else if v = w then .int v l
    else cannotUse (.int v l) (.int w m)
  | .int v l, .float w m =>
    if v = .untyped then .float w (l.map fun a => w.round (.ofInt a))
    else cannotUse (.int v l) (.float w m)
  | .float v l, .float w m =>
    if v = .untyped then .float w (l.map w.round)
    else if v = w then .float v l
    else cannotUse (.float v l) (.float w m)
  | .bool l, .bool _ => .bool l
  | .rune l, .rune _ => .rune l
  | .string l, .string _ => .string l
  | .void, .void => .void
  | .pointer p l, .pointer q _ =>
    if isUntypedNil p l || p.sameShape q then .pointer q l
    else cannotUse (pointerTo p) (pointerTo q)
  | .struct n ls ts, .struct m ks us =>
    if n = m then
      match assigns ts us with
      | .ok vs => .struct m (ks.take vs.length) (vs.take ks.length)
      | .error e => .error e
    else cannotUse (.struct n ls ts) (.struct m ks us)
  | .array _ ts, .array f us =>
    if ts.length = us.length then
      match assigns ts us with
      | .ok vs => .array f vs
      | .error e => .error e
    else fail ("mismatched array lengths: expected " ++ toString us.length ++ ", found " ++
      toString ts.length)
  | .tuple ts, .tuple us =>
    if ts.length = us.length then
      match assigns ts us with
      | .ok vs => .tuple vs
      | .error e => .error e
    else cannotUse (.tuple ts) (.tuple us)
  | .function ps r l, .function qs s m =>
    if sameSignature ps r qs s then .function qs s l
    else cannotUse (.function ps r l) (.function qs s m)
  | t, target => cannotUse t target

/-- Members are converted in pairs; the first error wins. -/
def assigns : List Ty → List Ty → Except Blame (List Ty)
  | t :: ts, u :: us =>
    match assignTo t u with
    | .error e => .error e
    | v =>
      match assigns ts us with
      | .ok vs => .ok (v :: vs)
      | .error e => .error e
  | _, _ => .ok []

end

end Ty

end SeaOfNodes
