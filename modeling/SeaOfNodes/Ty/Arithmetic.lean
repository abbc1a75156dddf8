import SeaOfNodes.Ty.Print

/-!
Operators on types. Two constants are evaluated; otherwise the result is as much as the levels of
the operands allow.
-/
namespace SeaOfNodes

/-! ### Integers -/

/-- A bitwise operation on integers of 128 bits. -/
def bitwise (f : BitVec 128 → BitVec 128 → BitVec 128) (a b : Int) : Int :=
  (f (BitVec.ofInt 128 a) (BitVec.ofInt 128 b)).toInt

/-- `a op b` in 128 bits, truncated to the width. The divisor of a division is not zero. -/
def IntWidth.evaluate (w : IntWidth) (op : BinaryOp) (a b : Int) : Except String Int :=
  let bits : Nat := w.bits?.getD 128
  match op with
  | .add => .ok (w.wrap (wrap128 (a + b)))
  | .subtract => .ok (w.wrap (wrap128 (a - b)))
  | .multiply => .ok (w.wrap (wrap128 (a * b)))
  | .divide => .ok (w.wrap (wrap128 (a.tdiv b)))
  | .modulus => .ok (w.wrap (a.tmod b))
  | .bitwiseAnd => .ok (w.wrap (bitwise (· &&& ·) a b))
  | .bitwiseOr => .ok (w.wrap (bitwise (· ||| ·) a b))
  | .bitwiseXor => .ok (w.wrap (bitwise (· ^^^ ·) a b))
  | .shiftLeft =>
    if b < 0 then .error "negative shift amount"
    else if bits ≤ b then .ok (w.wrap 0)
    else .ok (w.wrap (wrap128 (a * pow2 b.toNat)))
  | .shiftRight =>
    if b < 0 then .error "negative shift amount"
    else if bits ≤ b then .ok (w.wrap (if a < 0 then -1 else 0))
    else .ok (w.wrap (a >>> b.toNat))
  | .logicalAnd | .logicalOr => .error "logical operator on integers"

def FloatWidth.round (w : FloatWidth) (d : Double) : Double :=
  match w with
  | .f32 => d.toSingle
  | _ => d

namespace Ty

/-- A constant zero absorbs the other operand of a product or a bitwise and. -/
def absorbed (op : BinaryOp) (l m : Level Int) : Bool :=
  (op == .multiply || op == .bitwiseAnd) && (l == .const 0 || m == .const 0)

/-- The result of an integer operator once its width is known. -/
def intResult (op : BinaryOp) (w : IntWidth) (l m : Level Int) : Ty :=
  if (op == .divide || op == .modulus) && m == .const 0 then fail "division by zero"
  else if absorbed op l m then .int w (.const 0)
  else match l, m with
    | .const a, .const b =>
      match w.evaluate op a b with
      | .ok v => .int w (.const v)
      | .error message => fail message
    | l, m => .int w (Level.lift (fun _ _ => 0) l m)

def intBinary (op : BinaryOp) (w : IntWidth) (l : Level Int) (v : IntWidth) (m : Level Int) : Ty :=
  if op.isShift then intResult op w l m
  else match w.unify? v with
    | some u => intResult op u l m
    | none => mismatch w.name v.name

def intCompare (op : CompareOp) (w : IntWidth) (l : Level Int) (v : IntWidth) (m : Level Int) :
    Ty :=
  match w.unify? v with
  | some _ => .bool (Level.lift (fun a b => op.holds (compare a b)) l m)
  | none => mismatch w.name v.name

def intUnary (op : UnaryOp) (w : IntWidth) (l : Level Int) : Ty :=
  .int w <| l.map fun v =>
    match op with
    | .negate => w.wrap (wrap128 (-v))
    | .bitwiseNot => w.wrap (-v - 1)
    | .logicalNot => v

/-! ### Floats -/

def floatEvaluate (op : BinaryOp) (a b : Double) : Double :=
  match op with
  | .add => a.add b
  | .subtract => a.sub b
  | .multiply => a.mul b
  | .divide => a.div b
  | .modulus => a.rem b
  | _ => .nan

def floatBinary (op : BinaryOp) (w : FloatWidth) (l : Level Double) (v : FloatWidth)
    (m : Level Double) : Ty :=
  match w.unify? v with
  | some u => .float u (Level.lift (fun a b => u.round (floatEvaluate op a b)) l m)
  | none => mismatch w.name v.name

/-- Of two numbers without an order, only `!=` holds. -/
def floatHolds (op : CompareOp) (a b : Double) : Bool :=
  match a.order? b with
  | some o => op.holds o
  | none => op == .notEqual

def floatCompare (op : CompareOp) (w : FloatWidth) (l : Level Double) (v : FloatWidth)
    (m : Level Double) : Ty :=
  match w.unify? v with
  | some _ => .bool (Level.lift (floatHolds op) l m)
  | none => mismatch w.name v.name

def floatUnary (op : UnaryOp) (w : FloatWidth) (l : Level Double) : Ty :=
  .float w <| l.map fun d =>
    match op with
    | .negate => d.neg
    | _ => d

/-! ### Booleans, strings and pointers -/

def boolBinary (op : BinaryOp) (l m : Level Bool) : Ty :=
  match op with
  | .logicalAnd | .bitwiseAnd =>
    if l == .const false || m == .const false then .bool (.const false)
    else .bool (Level.lift (· && ·) l m)
  | .logicalOr | .bitwiseOr =>
    if l == .const true || m == .const true then .bool (.const true)
    else .bool (Level.lift (· || ·) l m)
  | .bitwiseXor => .bool (Level.lift (· != ·) l m)
  | op => unsupported op.sign (.bool l)

def boolUnary (op : UnaryOp) (l : Level Bool) : Ty :=
  match op with
  | .logicalNot => .bool (l.map (!·))
  | op => unsupported op.sign (.bool l)

def stringBinary (op : BinaryOp) (l m : Level String) : Ty :=
  match op with
  | .add => .string (Level.lift (· ++ ·) l m)
  | op => unsupported op.sign (.string l)

/-- Only two `nil`s are known to be equal: no other pointer has a known address. -/
def pointerCompare (op : CompareOp) (p : Ty) (l : Level Unit) (q : Ty) (m : Level Unit) : Ty :=
  if !op.isEquality then
    fail ("operator `" ++ op.sign ++ "` not supported for type `*" ++ p.name ++ "`")
  else if isUntypedNil p l || isUntypedNil q m || p.sameShape q then
    .bool (Level.lift (fun _ _ => op == .equal) l m)
  else mismatch ("*" ++ p.name) ("*" ++ q.name)

/-! ### All types -/

/-- An untyped integer next to a float becomes a float. -/
def promote (t other : Ty) : Ty :=
  match t, other with
  | .int .untyped l, .float .. => .float .untyped (l.map Double.ofInt)
  | t, _ => t

/-- The operator on two operands that are no errors. -/
def binaryOf (op : BinaryOp) (a b : Ty) : Ty :=
  match a.primitive? with
  | none => unsupported op.sign a
  | some kind =>
    if !kind.supportsBinary op then unsupported op.sign a
    else match a, b with
      | .int w l, .int v m => intBinary op w l v m
      | .float w l, .float v m => floatBinary op w l v m
      | .bool l, .bool m => boolBinary op l m
      | .string l, .string m => stringBinary op l m
      | a, b => mismatched a b

def binary (op : BinaryOp) (a b : Ty) : Ty :=
  match a, b with
  | .error e, _ => .error e
  | _, .error e => .error e
  | a, b => binaryOf op (a.promote b) (b.promote a)

/-- The comparison of two operands that are no errors. -/
def compareOf (op : CompareOp) (a b : Ty) : Ty :=
  match a, b with
  | .pointer p l, .pointer q m => pointerCompare op p l q m
  | a, b =>
    match a.primitive? with
    | none => unsupported op.sign a
    | some kind =>
      if !kind.supportsCompare op then unsupported op.sign a
      else match a, b with
        | .int w l, .int v m => intCompare op w l v m
        | .float w l, .float v m => floatCompare op w l v m
        | .bool l, .bool m => .bool (Level.lift (fun x y => op.holds (compare x y)) l m)
        | .rune l, .rune m => .bool (Level.lift (fun x y => op.holds (compare x.toNat y.toNat)) l m)
        | .string l, .string m => .bool (Level.lift (fun x y => op.holds (compare x y)) l m)
        | a, b => mismatched a b

def compare (op : CompareOp) (a b : Ty) : Ty :=
  match a, b with
  | .error e, _ => .error e
  | _, .error e => .error e
  | a, b => compareOf op (a.promote b) (b.promote a)

def unary (op : UnaryOp) (t : Ty) : Ty :=
  match t with
  | .error e => .error e
  | t =>
    match t.primitive? with
    | none => unsupported op.sign t
    | some kind =>
      if !kind.supportsUnary op then unsupported op.sign t
      else match t with
        | .int w l => intUnary op w l
        | .float w l => floatUnary op w l
        | .bool l => boolUnary op l
        | t => unsupported op.sign t

end Ty

end SeaOfNodes
