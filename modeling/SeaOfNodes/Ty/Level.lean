/-!
What is known of a value: nothing yet, the value itself, or no more than its kind. The three levels
form a lattice with `top` above every constant and `bottom` below.
-/
namespace SeaOfNodes

inductive Level (α : Type) where
  | top
  | const (value : α)
  | bottom
  deriving DecidableEq, Repr

namespace Level

variable {α β γ : Type}

def isConst : Level α → Bool
  | .const _ => true
  | _ => false

def const? : Level α → Option α
  | .const a => some a
  | _ => none

/-- The greatest level below both. -/
def meet [DecidableEq α] : Level α → Level α → Level α
  | .top, x => x
  | x, .top => x
  | .const a, .const b => if a = b then .const a else .bottom
  | _, _ => .bottom

/-- Applies `f` to a constant. -/
def bind (l : Level α) (f : α → Level β) : Level β :=
  match l with
  | .top => .top
  | .const a => f a
  | .bottom => .bottom

def map (f : α → β) (l : Level α) : Level β := l.bind fun a => .const (f a)

/-- Combines two operands: `bottom` on either side wins, then `top`, and two constants are
evaluated. -/
def lift (f : α → β → γ) : Level α → Level β → Level γ
  | .bottom, _ => .bottom
  | _, .bottom => .bottom
  | .top, _ => .top
  | _, .top => .top
  | .const a, .const b => .const (f a b)

@[simp] theorem top_meet [DecidableEq α] (l : Level α) : meet .top l = l := by cases l <;> rfl

@[simp] theorem bottom_meet [DecidableEq α] (l : Level α) : meet .bottom l = .bottom := by
  cases l <;> rfl

@[simp] theorem meet_self [DecidableEq α] (l : Level α) : meet l l = l := by
  cases l <;> simp [meet]

theorem meet_comm [DecidableEq α] (l m : Level α) : meet l m = meet m l := by
  cases l <;> cases m <;> simp only [meet]
  next a b => by_cases h : a = b <;> simp [h, eq_comm]

theorem meet_assoc [DecidableEq α] (l m n : Level α) :
    meet (meet l m) n = meet l (meet m n) := by
  cases l <;> cases m <;> cases n <;> grind [meet]

end Level

end SeaOfNodes
