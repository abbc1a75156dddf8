import SeaOfNodes.Pass.Reorder
import SeaOfNodes.Proofs.Graph.Chain
import SeaOfNodes.Proofs.Graph.WellFormed

/-!
What a graph computes, as a system of equations. A valuation gives every node a value and a state
of memory; a node's equation says how they follow from the values of its inputs and from the states
that it takes. A store writes the bytes at its address, a load reads them and passes the state on,
and an `alloca` changes nothing but its own slot. What any other node does is left open.

Nodes that others stand for have no equation: they are no longer part of the program.
-/
namespace SeaOfNodes

/-- What is left open by a graph: values, bytes, where slots lie, and what nodes other than loads,
stores and allocas compute. -/
structure Machine where
  Value : Type
  Byte : Type
  /-- Number of bytes that a value of a type takes. -/
  size : Ty → Nat
  size_eq : ∀ {ty layout}, ty.layout? = some layout → size ty = layout.size
  /-- The address that a value is. -/
  address : Value → Nat
  /-- The value of nodes that have none. -/
  unit : Value
  encode : Ty → Value → Nat → Byte
  /-- The value that bytes are, which depends on as many bytes as the type takes. -/
  decode : Ty → (Nat → Byte) → Value
  decode_congr : ∀ {ty f f'}, (∀ i < size ty, f i = f' i) → decode ty f = decode ty f'
  /-- The addresses of slots, which lie apart. -/
  slot : Nat → Value
  slotSize : Nat → Nat
  slots_apart : ∀ {a b}, a ≠ b → address (slot a) + slotSize a ≤ address (slot b) ∨
    address (slot b) + slotSize b ≤ address (slot a)
  /-- What the bytes of a slot are when the slot begins to be used, which depends on what they
  were. -/
  renew : Nat → (Nat → Byte) → Nat → Byte
  renew_congr : ∀ {s f f'}, (∀ i < slotSize s, f i = f' i) → ∀ i < slotSize s, renew s f i = renew s f' i
  /-- What any other node computes, from the values of its inputs and of its control predecessor
  and from the states of memory that it takes: as a memory phi, and along the chain. -/
  other : NodeId → List Value → Option Value → List (Nat → Byte) → Option (Nat → Byte) →
    Value × (Nat → Byte)

namespace Machine

variable {M : Machine}

/-- A state of memory. -/
abbrev Memory (M : Machine) : Type := Nat → M.Byte

def write (m : M.Memory) (start size : Nat) (bytes : Nat → M.Byte) : M.Memory :=
  fun a => if start ≤ a ∧ a < start + size then bytes (a - start) else m a

/-- What an effect does to a range of memory: the bytes that it leaves there and the value that it
has, both from the bytes that it finds there. -/
structure Patch (M : Machine) where
  start : Nat
  size : Nat
  change : (Nat → M.Byte) → Nat → M.Byte
  result : (Nat → M.Byte) → M.Value
  change_congr : ∀ {f f'}, (∀ i < size, f i = f' i) → ∀ i < size, change f i = change f' i
  result_congr : ∀ {f f'}, (∀ i < size, f i = f' i) → result f = result f'

namespace Patch

variable {p q : Patch M} {m : M.Memory}

/-- The bytes of the range. -/
def read (p : Patch M) (m : M.Memory) : Nat → M.Byte := fun i => m (p.start + i)

/-- Memory after the effect. -/
def act (p : Patch M) (m : M.Memory) : M.Memory := M.write m p.start p.size (p.change (p.read m))

/-- Two effects touch no byte in common. -/
def Apart (p q : Patch M) : Prop := p.start + p.size ≤ q.start ∨ q.start + q.size ≤ p.start

theorem Apart.symm (h : p.Apart q) : q.Apart p := Or.symm h

theorem read_act (h : p.Apart q) {i : Nat} (hi : i < p.size) : p.read (q.act m) i = p.read m i := by
  have hout : ¬ (q.start ≤ p.start + i ∧ p.start + i < q.start + q.size) := by
    unfold Apart at h
    omega
  simp [read, act, write, hout]

theorem act_comm (h : p.Apart q) : p.act (q.act m) = q.act (p.act m) := by
  funext a
  have hp : ∀ i < p.size, p.change (p.read (q.act m)) i = p.change (p.read m) i :=
    p.change_congr fun i hi => read_act h hi
  have hq : ∀ i < q.size, q.change (q.read (p.act m)) i = q.change (q.read m) i :=
    q.change_congr fun i hi => read_act h.symm hi
  unfold Apart at h
  by_cases hin : p.start ≤ a ∧ a < p.start + p.size
  · have hout : ¬ (q.start ≤ a ∧ a < q.start + q.size) := by omega
    have hi : a - p.start < p.size := by omega
    calc p.act (q.act m) a = p.change (p.read (q.act m)) (a - p.start) := by simp [act, write, hin]
      _ = p.change (p.read m) (a - p.start) := hp _ hi
      _ = q.act (p.act m) a := by simp [act, write, hin, hout]
  · by_cases hin' : q.start ≤ a ∧ a < q.start + q.size
    · have hi : a - q.start < q.size := by omega
      calc p.act (q.act m) a = q.change (q.read m) (a - q.start) := by simp [act, write, hin, hin']
        _ = q.change (q.read (p.act m)) (a - q.start) := (hq _ hi).symm
        _ = q.act (p.act m) a := by simp [act, write, hin']
    · simp [act, write, hin, hin']

/-- Two effects can be made in either order, and neither sees whether the other one was made. -/
structure Independent (p q : Patch M) : Prop where
  comm : ∀ m, p.act (q.act m) = q.act (p.act m)
  left : ∀ m, p.result (p.read (q.act m)) = p.result (p.read m)
  right : ∀ m, q.result (q.read (p.act m)) = q.result (q.read m)

theorem Apart.independent (h : p.Apart q) : p.Independent q where
  comm _ := act_comm h
  left _ := p.result_congr fun _ hi => read_act h hi
  right _ := q.result_congr fun _ hi => read_act h.symm hi

end Patch

/-- A load leaves memory as it is, and its value is what it reads. -/
def loading (M : Machine) (start : Nat) (ty : Ty) : Patch M where
  start := start
  size := M.size ty
  change f := f
  result := M.decode ty
  change_congr h := h
  result_congr := M.decode_congr

def storing (M : Machine) (start : Nat) (ty : Ty) (value : M.Value) : Patch M where
  start := start
  size := M.size ty
  change _ := M.encode ty value
  result _ := M.unit
  change_congr _ _ _ := rfl
  result_congr _ := rfl

def allocating (M : Machine) (slot : Nat) : Patch M where
  start := M.address (M.slot slot)
  size := M.slotSize slot
  change := M.renew slot
  result _ := M.slot slot
  change_congr := M.renew_congr
  result_congr _ := rfl

@[simp] theorem act_loading (start : Nat) (ty : Ty) (m : M.Memory) :
    (M.loading start ty).act m = m := by
  funext a
  by_cases h : start ≤ a ∧ a < start + M.size ty
  · have ha : start + (a - start) = a := by omega
    simp [Patch.act, Patch.read, loading, write, h]
  · simp [Patch.act, loading, write, h]

theorem loading_independent (start start' : Nat) (ty ty' : Ty) :
    (M.loading start ty).Independent (M.loading start' ty') where
  comm _ := by simp
  left _ := by simp
  right _ := by simp

end Machine

structure Valuation (M : Machine) where
  value : NodeId → M.Value
  memory : NodeId → M.Memory

/-- Loads, stores and allocas: the effects of the chain that a move can concern. -/
def Op.isChained : Op → Bool
  | .load _ | .store _ | .alloca _ => true
  | _ => false

namespace Node

/-- Whether a node selects a state of memory. -/
def isMemoryPhi (node : Node) : Bool := node.op == .phi && node.ty == .memory

def states (node : Node) : List NodeId := if node.isMemoryPhi then node.inputs else []

/-- The inputs whose values a node takes. -/
def operands (node : Node) : List NodeId := if node.isMemoryPhi then [] else node.inputs

end Node

namespace Graph

variable {M : Machine} {g g' : Graph} {x y : NodeId} {node : Node} {v : Valuation M}

/-- What a load, store or alloca does to memory. -/
def patch? (g : Graph) (v : Valuation M) (node : Node) : Option (M.Patch) :=
  match node.op, node.inputs with
  | .load offset, base :: _ => some (M.loading (M.address (v.value base) + offset) node.ty)
  | .store offset, base :: stored :: _ => (g.get? stored).map fun value =>
      M.storing (M.address (v.value base) + offset) value.ty (v.value stored)
  | .alloca slot, _ => some (M.allocating slot)
  | _, _ => none

def Equation (g : Graph) (v : Valuation M) (x : NodeId) (node : Node) : Prop :=
  match g.patch? v node, g.before? x with
  | some patch, some before => v.value x = patch.result (patch.read (v.memory before)) ∧
      v.memory x = patch.act (v.memory before)
  | _, before => (v.value x, v.memory x) = M.other x (node.operands.map v.value)
      (g.control[x]?.map v.value) (node.states.map v.memory) (before.map v.memory)

/-- A valuation of a graph: the equations of the nodes that no others stand for hold, the value of
an alloca is the address of its slot, and what is on the heap is in no slot. -/
structure Solves (g : Graph) (v : Valuation M) : Prop where
  equation : ∀ {x node}, g.get? x = some node → node.replaced = false → g.Equation v x node
  slot : ∀ {x node s}, g.get? x = some node → node.op = .alloca s → v.value x = M.slot s
  heap : ∀ {x node effect patch}, g.get? x = some node → node.op.isMemoryAccess = true →
    g.memory[x]? = some effect → effect.tag = .heap → g.patch? v node = some patch →
    ∀ s, patch.Apart (M.allocating s)

/-- The type of the bytes that a load or store touches. -/
def accessed? (g : Graph) (node : Node) : Option Ty :=
  match node.op, node.inputs with
  | .load _, _ => some node.ty
  | .store _, _ :: stored :: _ => (g.get? stored).map Node.ty
  | _, _ => none

/-- What an effect does depends on values, and on the operation, the type and the inputs of a load,
store or alloca. -/
theorem patch?_congr {v' : Valuation M} {node' : Node} (hvalue : v'.value = v.value)
    (htypes : ∀ y, (g'.get? y).map Node.ty = (g.get? y).map Node.ty) (hop : node'.op = node.op)
    (hty : node'.ty = node.ty) (hin : node.op.isChained = true → node'.inputs = node.inputs) :
    g'.patch? v' node' = g.patch? v node := by
  unfold patch?
  rw [hop, hty, hvalue]
  cases hn : node.op with
  | load offset =>
    rw [hin (hn ▸ rfl)]
    cases node.inputs <;> rfl
  | store offset =>
    rw [hin (hn ▸ rfl)]
    split
    · contradiction
    · rename_i stored _ _ _
      have := htypes stored
      cases h : g.get? stored <;> cases h' : g'.get? stored <;> simp_all
    · contradiction
    · simp_all
  | _ => rfl

theorem accessed?_congr {node' : Node}
    (htypes : ∀ y, (g'.get? y).map Node.ty = (g.get? y).map Node.ty) (hop : node'.op = node.op)
    (hty : node'.ty = node.ty) (hin : node.op.isChained = true → node'.inputs = node.inputs) :
    g'.accessed? node' = g.accessed? node := by
  unfold accessed?
  rw [hop, hty]
  cases hn : node.op with
  | load offset => rfl
  | store offset =>
    rw [hin (hn ▸ rfl)]
    split
    · contradiction
    · rename_i stored _ _ _
      exact htypes stored
    · simp_all
  | _ => rfl

/-- Loads and stores are what their places in the chain say: the address is the base, and a slot is
named by exactly those that have it as their base and that stay inside it. -/
structure Placed (M : Machine) (g : Graph) : Prop where
  access : ∀ {x node effect}, g.get? x = some node → node.op.isMemoryAccess = true →
    g.memory[x]? = some effect → ∃ base ty, node.inputs[0]? = some base ∧
      effect.target = some base ∧ g.accessed? node = some ty ∧
      ∀ s, (effect.tag = .slot s ↔ g.At base fun op _ => op = .alloca s) ∧
        (effect.tag = .slot s → ∀ offset, node.op.offset? = some offset →
          offset + M.size ty ≤ M.slotSize s)

/-- The nodes whose states of memory a node takes, along the chain and as a memory phi. -/
def takes (g : Graph) (x : NodeId) : List NodeId :=
  (g.before? x).toList ++ (g.get? x).elim [] Node.states

/-- Nodes that are part of the program take states of such nodes only. -/
def Settled (g : Graph) : Prop := ∀ x, g.isLive x = true → ∀ y ∈ g.takes x, g.isLive y = true

def Behind (g : Graph) (x z : NodeId) : Prop := ∃ y ∈ g.takes x, Chain.Leads g.before? y z

end Graph

end SeaOfNodes
