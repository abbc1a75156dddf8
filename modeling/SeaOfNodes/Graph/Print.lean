import SeaOfNodes.Graph.Reach
import SeaOfNodes.Text.Paint
import SeaOfNodes.Ty.Print

/-!
Graphs in print: one line a node, with its operation, inputs, type and edges.
-/
namespace SeaOfNodes

/-- How nodes are printed: in colour or not, under which names, and whether the span of an error,
the region of a phi and the mark of a replaced node are shown. -/
structure PrintStyle where
  coloured : Bool := false
  nameOf : NodeId → String := NodeId.slotName
  full : Bool := false

def Op.hue : Op → Hue
  | .error _ => .red
  | .start | .function _ | .branch _ | .region | .loop | .return_ | .exit => .magenta
  | .load _ | .store _ | .alloca _ | .call => .cyan
  | _ => .green

namespace PrintStyle

def opText (s : PrintStyle) (op : Op) : String :=
  let text := paint s.coloured op.hue op.display
  match op with
  | .error span =>
    if s.full then text ++ "(" ++ toString span.start ++ ".." ++ toString span.stop ++ ")" else text
  | _ => text

def inputsText (s : PrintStyle) (inputs : List NodeId) : String :=
  if inputs.isEmpty then "" else " [" ++ ", ".intercalate (inputs.map s.nameOf) ++ "]"

def memoryText (s : PrintStyle) (effect : MemoryEffect) : String :=
  " " ++ paint s.coloured .white "mem=" ++ s.nameOf effect.previous ++
    (effect.target.elim "" fun target => "@" ++ s.nameOf target) ++
    paint s.coloured .magenta effect.tag.display

end PrintStyle

namespace Graph

def describe (g : Graph) (s : PrintStyle) (id : NodeId) : String :=
  match g.get? id with
  | none => "stale"
  | some node =>
    s.opText node.op ++ s.inputsText node.inputs ++
      " " ++ paint s.coloured .white ":" ++ " " ++ paint s.coloured .blue node.ty.display ++
      (g.control[id]?.elim "" fun control =>
        " " ++ paint s.coloured .white "ctrl=" ++ s.nameOf control) ++
      (g.memory[id]?.elim "" s.memoryText) ++
      (if s.full then g.phiRegion[id]?.elim "" fun region => " region=" ++ s.nameOf region else "") ++
      (if id ∈ g.roots then " " ++ paint s.coloured .yellow "root" else "") ++
      (if s.full && node.replaced then " replaced" else "")

def line (g : Graph) (s : PrintStyle) (id : NodeId) : String :=
  paint s.coloured .brightRed (s.nameOf id) ++ " " ++ paint s.coloured .white "=" ++ " " ++
    g.describe s id

def dump (g : Graph) (coloured : Bool) : String :=
  "\n".intercalate (g.liveIds.map (g.line { coloured := coloured }))

/-- The lines of all nodes, replaced ones included. -/
def listing (g : Graph) : List String :=
  g.ids.map (g.line { nameOf := NodeId.name, full := true })

/-- The nodes that the roots depend on, renumbered in the order of a walk from the roots. -/
def renumbered (g : Graph) : List String :=
  let order := g.reached
  let numbers : Std.ExtTreeMap NodeId Nat := order.zipIdx.foldl (fun m p => m.insert p.1 p.2) ∅
  let nameOf (id : NodeId) : String := "$" ++ toString (numbers[id]?.getD 0)
  order.map (g.line { nameOf := nameOf, full := true })

/-- Operation and type of the nodes that the roots do not depend on, sorted. -/
def unreached (g : Graph) : List String :=
  let reached := Std.ExtTreeSet.ofList g.reached
  let rest := g.liveIds.filter fun id => !reached.contains id
  let text (id : NodeId) : String :=
    (g.get? id).elim "" fun node => node.op.display ++ " : " ++ node.ty.display
  (rest.map text).mergeSort fun a b => !(b < a)

end Graph

end SeaOfNodes
