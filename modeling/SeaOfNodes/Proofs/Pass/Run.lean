import SeaOfNodes.Pass.Optimize
import SeaOfNodes.Proofs.Graph.Chain
import SeaOfNodes.Proofs.Graph.WellFormed

/-!
What an optimization does, change by change. The relations follow the passes, without the bounds
on the numbers of steps that these have, and give every change of a run with the graphs before and
after it.
-/
namespace SeaOfNodes

namespace Graph

/-- A change of a graph: an access moves past the effect before it, or a node takes the place of
another one. -/
inductive Change where
  | lift (id : NodeId)
  | replace (old new : NodeId)

structure Event where
  before : Graph
  change : Change
  after : Graph

/-! ### Moving accesses -/

/-- `id` moves past the effect before it. -/
def Lifts (g : Graph) (id : NodeId) (g' : Graph) : Prop :=
  ∃ effect before, g.memory[id]? = some effect ∧ g.canPass id effect.previous = .ok true ∧
    g.memory[effect.previous]? = some before ∧
    g.swap id effect.previous before.previous = .ok g'

/-- The changes of moving one access up as far as it goes. -/
inductive ClimbMakes (id : NodeId) : Graph → Event → Prop where
  | here {g g' : Graph} : g.Lifts id g' → ClimbMakes id g ⟨g, .lift id, g'⟩
  | later {g g' : Graph} {e : Event} : g.Lifts id g' → ClimbMakes id g' e → ClimbMakes id g e

/-- The changes of moving the accesses of a list. -/
inductive ClimbAllMakes : List NodeId → Graph → Event → Prop where
  | here {id : NodeId} {ids : List NodeId} {g : Graph} {e : Event} :
    ClimbMakes id g e → ClimbAllMakes (id :: ids) g e
  | later {id : NodeId} {ids : List NodeId} {g g' : Graph} {e : Event} {steps : Nat} :
    climb id (g.slots.size + 1) g = .ok (steps, g') → ClimbAllMakes ids g' e →
      ClimbAllMakes (id :: ids) g e

/-! ### Simplifying nodes -/

/-- The changes of replacing phis by their cases at one predecessor. -/
inductive SelectMakes (position : Nat) : List NodeId → Graph → Event → Prop where
  | here {phi case : NodeId} {phis : List NodeId} {g g' : Graph} :
    g.caseAt phi position = .ok case → g.replace phi case = .ok g' →
      SelectMakes position (phi :: phis) g ⟨g, .replace phi case, g'⟩
  | later {phi case : NodeId} {phis : List NodeId} {g g' : Graph} {e : Event} :
    g.caseAt phi position = .ok case → g.replace phi case = .ok g' →
      SelectMakes position phis g' e → SelectMakes position (phi :: phis) g e

/-- The changes of trying to fold a node, before anything takes its place: a region with one
predecessor selects the cases of its phis. -/
inductive FoldMakes (id : NodeId) : Fold → Graph → Event → Prop where
  | region {g : Graph} {node : Node} {only : Nat} {phis : List NodeId} {e : Event} :
    g.get? id = some node → node.op.isMerge = true → g.livePositions 0 node.inputs = .ok [only] →
      g.phisOf id = .ok phis → SelectMakes only phis g e → FoldMakes id .control g e

/-- The changes of trying folds on a node until one finds another node. -/
inductive TryMakes (id : NodeId) : List Fold → Graph → Event → Prop where
  | fold {fold : Fold} {folds : List Fold} {g : Graph} {e : Event} :
    FoldMakes id fold g e → TryMakes id (fold :: folds) g e
  | replace {fold : Fold} {folds : List Fold} {g g₁ g₂ : Graph} {new : NodeId} :
    fold.run g id = .ok (some new, g₁) → ¬ (new = id ∨ g₁.isLive id = false) →
      g₁.replace id new = .ok g₂ → TryMakes id (fold :: folds) g ⟨g₁, .replace id new, g₂⟩
  | next {fold : Fold} {folds : List Fold} {g g₁ : Graph} {found : Option NodeId} {e : Event} :
    fold.run g id = .ok (found, g₁) → (∀ new, found = some new → new = id ∨ g₁.isLive id = false) →
      TryMakes id folds g₁ e → TryMakes id (fold :: folds) g e

/-- The folds that look at an operation. -/
def foldsFor (op : Op) : List Fold := Fold.all.filter fun fold => fold.targets.contains op.kind

/-- The nodes that are looked at again when `new` took the place of another one. -/
def lookAgain (g : Graph) (new : NodeId) (queued : Std.ExtTreeSet NodeId) :
    Except Fault (List NodeId) := do
  let again := ((← g.users new).map User.node ++ [new]).eraseDups
  return again.filter fun id => !queued.contains id

/-- The changes of simplifying the nodes of a worklist. -/
inductive QueueMakes : List NodeId → Std.ExtTreeSet NodeId → Graph → Event → Prop where
  | here {id : NodeId} {queue : List NodeId} {queued : Std.ExtTreeSet NodeId} {g : Graph}
      {node : Node} {e : Event} :
    g.isLive id = true → g.get? id = some node → TryMakes id (foldsFor node.op) g e →
      QueueMakes (id :: queue) queued g e
  | skip {id : NodeId} {queue : List NodeId} {queued : Std.ExtTreeSet NodeId} {g : Graph}
      {e : Event} :
    g.isLive id = false → QueueMakes queue (queued.erase id) g e → QueueMakes (id :: queue) queued g e
  | kept {id : NodeId} {queue : List NodeId} {queued : Std.ExtTreeSet NodeId} {g g' : Graph}
      {e : Event} :
    g.isLive id = true → g.simplify id = .ok (none, g') → QueueMakes queue (queued.erase id) g' e →
      QueueMakes (id :: queue) queued g e
  | replaced {id new : NodeId} {queue fresh : List NodeId} {queued : Std.ExtTreeSet NodeId}
      {g g' : Graph} {e : Event} :
    g.isLive id = true → g.simplify id = .ok (some new, g') →
      g'.lookAgain new (queued.erase id) = .ok fresh →
      QueueMakes (queue ++ fresh) ((queued.erase id).insertMany fresh) g' e →
      QueueMakes (id :: queue) queued g e

/-! ### Whole optimizations -/

def reorderIf (options : OptimizeOptions) (g : Graph) : Except Fault (Nat × Graph) :=
  if options.reorder then g.reorderMemory else pure (0, g)

def simplifyIf (options : OptimizeOptions) (g : Graph) : Except Fault (Nat × Graph) :=
  if options.simplify then g.simplifyAll else pure (0, g)

/-- The changes of at most `limit` rounds. -/
inductive RoundsMake (options : OptimizeOptions) : Nat → Graph → Event → Prop where
  | reorder {limit : Nat} {g : Graph} {e : Event} :
    options.reorder = true → ClimbAllMakes (g.liveIds.filter g.isAccess) g e →
      RoundsMake options (limit + 1) g e
  | simplify {limit moved : Nat} {g g₁ : Graph} {e : Event} :
    g.reorderIf options = .ok (moved, g₁) → options.simplify = true →
      QueueMakes g₁.liveIds (.ofList g₁.liveIds) g₁ e → RoundsMake options (limit + 1) g e
  | next {limit moved simplified : Nat} {g g₁ g₂ : Graph} {e : Event} :
    g.reorderIf options = .ok (moved, g₁) → g₁.simplifyIf options = .ok (simplified, g₂) →
      ¬ (moved = 0 ∧ simplified = 0) → RoundsMake options limit g₂ e →
      RoundsMake options (limit + 1) g e

def OptimizeMakes (options : OptimizeOptions) (g : Graph) (e : Event) : Prop :=
  options.enabled = true ∧ RoundsMake options options.maxRounds g e

/-- Optimizing `g` comes by the graph `g'`, before dead code is removed. -/
def OptimizeVisits (options : OptimizeOptions) (g g' : Graph) : Prop :=
  g' = g ∨ ∃ e, OptimizeMakes options g e ∧ (g' = e.before ∨ g' = e.after)

end Graph

/-- What stops a pass: a size that is too large, a phi without a case and, if `endless` holds, a
chain without an end. -/
def PassFault (endless : Prop) : Fault → Prop
  | .tooLarge | .unevenPhi _ _ => True
  | .endlessChain => endless
  | _ => False

end SeaOfNodes
