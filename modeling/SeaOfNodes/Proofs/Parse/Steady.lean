import SeaOfNodes.Proofs.Parse.Steps

/-!
Steps that take no tokens. All that adds nodes, binds names or keeps the ends of paths leaves the
reader where it is, and the deferred statements as they are.
-/
namespace SeaOfNodes

/-- A step took no tokens. -/
structure Unread (p p' : Parser) : Prop where
  lexer : p'.lexer = p.lexer
  defers : p'.defers = p.defers

namespace Unread

variable {p p' p'' : Parser}

@[simp] theorem refl (p : Parser) : Unread p p := ⟨rfl, rfl⟩

theorem trans (h1 : Unread p p') (h2 : Unread p' p'') : Unread p p'' :=
  ⟨h2.lexer.trans h1.lexer, h2.defers.trans h1.defers⟩

theorem tokens (h : Unread p p') : p'.tokens = p.tokens := congrArg Lexer.tokens h.lexer

end Unread

@[default_instance] instance : Framing Unread where
  refl := .refl
  trans := .trans
  build _ _ := ⟨rfl, rfl⟩

@[default_instance] instance : Building Unread := inferInstance

/-- A step that takes no tokens. -/
abbrev Steady {α : Type} (m : ParseM α) : Prop := Steps Unread m

namespace ParseM

@[simp] theorem steady_setScope (s : Scope) : Steady (setScope s) :=
  .of_modify fun _ => ⟨rfl, rfl⟩

@[simp] theorem steady_follow (join : Join) : Steady (follow join) :=
  .bind (steady_setScope _) fun _ => steady_setCursor _

theorem steady_leaveLoop (phis : LoopPhis) (parent : Scope) (exits backEdges : List Arm) :
    Steady (leaveLoop phis parent exits backEdges) :=
  .bind (.build _) fun _ => .bind (.build _) fun join => steady_follow join

theorem steady_declare (name : Token) (binding : Binding) : Steady (declare name binding) := by
  refine .bind steady_scope fun s => ?_
  split
  · exact .of_modify fun _ => ⟨rfl, rfl⟩
  · exact .fail _ _

theorem steady_applySigns (tokens : List Token) (x : Operand) : Steady (applySigns tokens x) :=
  steps_applySigns (fun x => x.steps_address fun _ => .of_modify fun _ => ⟨rfl, rfl⟩) tokens x

theorem steady_assign (x : Operand) (value : NodeId) : Steady (x.assign value) :=
  x.steps_assign (fun p s _ => steady_setScope s p) value

theorem steady_bindLocal (name : Token) (ty : Ty) (value : NodeId) :
    Steady (bindLocal name ty value) :=
  steps_bindLocal steady_declare name ty value

theorem steady_openLoop : Steady openLoop := .of_modify fun _ => ⟨rfl, rfl⟩

theorem steady_closeLoop : Steady closeLoop := fun _ => ⟨rfl, rfl⟩

theorem steady_recordJump (jump : Jump) (arm : Arm) : Steady (recordJump jump arm) := by
  refine .of_modify fun p => ?_
  split
  · exact .refl p
  · exact ⟨rfl, rfl⟩

theorem steady_recordReturn (value : Option NodeId) : Steady (recordReturn value) :=
  .bind steady_cursor fun _ => .of_modify fun _ => ⟨rfl, rfl⟩

theorem steady_bindParameters (entry : NodeId) (index : Nat) (params : List (Token × Ty)) :
    Steady (bindParameters entry index params) :=
  steps_bindParameters steady_bindLocal entry index params

end ParseM

end SeaOfNodes
