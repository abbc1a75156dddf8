import SeaOfNodes.Proofs.Parse.Steps
import SeaOfNodes.Proofs.Scope.Basic

/-!
Types that programs write. What holds of the types in scope and is kept by the grammar (`Ty.Grammar`)
holds of every type that is read and of every struct that is declared.
-/
namespace SeaOfNodes

/-- A property of types that the grammar keeps. -/
structure Ty.Grammar (D : Ty → Prop) : Prop where
  void : D .void
  primitive {p : Primitive} : p.isUntyped = false → D (.ofPrimitive p)
  pointerTo {d : Ty} : D d → D (.pointerTo d)
  arrayOf {e d : Ty} {n : Nat} : D e → e.arrayOf? n = some d → D d
  struct {n : String} {ls : List String} {ds : List Ty} : (∀ d ∈ ds, D d) →
    (Ty.struct n ls ds).scalarCount ≤ Ty.maxScalars → ls.length = ds.length → D (.struct n ls ds)
  tuple {ds : List Ty} : (∀ d ∈ ds, D d) → (Ty.tuple ds).scalarCount ≤ Ty.maxScalars → D (.tuple ds)
  function {ps : List Ty} {r : Ty} : (∀ p ∈ ps, D p) → D r → D (.function ps r .bottom)

/-- All names of types stand for what `D` holds of. -/
abbrev Scope.Types (D : Ty → Prop) (s : Scope) : Prop := s.All fun x => ∀ ty, x = .type ty → D ty

/-- A step that only reads, and gives what `Q` holds of when `D` holds of the types in scope. -/
def Writes {α : Type} (D : Ty → Prop) (m : ParseM α) (Q : α → Prop) : Prop :=
  ∀ p, p.scope.Types D → Ensures p m fun a p' => OnlyReads p p' ∧ Q a

namespace Writes

variable {α β σ : Type} {D : Ty → Prop} {m m' : ParseM α} {f : α → ParseM β} {Q : α → Prop}
  {Q' : β → Prop}

theorem pure {a : α} (h : Q a) : Writes D (Pure.pure a) Q := fun _ _ => .pure ⟨rfl, h⟩

theorem fail (cause : Cause) (span : Span) : Writes D (ParseM.fail cause span : ParseM α) Q :=
  fun _ _ => .fail

theorem bind (hm : Writes D m Q) (hf : ∀ a, Q a → Writes D (f a) Q') : Writes D (m >>= f) Q' := by
  intro p hp
  refine (hm p hp).bind ?_
  rintro a p1 ⟨h1, ha⟩
  have hp1 : p1.scope.Types D := by
    rw [h1]
    exact hp
  exact (hf a ha p1 hp1).imp fun _ _ h2 => ⟨Taking.toChain.trans h1 h2.1, h2.2⟩

theorem reads (hm : ParseM.Reads m) (hf : ∀ a, Writes D (f a) Q') : Writes D (m >>= f) Q' :=
  .bind (fun p _ => (hm p).imp fun _ _ h => ⟨h, trivial⟩) fun a _ => hf a

theorem ite {c : Prop} [Decidable c] (hm : c → Writes D m Q) (hm' : ¬ c → Writes D m' Q) :
    Writes D (if c then m else m') Q := by
  split
  · exact hm ‹_›
  · exact hm' ‹_›

theorem branch {c : Prop} [Decidable c] (hm : Writes D m Q) (hm' : Writes D m' Q)
    (hf : ∀ a, Q a → Writes D (f a) Q') : Writes D (if c then m >>= f else m' >>= f) Q' :=
  .ite (fun _ => .bind hm hf) fun _ => .bind hm' hf

theorem skip {c : Prop} [Decidable c] {m : ParseM PUnit} {f : PUnit → ParseM β}
    (hm : ParseM.Reads m) (hf : ∀ u, Writes D (f u) Q') : Writes D (if c then m >>= f else f ⟨⟩) Q' :=
  .ite (fun _ => .reads hm hf) fun _ => hf _

theorem loop {step : σ → ParseM (σ ⊕ α)} (I : σ → Prop) {s : σ}
    (hstep : ∀ s, I s → Writes D (step s) fun r => r.elim I Q) (hs : I s) :
    Writes D (ParseM.loop step s) Q := by
  refine .reads ParseM.steady_remaining fun fuel => ?_
  generalize fuel + 1 = fuel
  induction fuel generalizing s with
  | zero => exact fun _ _ => trivial
  | succ fuel ih =>
    refine .bind (hstep s hs) ?_
    rintro (s | a) h
    · exact ih h
    · exact .pure h

end Writes

namespace ParseM

variable {α : Type} {D : Ty → Prop} {Q : α → Prop}

theorem writes_separated {item : ParseM α} (h : Writes D item Q) :
    Writes D (separated item) fun items => ∀ a ∈ items, Q a := by
  refine .loop (fun items => ∀ a ∈ items, Q a) (fun items hitems => ?_) (by simp)
  refine .bind h fun item hitem => .reads (reads_accept _) fun comma => ?_
  have hall : ∀ a ∈ items ++ [item], Q a :=
    List.forall_mem_append.2 ⟨hitems, List.forall_mem_singleton.2 hitem⟩
  exact .ite (fun _ => .pure hall) fun _ => .pure hall

theorem isUntyped_of_name {name : String} {p : Primitive} (h : Primitive.ofName? name = some p) :
    p.isUntyped = false := by
  have hp := List.find?_some h
  simp only [Bool.and_eq_true, Bool.not_eq_true'] at hp
  exact hp.1

theorem writes_bounded {ty : Ty} (span : Span) (h : ty.scalarCount ≤ Ty.maxScalars → D ty) :
    Writes D (bounded ty span) D :=
  .ite (fun _ => .fail _ _) fun hle => .pure (h (Nat.le_of_not_lt hle))

variable (hD : Ty.Grammar D)
include hD

theorem writes_arrayType {element : Ty} (length : Nat) (span : Span) (h : D element) :
    Writes D (arrayType element length span) D := by
  unfold arrayType
  split
  · exact .pure (hD.arrayOf h ‹_›)
  · exact .fail _ _

theorem writes_namedType (name : Token) : Writes D (namedType name) D := by
  unfold namedType
  split
  · exact .pure (hD.primitive (isUntyped_of_name ‹_›))
  · intro p hp
    refine Ensures.step rfl ?_
    split
    · exact .pure ⟨rfl, hp.lookup ‹_› _ rfl⟩
    · exact .fail

section

variable {inner : ParseM Ty} (h : Writes D inner D)
include h

theorem writes_tupleType (span : Span) : Writes D (tupleType inner span) D := by
  refine .bind (writes_separated h) fun members hmembers => .reads (reads_expect _) fun _ => ?_
  split
  · exact .pure (hmembers _ (.head _))
  · exact writes_bounded span (hD.tuple hmembers)

theorem writes_functionType : Writes D (functionType inner) D := by
  refine .reads (reads_expect _) fun _ => .reads (reads_isNext _) fun empty => ?_
  refine .branch (.pure (by simp)) (writes_separated h) fun params hparams => ?_
  refine .reads (reads_expect _) fun _ => .reads reads_peek? fun token => ?_
  exact .branch h (.pure hD.void) fun result hresult => .pure (hD.function hparams hresult)

theorem writes_typeWith : Writes D (typeWith inner) D := by
  refine .reads (reads_next _) fun token => ?_
  split
  · exact .bind h fun _ hty => .pure (hD.pointerTo hty)
  · refine .reads reads_arrayLength fun length => ?_
    exact .bind h fun element helement => writes_arrayType hD _ _ helement
  · exact writes_tupleType hD h _
  · exact writes_functionType hD h
  · exact writes_namedType hD _
  · exact .fail _ _

end

theorem writes_type : Writes D type D := by
  refine .reads steady_remaining fun fuel => ?_
  generalize fuel + 1 = fuel
  induction fuel with
  | zero => exact fun _ _ => trivial
  | succ fuel ih => exact writes_typeWith hD ih

omit hD in
def structType : ParseM (Token × Ty) := do
  let name ← identifier
  let _ ← expect (.keyword .struct)
  let _ ← expect .openBrace
  let fields ← loop fieldTurn []
  let ty := .struct name.text (fields.map fun field => field.1.text) (fields.map Prod.snd)
  return (name, ← bounded ty name.span)

omit hD in
theorem structDeclaration_eq :
    structDeclaration = structType >>= fun x => declare x.1 (.type x.2) := by
  simp [structDeclaration, structType]

theorem writes_fieldTurn {fields : List (Token × Ty)} (hfields : ∀ field ∈ fields, D field.2) :
    Writes D (fieldTurn fields) fun r =>
      r.elim (fun fields => ∀ field ∈ fields, D field.2) fun fields => ∀ field ∈ fields, D field.2 := by
  refine .reads (reads_accept _) fun close => .ite (fun _ => .pure hfields) fun _ => ?_
  refine .reads reads_identifier fun field => .bind (writes_type hD) fun ty hty => ?_
  have hall : ∀ other ∈ fields ++ [(field, ty)], D other.2 :=
    List.forall_mem_append.2 ⟨hfields, List.forall_mem_singleton.2 hty⟩
  exact .reads (reads_expect _) fun _ => .skip (.fail _ _) fun _ => .pure hall

theorem writes_structType : Writes D structType fun x => D x.2 := by
  refine .reads reads_identifier fun name => .reads (reads_expect _) fun _ => ?_
  refine .reads (reads_expect _) fun _ => .bind (.loop _ (fun _ => writes_fieldTurn hD) ?_)
    fun fields hfields => ?_
  · simp
  · have hall := List.forall_mem_map.2 hfields
    refine .bind (writes_bounded name.span fun hle => hD.struct hall hle (by simp)) fun ty hty => ?_
    exact .pure hty

end ParseM

end SeaOfNodes
