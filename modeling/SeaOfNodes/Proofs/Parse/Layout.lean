import SeaOfNodes.Proofs.Parse.Written
import SeaOfNodes.Proofs.Ty.Layout

/-!
The layouts of the types that a program can name. They are computed without a bound being met, and
no two scalars of a value overlap (`Ty.Accepted.layout_exact`).
-/
namespace SeaOfNodes.Ty

/-- The types that programs write or declare, where the names of types in scope stand for such types
already. -/
inductive Accepted : Ty → Prop where
  | type {p p' : Parser} {ty : Ty} : (∀ d n t, p.scope.Binds d n (.type t) → Accepted t) →
    ParseM.type p = .ok ty p' → Accepted ty
  | declared {p p' : Parser} {d : Nat} {n : String} {ty : Ty} :
    (∀ d n t, p.scope.Binds d n (.type t) → Accepted t) → ParseM.structDeclaration p = .ok () p' →
    p'.scope.Binds d n (.type ty) → Accepted ty

theorem grammar_sized : Grammar Sized where
  void := .scalar rfl rfl
  primitive {p} _ := .scalar (by cases p <;> rfl) (by cases p <;> rfl)
  pointerTo _ := .scalar rfl rfl
  arrayOf he h := by
    unfold arrayOf? at h
    split at h
    · contradiction
    · cases h
      exact .array he (Nat.le_of_not_lt ‹_›)
  struct := .struct
  tuple := .tuple
  function _ _ := .scalar rfl rfl

theorem Accepted.sized {t : Ty} (h : t.Accepted) : t.Sized := by
  induction h with
  | @type p p' ty _ hrun ih =>
    have htypes : p.scope.Types Sized := fun d n x hx ty hty => ih d n ty (hty ▸ hx)
    exact ((ParseM.writes_type grammar_sized p htypes).result hrun).2
  | @declared p p' d n ty _ hrun hbinds ih =>
    have htypes : p.scope.Types Sized := fun d n x hx ty hty => ih d n ty (hty ▸ hx)
    have hbehind :
        Ensures p ParseM.structDeclaration fun _ p' => p'.scope.Types Sized := by
      rw [ParseM.structDeclaration_eq]
      refine (ParseM.writes_structType grammar_sized p htypes).bind ?_
      rintro x p1 ⟨h1, hx⟩
      have htypes1 : p1.scope.Types Sized := by
        rw [h1]
        exact htypes
      refine Ensures.step rfl ?_
      split
      · exact .of_modify (htypes1.declare? (fun ty hty => Binding.type.inj hty ▸ hx) ‹_›)
      · exact .fail
    exact hbehind.result hrun d n _ hbinds ty rfl

/-- Layouts are what they are without a bound on sizes and offsets, at most 16 bytes for each
scalar. Members are aligned, and the scalars of a value lie one behind the other within its size. -/
theorem Accepted.layout_exact {t : Ty} (h : t.Accepted) :
    t.scalarCount ≤ 2 ^ 16 ∧ t.layout? = some t.exactLayout ∧
    t.memberOffsets? = some t.exactOffsets ∧
    t.exactOffsets.length = t.members.length ∧
    t.exactLayout.size ≤ 16 * t.scalarCount ∧ t.exactLayout.align ∣ t.exactLayout.size ∧
    (∀ x ∈ t.exactOffsets.zip t.members, x.2.layout? = some x.2.exactLayout ∧
      0 < x.2.exactLayout.align ∧ x.2.exactLayout.align ∣ x.1) ∧
    (t.spots 0).length = t.scalarCount ∧
    (∀ x ∈ t.spots 0, x.2.isAggregate = false ∧ x.2.layout? = some x.2.exactLayout ∧
      x.1 + x.2.exactLayout.size ≤ t.exactLayout.size) ∧
    (t.spots 0).Pairwise fun x y => x.1 + x.2.exactLayout.size ≤ y.1 := by
  have hsized := h.sized
  have hlaid := hsized.laidOut
  have hspread := hsized.spread_spots 0
  refine ⟨hlaid.count, hlaid.layout, hlaid.offsets, hlaid.length, ?_, hlaid.tight.size, ?_,
    hsized.length_spots 0, ?_, hspread.pairwise⟩
  · exact (Layout.le_roundUp _ (by decide)).trans hlaid.tight.bytes
  · intro x hx
    have hmember := (hsized.members (List.of_mem_zip hx).2).laidOut
    exact ⟨hmember.layout, hmember.tight.pos, hlaid.aligned x hx⟩
  · intro x hx
    have hscalar := hsized.isAggregate_of_mem 0 x hx
    refine ⟨hscalar, (laidOut_scalar hscalar).layout, ?_⟩
    have hend := (hspread.bounds.2 x hx).2
    rwa [Nat.zero_add] at hend

/-- An array of two tuples, with room behind the byte in each of them. -/
def pairsParser : Parser := { lexer := .ofString "[2](u8, i64)", size := 12, promote := false }

theorem layout_exact_pairs : ∃ t : Ty, t.Accepted ∧ t.scalarCount = 4 ∧ (t.spots 0).length = 4 ∧
    (t.spots 0).Pairwise fun x y => x.1 + x.2.exactLayout.size ≤ y.1 := by
  have htest : (match ParseM.type pairsParser with
      | .ok t _ => t.scalarCount == 4
      | _ => false) = true := by decide +kernel
  split at htest
  · rename_i t p' hrun
    have haccepted : t.Accepted := .type (fun _ _ _ hb => absurd hb Scope.not_binds_initial) hrun
    have hcount := beq_iff_eq.1 htest
    obtain ⟨-, -, -, -, -, -, -, hlength, -, hpairwise⟩ := haccepted.layout_exact
    exact ⟨t, haccepted, hcount, hlength.trans hcount, hpairwise⟩
  · contradiction

end SeaOfNodes.Ty
