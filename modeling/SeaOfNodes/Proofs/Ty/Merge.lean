import SeaOfNodes.Proofs.Ty.Assign

/-!
Merges of types where structs of one name have one list of fields. The merge need not be of the width
of its operands, so it describes fewer values than they do: the untyped 300 and an 8-bit integer give
an 8-bit integer. What it permits by its levels are the values of all that it was merged from
(`permits_inferCases`), so a merge that is constant is one value.
-/
namespace SeaOfNodes

namespace Ty

variable {a b t : Ty} {ts us vs : List Ty} {fields : String → List String}

/-- Whether nodes of a type have values that the type describes. -/
def isValued : Ty → Bool
  | .control _ | .memory | .error _ => false
  | _ => true

theorem isValued_of_kind (h : a.kind = b.kind) : a.isValued = b.isValued := by
  cases paired_of_kind h <;> rfl

theorem isValued_of_isAggregate (h : t.isAggregate = true) : t.isValued = true := by
  cases t <;> first | rfl | contradiction

theorem Scalar.isValued (h : Scalar t) : t.isValued = true := by
  cases h <;> rfl

theorem isError_of_isValued (h : t.isValued = true) : t.isError = false := by
  cases t <;> first | rfl | contradiction

theorem isValued_of_isConstant (h : t.isConstant = true) : t.isValued = true := by
  cases t <;> first | rfl | contradiction

/-! ### Merges of types with one list of fields for each name -/

theorem HasFields.members_withMembers (hfields : t.HasFields fields) (h : t.isAggregate = true)
    (hlength : ts.length = t.members.length) : (t.withMembers ts).members = ts := by
  cases t with
  | struct n ls us => exact List.take_of_length_le (hlength.trans hfields.2).le
  | array | tuple => rfl
  | _ => contradiction

/-- What two types with the same structs give together: structs like these, and the values of both. -/
structure Merges (fields : String → List String) (a b t : Ty) : Prop where
  fields : t.Throughout (HasFields fields)
  permits : ∀ x, a.Permits x ∨ b.Permits x → t.Permits x

theorem permitsAll_meet (h : ∀ t ∈ ts, ∀ u ∈ us, (t.meet u).isError = false →
      Merges fields t u (t.meet u)) (hvs : List.zipWith meet ts us = vs) (hno : vs.any isError = false)
    (hlength : ts.length = us.length) {xs : List Value} (hxs : PermitsAll ts xs ∨ PermitsAll us xs) :
    PermitsAll vs xs := by
  subst hvs
  induction ts generalizing us xs with
  | nil =>
    obtain rfl := List.length_eq_zero_iff.1 hlength.symm
    exact hxs.elim id id
  | cons t ts ih =>
    cases us with
    | nil => contradiction
    | cons u us =>
      rw [List.zipWith_cons_cons, List.any_cons, Bool.or_eq_false_iff] at hno
      cases xs with
      | nil => exact hxs.elim id id
      | cons x xs =>
        refine ⟨(h t (.head _) u (.head _) hno.1).permits x (hxs.imp And.left And.left), ?_⟩
        exact ih (fun t ht u hu => h t (.tail _ ht) u (.tail _ hu)) (Nat.succ.inj hlength)
          (hxs.imp And.right And.right) hno.2

theorem merges_meet (ha : a.Throughout (HasFields fields)) (hb : b.Throughout (HasFields fields))
    (h : (a.meet b).isError = false) : Merges fields a b (a.meet b) := by
  induction a using members_induction generalizing b with
  | h a ih =>
    have hmembers : ∀ t ∈ a.members, ∀ u ∈ b.members, (t.meet u).isError = false →
        Merges fields t u (t.meet u) :=
      fun t ht u hu => ih t ht (ha.members t ht) (hb.members u hu)
    have hall : ∀ {vs}, List.zipWith meet a.members b.members = vs → vs.any isError = false →
        ∀ v ∈ vs, v.Throughout (HasFields fields) := by
      intro vs hvs hno v hv
      obtain ⟨t, ht, u, hu, rfl, hno⟩ := mem_paired hvs hno hv
      exact (hmembers t ht u hu hno).fields
    have hscalar : ∀ {t : Ty}, t.members = [] → HasFields fields t → t.Throughout (HasFields fields) :=
      fun ht h => .mk h (by simp [ht])
    have hmet := met_meet h
    generalize a.meet b = r at hmet
    cases hmet with
    | @struct n ls ks ts us vs hvs hno =>
      obtain ⟨rfl, hts⟩ := ha.self
      obtain ⟨rfl, hus⟩ := hb.self
      have hlength : (fields n).length = vs.length := by
        rw [← hvs, List.length_zipWith, hts, hus, Nat.min_self]
      have hlabels : (fields n).take vs.length = fields n := by rw [← hlength, List.take_length]
      have htake : vs.take (fields n).length = vs := by rw [hlength, List.take_length]
      rw [hlabels, htake]
      refine ⟨.mk ⟨rfl, hlength.symm⟩ (hall hvs hno), fun x hx => ?_⟩
      cases x <;> first
        | exact permitsAll_meet hmembers hvs hno (hts.trans hus.symm) hx
        | exact hx.elim id id
    | array e f hvs hno hlength | tuple hvs hno hlength =>
      refine ⟨.mk trivial (hall hvs hno), fun x hx => ?_⟩
      cases x <;> first | exact permitsAll_meet hmembers hvs hno hlength hx | exact hx.elim id id
    | pointer l m hr =>
      refine ⟨hscalar rfl trivial, fun x hx => ?_⟩
      cases x <;> first
        | exact hx.elim id id
        | (simp only [Permits] at hx ⊢
           cases l <;> cases m <;> simp_all [describesAddress, Level.meet])
    | void | control | memory => exact ⟨hscalar rfl trivial, fun x hx => by cases x <;> exact hx.elim id id⟩
    | _ =>
      refine ⟨hscalar rfl trivial, fun x hx => ?_⟩
      cases x <;> first | exact hx.elim id id | exact Level.Describes.meet hx

theorem merges_phi (ha : a.Throughout (HasFields fields)) (hb : b.Throughout (HasFields fields))
    (h : (a.phi b).isError = false) : (a.phi b).Throughout (HasFields fields) ∧
      (a.phi b).isValued = a.isValued ∧ b.isValued = a.isValued ∧
      ∀ x, a.Permits x ∨ b.Describes x → (a.phi b).Permits x := by
  unfold phi at h ⊢
  split
  · rename_i heq
    refine ⟨ha, rfl, ?_, fun x hx => hx.elim id fun hx => ?_⟩
    · have hplain : ∀ t : Ty, t.plain.isValued = t.isValued := fun t => by cases t <;> rfl
      rw [← hplain, ← beq_iff.1 heq, hplain]
    · exact ((describes_congr (beq_iff.1 heq) x).2 hx).permits
  · rename_i hne
    rw [if_neg hne] at h
    have hmerges := merges_meet ha hb h
    obtain ⟨hkind, hkind'⟩ := kind_meet h
    exact ⟨hmerges.fields, isValued_of_kind hkind', isValued_of_kind hkind.symm, fun x hx =>
      hmerges.permits x (hx.imp_right Describes.permits)⟩

theorem isError_of_phi (h : (a.phi b).isError = false) : a.isError = false := by
  unfold phi at h
  split at h
  · exact h
  · exact Bool.eq_false_iff.2 fun ha => by simp [isError_meet_left ha] at h

theorem isError_of_inferCases (h : (inferCases (t :: ts)).isError = false) : t.isError = false := by
  induction ts generalizing t with
  | nil => exact h
  | cons u ts ih => exact isError_of_phi (ih h)

/-- A phi of types with one list of fields for each name permits the values of all its cases. -/
theorem permits_inferCases (h : ∀ u ∈ t :: ts, u.Throughout (HasFields fields))
    (hno : (inferCases (t :: ts)).isError = false) {x : Value}
    (hx : (t.isValued = true → t.Permits x) ∨ ∃ u ∈ ts, u.isValued = true → u.Describes x)
    (hvalued : (inferCases (t :: ts)).isValued = true) : (inferCases (t :: ts)).Permits x := by
  induction ts generalizing t with
  | nil => exact hx.resolve_right (by simp) hvalued
  | cons u ts ih =>
    rw [List.forall_mem_cons, List.forall_mem_cons] at h
    obtain ⟨ht, hu, hts⟩ := h
    obtain ⟨hfields, hphi, hsame, hpermits⟩ :=
      merges_phi ht hu (isError_of_inferCases (t := t.phi u) hno)
    refine ih (t := t.phi u) (List.forall_mem_cons.2 ⟨hfields, hts⟩) hno ?_ hvalued
    rcases hx with hx | ⟨v, hv, hx⟩
    · exact .inl fun h => hpermits x (.inl (hx (hphi ▸ h)))
    · rcases List.mem_cons.1 hv with rfl | hv
      · exact .inl fun h => hpermits x (.inr (hx (hsame.trans (hphi ▸ h))))
      · exact .inr ⟨v, hv, hx⟩

end Ty
end SeaOfNodes
