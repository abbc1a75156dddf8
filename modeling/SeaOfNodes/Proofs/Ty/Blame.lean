import SeaOfNodes.Build.Request
import SeaOfNodes.Proofs.Build.Coerce

/-!
The errors in types. A graph numbers the errors that enter it, and an operation of the lattice never
makes up a number: whatever error it gives is a new one or stands in one of its operands
(`below_infer`).
-/
namespace SeaOfNodes

namespace Ty

variable {a b d t : Ty} {ts us vs : List Ty} {m n : Nat} {e : Blame}

/-- The errors in a type have numbers below `n`, or none yet. -/
inductive Below (n : Nat) : Ty → Prop where
  | mk {t : Ty} : (∀ e k, t = .error e → e.origin = some k → k < n) →
    (∀ u ∈ t.parts, Below n u) → Below n t

namespace Below

theorem parts (h : t.Below n) : ∀ u ∈ t.parts, u.Below n := by
  cases h
  assumption

theorem members (h : t.Below n) : ∀ u ∈ t.members, u.Below n := fun u hu =>
  h.parts u (mem_parts_of_mem_members hu)

theorem origin (h : (error e).Below n) : ∀ k, e.origin = some k → k < n := by
  cases h with
  | mk h _ => exact fun k hk => h e k rfl hk

theorem of_origin (h : ∀ k, e.origin = some k → k < n) : (error e).Below n :=
  .mk (fun _ k he hk => h k (error.inj he ▸ hk)) nofun

theorem of_parts (hno : t.isError = false) (h : ∀ u ∈ t.parts, u.Below n) : t.Below n :=
  .mk (fun e _ he _ => by rw [he] at hno; contradiction) h

theorem mono (hmn : m ≤ n) (h : t.Below m) : t.Below n := by
  induction h with
  | mk h _ ih => exact .mk (fun e k he hk => Nat.lt_of_lt_of_le (h e k he hk) hmn) ih

end Below

def isNew : Ty → Bool
  | .error e => e.origin.isNone
  | t => t.parts.isEmpty

theorem below_of_isNew (h : t.isNew = true) : t.Below n := by
  unfold isNew at h
  split at h
  · exact .of_origin fun k hk => by rw [hk] at h; contradiction
  · rename_i hno
    have hnone : ∀ u ∈ t.parts, u.Below n := by simp [List.isEmpty_iff.1 h]
    exact .mk (fun e _ he _ => absurd he (hno e)) hnone

theorem below_of_isErrorFree (h : t.isErrorFree = true) : t.Below n := by
  induction t using parts_induction with
  | h t ih =>
    refine .mk (fun e k ht _ => by rw [ht] at h; contradiction) fun u hu => ih u hu ?_
    cases t <;> simp only [parts, List.mem_cons, List.not_mem_nil, or_false, isErrorFree,
      Bool.and_eq_true, allErrorFree_iff] at hu h
    case pointer => exact hu ▸ h
    case struct => exact h.2 u hu
    case tuple => exact h u hu
    case array => exact hu.elim (fun heq => heq ▸ h.1) (h.2 u)
    case function => exact hu.elim (fun heq => heq ▸ h.2) (h.1 u)

/-! ### Operators and conversions -/

theorem isNew_intResult (op : BinaryOp) (w : IntWidth) (l k : Level Int) :
    (intResult op w l k).isNew = true := by
  unfold intResult
  repeat' split
  all_goals rfl

theorem isNew_binaryOf (op : BinaryOp) (a b : Ty) : (binaryOf op a b).isNew = true := by
  unfold binaryOf intBinary floatBinary boolBinary stringBinary
  repeat' split
  all_goals first | exact isNew_intResult .. | rfl

theorem isNew_compareOf (op : CompareOp) (a b : Ty) : (compareOf op a b).isNew = true := by
  unfold compareOf pointerCompare intCompare floatCompare
  repeat' split
  all_goals rfl

theorem isNew_castScalar (t target : Ty) : (castScalar t target).isNew = true := by
  unfold castScalar
  split <;> rfl

theorem Below.binary (ha : a.Below n) (op : BinaryOp) (hb : b.Below n) :
    (Ty.binary op a b).Below n := by
  unfold Ty.binary
  split
  · exact ha
  · exact hb
  · exact below_of_isNew (isNew_binaryOf ..)

theorem Below.compare (ha : a.Below n) (op : CompareOp) (hb : b.Below n) :
    (Ty.compare op a b).Below n := by
  unfold Ty.compare
  split
  · exact ha
  · exact hb
  · exact below_of_isNew (isNew_compareOf ..)

theorem Below.unary (ht : t.Below n) (op : UnaryOp) : (t.unary op).Below n := by
  unfold Ty.unary intUnary boolUnary
  repeat' split
  all_goals first | exact ht | exact below_of_isNew rfl

theorem Below.cast (ht : t.Below n) (hd : d.Below n) : (t.cast d).Below n := by
  unfold Ty.cast
  repeat' split
  all_goals first
    | exact ht
    | exact hd
    | exact .of_parts rfl hd.parts
    | exact below_of_isNew (isNew_castScalar ..)
    | exact below_of_isNew rfl

/-! ### Members in pairs -/

theorem below_paired {f : Ty → Ty → Ty} {result : Except Blame (List Ty)}
    (hresult : result = match firstError? (List.zipWith f ts us) with
      | some e => .error e
      | none => .ok (List.zipWith f ts us))
    (h : ∀ t ∈ ts, ∀ u ∈ us, (f t u).Below n) :
    (∀ e, result = .error e → (error e).Below n) ∧ ∀ vs, result = .ok vs → ∀ v ∈ vs, v.Below n := by
  have hall : ∀ v ∈ List.zipWith f ts us, v.Below n := by
    intro v hv
    rw [← List.map_uncurry_zip_eq_zipWith] at hv
    obtain ⟨⟨t, u⟩, hzip, rfl⟩ := List.mem_map.1 hv
    exact h t (List.of_mem_zip hzip).1 u (List.of_mem_zip hzip).2
  split at hresult
  · rename_i e he
    subst hresult
    refine ⟨fun e' he' => ?_, nofun⟩
    cases he'
    exact hall _ (mem_of_firstError? he)
  · subst hresult
    refine ⟨nofun, fun vs hvs => ?_⟩
    cases hvs
    exact hall

theorem Below.leastBlame {e' : Blame} (h : (error e).Below n) (h' : (error e').Below n) :
    (error (Ty.leastBlame e e')).Below n := by
  unfold Ty.leastBlame
  split
  · exact h'
  · exact h

theorem Below.meet (ha : a.Below n) (hb : b.Below n) : (a.meet b).Below n := by
  induction a using members_induction generalizing b with
  | h a ih =>
    obtain ⟨herror, hok⟩ := below_paired (meets_eq a.members b.members) fun t ht u hu =>
      ih t ht (ha.members t ht) (hb.members u hu)
    revert ha hb herror hok
    fun_cases meet a b <;> intro ha hb herror hok
    all_goals first
      | exact below_of_isNew rfl
      | exact ha
      | exact hb
      | exact ha.leastBlame hb
      | exact herror _ ‹_›
      | exact .of_parts rfl ha.parts
      | exact .of_parts rfl (hok _ ‹_›)
      | exact .of_parts rfl fun v hv => hok _ ‹_› v (List.mem_of_mem_take hv)
      | exact .of_parts rfl (List.forall_mem_cons.2 ⟨ha.parts _ (.head _), hok _ ‹_›⟩)
      | skip
    unfold meetPointer
    repeat' split
    all_goals first
      | exact .of_parts rfl hb.parts
      | exact .of_parts rfl ha.parts
      | exact below_of_isNew rfl

theorem Below.assignTo (ha : a.Below n) (hd : d.Below n) : (a.assignTo d).Below n := by
  induction a using members_induction generalizing d with
  | h a ih =>
    obtain ⟨herror, hok⟩ := below_paired (assigns_eq a.members d.members) fun t ht u hu =>
      ih t ht (ha.members t ht) (hd.members u hu)
    revert ha hd herror hok
    fun_cases assignTo a d <;> intro ha hd herror hok
    all_goals first
      | exact below_of_isNew rfl
      | exact ha
      | exact hd
      | exact herror _ ‹_›
      | exact .of_parts rfl hd.parts
      | exact .of_parts rfl (hok _ ‹_›)
      | exact .of_parts rfl fun v hv => hok _ ‹_› v (List.mem_of_mem_take hv)
      | exact .of_parts rfl (List.forall_mem_cons.2 ⟨hd.parts _ (.head _), hok _ ‹_›⟩)
      | skip
    unfold assignInt
    repeat' split
    all_goals exact below_of_isNew rfl

theorem Below.phi (ha : a.Below n) (hb : b.Below n) : (a.phi b).Below n := by
  unfold Ty.phi
  split
  · exact ha
  · exact ha.meet hb

/-! ### Types from declared types -/

theorem Below.bottom (ht : t.Below n) : t.bottom.Below n := by
  induction t using members_induction with
  | h t ih =>
    have hmembers : ∀ u ∈ withLevels true t.members, u.Below n := by
      rw [withLevels_eq_map]
      intro u hu
      obtain ⟨m, hm, rfl⟩ := List.mem_map.1 hu
      exact ih m hm (ht.members m hm)
    cases t with
    | struct | tuple => exact .of_parts rfl hmembers
    | array e ts =>
      exact .of_parts rfl (List.forall_mem_cons.2 ⟨ht.parts e (.head _), hmembers⟩)
    | pointer | function => exact .of_parts rfl ht.parts
    | error => exact ht
    | _ => exact below_of_isNew rfl

theorem Below.element (ht : t.Below n) (i : Nat) : (t.element i).Below n := by
  unfold Ty.element
  split
  · exact ht
  · split
    · exact ht.members _ (List.mem_of_getElem? ‹_›)
    · split <;> exact below_of_isNew rfl

theorem Below.withMembers (ht : t.Below n) (hts : ∀ u ∈ ts, u.Below n) :
    (t.withMembers ts).Below n := by
  cases t with
  | struct => exact .of_parts rfl fun u hu => hts u (List.mem_of_mem_take hu)
  | array e us => exact .of_parts rfl (List.forall_mem_cons.2 ⟨ht.parts e (.head _), hts⟩)
  | tuple => exact .of_parts rfl hts
  | _ => exact ht

/-! ### Numbers from a graph -/

mutual

/-- A type that enters a graph gets numbers for its new errors, and the graph has counted them. -/
theorem below_stamp : ∀ {n : Nat} {t : Ty}, t.Below n →
    n ≤ (t.stamp n).2 ∧ (t.stamp n).1.Below (t.stamp n).2
  | n, .error ⟨message, none⟩, _ => by
    refine ⟨Nat.le_succ n, .of_origin fun k hk => ?_⟩
    cases hk
    exact Nat.lt_succ_self n
  | n, .error ⟨_, some _⟩, h => ⟨Nat.le_refl n, h⟩
  | _, .pointer p l, h => by
    obtain ⟨hle, hp⟩ := below_stamp (h.parts p (.head _))
    exact ⟨hle, .of_parts rfl (List.forall_mem_singleton.2 hp)⟩
  | _, .struct _ _ ts, h => by
    obtain ⟨hle, hts⟩ := below_stamps fun t (ht : t ∈ ts) => h.parts t ht
    exact ⟨hle, .of_parts rfl hts⟩
  | _, .tuple ts, h => by
    obtain ⟨hle, hts⟩ := below_stamps fun t (ht : t ∈ ts) => h.parts t ht
    exact ⟨hle, .of_parts rfl hts⟩
  | _, .array e ts, h => by
    obtain ⟨hle, he⟩ := below_stamp (h.parts e (.head _))
    obtain ⟨hle', hts⟩ := below_stamps fun t (ht : t ∈ ts) => (h.parts t (.tail _ ht)).mono hle
    exact ⟨Nat.le_trans hle hle', .of_parts rfl (List.forall_mem_cons.2 ⟨he.mono hle', hts⟩)⟩
  | _, .function ps r _, h => by
    obtain ⟨hle, hps⟩ := below_stamps fun t (ht : t ∈ ps) => h.parts t (.tail _ ht)
    obtain ⟨hle', hr⟩ := below_stamp ((h.parts r (.head _)).mono hle)
    have hps := fun t ht => (hps t ht).mono hle'
    exact ⟨Nat.le_trans hle hle', .of_parts rfl (List.forall_mem_cons.2 ⟨hr, hps⟩)⟩
  | n, .int .., h | n, .float .., h | n, .bool _, h | n, .rune _, h | n, .string _, h
  | n, .void, h | n, .control _, h | n, .memory, h => ⟨Nat.le_refl n, h⟩

theorem below_stamps : ∀ {n : Nat} {ts : List Ty}, (∀ t ∈ ts, t.Below n) →
    n ≤ (stamps n ts).2 ∧ ∀ t ∈ (stamps n ts).1, t.Below (stamps n ts).2
  | n, [], _ => ⟨Nat.le_refl n, nofun⟩
  | _, t :: ts, h => by
    obtain ⟨hle, ht⟩ := below_stamp (h t (.head _))
    obtain ⟨hle', hts⟩ := below_stamps fun u (hu : u ∈ ts) => (h u (.tail _ hu)).mono hle
    exact ⟨Nat.le_trans hle hle', List.forall_mem_cons.2 ⟨ht.mono hle', hts⟩⟩

end

end Ty

/-! ### Requests -/

namespace Request

def types : Request → List Ty
  | .constant ty | .cast _ ty | .coerce _ ty | .build ty _ | .alloca ty | .load _ _ ty
  | .addressOf _ _ ty | .phi _ _ (.loop ty) | .function _ ty => [ty]
  | _ => []

end Request

open SeaOfNodes.Graph

variable {g : Graph} {n : Nat} {t : Ty}

section

variable (hg : ∀ {id node}, g.get? id = some node → node.ty.Below n)
include hg

theorem below_ty (id : NodeId) : Yields AnyFault (g.ty id) (·.Below n) := by
  unfold ty
  split
  · exact hg ‹_›
  · exact trivial

theorem below_mapM_ty (ids : List NodeId) :
    Yields AnyFault (ids.mapM g.ty) fun ts => ∀ t ∈ ts, t.Below n := by
  cases hts : ids.mapM g.ty with
  | error f => exact trivial
  | ok ts =>
    intro t ht
    obtain ⟨x, -, node, hn, rfl⟩ := (Typed.of_mapM hts).mem ht
    exact hg hn

theorem below_addressError? (base : NodeId) (ht : t.Below n) :
    Yields AnyFault (addressError? g base) fun error? => (error?.getD t).Below n := by
  refine (below_ty hg base).bind fun ty hty => ?_
  split
  · exact .pure ht
  · exact .pure hty
  · exact .pure (Ty.below_of_isNew rfl)

theorem below_firstErrorOf? (ids : List NodeId) : Yields AnyFault (firstErrorOf? g ids) fun first? =>
    ∀ e, first? = some e → (Ty.error e).Below n := by
  induction ids with
  | nil => exact .ok (by simp)
  | cons id ids ih =>
    refine (below_ty hg id).bind fun ty hty => ?_
    split
    · exact .pure fun e he => Option.some.inj he ▸ hty
    · exact ih

theorem below_inferCall (callee : NodeId) (arguments : List NodeId) :
    Yields AnyFault (inferCall g callee arguments) (·.Below n) := by
  refine (below_ty hg callee).bind fun ty hty => ?_
  split
  · split
    · exact .pure (Ty.below_of_isNew rfl)
    · refine (below_firstErrorOf? hg arguments).bind fun first? hfirst => ?_
      split
      · exact .pure (hfirst _ rfl)
      · exact .pure (hty.parts _ (.head _)).bottom
  · exact .pure hty
  · exact .pure (Ty.below_of_isNew rfl)

theorem below_inferBranch (condition control : NodeId) (taken : Bool) :
    Yields AnyFault (inferBranch g condition control taken) (·.Below n) := by
  refine (below_ty hg condition).bind fun ty hty => ?_
  split
  · refine .bind_any fun dead _ => ?_
    split <;> exact .pure (Ty.below_of_isNew rfl)
  · exact .pure hty
  · exact .pure (Ty.below_of_isNew rfl)

end

theorem below_inferBuild {shape : Ty} {members : List Ty} (hshape : shape.Below n)
    (hmembers : ∀ m ∈ members, m.Below n) : (inferBuild shape members).Below n := by
  unfold inferBuild
  split
  · exact hmembers _ (Ty.mem_of_firstError? ‹_›)
  · split
    · exact hshape.withMembers hmembers
    · exact Ty.below_of_isNew rfl

theorem below_inferParameter (ht : t.Below n) (index : Nat) : (inferParameter t index).Below n := by
  unfold inferParameter
  split
  · split
    · exact (ht.parts _ (.tail _ (List.mem_of_getElem? ‹_›))).bottom
    · exact Ty.below_of_isNew rfl
  · exact Ty.below_of_isNew rfl

theorem below_inferCases {cases : List Ty} (h : ∀ t ∈ cases, t.Below n) :
    (inferCases cases).Below n := by
  cases cases with
  | nil => exact Ty.below_of_isNew rfl
  | cons t ts =>
    obtain ⟨ht, hts⟩ := List.forall_mem_cons.1 h
    exact List.foldlRecOn ts Ty.phi ht fun a ha u hu => ha.phi (hts u hu)

/-- The errors in the type of a request are new, stand in its types or in those of its operands. -/
theorem below_infer (hg : ∀ {id node}, g.get? id = some node → node.ty.Below n) {r : Request}
    (hr : ∀ t ∈ r.types, t.Below n) : Yields AnyFault (r.infer g) (·.Below n) := by
  cases r with
  | constant ty => exact hr ty (.head _)
  | binary op lhs rhs =>
    exact (below_ty hg lhs).bind fun a ha => (below_ty hg rhs).bind fun b hb => ha.binary op hb
  | compare op lhs rhs =>
    exact (below_ty hg lhs).bind fun a ha => (below_ty hg rhs).bind fun b hb => ha.compare op hb
  | unary op operand => exact (below_ty hg operand).bind fun a ha => ha.unary op
  | cast value target => exact (below_ty hg value).bind fun a ha => ha.cast (hr _ (.head _))
  | coerce value target => exact (below_ty hg value).bind fun a ha => ha.assignTo (hr _ (.head _))
  | build shape members =>
    exact (below_mapM_ty hg members).bind fun ts hts => below_inferBuild (hr _ (.head _)) hts
  | projection value index => exact (below_ty hg value).bind fun a ha => ha.element index
  | parameter entry index =>
    exact (below_ty hg entry).bind fun a ha => below_inferParameter ha index
  | alloca ty =>
    have hty := hr ty (.head _)
    unfold Request.infer
    dsimp only
    split
    · exact hty
    · exact .of_parts rfl (List.forall_mem_singleton.2 hty.bottom)
  | load base offset ty =>
    exact (below_addressError? hg base (hr ty (.head _)).bottom).bind fun _ h => h
  | addressOf base offset ty =>
    have hty : (Ty.pointerTo ty.bottom).Below n :=
      .of_parts rfl (List.forall_mem_singleton.2 (hr ty (.head _)).bottom)
    exact (below_addressError? hg base hty).bind fun _ h => h
  | store base offset value =>
    refine (below_addressError? hg base (Ty.below_of_isNew (t := .void) rfl)).bind fun _ h => ?_
    split
    · exact h
    · refine (below_ty hg value).bind fun a ha => ?_
      split
      · exact ha
      · exact Ty.below_of_isNew rfl
  | branch condition control taken => exact below_inferBranch hg condition control taken
  | region predecessors => exact .bind_any fun _ _ => Ty.below_of_isNew rfl
  | loop entry => exact .bind_any fun _ _ => Ty.below_of_isNew rfl
  | phi region cases kind =>
    cases kind with
    | value => exact (below_mapM_ty hg cases).bind fun ts hts => below_inferCases hts
    | memory => exact Ty.below_of_isNew rfl
    | loop ty => exact (hr ty (.head _)).bottom
  | call callee arguments => exact below_inferCall hg callee arguments
  | return_ value =>
    cases value with
    | some value => exact below_ty hg value
    | none => exact Ty.below_of_isNew rfl
  | exit value => exact below_ty hg value
  | function name ty =>
    have hty := hr ty (.head _)
    unfold Request.infer
    dsimp only
    split
    · exact .of_parts rfl hty.parts
    · exact hty

end SeaOfNodes
