import SeaOfNodes.Build.Value
import SeaOfNodes.Proofs.Pass.Forward
import SeaOfNodes.Proofs.Ty.Assign

/-!
Conversion of values to declared types. The conversion takes an aggregate apart, converts its
members and puts them together again, and the assignment of types recurses over the type alone. Both
give one type, and nothing but the nodes on the way is added (`coerce_assignTo`).
-/
namespace SeaOfNodes

open SeaOfNodes.Graph

/-! ### Assignment and origins -/

namespace Ty

variable {v v' d r t : Ty} {ts us vs : List Ty} {e : Blame} {P : Ty → Prop}
  {fields : String → List String} {texts : Nat → String}

theorem members_plain (t : Ty) : t.plain.members = t.members.map plain := by
  cases t <;> simp [plain, plains_eq_map, members]

theorem getElem?_members {f : Ty → Ty} {a b m : Ty} {i : Nat}
    (hf : ∀ t : Ty, (f t).members = t.members.map f) (h : f a = f b) (hm : b.members[i]? = some m) :
    ∃ m', a.members[i]? = some m' ∧ f m' = f m := by
  have heq : (a.members.map f)[i]? = (b.members.map f)[i]? := by rw [← hf, ← hf, h]
  rw [List.getElem?_map, List.getElem?_map, hm] at heq
  exact Option.map_eq_some_iff.1 heq

theorem isError_of_plain (h : v'.plain = v.plain) : v'.isError = v.isError :=
  isError_congr (shape_congr h)

theorem shapes_of_plains (h : plains ts = plains us) : ts.map shape = us.map shape := by
  have hshape : ∀ vs : List Ty, vs.map shape = (plains vs).map (withLevel true) := fun vs => by
    rw [plains_eq_map, List.map_map]
    exact List.map_congr_left fun t _ => plain_withLevel true t
  rw [hshape, h, hshape]

theorem eq_of_plain (hparts : v.parts = []) (herror : v.isError = false) (h : v'.plain = v.plain) :
    v' = v := by
  cases v <;> first | contradiction | cases v' <;> simp_all [plain, plains_eq_map, parts]

theorem isUntypedNil_congr (h : v'.plain = v.plain) (l : Level Unit) :
    isUntypedNil v' l = isUntypedNil v l := by
  cases v' <;> cases v <;> first | rfl | contradiction

theorem zipWith_assignTo_congr (h : ts.map plain = us.map plain) (ds : List Ty)
    (hno : (List.zipWith assignTo us ds).any isError = false)
    (hmember : ∀ u ∈ us, ∀ {t d : Ty}, t.plain = u.plain → (u.assignTo d).isError = false →
      (t.assignTo d).plain = (u.assignTo d).plain) :
    (List.zipWith assignTo ts ds).map plain = (List.zipWith assignTo us ds).map plain := by
  induction us generalizing ts ds with
  | nil =>
    obtain rfl := List.map_eq_nil_iff.1 h
    rfl
  | cons u us ih =>
    obtain ⟨t, ts, rfl, ht, hts⟩ := List.map_eq_cons_iff.1 h
    cases ds with
    | nil => rfl
    | cons d ds =>
      rw [List.zipWith_cons_cons, List.any_cons, Bool.or_eq_false_iff] at hno
      refine congrArg₂ List.cons (hmember u (.head _) ht hno.1) ?_
      exact ih hts ds hno.2 fun u hu => hmember u (.tail _ hu)

theorem any_isError_congr (h : ts.map plain = us.map plain) : ts.any isError = us.any isError := by
  induction us generalizing ts with
  | nil =>
    obtain rfl := List.map_eq_nil_iff.1 h
    rfl
  | cons u us ih =>
    obtain ⟨t, ts, rfl, ht, hts⟩ := List.map_eq_cons_iff.1 h
    rw [List.any_cons, List.any_cons, isError_of_plain ht, ih hts]

theorem plain_assignTo_congr (h : v'.plain = v.plain) (hno : (v.assignTo d).isError = false) :
    (v'.assignTo d).plain = (v.assignTo d).plain := by
  induction v using members_induction generalizing v' d with
  | h v ih =>
    have hassigned := assigned_assignTo hno
    have hmembers : ∀ {ts' ts us vs : List Ty}, (∀ t ∈ ts, t ∈ v.members) → plains ts' = plains ts →
        List.zipWith assignTo ts us = vs → vs.any isError = false →
        (List.zipWith assignTo ts' us).map plain = vs.map plain ∧
          (List.zipWith assignTo ts' us).any isError = false := by
      rintro ts' ts us _ hts heq rfl hvs
      rw [plains_eq_map, plains_eq_map] at heq
      have hzip := zipWith_assignTo_congr heq us hvs fun t ht _ _ => ih t (hts t ht)
      exact ⟨hzip, (any_isError_congr hzip).trans hvs⟩
    generalize hr : v.assignTo d = r at hassigned ⊢
    -- Of a pointee or a signature only the shape counts, which has no origins. Where a type has no
    -- parts, the two types are one.
    cases hassigned with
    | @pointer p q l m hp =>
      cases v' <;> simp only [plain, pointer.injEq, reduceCtorEq] at h
      obtain ⟨h, rfl⟩ := h
      rw [assignTo, if_pos]
      rw [Bool.or_eq_true_iff, isUntypedNil_congr h]
      exact hp.imp_right fun hq => sameShape_iff.2 ((shape_congr h).trans (sameShape_iff.1 hq))
    | @function ps qs r s l m hs =>
      cases v' <;> simp only [plain, function.injEq, reduceCtorEq] at h
      obtain ⟨hps, hresult, rfl⟩ := h
      rw [assignTo, if_pos]
      rw [sameSignature_iff] at hs ⊢
      exact ⟨(shapes_of_plains hps).trans hs.1, (shape_congr hresult).trans hs.2⟩
    | struct n ls ks hvs hany =>
      cases v' <;> simp only [plain, struct.injEq, reduceCtorEq] at h
      obtain ⟨rfl, rfl, h⟩ := h
      obtain ⟨hplain, hany'⟩ := hmembers (fun _ ht => ht) h hvs hany
      rw [assignTo_struct, collect_eq hany']
      have hlength := congrArg List.length hplain
      rw [List.length_map, List.length_map] at hlength
      simp only [plain, plains_eq_map, List.map_take, hplain, hlength]
    | array e f hvs hany hlen =>
      cases v' <;> simp only [plain, array.injEq, reduceCtorEq] at h
      obtain ⟨-, h⟩ := h
      obtain ⟨hplain, hany'⟩ := hmembers (fun _ ht => ht) h hvs hany
      have hlength := congrArg List.length h
      simp only [plains_eq_map, List.length_map] at hlength
      rw [assignTo_array _ _ (hlength.trans hlen), collect_eq hany']
      simp only [plain, plains_eq_map, hplain]
    | tuple hvs hany hlen =>
      cases v' <;> simp only [plain, tuple.injEq, reduceCtorEq] at h
      obtain ⟨hplain, hany'⟩ := hmembers (fun _ ht => ht) h hvs hany
      have hlength := congrArg List.length h
      simp only [plains_eq_map, List.length_map] at hlength
      rw [assignTo_tuple (hlength.trans hlen), collect_eq hany']
      simp only [plain, plains_eq_map, hplain]
    | _ =>
      obtain rfl := eq_of_plain rfl rfl h
      rw [hr]

theorem Throughout.hasFields_congr (h : v.Throughout (HasFields fields))
    (heq : v'.plain = v.plain) : v'.Throughout (HasFields fields) := by
  induction h generalizing v' with
  | @mk v hself _ ih =>
    refine .mk ?_ fun m hm => ?_
    · cases v' <;> try trivial
      cases v <;> simp only [plain, struct.injEq, reduceCtorEq] at heq
      obtain ⟨rfl, rfl, hplains⟩ := heq
      have hlength := congrArg List.length hplains
      rw [plains_eq_map, plains_eq_map, List.length_map, List.length_map] at hlength
      exact ⟨hself.1, hlength.trans hself.2⟩
    · have hmem : m.plain ∈ v.members.map plain := by
        rw [← members_plain, ← heq, members_plain]
        exact List.mem_map_of_mem hm
      obtain ⟨m0, hm0, hplain⟩ := List.mem_map.1 hmem
      exact ih m0 hm0 hplain.symm

theorem mem_of_firstError? (h : firstError? ts = some e) : .error e ∈ ts := by
  fun_induction firstError? ts with
  | case1 => contradiction
  | case2 e' ts =>
    cases h
    exact .head _
  | case3 t ts _ ih => exact .tail _ (ih h)

theorem error_of_assigns (h : assigns ts us = .error e) :
    ∃ t ∈ ts, ∃ u ∈ us, t.assignTo u = .error e := by
  rw [assigns_eq] at h
  split at h
  · rename_i e' he
    cases h
    have hmem := mem_of_firstError? he
    rw [← List.map_uncurry_zip_eq_zipWith] at hmem
    obtain ⟨⟨t, u⟩, hzip, heq⟩ := List.mem_map.1 hmem
    exact ⟨t, (List.of_mem_zip hzip).1, u, (List.of_mem_zip hzip).2, heq⟩
  · contradiction

def Cites (texts : Nat → String) : Ty → Prop
  | .error e => ∀ k, e.origin = some k → e.message = texts k
  | _ => True

theorem cites_fail (message : String) : (fail message).Cites texts :=
  fun _ h => absurd h.symm (Option.some_ne_none _)

theorem cites_assignTo (hv : v.Throughout (Cites texts)) (hd : d.Throughout (Cites texts)) :
    (v.assignTo d).Cites texts := by
  induction v using members_induction generalizing d with
  | h v ih =>
    have hmembers : ∀ {e}, assigns v.members d.members = .error e → (error e).Cites texts := by
      intro e h
      obtain ⟨t, ht, u, hu, heq⟩ := error_of_assigns h
      exact heq ▸ ih t ht (hv.members t ht) (hd.members u hu)
    revert hv hd hmembers
    fun_cases assignTo v d <;> intro hv hd hmembers
    case case3 w l m =>
      unfold assignInt
      split
      · split
        · trivial
        · exact cites_fail _
      · trivial
    all_goals first
      | trivial
      | exact hv.self
      | exact hd.self
      | exact hmembers ‹_›
      | exact cites_fail _

theorem members_of_assignTo (hv : v.Throughout (HasFields fields))
    (hd : d.Throughout (HasFields fields)) (haggregate : d.isAggregate = true)
    (hno : (v.assignTo d).isError = false) : v.members.length = d.members.length ∧
      (List.zipWith assignTo v.members d.members).any isError = false ∧
      d.withMembers (List.zipWith assignTo v.members d.members) = v.assignTo d := by
  have hassigned := assigned_assignTo hno
  generalize v.assignTo d = r at hassigned ⊢
  cases hassigned with
  | struct n ls ks hvs hany =>
    have hlength := hv.self.2.trans ((congrArg List.length (hv.self.1.trans hd.self.1.symm)).trans
      hd.self.2.symm)
    exact ⟨hlength, hvs ▸ hany, hvs ▸ rfl⟩
  | array e f hvs hany hlength => exact ⟨hlength, hvs ▸ hany, hvs ▸ rfl⟩
  | tuple hvs hany hlength => exact ⟨hlength, hvs ▸ hany, hvs ▸ rfl⟩
  | _ => contradiction

theorem plain_withMembers (h : ts.map plain = us.map plain) :
    (d.withMembers ts).plain = (d.withMembers us).plain := by
  have hlength := congrArg List.length h
  rw [List.length_map] at hlength
  cases d <;> simp [withMembers, plain, plains_eq_map, h, hlength]

end Ty

/-! ### Aggregates in the graph -/

namespace BuildM

variable {F : Fault → Prop} {b : Builder} {value : NodeId} {node : Node} {t T : Ty} {i : Nat}
  {ids : List NodeId} {us : List Ty} {Q : NodeId → Builder → Prop}

theorem make_projection_does (hn : b.graph.get? value = some node)
    (hm : node.ty.members[i]? = some t) (herror : t.isError = false)
    (hconst : t.isConstant = true → Does F b (create .constant t []) Q)
    (hbuild : node.op = .build → ∃ y, node.inputs[i]? = some y ∧ Q y b)
    (hother : Does F b (create (.projection i) t [value]) Q) :
    Does F b (make (.projection value i)) Q := by
  have haggregate := Ty.isAggregate_of_mem_members (List.mem_of_getElem? hm)
  have helement : node.ty.element i = t := by
    unfold Ty.element
    cases hty : node.ty <;> rw [hty] at hm haggregate <;> first | contradiction | simp only [hm]
  have hinfer : (Request.projection value i).infer b.graph = .ok t :=
    bind_eq_ok_iff.2 ⟨node.ty, ty_of_get? hn, congrArg Except.ok helement⟩
  refine make_emits hinfer herror ?_
  change Does F b (emitProjection value i t) _
  unfold emitProjection
  split
  · exact hconst ‹_›
  · refine look_bind (op_of_get? hn) ?_
    split
    · rename_i hop
      obtain ⟨y, hy, hQ⟩ := hbuild hop
      refine .look_ok (bind_eq_ok_iff.2 ⟨node, node_eq_ok_iff.2 hn, ?_⟩) hQ
      simp only [hy]
    · exact hother

theorem exists_typed_map {g : Graph} {f : Ty → Ty} {ts : List Ty}
    (h : List.Forall₂ (fun id t => g.At id fun _ t' => f t' = f t) ids ts) :
    ∃ us, g.Typed ids us ∧ us.map f = ts.map f := by
  induction h with
  | nil => exact ⟨[], .nil, rfl⟩
  | cons hid _ ih =>
    obtain ⟨us, hus, heq⟩ := ih
    obtain ⟨node, hn, hty⟩ := hid
    exact ⟨node.ty :: us, .cons (ty_of_get? hn) hus, congrArg₂ List.cons hty heq⟩

theorem make_build_does (haggregate : T.isAggregate = true) (hus : b.graph.Typed ids us)
    (hno : us.any Ty.isError = false) (hlength : us.length = T.members.length)
    (hconst : (T.withMembers us).isConstant = true →
      Does F b (create .constant (T.withMembers us) []) Q)
    (hbuild : Does F b (create .build (T.withMembers us) ids) Q) :
    Does F b (make (.build T.bottom ids)) Q := by
  have herror : (T.withMembers us).isError = false := by
    cases T <;> first | rfl | contradiction
  have hinfer : (Request.build T.bottom ids).infer b.graph = .ok (T.withMembers us) := by
    refine bind_eq_ok_iff.2 ⟨us, hus.mapM, congrArg Except.ok ?_⟩
    have hbottom : us.length = T.bottom.members.length := by
      rw [hlength, ← Ty.length_members_shape, ← Ty.shape_bottom, Ty.length_members_shape]
    rw [← Ty.withMembers_bottom haggregate]
    exact inferBuild_eq (Ty.firstError?_eq_none_iff.2 hno) hbottom
  refine make_emits hinfer herror ?_
  change Does F b (if (T.withMembers us).isConstant then create .constant (T.withMembers us) []
    else create .build (T.withMembers us) ids) _
  split
  · exact hconst ‹_›
  · exact hbuild

end BuildM

/-! ### Steps without effects -/

/-- The members of aggregates that were built have the types of the nodes they were built from. -/
def Graph.TypedBuilds (g : Graph) : Prop :=
  ∀ {x node}, g.get? x = some node → node.op = .build → ∀ {i : Nat} {m : Ty},
    node.ty.members[i]? = some m →
      ∃ y, node.inputs[i]? = some y ∧ g.At y fun _ t => t.plain = m.plain

/-- The nodes of unary operators have the types that these give for their operands. -/
def Graph.TypedUnaries (g : Graph) : Prop :=
  ∀ {x node op}, g.get? x = some node → node.op = .unary op →
    ∃ y, node.inputs = [y] ∧ g.At y fun _ t => node.ty = t.unary op

/-- A builder that can add nodes and whose aggregates are typed by their members. -/
structure Builder.Regular (b : Builder) : Prop where
  free : b.graph.FreeSlots
  builds : b.graph.TypedBuilds

/-- Nodes are added between `b` and `b'` that are no errors and have no effects. -/
structure Builder.Gains (b b' : Builder) : Prop where
  regular : b'.Regular
  extend : Extends b.graph b'.graph
  memory : ∀ {x : NodeId} {e : MemoryEffect}, b'.graph.memory[x]? = some e →
    b.graph.memory[x]? = some e
  errors : ∀ {x}, (b'.graph.At x fun op _ => op.isError = true) → b.graph.Has x
  rest : b' = { b with graph := b'.graph }

namespace Builder.Gains

variable {b b' b'' : Builder}

theorem refl (hb : b.Regular) : b.Gains b := ⟨hb, .refl _, id, At.has, rfl⟩

theorem trans (h : b.Gains b') (h' : b'.Gains b'') : b.Gains b'' where
  regular := h'.regular
  extend := h.extend.trans h'.extend
  memory hx := h.memory (h'.memory hx)
  errors {x} hx := by
    obtain ⟨node, hn⟩ := h'.errors hx
    obtain ⟨us, hus⟩ := h'.extend.node hn
    obtain ⟨_, hx, hop⟩ := hx
    cases hus.symm.trans hx
    exact h.errors ⟨node, hn, hop⟩
  rest := by
    rw [h'.rest, h.rest]

end Builder.Gains

namespace BuildM

variable {F : Fault → Prop} {b : Builder} {value : NodeId} {node : Node} {t T ty : Ty} {i : Nat}
  {inputs ids : List NodeId} {fields : String → List String}

theorem create_gains (hb : b.Regular) (op : Op) (hop : op.isError = false)
    (hin : ∀ x ∈ inputs, b.graph.Has x)
    (hbuild : op = .build → ∀ {i : Nat} {m : Ty}, ty.members[i]? = some m →
      ∃ y, inputs[i]? = some y ∧ b.graph.At y fun _ t => t.plain = m.plain) :
    Does F b (create op ty inputs) fun id b' =>
      b.Gains b' ∧ b'.graph.At id fun _ t => t.plain = ty.plain := by
  obtain ⟨id, g, hc, hfree, hmemory, hg⟩ := hb.free.create_ok op ty hin
  have hplain := Ty.plain_stamp b.graph.origins ty
  refine .editWith hc ⟨⟨⟨hfree, ?_⟩, hg.extend, fun hx => hmemory ▸ hx, ?_, rfl⟩, ?_⟩
  · intro x node hn hnode i m hm
    rcases hg.cases hn with ⟨old, us, hold, rfl⟩ | ⟨rfl, us, rfl⟩
    · obtain ⟨y, hy, hat⟩ := hb.builds hold hnode hm
      exact ⟨y, hy, hg.extend.keeps.at hat⟩
    · obtain ⟨m', hm', heq⟩ := Ty.getElem?_members Ty.members_plain hplain.symm hm
      obtain ⟨y, hy, hat⟩ := hbuild hnode hm'
      exact ⟨y, hy, hg.extend.keeps.at (hat.mono fun _ t ht => ht.trans heq)⟩
  · rintro x ⟨node, hn, hnode⟩
    rcases hg.cases hn with ⟨old, us, hold, rfl⟩ | ⟨rfl, us, rfl⟩
    · exact ⟨old, hold⟩
    · simp [hop] at hnode
  · obtain ⟨us, hn⟩ := hg.node
    exact ⟨_, hn, hplain⟩

theorem make_projection_gains (hb : b.Regular) (hn : b.graph.get? value = some node)
    (hm : node.ty.members[i]? = some t) (herror : t.isError = false) :
    Does F b (make (.projection value i)) fun id b' =>
      b.Gains b' ∧ b'.graph.At id fun _ t' => t'.plain = t.plain := by
  refine make_projection_does hn hm herror (fun _ => ?_) (fun hop => ?_) ?_
  · exact create_gains hb _ rfl (List.forall_mem_nil _) nofun
  · obtain ⟨y, hy, hat⟩ := hb.builds hn hop hm
    exact ⟨y, hy, .refl hb, hat⟩
  · exact create_gains hb _ rfl (List.forall_mem_singleton.2 ⟨node, hn⟩) nofun

theorem make_coerce_gains (hb : b.Regular) (hn : b.graph.get? value = some node)
    (hno : (node.ty.assignTo T).isError = false) :
    Does F b (make (.coerce value T)) fun id b' =>
      b.Gains b' ∧ b'.graph.At id fun _ t => t.plain = (node.ty.assignTo T).plain := by
  refine make_emits (bind_eq_ok_iff.2 ⟨node.ty, ty_of_get? hn, rfl⟩) hno ?_
  refine look_bind (ty_of_get? hn) ?_
  split
  · exact .pure ⟨.refl hb, node, hn, Ty.beq_iff.1 ‹_›⟩
  · split
    · exact create_gains hb _ rfl (List.forall_mem_nil _) nofun
    · exact create_gains hb _ rfl (List.forall_mem_singleton.2 ⟨node, hn⟩) nofun

/-- Every value that can be assigned to a type is converted to what the assignment gives. -/
def Coerces (F : Fault → Prop) (fields : String → List String) (T : Ty) : Prop :=
  ∀ {b : Builder} {value : NodeId} {node : Node}, b.Regular → b.graph.get? value = some node →
    node.ty.Throughout (Ty.HasFields fields) → (node.ty.assignTo T).isError = false →
    Does F b (coerce value T) fun id b' =>
      b.Gains b' ∧ b'.graph.At id fun _ t => t.plain = (node.ty.assignTo T).plain

theorem coerceMembers_gains {ts us : List Ty} (hus : ∀ u ∈ us, Coerces F fields u)
    (hb : b.Regular) (hn : b.graph.get? value = some node)
    (hfields : node.ty.Throughout (Ty.HasFields fields)) (hts : node.ty.members.drop i = ts)
    (hlength : ts.length = us.length)
    (hno : (List.zipWith Ty.assignTo ts us).any Ty.isError = false) :
    Does F b (coerceMembers value i us) fun ids b' => b.Gains b' ∧
      List.Forall₂ (fun id r => b'.graph.At id fun _ t => t.plain = r.plain) ids
        (List.zipWith Ty.assignTo ts us) := by
  induction us generalizing ts i b node with
  | nil =>
    obtain rfl := List.length_eq_zero_iff.1 hlength
    exact .pure ⟨.refl hb, .nil⟩
  | cons u us ih =>
    cases ts with
    | nil => contradiction
    | cons t ts =>
      rw [List.zipWith_cons_cons, List.any_cons, Bool.or_eq_false_iff] at hno
      have hm : node.ty.members[i]? = some t := by
        rw [← Nat.add_zero i, ← List.getElem?_drop, hts]
        rfl
      have hmember := List.mem_of_getElem? hm
      have herror : t.isError = false := by
        cases t <;> first | rfl | simp [Ty.assignTo, Ty.isError] at hno
      refine (make_projection_gains hb hn hm herror).bind ?_
      rintro member b1 ⟨hg1, node1, hn1, heq1⟩
      -- The member's node has its type up to origins, and an assignment does not look at those.
      have hfields1 := (hfields.members t hmember).hasFields_congr heq1
      have hassign := Ty.plain_assignTo_congr heq1 hno.1
      refine (hus u (.head _) hg1.regular hn1 hfields1
        ((Ty.isError_of_plain hassign).trans hno.1)).bind ?_
      rintro id b2 ⟨hg2, hat⟩
      have hg := hg1.trans hg2
      obtain ⟨users, hn2⟩ := hg.extend.node hn
      refine (ih (fun u hu => hus u (.tail _ hu)) hg.regular hn2 hfields ?_
        (Nat.succ.inj hlength) hno.2).bind ?_
      · rw [← List.drop_drop, hts]
        rfl
      rintro ids b3 ⟨hg3, hids⟩
      refine .pure ⟨hg.trans hg3, .cons ?_ hids⟩
      exact hg3.extend.keeps.at (hat.mono fun _ t ht => ht.trans hassign)

theorem coerce_of_aggregate (value : NodeId) (h : T.isAggregate = true) :
    coerce value T = coerceAggregate value T (coerceMembers value 0 T.members) := by
  cases T <;> first | contradiction | rw [coerce, Ty.members]

theorem coerce_of_scalar (value : NodeId) (h : T.isAggregate = false) :
    coerce value T = make (.coerce value T) := by
  cases T <;> first | contradiction | simp only [coerce]

theorem coerces_of_hasFields (hT : T.Throughout (Ty.HasFields fields)) : Coerces F fields T := by
  induction T using Ty.members_induction with
  | h T ih =>
    intro b value node hb hn hfields hno
    cases haggregate : T.isAggregate with
    | false =>
      rw [coerce_of_scalar value haggregate]
      exact make_coerce_gains hb hn hno
    | true =>
      rw [coerce_of_aggregate value haggregate]
      refine look_bind (ty_of_get? hn) ?_
      split
      · exact make_coerce_gains hb hn hno
      dsimp only
      split
      · exact .pure ⟨.refl hb, node, hn, (Ty.beq_iff.1 ‹_›).symm⟩
      split
      · exact make_coerce_gains hb hn hno
      obtain ⟨hlength, hmembers, hwith⟩ := Ty.members_of_assignTo hfields hT haggregate hno
      refine (coerceMembers_gains (fun u hu => ih u hu (hT.members u hu)) hb hn hfields
        List.drop_zero hlength hmembers).bind ?_
      rintro ids b1 ⟨hg, hids⟩
      obtain ⟨us, hus, heq⟩ := exists_typed_map hids
      have hany := (Ty.any_isError_congr heq).trans hmembers
      have hsame : us.length = T.members.length := by
        have hcount := congrArg List.length heq
        simp only [List.length_map, List.length_zipWith, hlength, Nat.min_self] at hcount
        exact hcount
      have hplain : (T.withMembers us).plain = (node.ty.assignTo T).plain :=
        (Ty.plain_withMembers heq).trans (congrArg Ty.plain hwith)
      refine (make_build_does (Q := fun id b' => b1.Gains b' ∧
        b'.graph.At id fun _ t => t.plain = (T.withMembers us).plain) haggregate hus hany hsame
        (fun _ => create_gains hg.regular _ rfl (List.forall_mem_nil _) nofun)
        (create_gains hg.regular _ rfl (fun x hx => (hus.at x hx).has) fun _ i m hm => ?_)).imp ?_
      · rw [Ty.getElem?_members_withMembers (List.getElem?_eq_some_iff.1 hm).1] at hm
        obtain ⟨y, hy, hty⟩ := hus.getElem? hm
        obtain ⟨node, hn, rfl⟩ := ty_eq_ok_iff.1 hty
        exact ⟨y, hy, node, hn, rfl⟩
      · rintro id b2 ⟨hg2, hid⟩
        exact ⟨hg.trans hg2, hid.mono fun _ t ht => ht.trans hplain⟩

/-! ### Errors -/

theorem newError_joins (hfree : b.graph.FreeSlots) (blame : Blame) :
    Does F b (newError blame) fun id b' => b'.cursor = b.cursor ∧ b'.effects = b.effects ∧
      b'.graph.memory = b.graph.memory ∧ ∃ ty, ty.plain = (Ty.error blame).plain ∧
        Joins b.graph b'.graph id (.error b.span) ty [] := by
  obtain ⟨id, g, hg, -, hmemory, hjoins⟩ := hfree.create_ok (.error b.span) (.error blame)
    (List.forall_mem_nil _)
  -- The error has its origin before the node is made, and a second stamp leaves it alone.
  have hstamped : ({ b.graph with origins := (blame.stamp b.graph.origins).2 } : Graph).create
      (.error b.span) (.error (blame.stamp b.graph.origins).1) [] = .ok (id, g) := by
    rw [← hg]
    obtain ⟨message, origin⟩ := blame
    cases origin <;> rfl
  exact Yields.bind_ok hstamped ⟨rfl, rfl, hmemory, _, Ty.plain_stamp _ _, hjoins⟩

end BuildM

/-- A regular builder where the nodes of errors have the texts that their origins stand for. -/
structure Builder.Coherent (texts : Nat → String) (b : Builder) : Prop extends b.Regular where
  reported : ∀ k id, b.reported.lookup k = some id →
    b.graph.At id fun _ t => ∃ e, t = .error e ∧ e.message = texts k

namespace BuildM

variable {F : Fault → Prop} {b : Builder} {value : NodeId} {node : Node} {T ty : Ty}
  {texts : Nat → String} {fields : String → List String}

theorem errorNode_joins {blame : Blame} (hb : b.Coherent texts)
    (hblame : (Ty.error blame).Cites texts) :
    Does F b (errorNode blame) fun id b' => b'.cursor = b.cursor ∧ b'.effects = b.effects ∧
      (b'.graph.At id fun _ t => t.plain = (Ty.error blame).plain) ∧
      b'.graph.memory = b.graph.memory ∧
      (b'.graph = b.graph ∨ ∃ ty, Joins b.graph b'.graph id (.error b.span) ty []) := by
  refine Does.get.bind ?_
  rintro b' _ ⟨rfl, rfl⟩
  dsimp only
  split
  · rename_i id hid
    obtain ⟨k, hk, hlookup⟩ := Option.bind_eq_some_iff.1 hid
    refine .pure ⟨rfl, rfl, (hb.reported k id hlookup).mono ?_, rfl, .inl rfl⟩
    rintro _ _ ⟨e, rfl, htext⟩
    rw [Ty.plain, Ty.plain, htext, hblame k hk]
  · refine (newError_joins hb.free blame).imp ?_
    rintro id b1 ⟨hcursor, heffects, hmemory, ty, hplain, hjoins⟩
    obtain ⟨us, hn⟩ := hjoins.node
    exact ⟨hcursor, heffects, ⟨_, hn, hplain⟩, hmemory, .inr ⟨ty, hjoins⟩⟩

theorem make_coerce_error {e : Blame} {Q : NodeId → Builder → Prop}
    (hn : b.graph.get? value = some node) (he : node.ty.assignTo T = .error e)
    (h : Does F b (errorNode e) Q) : Does F b (make (.coerce value T)) Q := by
  refine look_bind (bind_eq_ok_iff.2 ⟨node.ty, ty_of_get? hn, congrArg Except.ok he⟩) ?_
  exact h

theorem coerce_error {e : Blame} {Q : NodeId → Builder → Prop}
    (hn : b.graph.get? value = some node) (he : node.ty.assignTo T = .error e)
    (h : Does F b (errorNode e) Q) : Does F b (coerce value T) Q := by
  have hmake := make_coerce_error hn he h
  cases haggregate : T.isAggregate with
  | false => rwa [coerce_of_scalar value haggregate]
  | true =>
    rw [coerce_of_aggregate value haggregate]
    refine look_bind (ty_of_get? hn) ?_
    split
    · exact hmake
    · rename_i hnot
      rw [if_neg, if_pos]
      · exact hmake
      · rw [he]
        rfl
      · intro hsame
        rw [← Ty.isError_of_plain (Ty.beq_iff.1 hsame), he] at hnot
        exact hnot rfl

/-- The conversion of a value gives a node of the type that the assignment of its type gives, with
the text of that error if it is one. Nothing but nodes without effects is added, and no error but
that one. Structs of one name have one list of fields. -/
theorem coerce_assignTo (hb : b.Coherent texts) (hty : b.graph.ty value = .ok ty)
    (hfields : ty.Throughout (Ty.HasFields fields)) (hfieldsT : T.Throughout (Ty.HasFields fields))
    (htexts : ty.Throughout (Ty.Cites texts)) (htextsT : T.Throughout (Ty.Cites texts)) :
    ∃ id b', coerce value T b = .ok (id, b') ∧
      (∃ t, b'.graph.ty id = .ok t ∧ (t == ty.assignTo T) = true) ∧
      Extends b.graph b'.graph ∧
      (∀ (x : NodeId) (e : MemoryEffect), b'.graph.memory[x]? = some e →
        b.graph.memory[x]? = some e) ∧
      b'.cursor = b.cursor ∧ b'.effects = b.effects ∧
      ∀ x, (b'.graph.At x fun op _ => op.isError = true) →
        b.graph.Has x ∨ x = id ∧ (ty.assignTo T).isError = true := by
  obtain ⟨node, hn, rfl⟩ := ty_eq_ok_iff.1 hty
  suffices hdoes : Does (fun _ => False) b (coerce value T) fun id b' =>
      (b'.graph.At id fun _ t => t.plain = (node.ty.assignTo T).plain) ∧
      Extends b.graph b'.graph ∧
      (∀ (x : NodeId) (e : MemoryEffect), b'.graph.memory[x]? = some e →
        b.graph.memory[x]? = some e) ∧
      b'.cursor = b.cursor ∧ b'.effects = b.effects ∧
      ∀ x, (b'.graph.At x fun op _ => op.isError = true) →
        b.graph.Has x ∨ x = id ∧ (node.ty.assignTo T).isError = true by
    obtain ⟨⟨id, b'⟩, hrun, ⟨out, hout, hplain⟩, hrest⟩ := hdoes.exists_ok
    exact ⟨id, b', hrun, ⟨_, ty_of_get? hout, Ty.beq_iff.2 hplain⟩, hrest⟩
  cases hno : (node.ty.assignTo T).isError with
  | false =>
    refine (coerces_of_hasFields hfieldsT hb.toRegular hn hfields hno).imp ?_
    rintro id b' ⟨hg, hat⟩
    refine ⟨hat, hg.extend, fun _ _ => hg.memory, ?_, ?_, fun _ hx => .inl (hg.errors hx)⟩
    · rw [hg.rest]
    · rw [hg.rest]
  | true =>
    obtain ⟨e, he⟩ : ∃ e, node.ty.assignTo T = .error e := by
      cases h : node.ty.assignTo T <;> rw [h] at hno <;> first | exact ⟨_, rfl⟩ | contradiction
    have hcites := Ty.cites_assignTo htexts htextsT
    rw [he] at hcites
    refine coerce_error hn he ((errorNode_joins hb hcites).imp ?_)
    rintro id b' ⟨hcursor, heffects, hat, hmemory, hsame | ⟨ty, hjoins⟩⟩
    · rw [he, hsame]
      exact ⟨hsame ▸ hat, .refl _, fun _ _ h => h, hcursor, heffects, fun _ hx => .inl hx.has⟩
    · rw [he, hmemory]
      exact ⟨hat, hjoins.extend, fun _ _ h => h, hcursor, heffects, fun x hx =>
        (hjoins.only hx.has).imp_right fun heq => ⟨heq, rfl⟩⟩

/-- A value, and an error that was found before. -/
def valueGraph (v : Ty) : Except Fault Graph :=
  Operation.runAll [.create .start .live [], .create .constant v [],
    .create (.error Builder.initial.span) (.fail "unknown name") []] .empty

/-- The builder that has reported the error. -/
def valueBuilder (g : Graph) : Builder :=
  { Builder.initial with graph := g, reported := [(0, ⟨2, 0⟩)] }

theorem valueBuilder_coherent {v : Ty} {g : Graph} {e : Blame} (hg : valueGraph v = .ok g)
    (hnodes : ∀ x ∈ g.ids, ∀ node ∈ g.get? x, node.op ≠ .build) (he : g.ty ⟨2, 0⟩ = .ok (.error e)) :
    (valueBuilder g).Coherent fun _ => e.message where
  free := (Made.empty.runAll hg).keeps.1.free
  builds hn hop := absurd hop (hnodes _ (mem_ids hn) _ hn)
  reported k id h := by
    obtain ⟨node, hn, hty⟩ := ty_eq_ok_iff.1 he
    obtain ⟨l1, l2, heq, -⟩ := List.lookup_eq_some_iff.1 h
    have hmem : (k, id) ∈ (valueBuilder g).reported := by simp [heq]
    cases List.mem_singleton.1 hmem
    exact ⟨node, hn, e, hty, rfl⟩

def loosePair : Ty := .struct "P" ["x", "y"] [.int .untyped (.const 3), .nil]

def typedPair : Ty := .struct "P" ["x", "y"] [.int .i8 .bottom, .pointerTo (.bool .bottom)]

/-- A struct of an untyped number and `nil` is converted member by member, and an error stays what it
is. -/
theorem coerce_assignTo_pair : ∃ g texts, valueGraph loosePair = .ok g ∧
    (valueBuilder g).Coherent texts ∧
    (∃ id b' t, coerce ⟨1, 0⟩ typedPair (valueBuilder g) = .ok (id, b') ∧ b'.graph.ty id = .ok t ∧
      (t == .struct "P" ["x", "y"]
        [.int .i8 (.const 3), .pointer (.bool .bottom) (.const ())]) = true) ∧
    ∃ id b' t, coerce ⟨2, 0⟩ typedPair (valueBuilder g) = .ok (id, b') ∧ b'.graph.ty id = .ok t ∧
      (t == .fail "unknown name") = true := by
  have hchecks : passes (fun g =>
      decide (∀ x ∈ g.ids, ∀ node ∈ g.get? x, node.op ≠ .build) &&
      passes (fun t => t.isErrorFree && t == loosePair) (g.ty ⟨1, 0⟩) &&
      passes (fun t => t.isError && t == .fail "unknown name") (g.ty ⟨2, 0⟩))
        (valueGraph loosePair) = true := by
    decide +kernel
  obtain ⟨g, hg, hchecks⟩ := exists_ok_of_passes hchecks
  simp only [Bool.and_eq_true, decide_eq_true_eq] at hchecks
  obtain ⟨⟨hnodes, hvalue⟩, herror⟩ := hchecks
  obtain ⟨t, ht, heq⟩ := exists_ok_of_passes hvalue
  obtain ⟨u, hu, herror⟩ := exists_ok_of_passes herror
  rw [Bool.and_eq_true] at heq herror
  obtain rfl := (Ty.beq_iff_eq_of_isErrorFree heq.1 rfl).1 heq.2
  obtain ⟨e, rfl⟩ := Ty.isError_iff.1 herror.1
  have hcoherent := valueBuilder_coherent hg hnodes hu
  have hfields : typedPair.Throughout (Ty.HasFields fun _ => ["x", "y"]) :=
    .pair ⟨rfl, rfl⟩ trivial trivial rfl rfl
  have htexts : typedPair.Throughout (Ty.Cites fun _ => e.message) :=
    .pair trivial trivial trivial rfl rfl
  refine ⟨g, _, hg, hcoherent, ?_, ?_⟩
  · obtain ⟨id, b', hrun, ⟨t, htype, hsame⟩, -⟩ := coerce_assignTo (b := valueBuilder g) hcoherent ht
      (.pair ⟨rfl, rfl⟩ trivial trivial rfl rfl) hfields (.pair trivial trivial trivial rfl rfl) htexts
    exact ⟨id, b', t, hrun, htype, hsame⟩
  · obtain ⟨id, b', hrun, ⟨t, htype, hsame⟩, -⟩ := coerce_assignTo (b := valueBuilder g) hcoherent hu
      (.mk trivial nofun) hfields (.mk (fun _ _ => rfl) nofun) htexts
    refine ⟨id, b', t, hrun, htype, Ty.beq_iff.2 ?_⟩
    exact (Ty.beq_iff.1 hsame).trans (Ty.beq_iff.1 herror.2)

/-- A struct with fewer fields than another one of its name can be assigned to it, but not
converted. -/
theorem not_coerce_assignTo :
    let v := Ty.struct "S" ["a"] [.int .untyped (.const 1)]
    let T := Ty.struct "S" ["a", "b"] [.int .int .bottom, .int .int .bottom]
    (v.assignTo T).isError = false ∧ ∃ g id b' t, valueGraph v = .ok g ∧
      coerce ⟨1, 0⟩ T (valueBuilder g) = .ok (id, b') ∧ b'.graph.ty id = .ok t ∧
      (t == v.assignTo T) = false := by
  intro v T
  have hchecks : passes (fun g => passes (fun r =>
      passes (fun t => !(t == v.assignTo T)) (r.2.graph.ty r.1))
        (coerce ⟨1, 0⟩ T (valueBuilder g))) (valueGraph v) = true := by
    decide +kernel
  obtain ⟨g, hg, hchecks⟩ := exists_ok_of_passes hchecks
  obtain ⟨⟨id, b'⟩, hrun, hchecks⟩ := exists_ok_of_passes hchecks
  obtain ⟨t, ht, hne⟩ := exists_ok_of_passes hchecks
  exact ⟨by decide, g, id, b', t, hg, hrun, ht, by simpa using hne⟩

end BuildM

end SeaOfNodes
