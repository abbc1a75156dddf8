import SeaOfNodes.Proofs.Build.Coerce
import SeaOfNodes.Proofs.Parse.Layout

/-!
Values of any type in memory. A value is stored member by member, each scalar at its own place, and
nothing else changes. Scalars lie apart, so that the stores of later members leave those of earlier
ones alone, and a load of the same type puts together what was stored.
-/
namespace SeaOfNodes

open SeaOfNodes.Graph SeaOfNodes.BuildM

namespace Ty

variable {α : Type} {part : α → Nat → α} {x : α} {t : Ty}

mutual

/-- The scalars of a value, where `part` takes an aggregate apart. -/
def leaves {α : Type} (part : α → Nat → α) (x : α) : Ty → List α
  | .struct _ _ ts | .array _ ts | .tuple ts => leavesOf part x 0 ts
  | _ => [x]

/-- The scalars of the members from `i` on. -/
def leavesOf {α : Type} (part : α → Nat → α) (x : α) (i : Nat) : List Ty → List α
  | [] => []
  | t :: ts => leaves part (part x i) t ++ leavesOf part x (i + 1) ts

end

theorem leaves_of_aggregate (h : t.isAggregate = true) :
    t.leaves part x = leavesOf part x 0 t.members := by
  cases t <;> first | contradiction | rfl

theorem leaves_of_scalar (h : t.isAggregate = false) : t.leaves part x = [x] := by
  cases t <;> first | contradiction | rfl

def isPointer : Ty → Bool
  | .pointer .. => true
  | _ => false

theorem members_shape (t : Ty) : t.shape.members = t.members.map shape := by
  cases t <;> simp [shape_struct, shape_array, shape_tuple, members] <;> rfl

theorem Sized.isError {T : Ty} (h : T.Sized) : T.isError = false := by
  cases h with
  | scalar _ h => exact h
  | _ => rfl

theorem Sized.withMembers {T : Ty} {us : List Ty} (h : T.Sized) (haggregate : T.isAggregate = true)
    (hus : us.map shape = T.members.map shape) :
    (T.withMembers us).members = us ∧ (T.withMembers us).shape = T.shape := by
  have hlength : us.length = T.members.length := by simpa using congrArg List.length hus
  cases h with
  | scalar h _ => simp [h] at haggregate
  | @struct n ls ts _ _ hlabels =>
    have hlength : us.length = ts.length := hlength
    have heq : (Ty.struct n ls ts).withMembers us = Ty.struct n ls us := by
      rw [Ty.withMembers, List.take_of_length_le (by omega), List.take_of_length_le (by omega)]
    rw [heq]
    exact ⟨rfl, (shape_struct n ls us).trans ((congrArg _ hus).trans (shape_struct n ls ts).symm)⟩
  | tuple => exact ⟨rfl, (shape_tuple us).trans ((congrArg _ hus).trans (shape_tuple _).symm)⟩
  | array => exact ⟨rfl, (shape_array _ us).trans ((congrArg _ hus).trans (shape_array _ _).symm)⟩

theorem layout?_congr {a b : Ty} (h : a.shape = b.shape) (hb : b.isAggregate = false) :
    a.layout? = b.layout? := by
  cases a <;> cases b <;>
    simp_all [shape, plain, bottom, withLevel, layout?, isAggregate]
  rename_i width _
  cases width <;> rfl

end Ty

namespace Machine

variable {M : Machine} {spots : List (Nat × Ty)} {lo mid hi : Nat} {m m' m'' : M.Memory}
  {xs ys : List M.Value}

theorem size_of_scalar {t : Ty} (h : t.isAggregate = false) : M.size t = t.bytes :=
  M.size_eq (Ty.laidOut_scalar h).layout

/-- What memory has at places. -/
def valuesAt (M : Machine) (spots : List (Nat × Ty)) (m : M.Memory) : List M.Value :=
  spots.map fun spot => M.valueAt spot.2 spot.1 m

theorem valuesAt_append (spots spots' : List (Nat × Ty)) (m : M.Memory) :
    M.valuesAt (spots ++ spots') m = M.valuesAt spots m ++ M.valuesAt spots' m := List.map_append

/-- Nothing changes but between `lo` and `hi`, and then memory has `xs` at the places there. -/
structure Fills (spots : List (Nat × Ty)) (lo hi : Nat) (xs : List M.Value) (m m' : M.Memory) :
    Prop where
  outside : ∀ a, a < lo ∨ hi ≤ a → m' a = m a
  inside : M.valuesAt spots m' = xs

theorem valueAt_congr {t : Ty} {a : Nat} (ht : t.isAggregate = false)
    (h : ∀ i, a ≤ i → i < a + t.bytes → m' i = m i) : M.valueAt t a m' = M.valueAt t a m := by
  refine M.decode_congr fun i hi => h _ (Nat.le_add_right a i) ?_
  rw [size_of_scalar ht] at hi
  omega

theorem Fills.append {spots' : List (Nat × Ty)} (h : Fills spots lo mid xs m m')
    (h' : Fills spots' mid hi ys m' m'') (hle : lo ≤ mid) (hle' : mid ≤ hi)
    (hspots : ∀ spot ∈ spots, spot.2.isAggregate = false ∧ spot.1 + spot.2.bytes ≤ mid) :
    Fills (spots ++ spots') lo hi (xs ++ ys) m m'' where
  outside a ha := by
    rw [h'.outside a (by omega), h.outside a (by omega)]
  inside := by
    rw [valuesAt_append, h'.inside, ← h.inside]
    refine congrArg (· ++ ys) (List.map_congr_left fun spot hspot => ?_)
    obtain ⟨hscalar, hend⟩ := hspots spot hspot
    exact valueAt_congr hscalar fun i _ hi => h'.outside i (.inl (by omega))

theorem Fills.mono_left {lo' : Nat} (h : Fills spots lo hi xs m m') (hle : lo' ≤ lo) :
    Fills spots lo' hi xs m m' :=
  ⟨fun a ha => h.outside a (by omega), h.inside⟩

theorem ReadsBack.fills {has : Ty → M.Value → Prop} {t t' : Ty} {x : M.Value} (h : M.ReadsBack has)
    (ht : t.isAggregate = false) (hshape : t'.shape = t.shape) (hx : has t' x) (a : Nat)
    (m : M.Memory) :
    Fills (t.spots a) a (a + t.bytes) [x] m ((M.storing a t' x).act m) where
  outside i hi := by
    have hsize : M.size t' = t.bytes :=
      M.size_eq ((Ty.layout?_congr hshape ht).trans (Ty.laidOut_scalar ht).layout)
    have hout : ¬ (a ≤ i ∧ i < a + M.size t') := by omega
    simp [Patch.act, storing, write, hout]
  inside := by
    rw [Ty.spots_of_scalar ht]
    exact congrArg (fun y => [y]) (h.valueAt_storing (Ty.sameShape_iff.2 hshape) hx a m)

end Machine

/-! ### Models -/

/-- What a graph computes on a machine whose aggregates have parts: an aggregate has the values that
it is built of as its parts, a projection takes a part, and the address of a member is an offset
away from its base. -/
structure Graph.Model (g : Graph) where
  machine : Machine
  has : Ty → machine.Value → Prop
  part : machine.Value → Nat → machine.Value
  valuation : Valuation machine
  readsBack : machine.ReadsBack has
  has_part {t m : Ty} {x : machine.Value} {i : Nat} : has t x → t.members[i]? = some m →
    has m (part x i)
  /-- A type whose value is known has no other one. -/
  has_unique {a b : Ty} {x y : machine.Value} : a.plain = b.plain → a.isConstant = true → has a x →
    has b y → x = y
  models : g.Models has valuation
  projection {x y : NodeId} {node : Node} {i : Nat} : g.get? x = some node →
    node.op = .projection i →
    node.inputs[0]? = some y → (g.At y fun _ t => t.isAggregate = true) →
    valuation.value x = part (valuation.value y) i
  build {x y : NodeId} {node : Node} {i : Nat} : g.get? x = some node → node.op = .build →
    node.inputs[i]? = some y → part (valuation.value x) i = valuation.value y
  addressOf {x y : NodeId} {node : Node} {k : Nat} : g.get? x = some node → node.op = .addressOf k →
    node.inputs[0]? = some y →
    machine.address (valuation.value x) = machine.address (valuation.value y) + k

namespace Graph

variable {g g' : Graph} {id x : NodeId} {node : Node}

theorem Models.restrict {M : Machine} {has : Ty → M.Value → Prop} {v : Valuation M}
    (h : g'.Models has v) (hmade : Made g) (he : Extends g g') : g.Models has v where
  equation {x node} hn := by
    obtain ⟨us, hus⟩ := he.node hn
    have heq := h.equation hus
    have hpatch : g'.patch? v { node with users := us } = g.patch? v node := by
      unfold patch?
      dsimp only
      split
      · rfl
      · rename_i base stored rest hop hin
        obtain ⟨-, -, other, ho, -⟩ := hmade.keeps.2 x (.value 1) stored ⟨node, hn, by simp [hin]⟩
        obtain ⟨vs, hvs⟩ := he.node ho
        rw [ho, hvs]
        rfl
      · rfl
      · rfl
    unfold Equation before? at heq ⊢
    rw [hpatch, he.memory ⟨node, hn⟩, he.control ⟨node, hn⟩] at heq
    exact heq
  typed hn := by
    obtain ⟨us, hus⟩ := he.node hn
    have htyped := h.typed hus
    exact htyped

/-- A model of a graph with more nodes. -/
def Model.restrict (m : g'.Model) (hmade : Made g) (he : Extends g g') : g.Model :=
  { m with
    models := m.models.restrict hmade he
    projection := fun hn hop hy hat => by
      obtain ⟨us, hus⟩ := he.node hn
      exact m.projection hus hop hy (he.keeps.at hat)
    build := fun hn hop hy => by
      obtain ⟨us, hus⟩ := he.node hn
      exact m.build hus hop hy
    addressOf := fun hn hop hy => by
      obtain ⟨us, hus⟩ := he.node hn
      exact m.addressOf hus hop hy }

/-- Aggregates have the members that their types name, and members are found through pointers. -/
structure Formed (g : Graph) : Prop where
  build : ∀ {x node}, g.get? x = some node → node.op = .build → ∀ {i : Nat} {m : Ty},
    node.ty.members[i]? = some m →
      ∃ y, node.inputs[i]? = some y ∧ g.At y fun _ t => t.shape = m.shape
  addressOf : ∀ {x node k}, g.get? x = some node → node.op = .addressOf k →
    ∃ y, node.inputs[0]? = some y ∧ g.At y fun _ t => t.isPointer = true

theorem Grows.formed {op : Op} {ty : Ty} {inputs : List NodeId} {effect : Option MemoryEffect}
    (h : Grows g g' id op ty inputs effect) (hformed : g.Formed)
    (hbuild : op = .build → ∀ {i : Nat} {m : Ty}, ty.members[i]? = some m →
      ∃ y, inputs[i]? = some y ∧ g.At y fun _ t => t.shape = m.shape)
    (haddress : ∀ k, op ≠ .addressOf k) : g'.Formed := by
  constructor
  · intro x node hn hop i m hm
    rcases h.cases hn with ⟨old, us, hold, rfl⟩ | ⟨rfl, us, rfl⟩
    · obtain ⟨y, hy, hat⟩ := hformed.build hold hop hm
      exact ⟨y, hy, h.extend.keeps.at hat⟩
    · obtain ⟨y, hy, hat⟩ := hbuild hop hm
      exact ⟨y, hy, h.extend.keeps.at hat⟩
  · intro x node k hn hop
    rcases h.cases hn with ⟨old, us, hold, rfl⟩ | ⟨rfl, us, rfl⟩
    · obtain ⟨y, hy, hat⟩ := hformed.addressOf hold hop
      exact ⟨y, hy, h.extend.keeps.at hat⟩
    · exact absurd hop (haddress k)

end Graph

/-! ### Steps -/

/-- A builder whose graph was made by operations, with nodes as requests make them, and whose chains
of memory end. -/
structure Builder.Ready (b : Builder) : Prop where
  made : Made b.graph
  ends : b.graph.ChainsEnd
  based : b.graph.Based
  formed : b.graph.Formed
  cursor : b.graph.Has b.cursor.memory

/-- Nodes are added between `b` and `b'`. -/
structure Builder.Later (b b' : Builder) : Prop where
  ready : b'.Ready
  extend : Extends b.graph b'.graph

theorem Builder.Later.trans {b b' b'' : Builder} (h : b.Later b') (h' : b'.Later b'') :
    b.Later b'' :=
  ⟨h'.ready, h.extend.trans h'.extend⟩

namespace Builder.Ready

variable {b b' : Builder} {id base : NodeId} {op : Op} {inputs : List NodeId} {ty : Ty}

theorem adds (hb : b.Ready) (h : Grows b.graph b'.graph id op ty inputs none)
    (hcursor : b'.cursor = b.cursor) (hop : op.isMemoryAccess = false ∧ ∀ k, op ≠ .addressOf k)
    (hbuild : op = .build → ∀ {i : Nat} {m : Ty}, ty.members[i]? = some m →
      ∃ y, inputs[i]? = some y ∧ b.graph.At y fun _ t => t.shape = m.shape) : b.Later b' where
  ready := by
    refine ⟨h.made, h.chainsEnd hb.made hb.ends nofun, h.based hb.based fun haccess => ?_,
      h.formed hb.formed hbuild hop.2, ?_⟩
    · rw [hop.1] at haccess
      contradiction
    · rw [hcursor]
      exact h.extend.keeps.has hb.cursor
  extend := h.extend

theorem threads {previous : NodeId} {tag : MemoryTag} (hb : b.Ready)
    (hcursor : b'.cursor.memory = id)
    (h : Grows b.graph b'.graph id op ty inputs (some ⟨previous, some base, tag⟩))
    (hprevious : b.graph.Has previous) (hop : op.isMemoryAccess = true)
    (hshaped : Node.Shaped ⟨op, ty, inputs, [], false⟩) (hbase : inputs[0]? = some base) :
    b.Later b' where
  ready := by
    refine ⟨h.made, h.chainsEnd hb.made hb.ends ?_, h.based hb.based fun _ => ⟨hshaped, ?_⟩,
      h.formed hb.formed ?_ ?_, ?_⟩
    · rintro _ ⟨⟩
      exact hprevious
    · rintro _ ⟨⟩
      exact hbase.symm
    · rintro rfl
      contradiction
    · rintro k rfl
      contradiction
    · obtain ⟨us, hn⟩ := h.node
      rw [hcursor]
      exact ⟨_, hn⟩
  extend := h.extend

end Builder.Ready

namespace BuildM

variable {F : Fault → Prop} {b b' : Builder} {id base value : NodeId} {node : Node} {op : Op}
  {inputs : List NodeId} {t ty : Ty} {i offset : Nat}

theorem create_later (op : Op) (hb : b.Ready) (hin : ∀ x ∈ inputs, b.graph.Has x)
    (hop : op.isMemoryAccess = false ∧ ∀ k, op ≠ .addressOf k)
    (hbuild : op = .build →
      ∀ {n : Nat} {m : Ty}, (ty.stamp b.graph.origins).1.members[n]? = some m →
      ∃ y, inputs[n]? = some y ∧ b.graph.At y fun _ t => t.shape = m.shape) :
    Does F b (create op ty inputs) fun id b' => b.Later b' ∧ b'.cursor = b.cursor ∧
      ∃ us, b'.graph.get? id = some ⟨op, (ty.stamp b.graph.origins).1, inputs, us, false⟩ := by
  refine (create_does hb.made op ty hin).imp fun id b' h => ?_
  obtain ⟨hb', hg⟩ := h
  have hcursor : b'.cursor = b.cursor := by rw [hb']
  exact ⟨hb.adds hg hcursor hop hbuild, hcursor, hg.node⟩

theorem addressError?_eq {g : Graph} (h : g.At base fun _ t => t.isPointer = true) :
    addressError? g base = .ok none := by
  obtain ⟨node, hn, hpointer⟩ := h
  refine bind_eq_ok_iff.2 ⟨node.ty, ty_of_get? hn, ?_⟩
  cases hty : node.ty <;> rw [hty] at hpointer <;> first | rfl | contradiction

theorem make_projection (hb : b.Ready) (hn : b.graph.get? value = some node)
    (hm : node.ty.members[i]? = some t) (herror : t.isError = false) :
    Does F b (make (.projection value i)) fun id b' => b.Later b' ∧ b'.cursor = b.cursor ∧
      (b'.graph.At id fun _ t' => t'.shape = t.shape) ∧
      ∀ m : b'.graph.Model, m.valuation.value id = m.part (m.valuation.value value) i := by
  have haggregate := Ty.isAggregate_of_mem_members (List.mem_of_getElem? hm)
  refine make_projection_does hn hm herror (fun hconst => ?_) (fun hop => ?_) ?_
  · refine (create_later .constant hb (List.forall_mem_nil _) (by simp [Op.isMemoryAccess])
      (by simp)).imp ?_
    rintro id b' ⟨hlater, hcursor, us, hid⟩
    refine ⟨hlater, hcursor, ⟨_, hid, Ty.shape_congr (Ty.plain_stamp _ t)⟩, fun m => ?_⟩
    obtain ⟨vs, hvs⟩ := hlater.extend.node hn
    have hpart := m.has_part (m.models.typed hvs) hm
    exact (m.has_unique (Ty.plain_stamp _ t).symm hconst hpart (m.models.typed hid)).symm
  · obtain ⟨y, hy, hat⟩ := hb.formed.build hn hop hm
    exact ⟨y, hy, ⟨hb, .refl _⟩, rfl, hat, fun m => (m.build hn hop hy).symm⟩
  · refine (create_later (.projection i) hb (List.forall_mem_singleton.2 ⟨node, hn⟩)
      (by simp [Op.isMemoryAccess]) (by simp)).imp ?_
    rintro id b' ⟨hlater, hcursor, us, hid⟩
    refine ⟨hlater, hcursor, ⟨_, hid, Ty.shape_congr (Ty.plain_stamp _ t)⟩, fun m => ?_⟩
    exact m.projection hid rfl rfl (hlater.extend.keeps.at ⟨node, hn, haggregate⟩)

theorem make_store (hb : b.Ready) (hbase : b.graph.At base fun _ t => t.isPointer = true)
    (hn : b.graph.get? value = some node) (herror : node.ty.isError = false) :
    Does F b (make (.store base offset value)) fun _ b' => b.Later b' ∧
      ∀ m : b'.graph.Model, m.valuation.memory b'.cursor.memory =
        (m.machine.storing (m.machine.address (m.valuation.value base) + offset) node.ty
          (m.valuation.value value)).act (m.valuation.memory b.cursor.memory) := by
  have hinfer : (Request.store base offset value).infer b.graph = .ok .memory := by
    refine bind_eq_ok_iff.2
      ⟨none, addressError?_eq hbase, bind_eq_ok_iff.2 ⟨node.ty, ty_of_get? hn, ?_⟩⟩
    cases hty : node.ty <;> rw [hty] at herror <;> first | rfl | contradiction
  refine make_emits hinfer rfl ?_
  change Does F b (emitStore base offset value .memory) _
  refine (memoryTag_does hbase.has).bind ?_
  rintro tag b rfl
  have hin : ∀ x ∈ [base, value], b.graph.Has x :=
    List.forall_mem_cons.2 ⟨hbase.has, List.forall_mem_singleton.2 ⟨node, hn⟩⟩
  refine (create_does hb.made (.store offset) .memory hin).bind ?_
  rintro id b1 ⟨hb1, hg⟩
  have hcursor : b1.cursor = b.cursor := by rw [hb1]
  refine (threadMemory_grows hg (hcursor ▸ hb.cursor) hbase.has).bind fun _ b2 h2 => ?_
  obtain ⟨hid, hg⟩ := h2
  rw [hcursor] at hg
  have hlater := hb.threads hid hg hb.cursor rfl (Nat.le_refl 2) rfl
  refine .pure ⟨hlater, fun m => ?_⟩
  obtain ⟨us, hstore⟩ := hg.node
  obtain ⟨vs, hvs⟩ := hlater.extend.node hn
  have heq := m.models.equation hstore
  have hpatch : b2.graph.patch? m.valuation
      ⟨.store offset, (Ty.memory.stamp b.graph.origins).1, [base, value], us, false⟩ = some
      (m.machine.storing (m.machine.address (m.valuation.value base) + offset) node.ty
        (m.valuation.value value)) := by
    simp [patch?, hvs]
  unfold Equation at heq
  rw [hpatch, before?_eq_some_iff.2 ⟨_, hg.effect, rfl⟩] at heq
  rw [hid]
  exact heq.2

theorem make_load (hb : b.Ready) (hbase : b.graph.At base fun _ t => t.isPointer = true)
    (herror : ty.isError = false) :
    Does F b (make (.load base offset ty)) fun id b' => b.Later b' ∧
      (b'.graph.At id fun _ t => t.shape = ty.shape) ∧ ∀ m : b'.graph.Model,
        m.valuation.value id = m.machine.valueAt ty
          (m.machine.address (m.valuation.value base) + offset)
          (m.valuation.memory b.cursor.memory) ∧
        m.valuation.memory b'.cursor.memory = m.valuation.memory b.cursor.memory := by
  have hbottom : ty.bottom.isError = false := by
    rw [← herror]
    exact Ty.isError_congr Ty.shape_bottom
  have hinfer : (Request.load base offset ty).infer b.graph = .ok ty.bottom :=
    bind_eq_ok_iff.2 ⟨none, addressError?_eq hbase, rfl⟩
  refine make_emits hinfer hbottom ?_
  change Does F b (emitLoad base offset ty.bottom) _
  refine (emitLoad_does hb.made hb.ends hb.based hbase.has hb.cursor offset ty.bottom).imp ?_
  rintro id b' ⟨hid, hreads⟩
  have hvalues (hlater : b.Later b') (m : b'.graph.Model) :
      m.valuation.value id = m.machine.valueAt ty
          (m.machine.address (m.valuation.value base) + offset)
          (m.valuation.memory b.cursor.memory) ∧
        m.valuation.memory b'.cursor.memory = m.valuation.memory b.cursor.memory := by
    have hmodels := m.models.restrict hb.made hlater.extend
    obtain ⟨hvalue, hmemory⟩ := hreads _ _ _ m.readsBack hmodels fun _ hn => m.models.equation hn
    refine ⟨?_, hmemory⟩
    rw [hvalue, Machine.valueAt, Machine.valueAt,
      m.readsBack.decode_eq (Ty.sameShape_iff.2 Ty.shape_bottom)]
  rcases hid with ⟨rfl, hat⟩ | ⟨hcursor, last, tag, hlast, hg⟩
  · have hlater : b'.Later b' := ⟨hb, .refl _⟩
    refine ⟨hlater, hat.mono fun _ t h => ?_, hvalues hlater⟩
    exact (Ty.sameShape_iff.1 h).trans Ty.shape_bottom
  · have hlater := hb.threads hcursor hg hlast rfl (Nat.le_refl 1) rfl
    obtain ⟨us, hn⟩ := hg.node
    refine ⟨hlater, ⟨_, hn, ?_⟩, hvalues hlater⟩
    exact (Ty.shape_congr (Ty.plain_stamp _ _)).trans Ty.shape_bottom

theorem make_build {T : Ty} {ids : List NodeId} (hb : b.Ready) (hT : T.Sized)
    (haggregate : T.isAggregate = true)
    (hids : List.Forall₂ (fun id t => b.graph.At id fun _ t' => t'.shape = t.shape) ids T.members) :
    Does F b (make (.build T.bottom ids)) fun id b' => b.Later b' ∧ b'.cursor = b.cursor ∧
      (b'.graph.At id fun _ t => t.shape = T.shape) ∧
      ∀ m : b'.graph.Model, ∀ {i : Nat} {x : NodeId},
        ids[i]? = some x → m.part (m.valuation.value id) i = m.valuation.value x := by
  obtain ⟨us, hus, hshapes⟩ := exists_typed_map hids
  have hlength : us.length = T.members.length := by simpa using congrArg List.length hshapes
  obtain ⟨hmembers, hshape⟩ := hT.withMembers haggregate hshapes
  have hno : us.any Ty.isError = false := by
    refine List.any_eq_false.2 fun u hu => ?_
    obtain ⟨t, ht, heq⟩ :=
      List.mem_map.1 (hshapes ▸ List.mem_map_of_mem hu : u.shape ∈ T.members.map _)
    rw [← Ty.isError_congr heq, (hT.members ht).isError]
    exact Bool.false_ne_true
  refine make_build_does haggregate hus hno hlength (fun hconst => ?_) ?_
  · refine (create_later .constant hb (List.forall_mem_nil _) (by simp [Op.isMemoryAccess])
      nofun).imp ?_
    rintro id b' ⟨hlater, hcursor, vs, hid⟩
    refine ⟨hlater, hcursor, ⟨_, hid, (Ty.shape_congr (Ty.plain_stamp _ _)).trans hshape⟩, ?_⟩
    intro m i x hx
    have hi : i < us.length := by
      rw [hlength, ← hids.length_eq]
      exact (List.getElem?_eq_some_iff.1 hx).1
    have hu : (T.withMembers us).members[i]? = some us[i] := by
      rw [hmembers]
      exact List.getElem?_eq_getElem hi
    obtain ⟨x', hx', hx''⟩ := hus.getElem? (List.getElem?_eq_getElem hi)
    obtain ⟨node, hn, hty⟩ := ty_eq_ok_iff.1 hx''
    obtain rfl := Option.mem_unique hx hx'
    obtain ⟨u', hu', hplain⟩ :=
      Ty.getElem?_members Ty.members_plain (Ty.plain_stamp b.graph.origins _) hu
    have hmember :=
      (Ty.isConstant_iff_members ((Ty.isAggregate_congr hshape).trans haggregate)).1 hconst
      us[i] (List.mem_of_getElem? hu)
    obtain ⟨ws, hws⟩ := hlater.extend.node hn
    have hvalue := m.models.typed hws
    exact (m.has_unique hplain.symm hmember (hty ▸ hvalue)
      (m.has_part (m.models.typed hid) hu')).symm
  · refine (create_later .build hb (fun x hx => (hus.at x hx).has) (by simp [Op.isMemoryAccess])
      ?_).imp ?_
    · intro _ i m hm
      obtain ⟨u, hu, hplain⟩ := Ty.getElem?_members Ty.members_plain (Ty.plain_stamp _ _).symm hm
      obtain ⟨x, hx, hty⟩ := hus.getElem? (hmembers ▸ hu)
      obtain ⟨node, hn, rfl⟩ := ty_eq_ok_iff.1 hty
      exact ⟨x, hx, node, hn, Ty.shape_congr hplain⟩
    · rintro id b' ⟨hlater, hcursor, vs, hid⟩
      refine ⟨hlater, hcursor, ⟨_, hid, (Ty.shape_congr (Ty.plain_stamp _ _)).trans hshape⟩, ?_⟩
      exact fun m _ _ hx => m.build hid rfl hx

end BuildM

/-! ### Addresses -/

namespace Graph

/-- What an address stands for: the pointer to a member is an offset away from its base. -/
inductive Resolves (g : Graph) (base : NodeId) (offset : Nat) : NodeId → Nat → Prop where
  | member {node : Node} {k : Nat} {inner : NodeId} : g.get? base = some node →
    node.op = .addressOf k → node.inputs[0]? = some inner → offset + k ≤ maxOffset →
    Resolves g base offset inner (offset + k)
  | whole {node : Node} : g.get? base = some node → (∀ k, node.op ≠ .addressOf k) →
    Resolves g base offset base offset

/-- All offsets are small enough that come up while a value is stored or loaded. -/
inductive Spans (g : Graph) : NodeId → Nat → Ty → Prop where
  | scalar {base inner : NodeId} {offset n : Nat} {t : Ty} : t.isAggregate = false →
    g.Resolves base offset inner n → Spans g base offset t
  | aggregate {base inner : NodeId} {offset n : Nat} {t : Ty} : t.isAggregate = true →
    g.Resolves base offset inner n →
    (∀ x ∈ t.exactOffsets.zip t.members, n + x.1 ≤ maxOffset) →
    (∀ x ∈ t.exactOffsets.zip t.members, Spans g inner (n + x.1) x.2) → Spans g base offset t

variable {g g' : Graph} {base inner inner' : NodeId} {offset n n' : Nat} {t : Ty}

theorem Resolves.extend (h : g.Resolves base offset inner n) (he : Extends g g') :
    g'.Resolves base offset inner n := by
  cases h with
  | member hn hop hinner hle =>
    obtain ⟨us, hus⟩ := he.node hn
    exact .member hus hop hinner hle
  | whole hn hop =>
    obtain ⟨us, hus⟩ := he.node hn
    exact .whole hus hop

theorem Spans.extend (h : g.Spans base offset t) (he : Extends g g') : g'.Spans base offset t := by
  induction h with
  | scalar ht hres => exact .scalar ht (hres.extend he)
  | aggregate ht hres hle _ ih => exact .aggregate ht (hres.extend he) hle ih

theorem Resolves.unique (h : g.Resolves base offset inner n)
    (h' : g.Resolves base offset inner' n') :
    inner = inner' ∧ n = n' := by
  cases h with
  | member hn hop hinner _ =>
    cases h' with
    | member hn' hop' hinner' _ =>
      obtain rfl := Option.mem_unique hn hn'
      rw [hop] at hop'
      obtain rfl := Op.addressOf.inj hop'
      exact ⟨Option.mem_unique hinner hinner', rfl⟩
    | whole hn' hop' =>
      obtain rfl := Option.mem_unique hn hn'
      exact absurd hop (hop' _)
  | whole hn hop =>
    cases h' with
    | member hn' hop' _ _ =>
      obtain rfl := Option.mem_unique hn hn'
      exact absurd hop' (hop _)
    | whole => exact ⟨rfl, rfl⟩

theorem Spans.resolves (h : g.Spans base offset t) : ∃ inner n, g.Resolves base offset inner n := by
  cases h with
  | scalar _ hres => exact ⟨_, _, hres⟩
  | aggregate _ hres _ _ => exact ⟨_, _, hres⟩

theorem Spans.members (h : g.Spans base offset t) (haggregate : t.isAggregate = true)
    (hres : g.Resolves base offset inner n) :
    ∀ x ∈ t.exactOffsets.zip t.members, n + x.1 ≤ maxOffset ∧ g.Spans inner (n + x.1) x.2 := by
  cases h with
  | scalar h _ => simp [h] at haggregate
  | aggregate _ hres' hles hspans =>
    obtain ⟨rfl, rfl⟩ := hres'.unique hres
    exact fun x hx => ⟨hles x hx, hspans x hx⟩

theorem Spans.restrict (h : g'.Spans base offset t) (hf : g.Formed) (he : Extends g g')
    (hbase : g.Has base) : g.Spans base offset t := by
  have hback : ∀ {base inner : NodeId} {offset n : Nat}, g'.Resolves base offset inner n →
    g.Has base →
      g.Resolves base offset inner n ∧ g.Has inner := by
    rintro base inner offset n h ⟨node, hn⟩
    obtain ⟨us, hus⟩ := he.node hn
    cases h with
    | member hn' hop hinner hle =>
      obtain rfl := Option.mem_unique hus hn'
      obtain ⟨y, hy, hat⟩ := hf.addressOf hn hop
      exact ⟨.member hn hop hinner hle, Option.mem_unique hinner hy ▸ hat.has⟩
    | whole hn' hop =>
      obtain rfl := Option.mem_unique hus hn'
      exact ⟨.whole hn hop, node, hn⟩
  induction h with
  | scalar ht hres => exact .scalar ht (hback hres hbase).1
  | aggregate ht hres hles _ ih =>
    exact .aggregate ht (hback hres hbase).1 hles fun x hx => ih x hx (hback hres hbase).2

theorem Spans.member {node : Node} {k : Nat} {inner : NodeId} (h : g.Spans inner (offset + k) t)
    (hn : g.get? base = some node) (hop : node.op = .addressOf k)
    (hinner : node.inputs[0]? = some inner)
    (hle : offset + k ≤ maxOffset) : g.Spans base offset t := by
  generalize hsum : offset + k = sum at h
  induction h generalizing base offset node k with
  | scalar ht _ => exact .scalar ht (.member hn hop hinner hle)
  | aggregate ht hres hles hspans ih =>
    subst hsum
    refine .aggregate ht (.member hn hop hinner hle) (fun x hx => ?_) fun x hx => ?_
    · have := hles x hx
      cases hres with
      | member => omega
      | whole => exact this
    · have hx' := hles x hx
      cases hres with
      | member hn' hop' hinner' _ => exact ih x hx hn' hop' hinner' (by omega) (by omega)
      | whole => exact hspans x hx

namespace Model

/-- The address of a place. -/
def place (m : g.Model) (base : NodeId) (offset : Nat) : Nat :=
  m.machine.address (m.valuation.value base) + offset

theorem place_eq (m : g.Model) (h : g.Resolves base offset inner n) :
    m.place base offset = m.place inner n := by
  cases h with
  | member hn hop hinner _ =>
    rw [place, place, m.addressOf hn hop hinner]
    omega
  | whole => rfl

end Model

theorem Formed.resolves (hf : g.Formed) (h : g.Resolves base offset inner n)
    (hbase : g.At base fun _ t => t.isPointer = true) :
    g.At inner fun _ t => t.isPointer = true := by
  cases h with
  | member hn hop hinner _ =>
    obtain ⟨y, hy, hat⟩ := hf.addressOf hn hop
    exact Option.mem_unique hinner hy ▸ hat
  | whole => exact hbase

end Graph

namespace BuildM

variable {F : Fault → Prop} {b : Builder} {base inner value : NodeId} {offset n : Nat} {T V : Ty}
  {os : List Nat} {ts : List Ty}

theorem addOffset_does {a c : Nat} (hF : F .tooLarge ∨ a + c ≤ maxOffset) :
    Does F b (liftM (addOffset a c) : BuildM Nat) fun k b' => b' = b ∧ k = a + c ∧
      k ≤ maxOffset := by
  refine .lift ?_
  by_cases hle : a + c ≤ maxOffset
  · exact .of_eq (addOffset_eq_ok_iff.2 ⟨rfl, hle⟩) ⟨rfl, rfl, hle⟩
  · have hfault : addOffset a c = .error .tooLarge := by simp [addOffset, bounded?, hle, orTooLarge]
    rw [hfault]
    exact hF.resolve_right hle

theorem resolveAddress_does (hb : b.Ready) (hbase : b.graph.Has base)
    (hF : F .tooLarge ∨ ∃ inner n, b.graph.Resolves base offset inner n) :
    Does F b (resolveAddress base offset) fun r b' => b' = b ∧
      b.graph.Resolves base offset r.1 r.2 := by
  obtain ⟨node, hn⟩ := hbase
  refine look_bind (op_of_get? hn) ?_
  split
  · rename_i k hop
    obtain ⟨y, hy, -⟩ := hb.formed.addressOf hn hop
    refine look_bind (a := y) (bind_eq_ok_iff.2 ⟨node, node_eq_ok_iff.2 hn, by simp only [hy]⟩) ?_
    have hle : F .tooLarge ∨ offset + k ≤ maxOffset := by
      refine hF.imp_right fun ⟨inner, n, h⟩ => ?_
      cases h with
      | member hn' hop' _ hle =>
        obtain rfl := Option.mem_unique hn hn'
        exact Op.addressOf.inj (hop.symm.trans hop') ▸ hle
      | whole hn' hop' =>
        obtain rfl := Option.mem_unique hn hn'
        exact absurd hop (hop' k)
    refine (addOffset_does hle).bind ?_
    rintro n b' ⟨rfl, rfl, hle⟩
    exact .pure ⟨rfl, .member hn hop hy hle⟩
  · exact .pure ⟨rfl, .whole hn ‹_›⟩

/-! ### Stores -/

theorem storeValue_of_scalar (h : T.isAggregate = false) : storeValue base offset value T =
    resolveAddress base offset >>= fun r => storeScalar r.1 r.2 value := by
  cases T <;> first | contradiction | rfl

theorem storeValue_of_aggregate (h : T.isAggregate = true) : storeValue base offset value T =
    storeAggregate base offset T value fun b o offsets =>
      storeMembers b o value 0 T.members offsets := by
  cases T <;> first | contradiction | rfl

/-- What storing a value of a type does: memory is filled with its scalars, unless an offset is too
large. -/
def Stores (T : Ty) : Prop :=
  ∀ {F : Fault → Prop} {b : Builder} {base value : NodeId} {offset : Nat}, b.Ready →
    (b.graph.At base fun _ t => t.isPointer = true) →
    (b.graph.At value fun _ t => t.shape = T.shape) →
    (F .tooLarge ∨ b.graph.Spans base offset T) →
    Does F b (storeValue base offset value T) fun _ b' => b.Later b' ∧ b.graph.Spans base offset T ∧
      ∀ m : b'.graph.Model, Machine.Fills (T.spots (m.place base offset))
        (m.place base offset) (m.place base offset + T.bytes)
        (T.leaves m.part (m.valuation.value value))
        (m.valuation.memory b.cursor.memory) (m.valuation.memory b'.cursor.memory)

theorem stores_scalar (h : T.isAggregate = false) (herror : T.isError = false) : Stores T := by
  intro F b base value offset hb hbase hvalue hF
  rw [storeValue_of_scalar h]
  refine (resolveAddress_does hb hbase.has (hF.imp_right Spans.resolves)).bind ?_
  rintro ⟨inner, n⟩ b ⟨rfl, hres⟩
  obtain ⟨node, hn, hshape⟩ := hvalue
  have hinner := hb.formed.resolves hres hbase
  refine (make_store hb hinner hn ((Ty.isError_congr hshape).trans herror)).bind fun id b' h' => ?_
  obtain ⟨hlater, hmemory⟩ := h'
  refine .pure ⟨hlater, .scalar h hres, fun m => ?_⟩
  obtain ⟨us, hus⟩ := hlater.extend.node hn
  have htyped := m.models.typed hus
  rw [m.place_eq (hres.extend hlater.extend), hmemory, Ty.leaves_of_scalar h]
  exact m.readsBack.fills h hshape htyped _ _

theorem storeMembers_does {i lo hi : Nat} (hts : ∀ t ∈ ts, t.Sized ∧ Stores t)
    (hlength : os.length = ts.length) (hspread : Ty.Spread lo (os.zip ts) hi) (hb : b.Ready)
    (hbase : b.graph.At base fun _ t => t.isPointer = true)
    (hvalue : b.graph.At value fun _ t => t = V)
    (hV : ∀ j : Nat, V.members[i + j]?.map Ty.shape = ts[j]?.map Ty.shape)
    (hF : F .tooLarge ∨ ∀ x ∈ os.zip ts, n + x.1 ≤ maxOffset ∧ b.graph.Spans base (n + x.1) x.2) :
    Does F b (storeMembers base n value i ts os) fun _ b' => b.Later b' ∧
      (∀ x ∈ os.zip ts, n + x.1 ≤ maxOffset ∧ b.graph.Spans base (n + x.1) x.2) ∧
      ∀ m : b'.graph.Model, Machine.Fills (Ty.spotsOf (m.place base n) os ts) (m.place base n + lo)
        (m.place base n + hi) (Ty.leavesOf m.part (m.valuation.value value) i ts)
        (m.valuation.memory b.cursor.memory) (m.valuation.memory b'.cursor.memory) := by
  induction ts generalizing os b i lo with
  | nil =>
    obtain rfl := List.length_eq_zero_iff.1 hlength
    exact .pure ⟨⟨hb, .refl _⟩, List.forall_mem_nil _, fun m => ⟨fun _ _ => rfl, rfl⟩⟩
  | cons t ts ih =>
    cases os with
    | nil => contradiction
    | cons o os =>
      obtain ⟨⟨ht, hstores⟩, hts⟩ := List.forall_mem_cons.1 hts
      obtain ⟨member, hmember, hshape⟩ := Option.map_eq_some_iff.1 (hV 0)
      obtain ⟨node, hn, rfl⟩ := hvalue
      have herror := (Ty.isError_congr hshape).trans ht.isError
      have hhead : F .tooLarge ∨ n + o ≤ maxOffset ∧ b.graph.Spans base (n + o) t :=
        hF.imp_right fun h => h (o, t) (.head _)
      refine (make_projection hb hn hmember herror).bind fun id b1 h1 => ?_
      obtain ⟨h1, hcursor, hid, hpart⟩ := h1
      refine (addOffset_does (hhead.imp_right And.left)).bind ?_
      rintro _ b1 ⟨rfl, rfl, hle⟩
      refine (hstores h1.ready (h1.extend.keeps.at hbase) (hid.mono fun _ _ h => h.trans hshape)
        (hhead.imp_right fun h => h.2.extend h1.extend)).bind fun _ b2 h2 => ?_
      obtain ⟨h2, hspans, hfills⟩ := h2
      have h12 := h1.trans h2
      refine (ih hts (Nat.succ.inj hlength) hspread.2 h2.ready (h12.extend.keeps.at hbase)
        (h12.extend.keeps.at ⟨node, hn, rfl⟩) (fun j => ?_) ?_).imp fun _ b3 h3 => ?_
      · rw [Nat.add_right_comm]
        exact hV (j + 1)
      · exact hF.imp_right fun h x hx => (h x (.tail _ hx)).imp_right fun hs => hs.extend h12.extend
      obtain ⟨h3, hspans', hfills'⟩ := h3
      -- The place is spanned in the graph from before the stores, since these add no addresses to it.
      refine ⟨h12.trans h3, List.forall_mem_cons.2
        ⟨⟨hle, hspans.restrict hb.formed h1.extend hbase.has⟩,
        fun x hx => (hspans' x hx).imp_right fun hs => hs.restrict hb.formed h12.extend hbase.has⟩,
        fun m => ?_⟩
      have hvalue : m.valuation.value id = m.part (m.valuation.value value) i :=
        hpart (m.restrict h1.ready.made (h2.trans h3).extend)
      have hhead := hfills (m.restrict h2.ready.made h3.extend)
      have hplace : (m.restrict h2.ready.made h3.extend).place base (n + o) = m.place base n + o :=
        (Nat.add_assoc ..).symm
      have hstart : (m.restrict h2.ready.made h3.extend).valuation = m.valuation := rfl
      rw [hplace, hstart, hvalue] at hhead
      have hspots := ht.spread_spots (m.place base n + o)
      have hscalars := ht.isAggregate_of_mem (m.place base n + o)
      have htail := hfills' m
      rw [← Nat.add_assoc] at htail
      have hle' : m.place base n + o + t.bytes ≤ m.place base n + hi := by
        have := hspread.2.bounds.1
        omega
      have hlo := hspread.1
      rw [hcursor] at hhead
      -- The other members lie behind the first one, so that their stores leave it alone.
      refine (hhead.append htail (Nat.le_add_right _ _) hle' fun spot hspot => ?_).mono_left ?_
      · exact ⟨hscalars spot hspot, (hspots.bounds.2 spot hspot).2⟩
      · exact Nat.add_le_add_left hlo _

theorem stores_sized (hT : T.Sized) : Stores T := by
  refine Ty.Sized.induction (P := Stores) (fun _ => stores_scalar) ?_ hT
  intro T hT haggregate hmembers F b base value offset hb hbase hvalue hF
  have hlaid := hT.laidOut
  rw [storeValue_of_aggregate haggregate]
  refine (resolveAddress_does hb hbase.has (hF.imp_right Spans.resolves)).bind ?_
  rintro ⟨inner, n⟩ b ⟨rfl, hres⟩
  obtain ⟨node, hn, hshape⟩ := hvalue
  refine look_bind (ty_of_get? hn) ?_
  rw [if_neg (by rw [Ty.isError_congr hshape, hT.isError]; exact Bool.false_ne_true)]
  refine Does.bind (Q := fun os b' => os = T.exactOffsets ∧ b' = b) (.lift ?_) ?_
  · rw [hlaid.offsets]
    exact ⟨rfl, rfl⟩
  rintro _ b ⟨rfl, rfl⟩
  refine (storeMembers_does (fun t ht => ⟨hT.members ht, hmembers t ht⟩) hlaid.length
    hlaid.spread hb (hb.formed.resolves hres hbase) ⟨node, hn, rfl⟩ (fun j => ?_)
    (hF.imp_right fun h => h.members haggregate hres)).imp fun _ b' h => ?_
  · have heq : node.ty.members.map Ty.shape = T.members.map Ty.shape := by
      rw [← Ty.members_shape, hshape, Ty.members_shape]
    rw [Nat.zero_add, ← List.getElem?_map, heq, List.getElem?_map]
  obtain ⟨hlater, hspans, hfills⟩ := h
  refine ⟨hlater, .aggregate haggregate hres (fun x hx => (hspans x hx).1)
    fun x hx => (hspans x hx).2, fun m => ?_⟩
  rw [m.place_eq (hres.extend hlater.extend), Ty.spots_of_aggregate hlaid haggregate,
    Ty.leaves_of_aggregate haggregate]
  exact hfills m

/-! ### Loads -/

theorem loadValue_of_scalar (h : T.isAggregate = false) : loadValue base offset T =
    resolveAddress base offset >>= fun r => make (.load r.1 r.2 T) := by
  cases T <;> first | contradiction | rfl

theorem loadValue_of_aggregate (h : T.isAggregate = true) : loadValue base offset T =
    loadAggregate base offset T fun b o offsets => loadMembers b o T.members offsets := by
  cases T <;> first | contradiction | rfl

/-- What loading a value of a type does: its scalars are those that memory has, and memory stays as
it is. An offset can only be too large if the value was not stored there. -/
def Loads (T : Ty) : Prop :=
  ∀ {F : Fault → Prop} {b : Builder} {base : NodeId} {offset : Nat}, b.Ready →
    (b.graph.At base fun _ t => t.isPointer = true) → (F .tooLarge ∨ b.graph.Spans base offset T) →
    Does F b (loadValue base offset T) fun id b' => b.Later b' ∧
      (b'.graph.At id fun _ t => t.shape = T.shape) ∧ ∀ m : b'.graph.Model,
        T.leaves m.part (m.valuation.value id) =
          m.machine.valuesAt (T.spots (m.place base offset)) (m.valuation.memory b.cursor.memory) ∧
        m.valuation.memory b'.cursor.memory = m.valuation.memory b.cursor.memory

theorem loads_scalar (h : T.isAggregate = false) (herror : T.isError = false) : Loads T := by
  intro F b base offset hb hbase hF
  rw [loadValue_of_scalar h]
  refine (resolveAddress_does hb hbase.has (hF.imp_right Spans.resolves)).bind ?_
  rintro ⟨inner, n⟩ b ⟨rfl, hres⟩
  refine (make_load hb (hb.formed.resolves hres hbase) herror).imp fun id b' h' => ?_
  obtain ⟨hlater, hat, hvalues⟩ := h'
  refine ⟨hlater, hat, fun m => ?_⟩
  obtain ⟨hvalue, hmemory⟩ := hvalues m
  rw [m.place_eq (hres.extend hlater.extend), Ty.leaves_of_scalar h, Ty.spots_of_scalar h, hvalue]
  exact ⟨rfl, hmemory⟩

theorem loadMembers_does (hts : ∀ t ∈ ts, Loads t) (hlength : os.length = ts.length) (hb : b.Ready)
    (hbase : b.graph.At base fun _ t => t.isPointer = true)
    (hF : F .tooLarge ∨ ∀ x ∈ os.zip ts, n + x.1 ≤ maxOffset ∧ b.graph.Spans base (n + x.1) x.2) :
    Does F b (loadMembers base n ts os) fun ids b' => b.Later b' ∧
      List.Forall₂ (fun id t => b'.graph.At id fun _ t' => t'.shape = t.shape) ids ts ∧
      ∀ m : b'.graph.Model, (∀ {y : m.machine.Value} {i : Nat}, (∀ {j : Nat} {x : NodeId},
        ids[j]? = some x → m.part y (i + j) = m.valuation.value x) → Ty.leavesOf m.part y i ts =
          m.machine.valuesAt (Ty.spotsOf (m.place base n) os ts)
            (m.valuation.memory b.cursor.memory)) ∧
        m.valuation.memory b'.cursor.memory = m.valuation.memory b.cursor.memory := by
  induction ts generalizing os b with
  | nil =>
    obtain rfl := List.length_eq_zero_iff.1 hlength
    exact .pure ⟨⟨hb, .refl _⟩, .nil, fun m => ⟨fun _ => rfl, rfl⟩⟩
  | cons t ts ih =>
    cases os with
    | nil => contradiction
    | cons o os =>
      obtain ⟨hloads, hts⟩ := List.forall_mem_cons.1 hts
      have hhead : F .tooLarge ∨ n + o ≤ maxOffset ∧ b.graph.Spans base (n + o) t :=
        hF.imp_right fun h => h (o, t) (.head _)
      refine (addOffset_does (hhead.imp_right And.left)).bind ?_
      rintro _ b ⟨rfl, rfl, -⟩
      refine (hloads hb hbase (hhead.imp_right And.right)).bind fun id b1 h1 => ?_
      obtain ⟨h1, hid, hvalues⟩ := h1
      refine (ih hts (Nat.succ.inj hlength) h1.ready (h1.extend.keeps.at hbase) ?_).bind
        fun ids b2 h2 => ?_
      · exact hF.imp_right fun h x hx => (h x (.tail _ hx)).imp_right fun hs => hs.extend h1.extend
      obtain ⟨h2, hids, hvalues'⟩ := h2
      refine .pure ⟨h1.trans h2, .cons (h2.extend.keeps.at hid) hids, fun m => ?_⟩
      obtain ⟨hleaves, hmemory⟩ := hvalues (m.restrict h1.ready.made h2.extend)
      obtain ⟨hleaves', hmemory'⟩ := hvalues' m
      refine ⟨fun {y i} hy => ?_, hmemory'.trans hmemory⟩
      have hfirst : m.part y i = m.valuation.value id := hy (j := 0) rfl
      have hrest := hleaves' (y := y) (i := i + 1) fun {j x} hx => by
        rw [Nat.add_right_comm]
        exact hy (j := j + 1) hx
      have hplace : (m.restrict h1.ready.made h2.extend).place base (n + o) = m.place base n + o :=
        (Nat.add_assoc ..).symm
      rw [hplace] at hleaves
      rw [Ty.leavesOf, Ty.spotsOf, Machine.valuesAt_append, hfirst, hrest]
      exact congrArg₂ (· ++ ·) hleaves (congrArg _ hmemory)

theorem loads_sized (hT : T.Sized) : Loads T := by
  refine Ty.Sized.induction (P := Loads) (fun _ => loads_scalar) ?_ hT
  intro T hT haggregate hmembers F b base offset hb hbase hF
  have hlaid := hT.laidOut
  rw [loadValue_of_aggregate haggregate]
  refine (resolveAddress_does hb hbase.has (hF.imp_right Spans.resolves)).bind ?_
  rintro ⟨inner, n⟩ b ⟨rfl, hres⟩
  refine Does.bind (Q := fun os b' => os = T.exactOffsets ∧ b' = b) (.lift ?_) ?_
  · rw [hlaid.offsets]
    exact ⟨rfl, rfl⟩
  rintro _ b ⟨rfl, rfl⟩
  refine (loadMembers_does hmembers hlaid.length hb (hb.formed.resolves hres hbase)
    (hF.imp_right fun h => h.members haggregate hres)).bind fun ids b1 h1 => ?_
  obtain ⟨h1, hids, hvalues⟩ := h1
  refine (make_build h1.ready hT haggregate hids).imp fun id b2 h2 => ?_
  obtain ⟨h2, hcursor, hat, hparts⟩ := h2
  refine ⟨h1.trans h2, hat, fun m => ?_⟩
  obtain ⟨hleaves, hmemory⟩ := hvalues (m.restrict h1.ready.made h2.extend)
  rw [m.place_eq (hres.extend (h1.trans h2).extend), Ty.spots_of_aggregate hlaid haggregate,
    Ty.leaves_of_aggregate haggregate, hcursor]
  refine ⟨hleaves fun {j x} hx => ?_, hmemory⟩
  rw [Nat.zero_add]
  exact hparts m hx

/-! ### Round trip -/

theorem resolveAddress_eq (hb : b.Ready) (hbase : b.graph.Has base)
    (h : b.graph.Resolves base offset inner n) :
    resolveAddress base offset b = .ok ((inner, n), b) := by
  obtain ⟨⟨⟨inner', n'⟩, b'⟩, hrun, rfl, hres⟩ :=
    (resolveAddress_does (F := fun _ => False) hb hbase (.inr ⟨_, _, h⟩)).exists_ok
  obtain ⟨rfl, rfl⟩ := hres.unique h
  exact hrun

theorem runs_congr {base' : NodeId} {offset' : Nat}
    (h : resolveAddress base offset b = resolveAddress base' offset' b) (value : NodeId) (T : Ty) :
    storeValue base offset value T b = storeValue base' offset' value T b ∧
    loadValue base offset T b = loadValue base' offset' T b := by
  have hbind {α : Type} (f : NodeId × Nat → BuildM α) :
      (resolveAddress base offset >>= f) b = (resolveAddress base' offset' >>= f) b := by
    change (resolveAddress base offset b >>= fun r => f r.1 r.2) = _
    rw [h]
    rfl
  cases haggregate : T.isAggregate with
  | false =>
    rw [storeValue_of_scalar haggregate, storeValue_of_scalar haggregate,
      loadValue_of_scalar haggregate, loadValue_of_scalar haggregate]
    exact ⟨hbind _, hbind _⟩
  | true =>
    rw [storeValue_of_aggregate haggregate, storeValue_of_aggregate haggregate,
      loadValue_of_aggregate haggregate, loadValue_of_aggregate haggregate]
    exact ⟨hbind _, hbind _⟩

/-- A value that was stored is loaded again, scalar by scalar, through every pointer to its place,
and all other bytes are as they were. A pointer to a member serves as well as its base does with the
offset of the member. -/
theorem loadValue_storeValue {b' : Builder} (hT : T.Accepted) (hb : b.Ready)
    (hbase : b.graph.At base fun _ t => t.isPointer = true)
    (hvalue : b.graph.At value fun _ t => t.sameShape T = true)
    (hstore : storeValue base offset value T b = .ok ((), b')) :
    (∃ id b'', loadValue base offset T b' = .ok (id, b'')) ∧
    (∀ {other : NodeId} {k : Nat} {id : NodeId} {b'' : Builder},
      (b.graph.At other fun _ t => t.isPointer = true) → loadValue other k T b' = .ok (id, b'') →
      (b''.graph.At id fun _ t => t.sameShape T = true) ∧ ∀ m : b''.graph.Model,
        m.place other k = m.place base offset →
        T.leaves m.part (m.valuation.value id) = T.leaves m.part (m.valuation.value value) ∧
        m.valuation.memory b''.cursor.memory = m.valuation.memory b'.cursor.memory) ∧
    (∃ l, T.layout? = some l ∧ ∀ (m : b'.graph.Model) (a : Nat),
      a < m.place base offset ∨ m.place base offset + l.size ≤ a →
      m.valuation.memory b'.cursor.memory a = m.valuation.memory b.cursor.memory a) ∧
    ∀ {pointer : NodeId} {node : Node} {j k : Nat}, b.graph.get? pointer = some node →
      node.op = .addressOf k → node.inputs[0]? = some base → j + k = offset → offset ≤ maxOffset →
      (b.graph.At pointer fun _ t => t.isPointer = true) →
      (∀ m : b'.graph.Model, m.place pointer j = m.place base offset) ∧
      (∃ b'', storeValue pointer j value T b = .ok ((), b'')) ∧
      (∃ id b'', loadValue pointer j T b' = .ok (id, b'')) ∧
      ((∀ i, ¬ b.graph.At base fun op _ => op = .addressOf i) →
        storeValue pointer j value T b = .ok ((), b') ∧
        loadValue pointer j T b' = loadValue base offset T b') := by
  have hsized := hT.sized
  have hshape := hvalue.mono fun _ _ h => Ty.sameShape_iff.1 h
  obtain ⟨hlater, hspans, hfills⟩ :=
    (stores_sized hsized (F := AnyFault) hb hbase hshape (.inl trivial)).result hstore
  refine ⟨?_, ?_, ?_, ?_⟩
  · obtain ⟨⟨id, b''⟩, hrun, -⟩ := (loads_sized hsized (F := fun _ => False) hlater.ready
      (hlater.extend.keeps.at hbase) (.inr (hspans.extend hlater.extend))).exists_ok
    exact ⟨id, b'', hrun⟩
  · intro other k id b'' hother hload
    obtain ⟨hlater', hat, hvalues⟩ := (loads_sized hsized (F := AnyFault) hlater.ready
      (hlater.extend.keeps.at hother) (.inl trivial)).result hload
    refine ⟨hat.mono fun _ _ h => Ty.sameShape_iff.2 h, fun m hplace => ?_⟩
    obtain ⟨hleaves, hmemory⟩ := hvalues m
    rw [hplace] at hleaves
    exact ⟨hleaves.trans (hfills (m.restrict hlater.ready.made hlater'.extend)).inside, hmemory⟩
  · exact ⟨_, hsized.laidOut.layout, fun m a ha => (hfills m).outside a ha⟩
  · rintro pointer node j k hn hop hinput rfl hle hpointer
    have hres : b.graph.Resolves pointer j base (j + k) := .member hn hop hinput hle
    have hspans' := hspans.member hn hop hinput hle
    refine ⟨fun m => m.place_eq (hres.extend hlater.extend), ?_, ?_, fun hwhole => ?_⟩
    · obtain ⟨⟨u, b''⟩, hrun, -⟩ :=
        (stores_sized hsized (F := fun _ => False) hb hpointer hshape (.inr hspans')).exists_ok
      exact ⟨b'', hrun⟩
    · obtain ⟨⟨id, b''⟩, hrun, -⟩ := (loads_sized hsized (F := fun _ => False) hlater.ready
        (hlater.extend.keeps.at hpointer) (.inr (hspans'.extend hlater.extend))).exists_ok
      exact ⟨id, b'', hrun⟩
    · obtain ⟨root, hroot⟩ := hbase.has
      have hself : b.graph.Resolves base (j + k) base (j + k) :=
        .whole hroot fun i hi => hwhole i ⟨root, hroot, hi⟩
      have hstart := (resolveAddress_eq hb ⟨node, hn⟩ hres).trans
        (resolveAddress_eq hb hbase.has hself).symm
      have hend := (resolveAddress_eq hlater.ready (hlater.extend.keeps.has ⟨node, hn⟩)
        (hres.extend hlater.extend)).trans (resolveAddress_eq hlater.ready
          (hlater.extend.keeps.has hbase.has) (hself.extend hlater.extend)).symm
      exact ⟨(runs_congr hstart value T).1.trans hstore, (runs_congr hend value T).2⟩

/-! ### A pair of words -/

def word : Ty := .int .i64 .bottom

def pair : Ty := .tuple [word, word]

def pairParser : Parser := { lexer := .ofString "(i64, i64)", size := 10, promote := false }

theorem accepted_pair : pair.Accepted := by
  have htest : (match ParseM.type pairParser with
      | .ok t _ => t.isErrorFree && t == pair
      | _ => false) = true := by decide +kernel
  split at htest
  · rw [Bool.and_eq_true] at htest
    obtain rfl := (Ty.beq_iff_eq_of_isErrorFree htest.1 rfl).1 htest.2
    exact .type (fun _ _ _ hb => absurd hb Scope.not_binds_initial) ‹_›
  · contradiction

/-- Values are numbers, of which only zero is read from memory, and slots take no bytes. -/
def zeroMachine : Machine :=
  { wordMachine with
    decode := fun _ _ => (0 : Nat)
    decode_congr := fun _ => rfl
    slot := fun _ => (0 : Nat)
    slotSize := fun _ => 0
    slots_apart := fun _ => .inl (Nat.le_refl 0)
    renew_congr := fun h => h }

/-- A graph without pointers to members has a model: all its values are zero, and so is memory. -/
def zeroModel (g : Graph)
    (h : ∀ {x node k}, g.get? x = some node → node.op ≠ .addressOf k) : g.Model where
  machine := zeroMachine
  has _ x := x = (0 : Nat)
  part _ _ := (0 : Nat)
  valuation := ⟨fun _ => (0 : Nat), fun _ _ => (0 : Nat)⟩
  readsBack := ⟨fun _ => rfl, fun hx => hx.symm⟩
  has_part _ _ := rfl
  has_unique _ _ ha hb := ha.trans hb.symm
  models := by
    refine ⟨fun {x node} hn => ?_, fun _ => rfl⟩
    unfold Equation
    split
    · rename_i hpatch _
      unfold patch? at hpatch
      split at hpatch
      · cases hpatch
        exact ⟨rfl, (Machine.act_loading ..).symm⟩
      · obtain ⟨stored, -, rfl⟩ := Option.map_eq_some_iff.1 hpatch
        refine ⟨rfl, funext fun a => ?_⟩
        simp [Machine.Patch.act, Machine.storing, Machine.write, zeroMachine, wordMachine]
      · cases hpatch
        refine ⟨rfl, funext fun a => ?_⟩
        simp [Machine.Patch.act, Machine.allocating, Machine.write, zeroMachine, wordMachine]
      · contradiction
    · rfl
  projection _ _ _ _ := rfl
  build _ _ _ := rfl
  addressOf hn hop := absurd hop (h hn)

def pairGraph : Except Fault Graph :=
  Operation.runAll [.create .start .live [], .create .constant (.pointerTo pair) [],
    .create .constant pair []] .empty

theorem valueBuilder_ready {g : Graph} (hg : pairGraph = .ok g) (hstart : g.Has ⟨0, 0⟩)
    (hnodes : ∀ x ∈ g.ids, ∀ node ∈ g.get? x, (node.op = .start ∨ node.op = .constant) ∧
      g.memory[x]? = none) : (valueBuilder g).Ready := by
  have hmade : Made g := Made.empty.runAll hg
  have hops {x : NodeId} {node : Node} (hn : g.get? x = some node) :=
    (hnodes x (mem_ids hn) node hn).1
  refine ⟨hmade, chainsEnd_of_index hmade fun x hx e he => ?_, ⟨?_, ?_⟩, ⟨?_, ?_⟩, hstart⟩
  · obtain ⟨node, hn⟩ := mem_ids_iff.1 hx
    cases (hnodes x hx node hn).2.symm.trans he
  · intro x node hn haccess
    rcases hops hn with hop | hop <;> simp [hop, Op.isMemoryAccess] at haccess
  · intro x node e hn haccess
    rcases hops hn with hop | hop <;> simp [hop, Op.isMemoryAccess] at haccess
  · intro x node hn hop
    rcases hops hn with h | h <;> simp [h] at hop
  · intro x node k hn hop
    rcases hops hn with h | h <;> simp [h] at hop

/-- The operations of a graph where the pair is stored and loaded. -/
def pairOps : List Op :=
  [.start, .constant, .projection 0, .projection 1, .store 0, .store 8, .load 0, .build]

def pairChecks (g : Graph) : Bool :=
  decide (∀ x ∈ g.ids, ∀ node ∈ g.get? x, (node.op = .start ∨ node.op = .constant) ∧
    g.memory[x]? = none) &&
  (g.get? ⟨0, 0⟩).isSome && (g.get? ⟨1, 0⟩).any (·.ty.isPointer) &&
  (g.get? ⟨2, 0⟩).any (·.ty.sameShape pair) &&
  passes (fun r => passes (fun r =>
      decide (∀ x ∈ r.2.graph.ids, ∀ node ∈ r.2.graph.get? x, node.op ∈ pairOps))
      (loadValue ⟨1, 0⟩ 0 pair r.2))
    (storeValue ⟨1, 0⟩ 0 ⟨2, 0⟩ pair (valueBuilder g))

/-- A pair is stored and loaded. -/
theorem loadValue_storeValue_pair : ∃ g b' id b'', pairGraph = .ok g ∧ pair.Accepted ∧
    (valueBuilder g).Ready ∧ storeValue ⟨1, 0⟩ 0 ⟨2, 0⟩ pair (valueBuilder g) = .ok ((), b') ∧
    loadValue ⟨1, 0⟩ 0 pair b' = .ok (id, b'') ∧ ∃ m : b''.graph.Model,
      pair.leaves m.part (m.valuation.value id) =
        pair.leaves m.part (m.valuation.value ⟨2, 0⟩) := by
  have hchecks : passes pairChecks pairGraph = true := by decide +kernel
  obtain ⟨g, hg, hchecks⟩ := exists_ok_of_passes hchecks
  rw [pairChecks, Bool.and_eq_true] at hchecks
  obtain ⟨⟨⟨⟩, b'⟩, hs, hrest⟩ := exists_ok_of_passes hchecks.2
  obtain ⟨⟨id, b''⟩, hl, hrest⟩ := exists_ok_of_passes hrest
  simp only [Bool.and_eq_true, decide_eq_true_eq, Option.any_eq_true, ← has_iff_isSome]
    at hchecks hrest
  obtain ⟨⟨⟨hplain, hstart⟩, hbase⟩, hvalue⟩ := hchecks.1
  have hready := valueBuilder_ready hg hstart hplain
  obtain ⟨-, hsame, -⟩ := loadValue_storeValue accepted_pair hready hbase hvalue hs
  refine ⟨g, b', id, b'', hg, accepted_pair, hready, hs, hl,
    zeroModel b''.graph fun hn hop => ?_, ?_⟩
  · have hmem := hrest _ (mem_ids hn) _ hn
    simp [hop, pairOps] at hmem
  · exact ((hsame hbase hl).2 _ rfl).1

end BuildM

end SeaOfNodes
