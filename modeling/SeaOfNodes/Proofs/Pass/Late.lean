import SeaOfNodes.Proofs.Build.Formula
import SeaOfNodes.Proofs.Pass.Phi
import SeaOfNodes.Proofs.Pass.Worklist

/-!
Folding late agrees with folding early. A formula is built over constants, so that requests evaluate
it at once, and again over leaves of which only the types are known. When constants take the place
of those leaves, simplification brings whatever uses the formula to the same constant.
-/
namespace SeaOfNodes

open SeaOfNodes.Ty

namespace Graph

variable {R : Ty → Ty → Prop} {V : NodeId → Option Ty} {e value : Ty} {uses : NodeId → Nat → Prop}
  {stays : NodeId → Prop} {g g' : Graph} {x leaf : NodeId} {L leaves : List NodeId}

/-- Puts new constants in the place of nodes. -/
def settle : List (NodeId × Ty) → Graph → Except Fault Graph
  | [], g => .ok g
  | (leaf, value) :: rest, g => do
    let (id, g) ← g.create .constant value []
    let g ← g.replace leaf id
    settle rest g

/-- What is left of the operators `L` by which `x` computes `e` while constants take the place of
leaves: those that still have to are among `leaves`. -/
structure Awaits (R : Ty → Ty → Prop) (V : NodeId → Option Ty) (e : Ty)
    (uses : NodeId → Nat → Prop) (stays : NodeId → Prop) (leaves : List NodeId) (g : Graph)
    (x : NodeId) (L : List NodeId) : Prop where
  wellFormed : g.WellFormed
  registered : g.Registered
  has : ∀ {y f}, V y = some f → g.Has y
  gone : ∀ {y f}, V y = some f → y ∉ leaves → g.isLive y = false
  computes : Computes R V g [x] [e] L
  nodup : L.Nodup
  used : ∀ {c p}, uses c p → g.Uses c p x
  kept : ∀ {c}, stays c → g.isLive c = true ∧ c ∉ leaves ∧ g.At c fun op _ => foldsFor op = []

theorem Awaits.step (hR : Reading R) (h : Awaits R V e uses stays (leaf :: leaves) g x L)
    (hleaf : V leaf = some value) (hdatum : value.isDatum = true) (hconst : value.isConstant = true) :
    ∃ g' x' L', (g.added .constant value []).replace leaf g.nextId = .ok g' ∧
      Awaits R V e uses stays leaves g' x' L' := by
  have hd := h.wellFormed.dense
  have hc : g.create .constant value [] = .ok (g.nextId, g.added .constant value []) :=
    create_constant hd value
  have hext : Extends g (g.added .constant value []) := .create hd hc
  have hshaped : Node.Shaped ⟨.constant, (value.stamp g.origins).1, [], [], false⟩ := trivial
  have hw : (g.added .constant value []).WellFormed :=
    h.wellFormed.create h.registered hshaped hc
  have hreg := h.registered.create hd.freeSlots hc
  have hne : g.nextId ≠ leaf := (hd.ne_nextId (h.has hleaf)).symm
  have hnew : (g.added .constant value []).Has g.nextId := (has_added _ _ _).2 (.inl rfl)
  obtain ⟨g', hr⟩ := hw.replace_ok (hext.keeps.has (h.has hleaf)) hnew
  have hV : V g.nextId = none := by
    cases hV : V g.nextId with
    | none => rfl
    | some f => exact absurd rfl (hd.ne_nextId (h.has hV))
  have hcomputes := h.computes.extend hext
  obtain ⟨L', hsub, hcomputes'⟩ := hcomputes.replace hr hne.symm hreg
    (fun hnone => by rw [hleaf] at hnone; contradiction)
    (fun f hf _ => by
      cases hleaf.symm.trans hf
      exact .of_added hR hV hdatum hconst hne hr)
    (fun hmem => by
      obtain ⟨_, _, _, _, _, hnone, -⟩ := hcomputes.operates_of_mem hmem
      rw [hleaf] at hnone
      contradiction)
  refine ⟨g', _, L', hr, ⟨hw.replace hreg hnew hr, hreg.replace hr, ?_, ?_, hcomputes', h.nodup.sublist hsub,
    fun hc => ((h.used hc).extend hext).replace hreg hr hne.symm, ?_⟩⟩
  · exact fun hf => (keeps_replace hr).has (hext.keeps.has (h.has hf))
  · intro y f hf hy
    refine Bool.eq_false_iff.2 fun hlive => ?_
    obtain ⟨hlive, hyleaf⟩ := (isLive_replace hr hne.symm).1 hlive
    have hdead := h.gone hf fun hmem => (List.mem_cons.1 hmem).elim hyleaf hy
    simp [isLive_extend hext (h.has hf), hdead] at hlive
  · intro c hc
    obtain ⟨hlive, hmem, hfolds⟩ := h.kept hc
    rw [List.mem_cons, not_or] at hmem
    refine ⟨(isLive_replace hr hne.symm).2 ⟨?_, hmem.1⟩, hmem.2,
      (keeps_replace hr).at (hext.keeps.at hfolds)⟩
    rw [isLive_extend hext hfolds.has]
    exact hlive

theorem Awaits.settle (hR : Reading R) {pairs : List (NodeId × Ty)}
    (h : Awaits R V e uses stays (pairs.map Prod.fst) g x L)
    (hpairs : ∀ pair ∈ pairs, V pair.1 = some pair.2 ∧ pair.2.isDatum = true ∧
      pair.2.isConstant = true) :
    ∃ g' x' L', g.settle pairs = .ok g' ∧ Awaits R V e uses stays [] g' x' L' := by
  induction pairs generalizing g x L with
  | nil => exact ⟨g, x, L, rfl, h⟩
  | cons pair pairs ih =>
    obtain ⟨leaf, value⟩ := pair
    obtain ⟨⟨hleaf, hdatum, hconst⟩, hpairs⟩ := List.forall_mem_cons.1 hpairs
    obtain ⟨g1, x1, L1, hr, h1⟩ := h.step hR hleaf hdatum hconst
    obtain ⟨g2, x2, L2, hs, h2⟩ := ih h1 hpairs
    refine ⟨g2, x2, L2, bind_eq_ok_iff.2 ⟨_, create_constant h.wellFormed.dense value, ?_⟩, h2⟩
    exact bind_eq_ok_iff.2 ⟨g1, hr, hs⟩

theorem Straight.settle {pairs : List (NodeId × Ty)} (h : g.Straight) (hd : g.Dense)
    (hs : g.settle pairs = .ok g') : g'.Straight := by
  induction pairs generalizing g with
  | nil =>
    cases hs
    exact h
  | cons pair pairs ih =>
    obtain ⟨_, hc, hs⟩ := bind_eq_ok_iff.1 hs
    cases (create_constant hd pair.2).symm.trans hc
    obtain ⟨g2, hr, hs⟩ := bind_eq_ok_iff.1 hs
    have hops : g.Ops fun _ op => op ≠ .phi ∧ ∀ offset, op ≠ .load offset := h
    exact ih ((hops.added (fun _ => ⟨nofun, nofun⟩) pair.2).replace hr) ((hd.create hc).replace hr) hs

end Graph

/-! ### Early and late -/

open SeaOfNodes.Graph

variable {n : Nat} {t : Formula n} {values : Fin n → Ty} {b b' : Builder} {g : Graph} {x : NodeId}
  {ty : Ty}

/-- Values that are known, of types made of primitives, structs, arrays and tuples. -/
def KnownData (values : Fin n → Ty) : Prop :=
  ∀ i, (values i).isDatum = true ∧ (values i).isConstant = true

/-- The leaves of a formula are constants. -/
def Graph.Knows (g : Graph) (leaves : Fin n → NodeId) (values : Fin n → Ty) : Prop :=
  ∀ i, g.isLive (leaves i) = true ∧ g.At (leaves i) fun op ty => op = .constant ∧ ty = values i

/-- Of the leaves of a formula only the types are known, and requests do not look through them. -/
structure Graph.Expects (g : Graph) (leaves : Fin n → NodeId) (values : Fin n → Ty) : Prop where
  injective : Function.Injective leaves
  isLive : ∀ i, g.isLive (leaves i) = true
  type : ∀ i, g.At (leaves i) fun _ ty => ty = (values i).bottom
  plain : ∀ i, g.At (leaves i) fun op _ => op ≠ .build ∧ ∀ unary, op ≠ .unary unary

theorem Formula.eval_of_constant {leaves : Fin n → NodeId} (hvalues : KnownData values)
    (ht : t.isShaped = true) (hb : b.Open) (hleaves : b.graph.Knows leaves values)
    (hrun : t.make leaves b = .ok (x, b'))
    (hx : b'.graph.At x fun op t => op = .constant ∧ t = ty) :
    t.eval values = ty ∧ ty.isConstant = true := by
  have hg : Given (fun _ => none) b.graph := fun _ _ hnone => nomatch hnone
  have hcomputes : ∀ i, Computes (fun t e => t = e ∧ e.isDatum = true) (fun _ => none) b.graph
      [leaves i] [values i] [] := by
    intro i
    obtain ⟨hlive, node, hn, hop, hty⟩ := hleaves i
    obtain ⟨other, ho, hfalse⟩ := isLive_iff.1 hlive
    cases hn.symm.trans ho
    exact .constant rfl hn hfalse ⟨hty, (hvalues i).1⟩ hop (hty ▸ (hvalues i).2) .nil
  obtain ⟨node, hn, hop, rfl⟩ := hx
  have hnot : (t.eval values).isError = false := by
    have hleads : Leads b (t.eval values) x b' :=
      (make_leads (F := AnyFault) ⟨hb, hg, hcomputes⟩ t ht).result hrun
    obtain ⟨other, ho, -, herror⟩ := hleads.node
    cases hn.symm.trans ho
    refine Bool.eq_false_iff.2 fun h => ?_
    rw [hop] at herror
    exact absurd (herror h) Bool.false_ne_true
  have hforms : Forms (fun t e => t = e ∧ e.isDatum = true) (fun _ => none) b [t.eval values] [x] b' :=
    (make_forms (F := AnyFault) reading_eq ⟨hb, hg, hcomputes⟩ t ht hnot).result hrun
  obtain ⟨L, hroot, -⟩ := hforms.computes
  cases hroot with
  | leaf hV => contradiction
  | constant _ hn' _ hread _ hconst =>
    cases hn.symm.trans hn'
    exact ⟨hread.1.symm, hconst⟩
  | operator _ hn' _ _ _ hoperates =>
    cases hn.symm.trans hn'
    rw [hop] at hoperates
    contradiction

/-- The value that is given to a leaf. -/
def valueAt (leaves : Fin n → NodeId) (values : Fin n → Ty) (x : NodeId) : Option Ty :=
  ((List.finRange n).find? fun i => leaves i = x).map values

theorem valueAt_leaf {leaves : Fin n → NodeId} (hleaves : Function.Injective leaves) (i : Fin n) :
    valueAt leaves values (leaves i) = some (values i) := by
  have hfound : (List.finRange n).find? (fun j => leaves j = leaves i) = some i := by
    cases hfind : (List.finRange n).find? fun j => leaves j = leaves i with
    | none => simpa using List.find?_eq_none.1 hfind i (List.mem_finRange i)
    | some j =>
      have heq : leaves j = leaves i := by simpa using List.find?_some hfind
      rw [hleaves heq]
  unfold valueAt
  rw [hfound]
  rfl

theorem valueAt_eq_some {leaves : Fin n → NodeId} {e : Ty} (h : valueAt leaves values x = some e) :
    ∃ i, leaves i = x ∧ values i = e := by
  obtain ⟨i, hi, he⟩ := Option.map_eq_some_iff.1 h
  exact ⟨i, by simpa using List.find?_some hi, he⟩

theorem Formula.make_late {late : Fin n → NodeId} (hvalues : KnownData values)
    (ht : t.isShaped = true) (hb : b.Open) (hlate : b.graph.Expects late values)
    (he : (t.eval values).isError = false) :
    Does (fun _ => False) b (t.make late) fun x b' =>
      Forms (fun t e => Vague t e ∧ e.isDatum = true) (valueAt late values) b [t.eval values] [x] b' := by
  have hg : Given (valueAt late values) b.graph := by
    intro y f hf
    obtain ⟨i, rfl, rfl⟩ := valueAt_eq_some hf
    exact ⟨(hvalues i).2, hlate.plain i⟩
  refine make_forms reading_vague ⟨hb, hg, fun i => ?_⟩ t ht he
  obtain ⟨node, hn, hty⟩ := hlate.type i
  obtain ⟨other, ho, hfalse⟩ := isLive_iff.1 (hlate.isLive i)
  cases hn.symm.trans ho
  exact .leaf (valueAt_leaf hlate.injective i) hn hfalse ⟨hty ▸ .bottom (hvalues i).1, (hvalues i).1⟩
    .nil

/-- The leaves of a formula with the constants that take their place. -/
def leafPairs (leaves : Fin n → NodeId) (values : Fin n → Ty) : List (NodeId × Ty) :=
  (List.finRange n).map fun i => (leaves i, values i)

/-- A formula is built, constants take the place of its leaves, and what it computes is left to
simplify. -/
theorem Forms.settle {late : Fin n → NodeId} {e : Ty} (hvalues : KnownData values)
    (hlate : b.graph.Expects late values)
    (h : Forms (fun t e => Vague t e ∧ e.isDatum = true) (valueAt late values) b [e] [x] b')
    (hext : Extends b'.graph g) (hbuilt : g.Built) :
    ∃ g1 x1 L, g.settle (leafPairs late values) = .ok g1 ∧
      Awaits (fun t e => Vague t e ∧ e.isDatum = true) (valueAt late values) e
        (fun c p => g.Takes c p x) (fun c => g.isLive c = true ∧ (∀ i, c ≠ late i) ∧
          g.At c fun op _ => foldsFor op = []) [] g1 x1 L := by
  obtain ⟨L, hcomputes, hnodup, -⟩ := h.computes
  refine Awaits.settle reading_vague ⟨hbuilt.wellFormed, hbuilt.registered, ?_, ?_,
    hcomputes.extend hext, hnodup, Uses.of_takes, ?_⟩ ?_
  · intro y f hf
    obtain ⟨i, rfl, -⟩ := valueAt_eq_some hf
    exact (h.graph.trans hext).keeps.has (hlate.plain i).has
  · intro y f hf hnot
    obtain ⟨i, rfl, -⟩ := valueAt_eq_some hf
    refine absurd (List.mem_map.2 ⟨(late i, values i), ?_, rfl⟩) hnot
    exact List.mem_map.2 ⟨i, List.mem_finRange i, rfl⟩
  · intro c hc
    obtain ⟨hlive, hnot, hfolds⟩ := hc
    refine ⟨hlive, fun hmem => ?_, hfolds⟩
    obtain ⟨pair, hpair, heq⟩ := List.mem_map.1 hmem
    obtain ⟨i, -, rfl⟩ := List.mem_map.1 hpair
    exact hnot i heq.symm
  · intro pair hpair
    obtain ⟨i, -, rfl⟩ := List.mem_map.1 hpair
    exact ⟨valueAt_leaf hlate.injective i, (hvalues i).1, (hvalues i).2⟩

/-- A formula over constants is built as a constant. The same formula is built over leaves of the same
types, and other nodes are added behind it. When constants have taken the place of the leaves and
the graph is simplified, then whatever took the root of the formula takes a constant of the same type
and value; a fault can only come from phis and loads. A node that no fold looks at, such as a
return, is still there. -/
theorem simplifyAll_late {early late : Fin n → NodeId} {b₀ b₀' : Builder} (hvalues : KnownData values)
    (ht : t.isShaped = true) (hb₀ : b₀.Open) (hearly : b₀.graph.Knows early values)
    (hrun : t.make early b₀ = .ok (x, b₀'))
    (hx : b₀'.graph.At x fun op t => op = .constant ∧ t = ty)
    (hb : b.Open) (hlate : b.graph.Expects late values) :
    ∃ root b', t.make late b = .ok (root, b') ∧ ∀ g, Extends b'.graph g → g.Built →
      ∃ g₁, g.settle (leafPairs late values) = .ok g₁ ∧
        Yields (fun fault => ¬ g.Straight ∧ PassFault True fault) g₁.simplifyAll fun r =>
          (∀ c p, g.Takes c p root → r.2.isLive c = true →
            ∃ y, r.2.Takes c p y ∧ r.2.At y fun op t => op = .constant ∧ t = ty) ∧
          ∀ c, g.isLive c = true → (∀ i, c ≠ late i) →
            (g.At c fun op _ => foldsFor op = []) → r.2.isLive c = true := by
  obtain ⟨heval, hconst⟩ := Formula.eval_of_constant hvalues ht hb₀ hearly hrun hx
  have he : (t.eval values).isError = false := heval ▸ isError_of_isConstant hconst
  obtain ⟨⟨root, b'⟩, hmake, hforms⟩ := (Formula.make_late hvalues ht hb hlate he).exists_ok
  rw [heval] at hforms
  refine ⟨root, b', hmake, fun g hext hbuilt => ?_⟩
  obtain ⟨g₁, x₁, L, hsettle, h⟩ := hforms.settle hvalues hlate hext hbuilt
  refine ⟨g₁, hsettle, ?_⟩
  have hs : Sound (fun fault => ¬ g.Straight ∧ PassFault True fault) g₁ := by
    refine ⟨h.wellFormed, h.registered, fun y node hn => ?_⟩
    have hstraight := fun hg : g.Straight => hg.settle hbuilt.wellFormed.dense hsettle y node hn
    unfold Expected
    split
    · exact fun position => ⟨fun hg => (hstraight hg).1 ‹_›, trivial⟩
    · exact ⟨fun hg => (hstraight hg).2 _ ‹_›, trivial⟩
    · trivial
  refine (simplifyAll_yields hs).and_eq.imp fun r hr => ?_
  obtain ⟨hused, hkept⟩ := simplifyAll_settles reading_vague h.computes h.nodup hs h.registered
    (fun y f hf => ⟨h.has hf, h.gone hf List.not_mem_nil⟩) hconst hr.1
  refine ⟨fun c p hc hlive => hused c p (h.used hc) hlive, fun c hlive hnot hfolds => ?_⟩
  obtain ⟨hlive₁, -, hfolds₁⟩ := h.kept ⟨hlive, hnot, hfolds⟩
  exact hkept c hlive₁ hfolds₁

/-! ### A product -/

theorem Graph.built_empty : empty.Built where
  wellFormed := by
    refine ⟨orderly_empty.dense, ?_, ?_, ?_, ?_, ?_, ?_⟩ <;> intros <;> simp_all [get?, empty]
  registered := registered_empty
  memory h := by simp [empty] at h

theorem Builder.open_initial : initial.Open where
  built := by
    have hshaped : Node.Shaped ⟨.start, (live.stamp 0).1, [], [], false⟩ := trivial
    have hcreate : empty.create .start .live [] = .ok (initial.start, initial.graph) := rfl
    exact built_empty.create hshaped hcreate
  memory := .node rfl nofun rfl
  reported := List.forall_mem_nil _

def Builder.withConstant (b : Builder) (ty : Ty) : Builder :=
  { b with graph := b.graph.added .constant ty [] }

theorem Builder.Open.withConstant (hb : b.Open) (ty : Ty) : (b.withConstant ty).Open := by
  have hshaped : Node.Shaped ⟨.constant, (ty.stamp b.graph.origins).1, [], [], false⟩ := trivial
  exact hb.adds (.create hb.built hshaped (create_constant hb.built.wellFormed.dense ty))

/-- Formula of the product of two leaves, taken out of a tuple. -/
def product : Formula 2 :=
  .projection (.build (.tuple [.int .int .bottom, .int .int .bottom])
    [.leaf 0, .binary .multiply (.leaf 0) (.leaf 1)]) 1

/-- Six and seven. -/
def factors : Fin 2 → Ty
  | 0 => .int .int (.const 6)
  | 1 => .int .int (.const 7)

theorem Builder.Open.parameter {entry : NodeId} (hb : b.Open) (hentry : b.graph.Has entry)
    (index : Nat) : ∃ g, Adds b.graph g b.graph.nextId (.projection index) (.int .int .bottom) [entry] ∧
      { b with graph := g }.Open := by
  have hin : ∀ x ∈ [entry], b.graph.Has x := List.forall_mem_singleton.2 hentry
  obtain ⟨g, hc⟩ := create_ok hb.built.wellFormed.dense hin (.projection index) (.int .int .bottom)
  have hshaped : Node.Shaped
      ⟨.projection index, ((int .int .bottom).stamp b.graph.origins).1, [entry], [], false⟩ :=
    Nat.le_refl 1
  have ha := Adds.create hb.built hshaped hc
  exact ⟨g, ha, hb.adds ha⟩

/-- Two nodes in the place of the leaves of a formula over two. -/
def pair (first second : NodeId) : Fin 2 → NodeId
  | 0 => first
  | 1 => second

theorem exists_expects : ∃ b late, Builder.Open b ∧ b.graph.Expects late factors := by
  have hstart := Builder.open_initial.memory.has
  obtain ⟨g1, ha1, hb1⟩ := Builder.open_initial.parameter hstart 0
  obtain ⟨g2, ha2, hb2⟩ := hb1.parameter (ha1.extend.keeps.has hstart) 1
  obtain ⟨us, hnew⟩ := ha1.node
  obtain ⟨vs, hn1⟩ := ha2.extend.node hnew
  obtain ⟨ws, hn2⟩ := ha2.node
  have hne : Builder.initial.graph.nextId ≠ g1.nextId := by
    intro heq
    exact ha2.new (heq ▸ ⟨_, hnew⟩)
  refine ⟨_, pair Builder.initial.graph.nextId g1.nextId, hb2, ?_, ?_, ?_, ?_⟩
  · intro i j hij
    match i, j with
    | 0, 0 | 1, 1 => rfl
    | 0, 1 => exact absurd hij hne
    | 1, 0 => exact absurd hij.symm hne
  · exact fun | 0 => isLive_iff.2 ⟨_, hn1, rfl⟩ | 1 => ha2.isLive
  · exact fun | 0 => ⟨_, hn1, rfl⟩ | 1 => ⟨_, hn2, rfl⟩
  · exact fun | 0 => ⟨_, hn1, nofun, nofun⟩ | 1 => ⟨_, hn2, nofun, nofun⟩

/-- Whether a node is a constant integer. -/
def Graph.isNumber (g : Graph) (id : NodeId) (value : Int) : Bool :=
  match g.get? id with
  | some ⟨.constant, .int .int (.const number), _, _, _⟩ => number == value
  | _ => false

theorem Graph.at_of_isNumber {value : Int} (h : g.isNumber x value = true) :
    g.At x fun op ty => op = .constant ∧ ty = .int .int (.const value) := by
  unfold isNumber at h
  split at h
  · exact ⟨_, ‹_›, rfl, by simpa using h⟩
  · contradiction

theorem simplifyAll_late_product :
    ∃ b late, Builder.Open b ∧ b.graph.Expects late factors ∧
      ∃ root b', product.make late b = .ok (root, b') ∧ ∀ g, Extends b'.graph g → g.Built →
        ∃ g₁, g.settle (leafPairs late factors) = .ok g₁ ∧
          Yields (fun fault => ¬ g.Straight ∧ PassFault True fault) g₁.simplifyAll fun r =>
            (∀ c p, g.Takes c p root → r.2.isLive c = true → ∃ y, r.2.Takes c p y ∧
              r.2.At y fun op t => op = .constant ∧ t = .int .int (.const 42)) ∧
            ∀ c, g.isLive c = true → (∀ i, c ≠ late i) →
              (g.At c fun op _ => foldsFor op = []) → r.2.isLive c = true := by
  obtain ⟨b, late, hb, hlate⟩ := exists_expects
  refine ⟨b, late, hb, hlate, ?_⟩
  have hb₀ := (Builder.open_initial.withConstant (factors 0)).withConstant (factors 1)
  have hrun : passes (fun r => r.2.graph.isNumber r.1 42) (product.make (pair ⟨1, 0⟩ ⟨2, 0⟩)
      ((Builder.initial.withConstant (factors 0)).withConstant (factors 1))) = true := by
    decide +kernel
  obtain ⟨⟨x, b₀'⟩, hrun, hx⟩ := exists_ok_of_passes hrun
  refine simplifyAll_late ?_ rfl hb₀ ?_ hrun (at_of_isNumber hx) hb hlate
  · exact fun | 0 => ⟨rfl, rfl⟩ | 1 => ⟨rfl, rfl⟩
  · exact fun | 0 => ⟨rfl, at_of_isNumber rfl⟩ | 1 => ⟨rfl, at_of_isNumber rfl⟩

end SeaOfNodes
