import SeaOfNodes.Proofs.Graph.Registered
import SeaOfNodes.Proofs.Pass.Reorder
import SeaOfNodes.Proofs.Pass.Valuation

/-!
The tests by which two effects of the chain are told apart. Where they say that an access can pass
the effect before it, the two are independent in every valuation: slots lie apart, what is on the
heap is in no slot, and ranges behind one base that do not overlap have no byte in common.
-/
namespace SeaOfNodes

open SeaOfNodes.Machine

namespace Graph

variable {M : Machine} {g : Graph} {id x y previous : NodeId} {node node' : Node}
  {e b : MemoryEffect} {v : Valuation M}

/-! ### Where an access lies -/

theorem Placed.patch_access (h : Placed M g) (hn : g.get? x = some node)
    (hop : node.op.isMemoryAccess = true) (he : g.memory[x]? = some e) (v : Valuation M) :
    ∃ base offset ty patch, e.target = some base ∧ node.op.offset? = some offset ∧
      g.accessed? node = some ty ∧ g.patch? v node = some patch ∧
      patch.start = M.address (v.value base) + offset ∧ patch.size = M.size ty := by
  obtain ⟨base, ty, hbase, htarget, hty, -⟩ := h.access hn hop he
  cases hk : node.op with
  | load offset =>
    cases hin : node.inputs with
    | nil => simp [hin] at hbase
    | cons first rest =>
      obtain rfl : first = base := by simpa [hin] using hbase
      obtain rfl : node.ty = ty := by simpa [accessed?, hk] using hty
      exact ⟨first, offset, node.ty, _, htarget, rfl, hty, by simp [patch?, hk, hin]; rfl, rfl, rfl⟩
  | store offset =>
    match hin : node.inputs with
    | [] => simp [hin] at hbase
    | [first] => simp [accessed?, hk, hin] at hty
    | first :: stored :: rest =>
      obtain rfl : first = base := by simpa [hin] using hbase
      obtain ⟨value, hvalue, rfl⟩ : ∃ value, g.get? stored = some value ∧ value.ty = ty := by
        simpa [accessed?, hk, hin] using hty
      exact ⟨first, offset, value.ty, _, htarget, rfl, hty,
        by simp [patch?, hk, hin, hvalue]; rfl, rfl, rfl⟩
  | _ => simp [hk, Op.isMemoryAccess] at hop

theorem Placed.within_slot (h : Placed M g) (hv : g.Solves v) (hn : g.get? x = some node)
    (hop : node.op.isMemoryAccess = true) (he : g.memory[x]? = some e) {patch : Patch M}
    (hp : g.patch? v node = some patch) {s : Nat} (htag : e.tag = .slot s) :
    (M.allocating s).start ≤ patch.start ∧
      patch.start + patch.size ≤ (M.allocating s).start + (M.allocating s).size := by
  obtain ⟨base, offset, ty, patch', htarget, hoffset, hty, hp', hstart, hsize⟩ :=
    h.patch_access hn hop he v
  cases hp.symm.trans hp'
  obtain ⟨base', ty', -, htarget', hty', htags⟩ := h.access hn hop he
  cases htarget.symm.trans htarget'
  cases hty.symm.trans hty'
  obtain ⟨alloca, halloca, hslot⟩ := (htags s).1.1 htag
  have hvalue : v.value base = M.slot s := hv.slot halloca hslot
  have hinside := (htags s).2 htag offset hoffset
  rw [hvalue] at hstart
  simp only [allocating]
  omega

section

variable (h : Placed M g) (hv : g.Solves v) (hn : g.get? id = some node)
  (hop : node.op.isMemoryAccess = true) (he : g.memory[id]? = some e)
include h hv hn hop he

theorem Placed.apart_of_tags (hn' : g.get? previous = some node')
    (hop' : node'.op.isMemoryAccess = true) (hb : g.memory[previous]? = some b)
    (htags : e.tag.disjoint b.tag = true) {p q : Patch M} (hp : g.patch? v node = some p)
    (hq : g.patch? v node' = some q) : p.Apart q := by
  unfold Patch.Apart
  cases htag : e.tag with
  | slot s =>
    have hin := h.within_slot hv hn hop he hp htag
    cases htag' : b.tag with
    | slot s' =>
      have hin' := h.within_slot hv hn' hop' hb hq htag'
      have hne : s ≠ s' := by simpa [htag, htag', MemoryTag.disjoint] using htags
      have hslots := M.slots_apart hne
      simp only [allocating] at hin hin'
      omega
    | heap =>
      have hout := hv.heap hn' hop' hb htag' hq s
      unfold Patch.Apart at hout
      omega
    | unknown => simp [htag', MemoryTag.disjoint] at htags
  | heap =>
    cases htag' : b.tag with
    | slot s =>
      have hin := h.within_slot hv hn' hop' hb hq htag'
      have hout := hv.heap hn hop he htag hp s
      unfold Patch.Apart at hout
      omega
    | heap | unknown => simp [htag, htag', MemoryTag.disjoint] at htags
  | unknown => simp [htag, MemoryTag.disjoint] at htags

theorem Placed.apart_of_avoidsSlot {slot : Nat} (havoids : avoidsSlot slot e.tag = true)
    {p : Patch M} (hp : g.patch? v node = some p) : p.Apart (M.allocating slot) := by
  unfold avoidsSlot at havoids
  split at havoids
  · rename_i own htag
    have hin := h.within_slot hv hn hop he hp htag
    have hslots := M.slots_apart (ne_of_beq_false (by simpa using havoids) : own ≠ slot)
    simp only [Patch.Apart, allocating] at hin ⊢
    omega
  · contradiction

end

theorem eq_loading {offset : Nat} (hop : node.op = .load offset) {p : Patch M}
    (hp : g.patch? v node = some p) : ∃ start, p = M.loading start node.ty := by
  unfold patch? at hp
  rw [hop] at hp
  split at hp
  · exact ⟨_, (Option.some.inj hp).symm⟩
  · contradiction
  · contradiction
  · contradiction

/-! ### The tests -/

theorem accessRange_eq {ty : Ty} (hn : g.get? x = some node) (hty : g.accessed? node = some ty)
    (offset : Nat) : g.accessRange ⟨x, e, offset⟩ = do
      let layout ← orTooLarge ty.layout?
      return (offset, ← addOffset offset layout.size) := by
  unfold accessRange
  rw [op_of_get? hn]
  unfold accessed? at hty
  split at hty
  · rename_i hop
    cases hty
    simp only [hop, ty_of_get? hn, Bind.bind, Except.bind]
  · rename_i stored _ hop hin
    obtain ⟨value, hvalue, rfl⟩ := Option.map_eq_some_iff.1 hty
    have hlt : 1 < node.inputs.length := by simp [hin]
    have hinput : g.input x 1 = .ok stored := by
      rw [input_of_get? hn hlt]
      simp [hin]
    simp only [hop, hinput, ty_of_get? hvalue, Bind.bind, Except.bind]
  · contradiction

theorem accessRange_yields_size {ty : Ty} (M : Machine) (hn : g.get? x = some node)
    (hty : g.accessed? node = some ty) (offset : Nat) :
    Yields (· = .tooLarge) (g.accessRange ⟨x, e, offset⟩) fun range =>
      range = (offset, offset + M.size ty) := by
  rw [accessRange_eq hn hty]
  cases hlayout : ty.layout? with
  | none => exact rfl
  | some layout =>
    simp only [orTooLarge, Bind.bind, Except.bind]
    cases hstop : addOffset offset layout.size with
    | error f =>
      unfold addOffset orTooLarge at hstop
      split at hstop
      · contradiction
      · exact (Except.error.inj hstop).symm
    | ok stop =>
      obtain ⟨rfl, -⟩ := addOffset_eq_ok_iff.1 hstop
      rw [M.size_eq hlayout]
      exact rfl

section

variable (h : Placed M g) (hn : g.get? id = some node) (hop : node.op.isMemoryAccess = true)
  (he : g.memory[id]? = some e)
include h hn hop he

theorem Placed.accessesDisjoint_yields {offset offset' : Nat}
    (hoffset : node.op.offset? = some offset) (hn' : g.get? previous = some node')
    (hop' : node'.op.isMemoryAccess = true) (hb : g.memory[previous]? = some b)
    (hoffset' : node'.op.offset? = some offset') :
    Yields (· = .tooLarge) (g.accessesDisjoint ⟨id, e, offset⟩ ⟨previous, b, offset'⟩) fun disjoint =>
      disjoint = true → ∀ v : Valuation M, g.Solves v → ∀ p q, g.patch? v node = some p →
        g.patch? v node' = some q → p.Apart q := by
  unfold accessesDisjoint
  split
  · rename_i htags
    exact .pure fun _ v hv p q hp hq => h.apart_of_tags hv hn hop he hn' hop' hb htags hp hq
  · split
    · exact .pure fun hfalse => by contradiction
    · rename_i hsame
      obtain ⟨-, ty, -, -, hty, -⟩ := h.access hn hop he
      obtain ⟨-, ty', -, -, hty', -⟩ := h.access hn' hop' hb
      refine (accessRange_yields_size M hn hty offset).bind ?_
      rintro _ rfl
      refine (accessRange_yields_size M hn' hty' offset').bind ?_
      rintro _ rfl
      refine .pure ?_
      intro hranges v hv p q hp hq
      obtain ⟨base, offset1, ty1, p1, htarget, ho, ht, hp1, hstart, hsize⟩ := h.patch_access hn hop he v
      obtain ⟨base', offset2, ty2, q1, htarget', ho', ht', hq1, hstart', hsize'⟩ :=
        h.patch_access hn' hop' hb v
      -- The two accesses have one base.
      obtain rfl : base = base' := by
        simpa [htarget, htarget'] using hsame
      simp only [hoffset, hoffset', hty, hty', hp, hq, Option.some.injEq] at ho ho' ht ht' hp1 hq1
      subst ho ho' ht ht' hp1 hq1
      simp only [decide_eq_true_eq] at hranges
      unfold Patch.Apart
      omega

theorem Placed.commutes_yields (hn' : g.get? previous = some node')
    (hb : g.memory[previous]? = some b) :
    Yields (· = .tooLarge) (g.commutes id previous) fun commute =>
      commute = true → node'.op.isChained = true ∧ ∀ v : Valuation M, g.Solves v →
        ∃ p q, g.patch? v node = some p ∧ g.patch? v node' = some q ∧ p.Independent q ∧
          (∀ s, node'.op = .alloca s → p.Apart q) := by
  unfold commutes
  rw [he, hb, op_of_get? hn, op_of_get? hn']
  simp only [Bind.bind, Except.bind]
  -- Two accesses that were found to lie apart.
  have hdisjoint : ∀ offset offset', node.op.offset? = some offset → node'.op.offset? = some offset' →
      node'.op.isMemoryAccess = true →
      Yields (· = .tooLarge) (g.accessesDisjoint ⟨id, e, offset⟩ ⟨previous, b, offset'⟩)
        fun commute => commute = true → node'.op.isChained = true ∧ ∀ v : Valuation M, g.Solves v →
          ∃ p q, g.patch? v node = some p ∧ g.patch? v node' = some q ∧ p.Independent q ∧
            (∀ s, node'.op = .alloca s → p.Apart q) := by
    intro offset offset' ho ho' hop'
    refine (h.accessesDisjoint_yields hn hop he ho hn' hop' hb ho').imp ?_
    intro disjoint hapart hd
    refine ⟨?_, ?_⟩
    · cases hk : node'.op <;> simp_all [Op.isMemoryAccess, Op.isChained]
    · intro v hv
      obtain ⟨-, -, -, p, -, -, -, hp, -⟩ := h.patch_access hn hop he v
      obtain ⟨-, -, -, q, -, -, -, hq, -⟩ := h.patch_access hn' hop' hb v
      have hpq := hapart hd v hv p q hp hq
      exact ⟨p, q, hp, hq, hpq.independent, fun _ _ => hpq⟩
  split
  · rename_i hk hk'
    refine .pure fun _ => ⟨by rw [hk']; rfl, ?_⟩
    intro v hv
    obtain ⟨-, -, -, p, -, -, -, hp, -⟩ := h.patch_access hn hop he v
    obtain ⟨-, -, -, q, -, -, -, hq, -⟩ := h.patch_access hn' (by rw [hk']; rfl) hb v
    obtain ⟨start, rfl⟩ := eq_loading hk hp
    obtain ⟨start', rfl⟩ := eq_loading hk' hq
    refine ⟨_, _, hp, hq, M.loading_independent start start' _ _, ?_⟩
    intro s halloca
    simp [hk'] at halloca
  · rename_i hk hk'
    exact hdisjoint _ _ (hk ▸ rfl) (by rw [hk']; rfl) (by rw [hk']; rfl)
  · rename_i hk hk'
    exact hdisjoint _ _ (hk ▸ rfl) (by rw [hk']; rfl) (by rw [hk']; rfl)
  · rename_i hk hk'
    exact hdisjoint _ _ (hk ▸ rfl) (by rw [hk']; rfl) (by rw [hk']; rfl)
  · rename_i slot hk'
    refine .pure fun havoids => ⟨by rw [hk']; rfl, ?_⟩
    intro v hv
    obtain ⟨-, -, -, p, -, -, -, hp, -⟩ := h.patch_access hn hop he v
    have hpq := h.apart_of_avoidsSlot hv hn hop he havoids hp
    exact ⟨p, _, hp, by simp [patch?, hk'], hpq.independent, fun s hs => by simp_all⟩
  · exact .pure fun hfalse => by contradiction

end

/-! ### Passing the effect before -/

theorem Registered.flows_of_takes (h : g.Registered) {us : List User} (hus : g.users y = .ok us)
    (hlive : g.isLive x = true) (hy : y ∈ g.takes x) : ∃ u ∈ us.filter g.flows, u.node = x := by
  rcases List.mem_append.1 hy with hy | hy
  · obtain ⟨e, he, hprevious⟩ := before?_eq_some_iff.1 (Option.mem_toList.1 hy)
    have hr : g.Refers x .previous y := ⟨e, he, hprevious⟩
    obtain ⟨edge, ha, hu⟩ := h.exists_user hus hlive hr
    obtain rfl : edge = .previous := by simpa [Edge.Alike, Edge.isValue] using ha
    exact ⟨_, List.mem_filter.2 ⟨hu, rfl⟩, rfl⟩
  · cases hn : g.get? x with
    | none => simp [hn] at hy
    | some node =>
      simp only [hn, Option.elim_some, Node.states] at hy
      split at hy
      · rename_i hphi
        have hr : g.Refers x (.value 0) y := ⟨node, hn, hy⟩
        obtain ⟨edge, ha, hu⟩ := h.exists_user hus hlive hr
        cases edge with
        | value position =>
          refine ⟨_, List.mem_filter.2 ⟨hu, ?_⟩, rfl⟩
          simp only [flows, hn]
          exact hphi
        | control | previous | target => simp [Edge.Alike, Edge.isValue] at ha
      · contradiction

/-- An access and the effect before it, which it can pass: it alone takes the state behind that
effect, and the two are independent. -/
structure Passes (M : Machine) (g : Graph) (id : NodeId) (e : MemoryEffect) (node node' : Node) :
    Prop where
  sole : ∀ x, g.isLive x = true → e.previous ∈ g.takes x → x = id
  chained : node'.op.isChained = true
  independent : ∀ v : Valuation M, g.Solves v → ∃ p q, g.patch? v node = some p ∧
    g.patch? v node' = some q ∧ p.Independent q ∧ (∀ s, node'.op = .alloca s → p.Apart q)

theorem Placed.canPass_yields (h : Placed M g) (hreg : g.Registered) (hn : g.get? id = some node)
    (hop : node.op.isMemoryAccess = true) (he : g.memory[id]? = some e)
    (hn' : g.get? e.previous = some node') :
    Yields (· = .tooLarge) (g.canPass id e.previous) fun pass =>
      pass = true → Passes M g id e node node' := by
  obtain ⟨us, hus⟩ := users_ok ⟨node', hn'⟩
  unfold canPass
  rw [memoryConsumers_eq hus]
  simp only [Bind.bind, Except.bind]
  split
  · rename_i user hsole
    split
    · exact .pure fun hfalse => by contradiction
    · rename_i hid
      have hsole : ∀ x, g.isLive x = true → e.previous ∈ g.takes x → x = id := by
        intro x hlive hx
        obtain ⟨u, hu, rfl⟩ := hreg.flows_of_takes hus hlive hx
        rw [hsole, List.mem_singleton] at hu
        rw [hu]
        exact not_not.1 hid
      have hcommutes : Yields (· = .tooLarge) (g.commutes id e.previous) fun commute =>
          commute = true → Passes M g id e node node' := by
        cases hb : g.memory[e.previous]? with
        | none =>
          unfold commutes
          rw [he, hb]
          exact fun hfalse => by contradiction
        | some b =>
          refine (h.commutes_yields hn hop he hn' hb).imp ?_
          intro commute hind hc
          exact ⟨hsole, (hind hc).1, (hind hc).2⟩
      refine hcommutes.bind fun commute hpasses => ?_
      split
      · rename_i hc
        unfold dependsOn
        rw [node_of_get? hn]
        exact fun _ => hpasses hc
      · exact .pure fun hfalse => by contradiction
  · exact .pure fun hfalse => by contradiction

end Graph

end SeaOfNodes
