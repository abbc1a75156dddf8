import SeaOfNodes.Proofs.Pass.Alias
import SeaOfNodes.Proofs.Pass.Move

/-!
Moving accesses changes nothing that a node outside the chain can see. An access moves past the
effect before it if that effect's state is taken by the access alone and the two are independent;
then the two can be made in either order, and what took the state behind the one takes the state
behind the other, which is the same.
-/
namespace SeaOfNodes

/-- The states after `id` has moved past `previous`: `state` is the one between them. -/
def Valuation.moved {M : Machine} (v : Valuation M) (id previous : NodeId) (state : M.Memory) :
    Valuation M where
  value := v.value
  memory x := if x = id then state else if x = previous then v.memory id else v.memory x

@[simp]
theorem Valuation.value_moved {M : Machine} (v : Valuation M) (id previous : NodeId)
    (state : M.Memory) : (v.moved id previous state).value = v.value := rfl

theorem Valuation.memory_moved_of_ne {M : Machine} {v : Valuation M} {id previous x : NodeId}
    {state : M.Memory} (hid : x ≠ id) (hprevious : x ≠ previous) :
    (v.moved id previous state).memory x = v.memory x := by
  simp [Valuation.moved, hid, hprevious]

namespace Graph

variable {M : Machine} {g g' : Graph} {id x y z : NodeId} {node : Node} {e b : MemoryEffect}
  {us : List User} {v : Valuation M} {n : Node}

/-! ### What is kept -/

/-- What moving accesses needs of a graph. -/
structure Ready (M : Machine) (g : Graph) : Prop where
  made : Made g
  ends : g.ChainsEnd
  placed : Placed M g
  settled : g.Settled

/-- A move that is allowed, with all that is known of it. -/
structure Move (M : Machine) (id : NodeId) (e b : MemoryEffect) (us : List User)
    (node node' : Node) (g g' : Graph) : Prop where
  ready : Ready M g
  moved : Moved id e b us g g'
  passes : Passes M g id e node node'
  effect : g.memory[id]? = some e
  behind : g.memory[e.previous]? = some b
  access : g.get? id = some node
  isAccess : node.op.isMemoryAccess = true
  live : node.replaced = false
  previous : g.get? e.previous = some node'
  users : g.users id = .ok us

namespace Move

variable {node' : Node} (h : Move M id e b us node node' g g') {n' : Node} {state : M.Memory}

include h

theorem registered : g.Registered := h.ready.made.keeps.2

theorem isLive_id : g.isLive id = true := isLive_iff.2 ⟨node, h.access, h.live⟩

theorem before?_old : g.before? id = some e.previous := before?_eq_some_iff.2 ⟨e, h.effect, rfl⟩

theorem before?_previous_old : g.before? e.previous = some b.previous :=
  before?_eq_some_iff.2 ⟨b, h.behind, rfl⟩

theorem isLive_previous : g.isLive e.previous = true := by
  refine h.ready.settled id h.isLive_id _ ?_
  rw [takes_of_isChained h.access (isChained_of_isMemoryAccess h.isAccess), h.before?_old]
  exact List.mem_singleton_self _

theorem isLive_before : g.isLive b.previous = true := by
  refine h.ready.settled e.previous h.isLive_previous _ ?_
  rw [takes_of_isChained h.previous h.passes.chained, h.before?_previous_old]
  exact List.mem_singleton_self _

theorem ne : id ≠ e.previous := by
  intro heq
  exact (h.ready.ends id).not_leads_back h.before?_old (heq ▸ .refl id)

theorem before_ne_previous : b.previous ≠ e.previous := by
  intro heq
  exact (h.ready.ends e.previous).not_leads_back h.before?_previous_old (heq ▸ .refl _)

theorem before_ne_id : b.previous ≠ id := by
  intro heq
  refine (h.ready.ends e.previous).not_leads_back h.before?_previous_old ?_
  rw [heq]
  exact .step h.before?_old (.refl _)

/-! ### The new states -/

/-- What a node that is neither of the two takes is not the state that was between them. -/
theorem previous_not_mem_takes (hlive : g.isLive x = true) (hid : x ≠ id) : e.previous ∉ g.takes x :=
  fun hx => hid (h.passes.sole x hlive hx)

theorem memory_turned (hy : y ≠ e.previous) :
    (v.moved id e.previous state).memory (turned id e.previous y) = v.memory y := by
  by_cases hid : y = id
  · simp [turned, Valuation.moved, hid, h.ne.symm]
  · simp [turned, Valuation.moved, hid, hy]

theorem map_memory_turned {ys : List NodeId} (hys : e.previous ∉ ys) :
    (ys.map (turned id e.previous)).map (v.moved id e.previous state).memory = ys.map v.memory := by
  rw [List.map_map]
  refine List.map_congr_left ?_
  intro y hy
  exact h.memory_turned (by rintro rfl; exact hys hy)

theorem patch?_moved (hop : n'.op = n.op) (hty : n'.ty = n.ty)
    (hin : n.isMemoryPhi = false → n'.inputs = n.inputs) :
    g'.patch? (v.moved id e.previous state) n' = g.patch? v n :=
  patch?_congr rfl (h.moved.types_eq h.registered h.users) hop hty
    fun hc => hin (isMemoryPhi_of_isChained hc)

theorem equation_of_ne (hid : x ≠ id) (hprevious : x ≠ e.previous) (hn : g.get? x = some n)
    (hlive : n.replaced = false) (hop : n'.op = n.op) (hty : n'.ty = n.ty)
    (hin : n.isMemoryPhi = false → n'.inputs = n.inputs)
    (hstates : n'.states = n.states.map (turned id e.previous)) (heq : g.Equation v x n) :
    g'.Equation (v.moved id e.previous state) x n' := by
  have hxlive : g.isLive x = true := isLive_iff.2 ⟨n, hn, hlive⟩
  have hnot := h.previous_not_mem_takes hxlive hid
  have hnot_states : e.previous ∉ n.states := by
    intro hmem
    refine hnot (List.mem_append_right _ ?_)
    rw [hn]
    exact hmem
  have hnot_before : ∀ y, g.before? x = some y → y ≠ e.previous := by
    rintro y hy rfl
    exact hnot (List.mem_append_left _ (by rw [hy]; exact List.mem_singleton_self _))
  have hoperands : n'.operands = n.operands := by
    have hsame : n'.isMemoryPhi = n.isMemoryPhi := by rw [Node.isMemoryPhi, Node.isMemoryPhi, hop, hty]
    unfold Node.operands
    rw [hsame]
    split
    · rfl
    · rename_i hphi
      exact hin (Bool.eq_false_iff.2 hphi)
  have hbefore := h.moved.before?_of_ne h.registered h.users hxlive hid hprevious
  unfold Equation at heq ⊢
  rw [h.patch?_moved hop hty hin, hbefore, Valuation.memory_moved_of_ne hid hprevious, hoperands, hstates,
    h.map_memory_turned hnot_states, h.moved.control]
  cases hb : g.before? x with
  | none => cases hp : g.patch? v n <;> simpa [hb] using heq
  | some y =>
    have hy : (v.moved id e.previous state).memory (turned id e.previous y) = v.memory y :=
      h.memory_turned (hnot_before y hb)
    cases hp : g.patch? v n <;> simpa [hb, hp, hy] using heq

theorem equations (hv : g.Solves v) : ∃ p q, g.patch? v node = some p ∧ g.patch? v node' = some q ∧
    p.Independent q ∧ (∀ s, node'.op = .alloca s → p.Apart q) ∧
    v.value id = p.result (p.read (v.memory e.previous)) ∧ v.memory id = p.act (v.memory e.previous) ∧
    v.value e.previous = q.result (q.read (v.memory b.previous)) ∧
    v.memory e.previous = q.act (v.memory b.previous) := by
  obtain ⟨p, q, hp, hq, hind, hapart⟩ := h.passes.independent v hv
  have heq : g.Equation v id node := hv.equation h.access h.live
  have heq' : g.Equation v e.previous node' := by
    obtain ⟨other, ho, hlive⟩ := isLive_iff.1 h.isLive_previous
    cases h.previous.symm.trans ho
    exact hv.equation h.previous hlive
  unfold Equation at heq heq'
  rw [hp, h.before?_old] at heq
  rw [hq, h.before?_previous_old] at heq'
  exact ⟨p, q, hp, hq, hind, hapart, heq.1, heq.2, heq'.1, heq'.2⟩

/-- A valuation before a move gives one after it: the state between the two is the one that the
access leaves when it comes first. -/
theorem solves_moved (hv : g.Solves v) {p : M.Patch} (hp : g.patch? v node = some p) :
    g'.Solves (v.moved id e.previous (p.act (v.memory b.previous))) := by
  obtain ⟨p', q, hp', hq, hind, -, hvalue, hmemory, hvalue', hmemory'⟩ := h.equations hv
  cases hp.symm.trans hp'
  have hstate : (v.moved id e.previous (p.act (v.memory b.previous))).memory b.previous =
      v.memory b.previous := Valuation.memory_moved_of_ne h.before_ne_id h.before_ne_previous
  refine ⟨?_, ?_, ?_⟩
  · intro x n' hn' hlive'
    obtain ⟨n, hn, hop, hty, hmark, hin, hstates⟩ := h.moved.node_back h.registered h.users hn'
    have hlive : n.replaced = false := hmark ▸ hlive'
    by_cases hid : x = id
    · subst hid
      cases h.access.symm.trans hn
      unfold Equation
      rw [h.patch?_moved hop hty hin, hp, h.moved.before?_id h.effect h.ne]
      refine ⟨?_, ?_⟩
      · -- The access does not see that the other effect is yet to come.
        rw [hstate, ← hind.left, ← hmemory']
        exact hvalue
      · rw [hstate]
        simp [Valuation.moved]
    by_cases hprevious : x = e.previous
    · subst hprevious
      cases h.previous.symm.trans hn
      unfold Equation
      rw [h.patch?_moved hop hty hin, hq, h.moved.before?_previous h.behind]
      have hid_state : (v.moved id e.previous (p.act (v.memory b.previous))).memory id =
          p.act (v.memory b.previous) := by simp [Valuation.moved]
      refine ⟨?_, ?_⟩
      · rw [hid_state, hind.right]
        exact hvalue'
      · rw [hid_state, ← hind.comm, ← hmemory', ← hmemory]
        simp [Valuation.moved, h.ne.symm]
    · exact h.equation_of_ne hid hprevious hn hlive hop hty hin (hstates hlive) (hv.equation hn hlive)
  · intro x n' s hn' hslot
    obtain ⟨n, hn, hop, -⟩ := h.moved.node_back h.registered h.users hn'
    exact hv.slot hn (hop ▸ hslot)
  · intro x n' effect' patch hn' haccess heffect' htag hpatch
    obtain ⟨n, hn, hop, hty, -, hin, -⟩ := h.moved.node_back h.registered h.users hn'
    rw [h.moved.memory] at heffect'
    obtain ⟨effect, heffect, rfl⟩ := Option.map_eq_some_iff.1 heffect'
    rw [h.patch?_moved hop hty hin] at hpatch
    exact hv.heap hn (hop ▸ haccess) heffect htag hpatch

/-! ### Places, chains and marks -/

theorem placed_moved : Placed M g' := by
  constructor
  intro x n' effect' hn' haccess heffect'
  obtain ⟨n, hn, hop, hty, -, hin, -⟩ := h.moved.node_back h.registered h.users hn'
  have hchained : n.op.isChained = true := isChained_of_isMemoryAccess (hop ▸ haccess)
  have hin := hin (isMemoryPhi_of_isChained hchained)
  rw [h.moved.memory] at heffect'
  obtain ⟨effect, heffect, rfl⟩ := Option.map_eq_some_iff.1 heffect'
  obtain ⟨base, ty, hbase, htarget, hacc, htags⟩ := h.ready.placed.access hn (hop ▸ haccess) heffect
  refine ⟨base, ty, by rw [hin]; exact hbase, htarget, ?_, ?_⟩
  · rw [← hacc]
    exact accessed?_congr (h.moved.types_eq h.registered h.users) hop hty fun _ => hin
  · intro s
    rw [h.moved.at_iff h.registered h.users, hop]
    exact htags s

theorem settled_moved : g'.Settled := by
  intro x hx y hy
  rw [h.moved.isLive_eq h.registered h.users] at hx ⊢
  by_cases hid : x = id
  · subst hid
    obtain ⟨n', hn', hop, -⟩ := h.moved.exists_node h.registered h.users h.access
    rw [takes_of_isChained hn' (hop ▸ isChained_of_isMemoryAccess h.isAccess),
      h.moved.before?_id h.effect h.ne] at hy
    obtain rfl := List.mem_singleton.1 hy
    exact h.isLive_before
  by_cases hprevious : x = e.previous
  · subst hprevious
    obtain ⟨n', hn', hop, -⟩ := h.moved.exists_node h.registered h.users h.previous
    rw [takes_of_isChained hn' (hop ▸ h.passes.chained), h.moved.before?_previous h.behind] at hy
    obtain rfl := List.mem_singleton.1 hy
    exact h.isLive_id
  · rw [h.moved.takes_of_ne h.registered h.users hx hid hprevious] at hy
    obtain ⟨old, hold, rfl⟩ := List.mem_map.1 hy
    unfold turned
    split
    · exact h.isLive_previous
    · exact h.ready.settled x hx old hold

theorem leads_iff {n : Nat} (hn : Chain.EndsIn g.before? n y) (hlive : g.isLive y = true)
    (hy : y ≠ e.previous) :
    Chain.Leads g'.before? (turned id e.previous y) z ↔ Chain.Leads g.before? y z := by
  induction n using Nat.strong_induction_on generalizing y with
  | _ n ih =>
    by_cases hid : y = id
    · -- Both chains go through the two, and on from the effect before them.
      subst hid
      obtain ⟨_, rfl, htail⟩ := hn.tail h.before?_old
      obtain ⟨m, rfl, hends⟩ := htail.tail h.before?_previous_old
      have hrest : Chain.Leads g'.before? b.previous z ↔ Chain.Leads g.before? b.previous z := by
        have hsame : turned y e.previous b.previous = b.previous := if_neg h.before_ne_id
        rw [← ih m (by omega) hends h.isLive_before h.before_ne_previous, hsame]
      have hnew : Chain.Leads g'.before? e.previous z ↔
          z = e.previous ∨ z = y ∨ Chain.Leads g'.before? b.previous z := by
        simp [Chain.leads_iff (a := e.previous), Chain.leads_iff (a := y),
          h.moved.before?_previous h.behind, h.moved.before?_id h.effect h.ne]
      have hold : Chain.Leads g.before? y z ↔
          z = y ∨ z = e.previous ∨ Chain.Leads g.before? b.previous z := by
        simp [Chain.leads_iff (a := e.previous), Chain.leads_iff (a := y), h.before?_old,
          h.before?_previous_old]
      have hturned : turned y e.previous y = e.previous := if_pos rfl
      rw [hturned, hnew, hold, hrest]
      exact or_left_comm
    · have hturned : turned id e.previous y = y := if_neg hid
      rw [hturned, Chain.leads_iff, @Chain.leads_iff _ g.before?,
        h.moved.before?_of_ne h.registered h.users hlive hid hy]
      cases hbefore : g.before? y with
      | none => simp
      | some w =>
        have hw : w ∈ g.takes y := List.mem_append_left _ (by rw [hbefore]; exact List.mem_singleton_self _)
        have hne : w ≠ e.previous := by
          rintro rfl
          exact h.previous_not_mem_takes hlive hid hw
        obtain ⟨m, rfl, hends⟩ := hn.tail hbefore
        simp [ih m (by omega) hends (h.ready.settled y hlive w hw) hne]

theorem behind_iff (hlive : g.isLive x = true) (hid : x ≠ id) (hprevious : x ≠ e.previous) :
    g'.Behind x z ↔ g.Behind x z := by
  have hleads : ∀ y ∈ g.takes x,
      (Chain.Leads g'.before? (turned id e.previous y) z ↔ Chain.Leads g.before? y z) := by
    intro y hy
    obtain ⟨n, hn⟩ := h.ready.ends y
    refine h.leads_iff hn (h.ready.settled x hlive y hy) ?_
    rintro rfl
    exact h.previous_not_mem_takes hlive hid hy
  unfold Behind
  rw [h.moved.takes_of_ne h.registered h.users hlive hid hprevious]
  constructor
  · rintro ⟨_, hmem, hl⟩
    obtain ⟨y, hy, rfl⟩ := List.mem_map.1 hmem
    exact ⟨y, hy, (hleads y hy).1 hl⟩
  · rintro ⟨y, hy, hl⟩
    exact ⟨_, List.mem_map_of_mem hy, (hleads y hy).2 hl⟩

end Move

/-! ### Whole runs -/

/-- What moving accesses keeps: marks and operations, the values of nodes, the states of memory
that nodes outside the chain take, the bytes that an alloca finds in its slot, and what is on the
chains of nodes outside. -/
structure Preserves (M : Machine) (g g' : Graph) : Prop where
  node : ∀ {x n}, g.get? x = some n → ∃ n', g'.get? x = some n' ∧ n'.op = n.op ∧
    n'.replaced = n.replaced
  valuation : ∀ v : Valuation M, g.Solves v → ∃ v' : Valuation M, g'.Solves v' ∧
    v'.value = v.value ∧
    (∀ x n, g.get? x = some n → n.replaced = false → n.op.isChained = false →
      (g'.takes x).map v'.memory = (g.takes x).map v.memory) ∧
    ∀ x n s, g.get? x = some n → n.replaced = false → n.op = .alloca s → ∀ i < M.slotSize s,
      (g'.before? x).map (fun y => v'.memory y (M.address (M.slot s) + i)) =
        (g.before? x).map fun y => v.memory y (M.address (M.slot s) + i)
  behind : ∀ x n, g.get? x = some n → n.replaced = false → n.op.isChained = false → ∀ z,
    (g'.Behind x z ↔ g.Behind x z)

namespace Preserves

theorem refl (g : Graph) : Preserves M g g where
  node hn := ⟨_, hn, rfl, rfl⟩
  valuation v hv := ⟨v, hv, rfl, fun _ _ _ _ _ => rfl, fun _ _ _ _ _ _ _ _ => rfl⟩
  behind _ _ _ _ _ _ := .rfl

theorem trans {g'' : Graph} (h1 : Preserves M g g') (h2 : Preserves M g' g'') :
    Preserves M g g'' where
  node hn := by
    obtain ⟨n1, hn1, hop1, hmark1⟩ := h1.node hn
    obtain ⟨n2, hn2, hop2, hmark2⟩ := h2.node hn1
    exact ⟨n2, hn2, hop2.trans hop1, hmark2.trans hmark1⟩
  valuation v hv := by
    obtain ⟨v1, hv1, hvalue1, htakes1, hslots1⟩ := h1.valuation v hv
    obtain ⟨v2, hv2, hvalue2, htakes2, hslots2⟩ := h2.valuation v1 hv1
    refine ⟨v2, hv2, hvalue2.trans hvalue1, ?_, ?_⟩
    · intro x n hn hlive hop
      obtain ⟨n1, hn1, hop1, hmark1⟩ := h1.node hn
      rw [htakes2 x n1 hn1 (hmark1.trans hlive) (hop1 ▸ hop), htakes1 x n hn hlive hop]
    · intro x n s hn hlive hop i hi
      obtain ⟨n1, hn1, hop1, hmark1⟩ := h1.node hn
      rw [hslots2 x n1 s hn1 (hmark1.trans hlive) (hop1.trans hop) i hi,
        hslots1 x n s hn hlive hop i hi]
  behind x n hn hlive hop z := by
    obtain ⟨n1, hn1, hop1, hmark1⟩ := h1.node hn
    rw [h2.behind x n1 hn1 (hmark1.trans hlive) (hop1 ▸ hop), h1.behind x n hn hlive hop]

end Preserves

namespace Move

variable {node' : Node} (h : Move M id e b us node node' g g')

include h

theorem ready_moved (hmade : Made g') : Ready M g' where
  made := hmade
  ends := (chains_swap h.ready.ends h.effect h.behind h.users
    (h.moved.before?_eq h.users h.effect h.behind)).1
  placed := h.placed_moved
  settled := h.settled_moved

theorem ne_of_not_chained (hn : g.get? x = some n) (hop : n.op.isChained = false) :
    x ≠ id ∧ x ≠ e.previous := by
  constructor
  · rintro rfl
    cases h.access.symm.trans hn
    simp [isChained_of_isMemoryAccess h.isAccess] at hop
  · rintro rfl
    cases h.previous.symm.trans hn
    simp [h.passes.chained] at hop

theorem preserves : Preserves M g g' where
  node hn := by
    obtain ⟨n', hn', hop, -, hmark, -⟩ := h.moved.exists_node h.registered h.users hn
    exact ⟨n', hn', hop, hmark⟩
  valuation v hv := by
    obtain ⟨p, q, hp, hq, -, hapart, -⟩ := h.equations hv
    refine ⟨_, h.solves_moved hv hp, rfl, ?_, ?_⟩
    · intro x n hn hlive hop
      obtain ⟨hid, hprevious⟩ := h.ne_of_not_chained hn hop
      have hxlive : g.isLive x = true := isLive_iff.2 ⟨n, hn, hlive⟩
      rw [h.moved.takes_of_ne h.registered h.users hxlive hid hprevious,
        h.map_memory_turned (h.previous_not_mem_takes hxlive hid)]
    · intro x n s hn hlive hop i hi
      have hid : x ≠ id := by
        rintro rfl
        cases h.access.symm.trans hn
        have := h.isAccess
        rw [hop] at this
        contradiction
      have hxlive : g.isLive x = true := isLive_iff.2 ⟨n, hn, hlive⟩
      by_cases hprevious : x = e.previous
      · -- The alloca that was passed: the access does not touch its slot.
        subst hprevious
        cases h.previous.symm.trans hn
        obtain rfl : q = M.allocating s := by simpa [patch?, hop] using hq.symm
        have hread := Machine.Patch.read_act (m := v.memory b.previous) (hapart s hop).symm hi
        rw [h.moved.before?_previous h.behind, h.before?_previous_old]
        simpa [Valuation.moved, Machine.Patch.read, Machine.allocating] using hread
      · rw [h.moved.before?_of_ne h.registered h.users hxlive hid hprevious]
        cases hbefore : g.before? x with
        | none => rfl
        | some y =>
          have hy : y ∈ g.takes x :=
            List.mem_append_left _ (by rw [hbefore]; exact List.mem_singleton_self _)
          have hne : y ≠ e.previous := by
            rintro rfl
            exact h.previous_not_mem_takes hxlive hid hy
          simp [h.memory_turned hne]
  behind x n hn hlive hop z := by
    obtain ⟨hid, hprevious⟩ := h.ne_of_not_chained hn hop
    exact h.behind_iff (isLive_iff.2 ⟨n, hn, hlive⟩) hid hprevious

end Move

theorem Ready.climb_yields (fuel : Nat) (hr : Ready M g) (hn : g.get? id = some node)
    (hop : node.op.isMemoryAccess = true) (hlive : node.replaced = false)
    (hfuel : ∃ n < fuel, Chain.EndsIn g.before? n id) :
    Yields (· = .tooLarge) (climb id fuel g) fun (_, g') => Ready M g' ∧ Preserves M g g' := by
  induction fuel generalizing g node with
  | zero =>
    omega
  | succ fuel ih =>
    rw [climb]
    cases he : g.memory[id]? with
    | none => exact .pure ⟨hr, .refl g⟩
    | some e =>
      obtain ⟨htidy, hreg⟩ := hr.made.keeps
      obtain ⟨-, -, node', hn', -⟩ := hreg id .previous e.previous ⟨e, he, rfl⟩
      refine (hr.placed.canPass_yields hreg hn hop he hn').bind fun pass hpasses => ?_
      split
      · rename_i hpass
        cases hb : g.memory[e.previous]? with
        | none => exact .pure ⟨hr, .refl g⟩
        | some b =>
          have hbefore : g.Has b.previous := by
            obtain ⟨_, -, n, hn, -⟩ := hreg e.previous .previous b.previous ⟨b, hb, rfl⟩
            exact ⟨n, hn⟩
          obtain ⟨us, hus⟩ := users_ok ⟨node, hn⟩
          obtain ⟨g1, h1⟩ := swap_ok he hb ⟨node, hn⟩ ⟨node', hn'⟩ hbefore
          have hmoved := swap_moved hus h1
          have hmove : Move M id e b us node node' g g1 :=
            ⟨hr, hmoved, hpasses hpass, he, hb, hn, hop, hlive, hn', hus⟩
          have hready := hmove.ready_moved
            (hr.made.swap ⟨node, hn⟩ ⟨node', hn'⟩ hbefore h1)
          obtain ⟨n1, hn1, hop1, hmark1⟩ := hmove.preserves.node hn
          refine .bind_ok h1 ?_
          refine (ih hready hn1 (hop1 ▸ hop) (hmark1.trans hlive) ?_).bind fun result hresult => .pure ?_
          · -- The chain of the access is shorter by one effect.
            obtain ⟨n, hends, hends'⟩ := (chains_swap hr.ends he hb hus
              (hmoved.before?_eq hus he hb)).2
            obtain ⟨m, hm, hm'⟩ := hfuel
            have := hends.unique hm'
            exact ⟨n, by omega, hends'⟩
          · exact ⟨hresult.1, hmove.preserves.trans hresult.2⟩
      · exact .pure ⟨hr, .refl g⟩

theorem Ready.climbAll_yields (ids : List NodeId) (hr : Ready M g)
    (hids : ∀ id ∈ ids, ∃ n, g.get? id = some n ∧ n.op.isMemoryAccess = true ∧ n.replaced = false) :
    Yields (· = .tooLarge) (climbAll ids g) fun (_, g') => Ready M g' ∧ Preserves M g g' := by
  induction ids generalizing g with
  | nil => exact ⟨hr, .refl g⟩
  | cons id ids ih =>
    obtain ⟨n, hn, hop, hlive⟩ := hids id List.mem_cons_self
    refine (hr.climb_yields _ hn hop hlive ?_).bind fun first hfirst => ?_
    · obtain ⟨m, hm⟩ := hr.ends id
      have := endsIn_le_size (fun x e hx => hr.made.keeps.1.memory hx) hm
      exact ⟨m, by omega, hm⟩
    · refine (ih hfirst.1 ?_).bind fun rest hrest => .pure ⟨hrest.1, hfirst.2.trans hrest.2⟩
      intro x hx
      obtain ⟨n, hn, hop, hlive⟩ := hids x (List.mem_cons_of_mem _ hx)
      obtain ⟨n', hn', hop', hmark⟩ := hfirst.2.node hn
      exact ⟨n', hn', hop' ▸ hop, hmark.trans hlive⟩

/-- Moving accesses keeps what a graph computes. Every valuation before it gives one after it in
which all nodes have the values that they had and in which nodes outside the chain take the states
that they took; and no load, store or alloca comes to or leaves the chain of such a node. -/
theorem reorderMemory_preserves (hmade : Made g) (hends : g.ChainsEnd) (hplaced : Placed M g)
    (hsettled : g.Settled) :
    Yields (· = .tooLarge) g.reorderMemory fun (_, g') => Preserves M g g' := by
  have hready : Ready M g := ⟨hmade, hends, hplaced, hsettled⟩
  refine (hready.climbAll_yields (g.liveIds.filter g.isAccess) ?_).imp fun _ hresult => hresult.2
  intro id hid
  obtain ⟨hlive, haccess⟩ := List.mem_filter.1 hid
  obtain ⟨n, hn, hmark⟩ := isLive_iff.1 (List.mem_filter.1 hlive).2
  exact ⟨n, hn, by simpa [isAccess, hn] using haccess, hmark⟩

/-! ### A graph with two slots -/

theorem chainsEnd_of_index (hmade : Made g)
    (h : ∀ x ∈ g.ids, ∀ effect ∈ g.memory[x]?, effect.previous.index < x.index) : g.ChainsEnd := by
  intro x
  induction hx : x.index using Nat.strong_induction_on generalizing x with
  | _ n ih =>
    subst hx
    cases he : g.before? x with
    | none => exact ⟨0, .here he⟩
    | some y =>
      obtain ⟨effect, heffect, rfl⟩ := before?_eq_some_iff.1 he
      have hhas : g.Has x := hmade.keeps.1.memory heffect
      exact (ih _ (h x (mem_ids_iff.2 hhas) effect heffect) _ rfl).step he

instance : Decidable g.Settled :=
  decidable_of_iff (∀ x ∈ g.liveIds, ∀ y ∈ g.takes x, g.isLive y = true) <| by
    constructor
    · intro h x hx
      obtain ⟨n, hn, -⟩ := isLive_iff.1 hx
      exact h x (List.mem_filter.2 ⟨mem_ids hn, hx⟩)
    · intro h x hx
      exact h x (List.mem_filter.1 hx).2

/-- Whether an access is where its place in the chain says. -/
def placedAt (M : Machine) (g : Graph) (node : Node) (effect : MemoryEffect) : Bool :=
  match node.inputs[0]?, g.accessed? node, node.op.offset? with
  | some base, some ty, some offset =>
    effect.target == some base && match (g.get? base).map Node.op with
      | some (.alloca s) => effect.tag == .slot s && decide (offset + M.size ty ≤ M.slotSize s)
      | _ => effect.tag == .unknown || effect.tag == .heap
  | _, _, _ => false

theorem placed_of_placedAt (h : ∀ x ∈ g.ids, ∀ node ∈ g.get? x, ∀ effect ∈ g.memory[x]?,
    node.op.isMemoryAccess = true → g.placedAt M node effect = true) : Placed M g := by
  constructor
  intro x node effect hn hop he
  have hplaced := h x (mem_ids hn) node hn effect he hop
  unfold placedAt at hplaced
  split at hplaced
  · rename_i base ty offset hbase hty hoffset
    rw [Bool.and_eq_true, beq_iff_eq] at hplaced
    obtain ⟨htarget, htag⟩ := hplaced
    have hat : ∀ s, (g.At base fun op _ => op = .alloca s) ↔
        (g.get? base).map Node.op = some (.alloca s) := by
      simp [At]
    refine ⟨base, ty, hbase, htarget, hty, ?_⟩
    intro s
    rw [hat]
    split at htag
    · rename_i own hown
      simp only [Bool.and_eq_true, beq_iff_eq, decide_eq_true_eq] at htag
      rw [htag.1, hown]
      refine ⟨by simp, ?_⟩
      intro hs offset' hoffset'
      cases hoffset.symm.trans hoffset'
      obtain rfl : own = s := by simpa using hs
      exact htag.2
    · rename_i hnot
      have htag : effect.tag ≠ .slot s := by
        intro hs
        simp [hs] at htag
      exact ⟨⟨fun hs => absurd hs htag, fun hs => absurd hs (hnot s)⟩, fun hs => absurd hs htag⟩
  · contradiction

/-- Values and bytes are numbers, and a value takes one byte of those that it has. -/
def wordMachine : Machine where
  Value := Nat
  Byte := Nat
  size ty := (ty.layout?.map Layout.size).getD 0
  size_eq h := by rw [h]; rfl
  address value := value
  unit := 0
  encode _ value i := if i = 0 then value else 0
  decode ty f := if 0 < (ty.layout?.map Layout.size).getD 0 then f 0 else 0
  decode_congr h := by
    split
    · rename_i hpos
      exact h 0 hpos
    · rfl
  slot s := 8 * s
  slotSize _ := 8
  slots_apart {a b} h := by omega
  renew _ f := f
  renew_congr h := h
  other _ _ _ _ _ := (0, fun _ => 0)

/-- A load from the first of two slots, behind a store to the second one. -/
def twoSlots : Except Fault Graph :=
  let word : Ty := .int .i64 .bottom
  let address : Ty := .pointer word .bottom
  Operation.runAll [
    .create .start (.control true) [],
    .create .constant word [],
    .create (.alloca 0) address [], .attachMemory ⟨2, 0⟩ ⟨⟨0, 0⟩, none, .slot 0⟩,
    .create (.store 0) .memory [⟨2, 0⟩, ⟨1, 0⟩], .attachMemory ⟨3, 0⟩ ⟨⟨2, 0⟩, some ⟨2, 0⟩, .slot 0⟩,
    .create (.alloca 1) address [], .attachMemory ⟨4, 0⟩ ⟨⟨3, 0⟩, none, .slot 1⟩,
    .create (.store 0) .memory [⟨4, 0⟩, ⟨1, 0⟩], .attachMemory ⟨5, 0⟩ ⟨⟨4, 0⟩, some ⟨4, 0⟩, .slot 1⟩,
    .create (.load 0) word [⟨2, 0⟩], .attachMemory ⟨6, 0⟩ ⟨⟨5, 0⟩, some ⟨2, 0⟩, .slot 0⟩,
    .create .return_ .void [⟨6, 0⟩], .attachMemory ⟨7, 0⟩ ⟨⟨6, 0⟩, none, .unknown⟩] .empty

/-- The load moves past the store and the alloca of the other slot. -/
theorem reorderMemory_twoSlots : ∃ g steps g', twoSlots = .ok g ∧ g.ChainsEnd ∧
    Placed wordMachine g ∧ g.Settled ∧ g.reorderMemory = .ok (steps, g') ∧ steps = 2 ∧
    Preserves wordMachine g g' := by
  have hchecks : passes (fun g =>
      (decide (∀ x ∈ g.ids, ∀ effect ∈ g.memory[x]?, effect.previous.index < x.index) &&
        decide (∀ x ∈ g.ids, ∀ node ∈ g.get? x, ∀ effect ∈ g.memory[x]?,
          node.op.isMemoryAccess = true → g.placedAt wordMachine node effect = true)) &&
      (decide g.Settled && passes (fun result => result.1 == 2) g.reorderMemory)) twoSlots = true := by
    decide +kernel
  obtain ⟨g, hg, hchecks⟩ := exists_ok_of_passes hchecks
  simp only [Bool.and_eq_true, decide_eq_true_eq] at hchecks
  obtain ⟨⟨hindex, hplacedAt⟩, hsettled, hsteps⟩ := hchecks
  have hmade : Made g := Made.empty.runAll hg
  have hends : g.ChainsEnd := chainsEnd_of_index hmade hindex
  have hplaced : Placed wordMachine g := placed_of_placedAt hplacedAt
  have hyields := reorderMemory_preserves hmade hends hplaced hsettled
  obtain ⟨result, hr, hcount⟩ := exists_ok_of_passes hsteps
  rw [hr] at hyields
  exact ⟨g, result.1, result.2, hg, hends, hplaced, hsettled, hr, beq_iff_eq.1 hcount, hyields⟩

/-- A store to the first of two slots, behind one to the second, and a return that takes its memory
from a phi which that store stands for. -/
def replacedPhi : Except Fault Graph :=
  let word : Ty := .int .i64 .bottom
  let address : Ty := .pointer word .bottom
  Operation.runAll [
    .create .start (.control true) [],
    .create .constant word [],
    .create (.alloca 0) address [], .attachMemory ⟨2, 0⟩ ⟨⟨0, 0⟩, none, .slot 0⟩,
    .create (.alloca 1) address [], .attachMemory ⟨3, 0⟩ ⟨⟨2, 0⟩, none, .slot 1⟩,
    .create (.store 0) .memory [⟨3, 0⟩, ⟨1, 0⟩], .attachMemory ⟨4, 0⟩ ⟨⟨3, 0⟩, some ⟨3, 0⟩, .slot 1⟩,
    .create (.store 0) .memory [⟨2, 0⟩, ⟨1, 0⟩], .attachMemory ⟨5, 0⟩ ⟨⟨4, 0⟩, some ⟨2, 0⟩, .slot 0⟩,
    .create .loop (.control true) [⟨0, 0⟩],
    .create .phi .memory [⟨6, 0⟩, ⟨5, 0⟩], .replace ⟨7, 0⟩ ⟨5, 0⟩,
    .create .return_ .void [], .attachMemory ⟨8, 0⟩ ⟨⟨7, 0⟩, none, .unknown⟩] .empty

/-- Memory has to be taken from nodes that no others stand for. The case of a phi that was replaced
stays where it is when accesses move, so that a store leaves its chain. -/
theorem not_behind_replacedPhi : ∃ g steps g', replacedPhi = .ok g ∧ Made g ∧ g.ChainsEnd ∧
    Placed wordMachine g ∧ g.reorderMemory = .ok (steps, g') ∧ g.isLive ⟨8, 0⟩ = true ∧
    g.before? ⟨8, 0⟩ = some ⟨7, 0⟩ ∧ (g.At ⟨4, 0⟩ fun op _ => op = .store 0) ∧
    g.Behind ⟨7, 0⟩ ⟨4, 0⟩ ∧ ¬ g'.Behind ⟨7, 0⟩ ⟨4, 0⟩ := by
  have hchecks : passes (fun g =>
      (decide (∀ x ∈ g.ids, ∀ effect ∈ g.memory[x]?, effect.previous.index < x.index) &&
        decide (∀ x ∈ g.ids, ∀ node ∈ g.get? x, ∀ effect ∈ g.memory[x]?,
          node.op.isMemoryAccess = true → g.placedAt wordMachine node effect = true)) &&
      (g.isLive ⟨8, 0⟩ && g.before? ⟨8, 0⟩ == some ⟨7, 0⟩) &&
      ((g.get? ⟨4, 0⟩).any (fun node => node.op == .store 0) &&
        (g.takes ⟨7, 0⟩ == [⟨6, 0⟩, ⟨5, 0⟩] && g.before? ⟨5, 0⟩ == some ⟨4, 0⟩)) &&
      passes (fun result =>
        (result.2.takes ⟨7, 0⟩ == [⟨6, 0⟩, ⟨5, 0⟩] && result.2.before? ⟨6, 0⟩ == none) &&
        (result.2.before? ⟨5, 0⟩ == some ⟨2, 0⟩ && result.2.before? ⟨2, 0⟩ == some ⟨0, 0⟩ &&
          result.2.before? ⟨0, 0⟩ == none)) g.reorderMemory) replacedPhi = true := by
    decide +kernel
  obtain ⟨g, hg, hchecks⟩ := exists_ok_of_passes hchecks
  simp only [Bool.and_eq_true, decide_eq_true_eq, beq_iff_eq] at hchecks
  obtain ⟨⟨⟨⟨hindex, hplacedAt⟩, hlive, hreturn⟩, hstore, htakes, hcase⟩, hresult⟩ := hchecks
  have hmade : Made g := Made.empty.runAll hg
  obtain ⟨result, hr, hresult⟩ := exists_ok_of_passes hresult
  simp only [Bool.and_eq_true, beq_iff_eq] at hresult
  obtain ⟨⟨htakes', hregion'⟩, ⟨hcase', hslot'⟩, hstart'⟩ := hresult
  refine ⟨g, result.1, result.2, hg, hmade, chainsEnd_of_index hmade hindex,
    placed_of_placedAt hplacedAt, hr, hlive, hreturn, ?_, ?_, ?_⟩
  · obtain ⟨node, hn, hop⟩ := (Option.any_eq_true _ _).1 hstore
    exact ⟨node, hn, by simpa using hop⟩
  · refine ⟨⟨5, 0⟩, by rw [htakes]; simp, ?_⟩
    exact .step hcase (.refl _)
  · rintro ⟨y, hy, hleads⟩
    rw [htakes'] at hy
    rcases List.mem_cons.1 hy with rfl | hy
    · simp [Chain.leads_iff (a := (⟨6, 0⟩ : NodeId)), hregion'] at hleads
    · obtain rfl := List.mem_singleton.1 hy
      simp [Chain.leads_iff (a := (⟨5, 0⟩ : NodeId)), Chain.leads_iff (a := (⟨2, 0⟩ : NodeId)),
        Chain.leads_iff (a := (⟨0, 0⟩ : NodeId)), hcase', hslot', hstart'] at hleads

end Graph

end SeaOfNodes
