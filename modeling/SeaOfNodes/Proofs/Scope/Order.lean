import SeaOfNodes.Proofs.Pass.Phi
import SeaOfNodes.Proofs.Scope.Collapse
import SeaOfNodes.Proofs.Scope.Head
import SeaOfNodes.Proofs.Scope.Web

/-!
The order in which a loop is closed. The phis at the head are visited once each, and one of them is
replaced if it has no value but its own and the one from before the loop. Replacing a phi can make
another one redundant, but only one that is visited later.

Whatever the order, a phi is replaced by the value from before the loop. Which phis are replaced
does not depend on the order exactly if no phi needs another one to be replaced first
(`close_order_iff`).
-/
namespace SeaOfNodes

open SeaOfNodes.Graph

variable {g : Graph}

/-! ### Paths -/

theorem Scope.substitute_comm {old new old' new' : NodeId} (h : old ≠ old') (hnew : new ≠ old')
    (hnew' : new' ≠ old) (s : Scope) :
    (s.substitute old new).substitute old' new' = (s.substitute old' new').substitute old new := by
  have hturn : ∀ z : Binding,
      (let z := if z.heldValue? = some old then z.withValue new else z
       if z.heldValue? = some old' then z.withValue new' else z) =
      (let z := if z.heldValue? = some old' then z.withValue new' else z
       if z.heldValue? = some old then z.withValue new else z) := by
    intro z
    cases z with
    | held id ty =>
      by_cases h1 : id = old <;> by_cases h2 : id = old' <;>
        simp_all [Binding.heldValue?, Binding.withValue]
    | type ty => rfl
    | value id => rfl
    | slot address ty => rfl
  unfold substitute
  simp only [List.map_map]
  congr 2
  funext frame
  simp only [Function.comp_apply, List.map_map]
  congr 1
  funext entry
  rw [Prod.mk.injEq]
  exact ⟨rfl, hturn entry.2⟩

/-- A path whose nodes are in the graph. -/
structure Arm.Known (g : Graph) (arm : Arm) : Prop where
  control : g.Has arm.cursor.control
  memory : g.Has arm.cursor.memory
  values : ∀ depth name id, (arm.scope.get? depth name).bind Binding.heldValue? = some id → g.Has id

/-- The value that a variable has at the end of a path back. -/
def LoopLocal.back (v : LoopLocal) (scope : Scope) : NodeId :=
  ((scope.get? v.depth v.name).bind Binding.heldValue?).getD v.phi

theorem Arm.Known.keeps {g' : Graph} {arm : Arm} (h : arm.Known g) (hk : Keeps g g') :
    arm.Known g' :=
  ⟨hk.has h.control, hk.has h.memory, fun _ _ _ hid => hk.has (h.values _ _ _ hid)⟩

namespace LoopPhis

variable {b : Builder} {F : Fault → Prop} {S : NodeId → NodeId → Prop} {ps : List NodeId}
  {phis : LoopPhis} {entry : NodeId → NodeId} {arm : Arm} {arms : List Arm}
  {locals : List LoopLocal}

/-- A path back brings a value to a phi at the head. -/
def Brings (phis : LoopPhis) (arm : Arm) (p c : NodeId) : Prop :=
  (∃ v ∈ phis.locals, p = v.phi ∧ c = v.back arm.scope) ∨ p = phis.memory ∧ c = arm.cursor.memory

/-- A path back that is taken brings a value to a phi at the head. -/
def BringsBack (phis : LoopPhis) (g : Graph) (arms : List Arm) (p c : NodeId) : Prop :=
  ∃ arm ∈ arms, Taken g arm.cursor.control ∧ phis.Brings arm p c

/-- The head of a loop with the paths back that are taken. -/
def web (phis : LoopPhis) (entry : NodeId → NodeId) (g : Graph) (arms : List Arm) : Web where
  entry := entry
  brings := phis.BringsBack g arms

theorem appendInput_heads {x input : NodeId} (h : Heads b.graph S ps) (hx : b.graph.Has x)
    (hin : b.graph.Has input) : Does F b (BuildM.edit fun g => g.appendInput x input) fun _ b' =>
      Keeps b.graph b'.graph ∧ Heads b'.graph (fun p c => S p c ∨ p = x ∧ c = input) ps := by
  obtain ⟨g', hg'⟩ := appendInput_ok hx hin
  exact .edit hg' ⟨(appended_one hg').keeps, h.appendInput hg'⟩

theorem appendValues_heads {scope : Scope} (h : Heads b.graph S ps)
    (hlocals : ∀ v ∈ locals, b.graph.Has v.phi ∧ b.graph.Has (v.back scope)) :
    Does F b (appendValues scope locals) fun _ b' => Keeps b.graph b'.graph ∧
      Heads b'.graph (fun p c => S p c ∨ ∃ v ∈ locals, p = v.phi ∧ c = v.back scope) ps := by
  induction locals generalizing b S with
  | nil => exact .pure ⟨.refl _, h.congr (by simp)⟩
  | cons v locals ih =>
    obtain ⟨⟨hv, hback⟩, hlocals⟩ := List.forall_mem_cons.1 hlocals
    refine (appendInput_heads h hv hback).bind ?_
    rintro _ b1 ⟨hk1, h1⟩
    refine (ih h1 fun v hv => ⟨hk1.has (hlocals v hv).1, hk1.has (hlocals v hv).2⟩).imp ?_
    rintro _ b2 ⟨hk2, h2⟩
    exact ⟨hk1.trans hk2, h2.congr fun p _ c => by simp [or_assoc]⟩

theorem appendEdge_heads (h : Heads b.graph S phis.nodes) (hheader : b.graph.Has phis.header)
    (hnot : phis.header ∉ phis.nodes) (harm : arm.Known b.graph) :
    Does F b (phis.appendEdge arm) fun _ b' => Keeps b.graph b'.graph ∧ Heads b'.graph
      (fun p c => S p c ∨ Taken b.graph arm.cursor.control ∧ phis.Brings arm p c) phis.nodes := by
  have hback : ∀ v ∈ phis.locals, b.graph.Has v.phi ∧ b.graph.Has (v.back arm.scope) := by
    intro v hv
    have hphi : b.graph.Has v.phi :=
      (h.chooses _ (List.mem_append_left _ (List.mem_map_of_mem hv))).has
    refine ⟨hphi, ?_⟩
    unfold LoopLocal.back
    cases hvalue : (arm.scope.get? v.depth v.name).bind Binding.heldValue? with
    | none => exact hphi
    | some id => exact harm.values _ _ _ hvalue
  have hmemory : b.graph.Has phis.memory :=
    (h.chooses _ (List.mem_append_right _ List.mem_cons_self)).has
  refine (BuildM.isTaken_does harm.control).bind ?_
  rintro dead b ⟨rfl, hdead⟩
  split
  · rename_i hdead'
    have htaken : ¬ Taken b.graph arm.cursor.control := by
      rw [← hdead, hdead']
      simp
    exact .pure ⟨.refl _, h.congr fun p _ c => by simp [htaken]⟩
  · rename_i hdead'
    have htaken : Taken b.graph arm.cursor.control := hdead.1 (by simpa using hdead')
    refine (appendInput_heads h hheader harm.control).bind fun _ b1 ⟨hk1, h1⟩ => ?_
    refine (appendValues_heads h1 fun v hv =>
      ⟨hk1.has (hback v hv).1, hk1.has (hback v hv).2⟩).bind fun _ b2 ⟨hk2, h2⟩ => ?_
    have hk := hk1.trans hk2
    refine (appendInput_heads h2 (hk.has hmemory) (hk.has harm.memory)).imp ?_
    rintro _ b3 ⟨hk3, h3⟩
    refine ⟨hk.trans hk3, h3.congr fun p hp c => ?_⟩
    have hne : p ≠ phis.header := by
      rintro rfl
      exact hnot hp
    simp [htaken, hne, Brings, or_assoc]

theorem appendEdges_heads (h : Heads b.graph S phis.nodes) (hk : Keeps g b.graph)
    (hheader : g.Has phis.header) (hnot : phis.header ∉ phis.nodes)
    (harms : ∀ arm ∈ arms, arm.Known g) :
    Does F b (phis.appendEdges arms) fun _ b' => Keeps g b'.graph ∧ Heads b'.graph
      (fun p c => S p c ∨ phis.BringsBack g arms p c) phis.nodes := by
  induction arms generalizing b S with
  | nil => exact .pure ⟨hk, h.congr (by simp [BringsBack])⟩
  | cons arm arms ih =>
    obtain ⟨harm, harms⟩ := List.forall_mem_cons.1 harms
    refine (appendEdge_heads h (hk.has hheader) hnot (harm.keeps hk)).bind ?_
    rintro _ b1 ⟨hk1, h1⟩
    refine (ih h1 (hk.trans hk1) harms).imp ?_
    rintro _ b2 ⟨hk2, h2⟩
    refine ⟨hk2, h2.congr fun p _ c => ?_⟩
    rw [hk.taken_iff harm.control]
    simp [BringsBack, or_assoc]

/-! ### Replacements -/

/-- What a value is when `done` are replaced. -/
def turn (w : Web) (done : List NodeId) (c : NodeId) : NodeId := if c ∈ done then w.entry c else c

/-- The cases of the phis at the head when `done` are replaced. -/
def Remaining (w : Web) (done : List NodeId) (p c : NodeId) : Prop :=
  c = w.entry p ∨ ∃ c', w.brings p c' ∧ c = turn w done c'

theorem singleCase?_chooses {p v : NodeId} {C : NodeId → Prop} (h : b.graph.Chooses p C) (hv : C v)
    (hne : v ≠ p) : Does F b (singleCase? p) fun r b' => b' = b ∧
      (r = some v ∧ (∀ c, C c → c = p ∨ c = v) ∨ r = none ∧ ¬ ∀ c, C c → c = p ∨ c = v) := by
  obtain ⟨node, region, cases, hn, -, hinputs, hmem⟩ := h
  refine Does.bind (.look_ok (node_of_get? hn) (Q := fun n b' => n = node ∧ b' = b) ⟨rfl, rfl⟩) ?_
  rintro _ b ⟨rfl, rfl⟩
  rw [hinputs]
  refine .pure ⟨rfl, ?_⟩
  have hfilter : ∀ c, c ∈ cases.filter (· != p) ↔ C c ∧ c ≠ p := by simp [hmem]
  cases hsame : BuildM.allSame (cases.filter (· != p)) with
  | some value =>
    obtain ⟨rest, heq, hall⟩ := BuildM.allSame_eq_some hsame
    have hvalue : ∀ c, C c → c ≠ p → c = value := by
      intro c hc hcp
      rcases List.mem_cons.1 (heq ▸ (hfilter c).2 ⟨hc, hcp⟩) with hc | hc
      · exact hc
      · exact hall c hc
    obtain rfl := hvalue v hv hne
    exact .inl ⟨rfl, fun c hc => Classical.or_iff_not_imp_left.2 (hvalue c hc)⟩
  | none =>
    refine .inr ⟨rfl, fun hall => ?_⟩
    have hsingle : ∀ c ∈ cases.filter (· != p), c = v := fun c hc =>
      (hall c ((hfilter c).1 hc).1).resolve_left ((hfilter c).1 hc).2
    have hvmem := (hfilter v).2 ⟨hv, hne⟩
    cases hl : cases.filter (· != p) with
    | nil => simp [hl] at hvmem
    | cons y ys =>
      rw [hl] at hsame hsingle
      obtain ⟨rfl, hys⟩ := List.forall_mem_cons.1 hsingle
      simp [BuildM.allSame, if_pos (by simpa using hys)] at hsame

/-- A visit of the phis replaces each that is redundant at its turn by the value from before the
loop. -/
theorem collapse_visits {w : Web} {done rest : List NodeId} (all : List NodeId)
    (h : Heads b.graph (Remaining w done) rest) (hnodup : rest.Nodup)
    (hrest : ∀ p ∈ rest, p ∈ all ∧ p ∉ done) (hdone : done ⊆ all)
    (hentry : ∀ p ∈ all, b.graph.Has (w.entry p) ∧ w.entry p ∉ all) :
    Does F b (collapse rest) fun r b' => Keeps b.graph b'.graph ∧ ∃ replaced,
      w.Visits done rest replaced ∧ r = replaced.map fun p => (p, w.entry p) := by
  induction rest generalizing b done with
  | nil => exact .pure ⟨.refl _, [], .nil, rfl⟩
  | cons p rest ih =>
    obtain ⟨⟨hp, hpdone⟩, hrest⟩ := List.forall_mem_cons.1 hrest
    obtain ⟨hpnot, hnodup⟩ := List.nodup_cons.1 hnodup
    obtain ⟨hhas, hout⟩ := hentry p hp
    have hne : w.entry p ≠ p := fun heq => hout (by rwa [heq])
    -- What was replaced is one of the phis, and the values from before the loop are none.
    have hturn : ∀ c, turn w done c = p ↔ c = p := by
      intro c
      unfold turn
      split
      · rename_i hc
        have h1 : w.entry c ≠ p := fun heq => (hentry c (hdone hc)).2 (heq ▸ hp)
        have h2 : c ≠ p := fun heq => hpdone (heq ▸ hc)
        simp [h1, h2]
      · rfl
    have hred : (∀ c, Remaining w done p c → c = p ∨ c = w.entry p) ↔ w.Redundant done p := by
      constructor
      · intro hall c hc
        rcases hall _ (.inr ⟨c, hc, rfl⟩) with heq | heq
        · exact .inl ((hturn c).1 heq)
        · unfold turn at heq
          split at heq
          · rename_i hcdone
            exact .inr (.inr ⟨hcdone, heq⟩)
          · exact .inr (.inl heq)
      · rintro hred c (rfl | ⟨c, hc, rfl⟩)
        · exact .inr rfl
        · rcases hred c hc with rfl | rfl | ⟨hcdone, heq⟩
          · exact .inl ((hturn c).2 rfl)
          · exact .inr (if_neg fun hmem => hout (hdone hmem))
          · exact .inr ((if_pos hcdone).trans heq)
    refine (singleCase?_chooses (h.chooses p List.mem_cons_self) (.inl rfl) hne).bind ?_
    rintro r b ⟨rfl, ⟨rfl, hall⟩ | ⟨rfl, hall⟩⟩
    · obtain ⟨g', hg'⟩ := replace_ok (h.chooses p List.mem_cons_self).has hhas (by
        unfold turnOf
        rw [h.effect p List.mem_cons_self]
        exact hhas)
      have hk := keeps_replace hg'
      refine Does.bind (.edit hg' (Q := fun _ b' => b' = { b with graph := g' }) rfl) ?_
      rintro - _ rfl
      have hheads : Heads g' (Remaining w (p :: done)) rest := by
        refine (h.replace hg' hne.symm hpnot).congr fun q hq c => ?_
        have hqne : w.entry q ≠ p := fun heq => (hentry q (hrest q hq).1).2 (heq ▸ hp)
        have hstep : ∀ c, (if turn w done c = p then w.entry p else turn w done c) =
            turn w (p :: done) c := by
          intro c
          by_cases hc : c = p
          · rw [if_pos ((hturn c).2 hc), hc, turn, if_pos List.mem_cons_self]
          · rw [if_neg fun heq => hc ((hturn c).1 heq)]
            simp [turn, hc]
        constructor
        · rintro ⟨c', rfl | ⟨c'', hc'', rfl⟩, rfl⟩
          · exact .inl (if_neg hqne)
          · exact .inr ⟨c'', hc'', hstep c''⟩
        · rintro (rfl | ⟨c'', hc'', rfl⟩)
          · exact ⟨_, .inl rfl, (if_neg hqne).symm⟩
          · exact ⟨_, .inr ⟨c'', hc'', rfl⟩, (hstep c'').symm⟩
      refine (ih hheads hnodup ?_ ?_ ?_).bind ?_
      · refine fun q hq => ⟨(hrest q hq).1, fun hmem => ?_⟩
        rcases List.mem_cons.1 hmem with rfl | hmem
        · exact hpnot hq
        · exact (hrest q hq).2 hmem
      · exact List.cons_subset.2 ⟨hp, hdone⟩
      · exact fun q hq => ⟨hk.has (hentry q hq).1, (hentry q hq).2⟩
      · rintro _ b2 ⟨hk2, replaced, hvisits, rfl⟩
        exact .pure ⟨hk.trans hk2, p :: replaced, .replace (hred.1 hall) hvisits, rfl⟩
    · have htail : Heads b.graph (Remaining w done) rest :=
        ⟨h.registered, fun q hq => h.effect q (List.mem_cons_of_mem _ hq),
          fun q hq => h.chooses q (List.mem_cons_of_mem _ hq)⟩
      refine (ih htail hnodup hrest hdone hentry).imp ?_
      rintro _ b2 ⟨hk2, replaced, hvisits, rfl⟩
      exact ⟨hk2, replaced, .keep (fun hp => hall (hred.2 hp)) hvisits, rfl⟩

theorem eq_of_resolved {replaced l out : List (NodeId × NodeId)} {fuel : Nat}
    (h : List.Forall₂ (Resolved replaced (fuel + 1)) l out)
    (hnone : ∀ q ∈ l, replaced.lookup q.2 = none) : out = l := by
  induction h with
  | nil => rfl
  | @cons p q l out hpq _ ih =>
    obtain ⟨hp, hnone⟩ := List.forall_mem_cons.1 hnone
    obtain ⟨hkey, hvalue⟩ := hpq
    rw [resolve, hp] at hvalue
    rw [ih hnone, Prod.ext hkey (Except.ok.inj hvalue).symm]

theorem close_visits (hopen : Open b.graph phis entry) (harms : ∀ arm ∈ arms, arm.Known b.graph) :
    ∃ replaced b', phis.close arms b = .ok (replaced.map fun p => (p, entry p), b') ∧
      (phis.web entry b.graph arms).Visits [] phis.nodes replaced := by
  have hclose : Does (fun _ => False) b (phis.close arms) fun r _ => ∃ replaced,
      r = replaced.map (fun p => (p, entry p)) ∧
        (phis.web entry b.graph arms).Visits [] phis.nodes replaced := by
    refine (appendEdges_heads hopen.heads (.refl _) hopen.header.1 hopen.header.2 harms).bind ?_
    rintro _ b1 ⟨hk1, h1⟩
    have hheads : Heads b1.graph (Remaining (phis.web entry b.graph arms) []) phis.nodes :=
      h1.congr fun p _ c => by simp [Remaining, turn, web]
    refine (collapse_visits phis.nodes hheads hopen.nodup (by simp) (by simp) ?_).bind ?_
    · exact fun p hp => ⟨hk1.has (hopen.entry p hp).1, (hopen.entry p hp).2⟩
    rintro r b2 ⟨-, replaced, hvisits, hr⟩
    obtain rfl : r = replaced.map fun p => (p, entry p) := hr
    have hnone : ∀ q ∈ replaced.map fun p => (p, entry p),
        (replaced.map fun p => (p, entry p)).lookup q.2 = none := by
      intro q hq
      obtain ⟨p, hp, rfl⟩ := List.mem_map.1 hq
      refine List.lookup_eq_none_iff.2 fun q hq => ?_
      obtain ⟨p', hp', rfl⟩ := List.mem_map.1 hq
      have hp' := hvisits.sublist.subset hp'
      have hout := (hopen.entry p (hvisits.sublist.subset hp)).2
      have hne : entry p ≠ p' := fun heq => hout (by rwa [heq])
      simpa using hne
    refine (resolveAll_does fun q hq => .inl ⟨q.2, ?_⟩).imp ?_
    · rw [resolve, hnone q hq]
    · rintro out b3 ⟨-, hout⟩
      exact ⟨replaced, eq_of_resolved hout hnone, hvisits⟩
  obtain ⟨⟨r, b'⟩, hr, replaced, rfl, hvisits⟩ := hclose.exists_ok
  exact ⟨replaced, b', hr, hvisits⟩

/-! ### Orders -/

theorem exists_map_eq_of_perm {order : List NodeId} (h : order.Perm (locals.map LoopLocal.phi)) :
    ∃ l : List LoopLocal, l.Perm locals ∧ l.map LoopLocal.phi = order := by
  have hcomp := congrFun (congrFun (List.eq_map_comp_perm LoopLocal.phi) order) locals
  obtain ⟨l, rfl, hl⟩ := hcomp.mpr h
  exact ⟨l, hl, rfl⟩

/-- The same head with its variables in another order. -/
def withLocals (phis : LoopPhis) (locals : List LoopLocal) : LoopPhis := { phis with locals := locals }

theorem Open.withLocals {g : Graph} {locals : List LoopLocal} (h : Open g phis entry)
    (hperm : locals.Perm phis.locals) : Open g (phis.withLocals locals) entry := by
  have hnodes : (phis.withLocals locals).nodes.Perm phis.nodes := (hperm.map _).append_right _
  refine ⟨⟨h.header.1, fun hmem => h.header.2 (hnodes.mem_iff.1 hmem)⟩, hnodes.nodup_iff.2 h.nodup,
    ⟨h.heads.registered, ?_, ?_⟩, ?_⟩
  · exact fun p hp => h.heads.effect p (hnodes.mem_iff.1 hp)
  · exact fun p hp => h.heads.chooses p (hnodes.mem_iff.1 hp)
  · intro p hp
    obtain ⟨hhas, hout⟩ := h.entry p (hnodes.mem_iff.1 hp)
    exact ⟨hhas, fun hmem => hout (hnodes.mem_iff.1 hmem)⟩

theorem web_withLocals (hperm : locals.Perm phis.locals) :
    (phis.withLocals locals).web entry g arms = phis.web entry g arms := by
  have hbrings : (phis.withLocals locals).Brings = phis.Brings := by
    funext arm p c
    simp [Brings, withLocals, hperm.mem_iff]
  unfold web BringsBack
  rw [hbrings]

/-- A path out of a loop when the loop is closed. -/
def substituteAll (replaced : List (NodeId × NodeId)) (arm : Arm) : Arm :=
  replaced.foldl (fun arm q => ParseM.substituteArm arm q.1 q.2) arm

/-- The order of replacements by nodes that are not replaced makes no difference to a path. -/
theorem substituteAll_perm {r1 r2 : List NodeId} (hperm : r1.Perm r2)
    (hentry : ∀ p ∈ r1, entry p ∉ r1) (arm : Arm) :
    substituteAll (r1.map fun p => (p, entry p)) arm =
      substituteAll (r2.map fun p => (p, entry p)) arm := by
  refine (hperm.map _).foldl_eq' (fun x hx y hy arm => ?_) arm
  obtain ⟨p, hp, rfl⟩ := List.mem_map.1 hx
  obtain ⟨q, hq, rfl⟩ := List.mem_map.1 hy
  by_cases hpq : p = q
  · rw [hpq]
  · have hp' : entry p ≠ q := fun heq => hentry p hp (by rwa [heq])
    have hq' : entry q ≠ p := fun heq => hentry q hq (by rwa [heq])
    unfold ParseM.substituteArm
    rw [Scope.substitute_comm hpq hp' hq']
    by_cases h1 : arm.cursor.memory = p <;> by_cases h2 : arm.cursor.memory = q <;> simp_all

theorem Open.order_iff (hopen : Open b.graph phis entry) (harms : ∀ arm ∈ arms, arm.Known b.graph) :
    (∀ locals, locals.Perm phis.locals → ∃ r b', (phis.withLocals locals).close arms b = .ok (r, b') ∧
      ∀ q ∈ r, q.2 = entry q.1) ∧
    ((∀ l1 l2 r1 r2 b1 b2, l1.Perm phis.locals → l2.Perm phis.locals →
        (phis.withLocals l1).close arms b = .ok (r1, b1) →
        (phis.withLocals l2).close arms b = .ok (r2, b2) →
        r1.Perm r2 ∧ ∀ exit, substituteAll r1 exit = substituteAll r2 exit) ↔
      ∀ v ∈ phis.locals, (phis.web entry b.graph arms).Collapsible (phis.locals.map LoopLocal.phi) v.phi →
        (phis.web entry b.graph arms).Redundant [] v.phi) := by
  have hrun : ∀ {locals : List LoopLocal}, locals.Perm phis.locals → ∃ replaced b',
      (phis.withLocals locals).close arms b = .ok (replaced.map fun p => (p, entry p), b') ∧
        (phis.web entry b.graph arms).Visits []
          (locals.map LoopLocal.phi ++ [phis.memory]) replaced := by
    intro locals hperm
    have h := close_visits (hopen.withLocals hperm) harms
    rw [web_withLocals hperm] at h
    exact h
  obtain ⟨hnodup, -, hlast⟩ := List.nodup_append'.1 hopen.nodup
  have hlast : phis.memory ∉ phis.locals.map LoopLocal.phi := fun hmem =>
    hlast hmem List.mem_cons_self
  refine ⟨fun locals hperm => ?_, ?_⟩
  · obtain ⟨replaced, b', hr, -⟩ := hrun hperm
    exact ⟨_, b', hr, by simp⟩
  have hforall : (∀ v ∈ phis.locals, (phis.web entry b.graph arms).Collapsible
      (phis.locals.map LoopLocal.phi) v.phi → (phis.web entry b.graph arms).Redundant [] v.phi) ↔
      ∀ p ∈ phis.locals.map LoopLocal.phi, (phis.web entry b.graph arms).Collapsible
        (phis.locals.map LoopLocal.phi) p → (phis.web entry b.graph arms).Redundant [] p := by
    simp
  rw [hforall, ← Web.visits_perm_iff hnodup hlast]
  constructor
  · intro hagree o1 o2 r1 r2 ho1 ho2 h1 h2
    obtain ⟨l1, hl1, rfl⟩ := exists_map_eq_of_perm ho1
    obtain ⟨l2, hl2, rfl⟩ := exists_map_eq_of_perm ho2
    obtain ⟨r1', b1, hr1, hv1⟩ := hrun hl1
    obtain ⟨r2', b2, hr2, hv2⟩ := hrun hl2
    obtain rfl := hv1.unique h1
    obtain rfl := hv2.unique h2
    have hperm := ((hagree l1 l2 _ _ b1 b2 hl1 hl2 hr1 hr2).1).map Prod.fst
    simpa [Function.comp_def] using hperm
  · intro hagree l1 l2 r1 r2 b1 b2 hl1 hl2 hr1 hr2
    obtain ⟨r1', b1', hr1', hv1⟩ := hrun hl1
    obtain ⟨r2', b2', hr2', hv2⟩ := hrun hl2
    cases Except.ok.inj (hr1.symm.trans hr1')
    cases Except.ok.inj (hr2.symm.trans hr2')
    have hperm := hagree _ _ _ _ (hl1.map _) (hl2.map _) hv1 hv2
    have hnodes : ∀ p ∈ r1', p ∈ phis.nodes := fun p hp =>
      ((hl1.map LoopLocal.phi).append_right [phis.memory]).mem_iff.1 (hv1.sublist.subset hp)
    refine ⟨hperm.map _, substituteAll_perm hperm fun p hp hmem => ?_⟩
    exact (hopen.entry p (hnodes p hp)).2 (hnodes _ hmem)

/-- Closing a loop has a result, and a phi is replaced by the value from before the loop, in
whatever order the variables are listed. What is replaced, and so what a path out of the loop has
for a variable, does not depend on the order exactly if no variable's phi needs that of another one
to be replaced first. -/
theorem close_order_iff {scope : Scope} {b₀ : Builder} (h : Inside scope b₀ phis b)
    (harms : ∀ arm ∈ arms, arm.Known b.graph) :
    (∀ locals, locals.Perm phis.locals → ∃ r b', (phis.withLocals locals).close arms b = .ok (r, b') ∧
      ∀ q ∈ r, q.2 = entryOf b.graph q.1) ∧
    ((∀ l₁ l₂ r₁ r₂ b₁ b₂, l₁.Perm phis.locals → l₂.Perm phis.locals →
        (phis.withLocals l₁).close arms b = .ok (r₁, b₁) →
        (phis.withLocals l₂).close arms b = .ok (r₂, b₂) →
        r₁.Perm r₂ ∧ ∀ exit, substituteAll r₁ exit = substituteAll r₂ exit) ↔
      ∀ v ∈ phis.locals,
        (phis.web (entryOf b.graph) b.graph arms).Collapsible (phis.locals.map LoopLocal.phi) v.phi →
          (phis.web (entryOf b.graph) b.graph arms).Redundant [] v.phi) :=
  h.open.order_iff harms

/-- A loop with two variables that are zero before it. -/
def twoZeros : BuildM (NodeId × Scope) := do
  let header ← BuildM.make (.loop (← BuildM.cursor).control)
  let zero ← BuildM.constant (.intOf .int 0)
  let zero := Binding.held zero (.int .int .bottom)
  return (header, ⟨[[("a", zero), ("b", zero)]]⟩)

/-- The path back of a loop that assigns the second of its variables to the first. -/
def crossing (phis : LoopPhis) (inside : Scope) : Arm :=
  match phis.locals with
  | [_, v] => ⟨inside.set 0 "a" (.held v.phi (.int .int .bottom)), ⟨phis.header, phis.memory⟩⟩
  | _ => ⟨inside, ⟨phis.header, phis.memory⟩⟩

/-- All that has to be checked of such a loop: it is entered with values that are no errors, its path
back has nodes of the graph, and the two orders of its variables replace different numbers of
phis. -/
def crosses (b₀ : Builder) (scope : Scope) (header : NodeId) (phis : LoopPhis) (inside : Scope)
    (b : Builder) : Bool :=
  let arm := crossing phis inside
  decide (phis.header = header ∧ b₀.graph.MergeOf header 1 ∧
    (∀ e ∈ scope.entries, ∀ id ∈ e.2.2.heldValue?, b₀.graph.At id fun op _ => op.isError = false) ∧
    (b₀.graph.At b₀.cursor.memory fun op _ => op.isError = false) ∧
    (∀ p ∈ phis.nodes, b.graph.At p fun op _ => op = .phi) ∧
    b.graph.Has phis.header ∧ b.graph.Has phis.memory ∧
    ∀ e ∈ arm.scope.entries, ∀ id ∈ e.2.2.heldValue?, b.graph.Has id) &&
  passes (fun r₁ => passes (fun r₂ => r₁.1.length != r₂.1.length)
    ((phis.withLocals phis.locals.reverse).close [arm] b)) (phis.close [arm] b)

theorem cursor_crossing (phis : LoopPhis) (inside : Scope) :
    (crossing phis inside).cursor = ⟨phis.header, phis.memory⟩ := by
  unfold crossing
  split <;> rfl

theorem works_twoZeros : Works twoZeros := by
  exact .bind BuildM.works_cursor fun c => .bind (BuildM.works_make _ rfl) fun header =>
    .bind (BuildM.works_constant _) fun zero => .pure _

theorem exists_crossing : ∃ scope b0 phis inside b, Inside scope b0 phis b ∧
    (crossing phis inside).Known b.graph ∧ ∃ r1 r2 b1 b2,
      phis.close [crossing phis inside] b = .ok (r1, b1) ∧
      (phis.withLocals phis.locals.reverse).close [crossing phis inside] b = .ok (r2, b2) ∧
      r1.length ≠ r2.length := by
  have hrun : passes (fun r0 => passes (fun r => crosses r0.2 r0.1.2 r0.1.1 r.1.1 r.1.2 r.2)
      (enter r0.1.2 r0.1.1 r0.2)) (twoZeros Builder.initial) = true := by decide +kernel
  obtain ⟨⟨⟨header, scope⟩, b0⟩, hprelude, hrun⟩ := exists_ok_of_passes hrun
  obtain ⟨⟨⟨phis, inside⟩, b⟩, henter, hcrosses⟩ := exists_ok_of_passes hrun
  have hbuilds := works_twoZeros Builder.initial Builder.neat_initial
  unfold Does Yields at hbuilds
  rw [hprelude] at hbuilds
  obtain ⟨hchecks, hclose⟩ := Bool.and_eq_true_iff.1 hcrosses
  obtain ⟨rfl, hmerge, hvalues, hmemory, hphis, hheader, hmem, hheld⟩ := of_decide_eq_true hchecks
  obtain ⟨⟨r1, b1⟩, hr1, hclose⟩ := exists_ok_of_passes hclose
  obtain ⟨⟨r2, b2⟩, hr2, hlength⟩ := exists_ok_of_passes hclose
  refine ⟨scope, b0, phis, inside, b, ?_, ?_, r1, r2, b1, b2, hr1, hr2, by simpa using hlength⟩
  · exact ⟨hbuilds.neat, (Builder.constructs_initial.trans hbuilds.constructs).orderly orderly_empty,
      hmerge, hvalues, hmemory, inside, b, henter, hphis, .refl _⟩
  · refine ⟨?_, ?_, fun depth name id hid => ?_⟩
    · rw [cursor_crossing]
      exact hheader
    · rw [cursor_crossing]
      exact hmem
    · obtain ⟨z, hz, hid⟩ := Option.bind_eq_some_iff.1 hid
      exact hheld (depth, name, z) (Scope.mem_entries.2 (Scope.binds_of_get? hz)) id hid

theorem close_order_iff_crossing : ∃ scope b₀ phis b arms, Inside scope b₀ phis b ∧
    (∀ arm ∈ arms, arm.Known b.graph) ∧
    (∀ locals, locals.Perm phis.locals → ∃ r b', (phis.withLocals locals).close arms b = .ok (r, b') ∧
      ∀ q ∈ r, q.2 = entryOf b.graph q.1) ∧
    ((∀ l₁ l₂ r₁ r₂ b₁ b₂, l₁.Perm phis.locals → l₂.Perm phis.locals →
        (phis.withLocals l₁).close arms b = .ok (r₁, b₁) →
        (phis.withLocals l₂).close arms b = .ok (r₂, b₂) →
        r₁.Perm r₂ ∧ ∀ exit, substituteAll r₁ exit = substituteAll r₂ exit) ↔
      ∀ v ∈ phis.locals,
        (phis.web (entryOf b.graph) b.graph arms).Collapsible (phis.locals.map LoopLocal.phi) v.phi →
          (phis.web (entryOf b.graph) b.graph arms).Redundant [] v.phi) := by
  obtain ⟨scope, b₀, phis, inside, b, hinside, hknown, -⟩ := exists_crossing
  have harms : ∀ arm ∈ [crossing phis inside], arm.Known b.graph := by simpa using hknown
  exact ⟨scope, b₀, phis, b, _, hinside, harms, close_order_iff hinside harms⟩

/-- There is a loop that the two orders of its variables close in two ways. -/
theorem not_close_order : ∃ scope b₀ phis b arms, Inside scope b₀ phis b ∧
    (∀ arm ∈ arms, arm.Known b.graph) ∧ ∃ l₁ l₂ r₁ r₂ b₁ b₂, l₁.Perm phis.locals ∧
      l₂.Perm phis.locals ∧ (phis.withLocals l₁).close arms b = .ok (r₁, b₁) ∧
      (phis.withLocals l₂).close arms b = .ok (r₂, b₂) ∧ ¬ r₁.Perm r₂ := by
  obtain ⟨scope, b₀, phis, inside, b, hinside, hknown, r₁, r₂, b₁, b₂, hr₁, hr₂, hlength⟩ :=
    exists_crossing
  refine ⟨scope, b₀, phis, b, [crossing phis inside], hinside, by simpa using hknown, ?_⟩
  exact ⟨phis.locals, phis.locals.reverse, r₁, r₂, b₁, b₂, .refl _, List.reverse_perm _, hr₁, hr₂,
    fun hperm => hlength hperm.length_eq⟩

end LoopPhis

end SeaOfNodes
