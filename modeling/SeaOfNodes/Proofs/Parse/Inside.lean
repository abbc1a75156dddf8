import SeaOfNodes.Proofs.Parse.Place

/-!
Statements in a body. A statement that begins in the body ends in it or just behind it, but for a
`defer` whose statement is skipped too far; and then no block around it can be closed. So every
expression that is read for a body stands in it, also in a deferred statement, and no address of a
local that is held as a value is asked for (`Safe`).
-/
namespace SeaOfNodes

open SeaOfNodes.ParseM

variable {α β σ : Type} {B : ScannedBody} {n : Nat} {p p' p'' : Parser} {t : Token}

/-! ### Places in the body -/

/-- The text is the rest of a function's body behind its first brace. -/
structure ScannedBody.Closed (B : ScannedBody) : Prop where
  deep : 2 ≤ B.floor
  /-- Some brackets are open at every place of the body. -/
  inside : ∀ vs, vs <:+ B.tokens → vs ≠ [] → openings vs < closings vs
  shut : Shut B.behind []
  head_ne : ∀ t, B.behind.head? = some t → t.kind ≠ .keyword .else_

/-- Some of the body is still to be read. -/
def Parser.Ahead (B : ScannedBody) (p : Parser) : Prop := B.behind.length < p.tokens.length

theorem Parser.InBody.rest (hp : p.InBody B) (hle : B.behind.length ≤ p.tokens.length) :
    ∃ vs, p.tokens = vs ++ B.behind ∧ vs <:+ B.tokens := by
  obtain ⟨xs, hxs⟩ := hp.place
  rcases List.append_eq_append_iff.1 hxs with ⟨vs, hvs, htokens⟩ | ⟨vs, -, hbehind⟩
  · exact ⟨vs, htokens, xs, hvs.symm⟩
  · have hlength := congrArg List.length hbehind
    rw [List.length_append] at hlength
    obtain rfl : vs = [] := List.eq_nil_of_length_eq_zero (by unfold tokens at hle; omega)
    exact ⟨[], hbehind.symm, List.nil_suffix⟩

/-- What is taken without closing a bracket that was open does not lead out of the body. -/
theorem Eats.ahead {d : Nat} (h : Eats True True 0 p.tokens d p'.tokens) (hB : B.Closed) (hp : p.InBody B)
    (ha : p.Ahead B) : p'.Ahead B := by
  obtain ⟨ws, hws, -, hle⟩ := h.brackets
  obtain ⟨vs, hvs, hsuffix⟩ := hp.rest (Nat.le_of_lt ha)
  have hne : vs ≠ [] := by
    rintro rfl
    exact absurd (congrArg List.length hvs) (Nat.ne_of_gt ha)
  have hinside := hB.inside vs hsuffix hne
  by_contra hnot
  have hprefix : vs <+: ws := by
    refine List.prefix_of_prefix_length_le (hvs ▸ List.prefix_append _ _)
      (hws ▸ List.prefix_append _ _) ?_
    have hlength := congrArg List.length (hws.symm.trans hvs)
    simp only [List.length_append] at hlength
    unfold Parser.Ahead at hnot
    omega
  have := hle vs hprefix
  omega

theorem Falls.ahead {e : Nat} {c : Token} (h : Falls e p.tokens p'.tokens) (hB : B.Closed)
    (hp : p.InBody B) (ha : p.Ahead B) (hc : p'.tokens.head? = some c)
    (hcloses : c.kind.closesGroup = true) : p'.Ahead B := by
  obtain ⟨ws, hws, -, hsinks⟩ := h.brackets
  obtain ⟨vs, hvs, -⟩ := hp.rest (Nat.le_of_lt ha)
  obtain ⟨rest, hrest⟩ := List.head?_eq_some_iff.1 hc
  by_contra hnot
  unfold Parser.Ahead at hnot
  -- If the body was left, then a part `zs` of what comes behind it was taken.
  obtain ⟨zs, hzs, hbehind⟩ : ∃ zs, ws = vs ++ zs ∧ B.behind = zs ++ p'.tokens := by
    rcases List.append_eq_append_iff.1 (hws.symm.trans hvs) with
      ⟨ys, hys, htokens⟩ | ⟨zs, hzs, hbehind⟩
    · have hlength := congrArg List.length htokens
      rw [List.length_append] at hlength
      obtain rfl : ys = [] := List.eq_nil_of_length_eq_zero (by omega)
      exact ⟨[], by simpa using hys.symm, by simpa using htokens.symm⟩
    · exact ⟨zs, hzs, hbehind⟩
  have hle := hsinks zs (hzs ▸ List.suffix_append _ _)
  obtain ⟨all, hall, -, hshut⟩ := hB.shut
  rw [List.append_nil] at hall
  have hclosed := hshut (zs ++ [c]) (by rw [← hall, hbehind, hrest]; simp)
  simp [hcloses, opensGroup_of_closesGroup hcloses] at hclosed
  omega

/-! ### Parts of statements -/

/-- A step that changes nothing but the builder. -/
def Builds (p p' : Parser) : Prop := ∃ b, p' = { p with builder := b }

instance : Framing Builds where
  refl p := ⟨p.builder, rfl⟩
  trans := by
    rintro p _ _ ⟨b, rfl⟩ ⟨b', rfl⟩
    exact ⟨b', rfl⟩
  build p b := ⟨b, rfl⟩

section

variable {parent s : Scope} (hparent : B.Spares parent) (hdepth : parent.depth = n)
include hparent hdepth

theorem Scope.Spares.joins (hs : parent.Revalues s) : B.Spares s ∧ s.depth = n :=
  ⟨hparent.revalues hs, hs.depth.trans hdepth⟩

theorem Scope.Spares.cuts {arm : Arm} (harm : B.Carries n arm) (hs : arm.scope.Revalues s) :
    B.Spares (s.truncate parent.depth) ∧ (s.truncate parent.depth).depth = n := by
  refine ⟨(harm.1.revalues hs).truncate hparent.deep, ?_⟩
  rw [depth_truncate, hdepth, hs.depth, Nat.min_eq_left harm.2]

end

/-- Statements were read, and no address of a local that is held as a value was asked for. -/
structure Settled (B : ScannedBody) (p p' : Parser) : Prop where
  kept : KeptIn B p p'
  refused : B.nested → p'.refused = p.refused

/-- A part of a body was read, and some of it is left. -/
structure Stays (B : ScannedBody) (p p' : Parser) : Prop extends Settled B p p' where
  ahead : p'.Ahead B

namespace Settled

variable {m : ParseM α} {f : α → ParseM β} {Q : β → Parser → Prop}

theorem trans (h1 : Settled B p p') (h2 : Settled B p' p'') : Settled B p p'' :=
  ⟨h1.kept.trans h2.kept, fun hB => (h2.refused hB).trans (h1.refused hB)⟩

section

variable (h : Settled B p p')
include h

theorem builds (hb : Builds p' p'') : Settled B p p'' := by
  obtain ⟨b, rfl⟩ := hb
  have hp := h.kept.inBody
  exact ⟨h.kept.trans { KeptIn.refl hp with
    inBody := ⟨hp.taken, hp.place, hp.scope, hp.deferred⟩ }, h.refused⟩

theorem withScope {s : Scope} (hs : B.Spares s) (hdepth : s.depth = p.scope.depth) :
    Settled B p { p' with scope := s } :=
  ⟨h.kept.withScope hs hdepth, h.refused⟩

theorem still (hm : Steps Builds m)
    (hf : ∀ a p'', Settled B p p'' → Builds p' p'' → Ensures p'' (f a) Q) :
    Ensures p' (m >>= f) Q :=
  (hm p').bind fun a p'' hb => hf a p'' (h.builds hb) hb

theorem carries (c : Cursor) : B.Carries p.scope.depth ⟨p'.scope, c⟩ :=
  ⟨h.kept.inBody.scope, h.kept.depth.ge⟩

omit h in
theorem stable (p : Parser) :
    Stable (Settled B p) fun s => B.Spares s ∧ s.depth = p.scope.depth where
  build b h := h.builds ⟨b, rfl⟩
  scope h hs := h.withScope hs.1 hs.2

end

end Settled

namespace Stays

variable {m : ParseM α} {f : α → ParseM β} {Q : β → Parser → Prop}

theorem refl (hp : p.InBody B) (ha : p.Ahead B) : Stays B p p := ⟨⟨.refl hp, fun _ => rfl⟩, ha⟩

theorem trans (h1 : Stays B p p') (h2 : Stays B p' p'') : Stays B p p'' :=
  ⟨h1.toSettled.trans h2.toSettled, h2.ahead⟩

theorem of_eats {d : Nat} (hB : B.Closed) (h : KeptIn B p p')
    (hs : Eats True True 0 p.tokens d p'.tokens) (hp : p.InBody B) (ha : p.Ahead B) : Stays B p p' :=
  have hahead := hs.ahead hB hp ha
  ⟨⟨h, fun hnested => h.refused hnested (Nat.le_of_lt hahead)⟩, hahead⟩

theorem bind (hB : B.Closed) (h : Stays B p p') (hm : Steps (Abides B) m)
    (hc : Consumes True True 0 m fun _ => 0)
    (hf : ∀ a p'', Stays B p p'' → Ensures p'' (f a) Q) : Ensures p' (m >>= f) Q := by
  have hp := h.kept.inBody
  refine ((hm.kept hp).and (hc p')).bind fun a p'' h'' => ?_
  exact hf a p'' (h.trans (.of_eats hB h''.1 h''.2 hp h.ahead))

theorem withScope {s : Scope} (h : Stays B p p') (hs : B.Spares s)
    (hdepth : s.depth = p.scope.depth) : Stays B p { p' with scope := s } :=
  ⟨h.toSettled.withScope hs hdepth, h.ahead⟩

theorem builds (h : Stays B p p') (hb : Builds p' p'') : Stays B p p'' :=
  ⟨h.toSettled.builds hb, by obtain ⟨b, rfl⟩ := hb; exact h.ahead⟩

theorem still (h : Stays B p p') (hm : Steps Builds m)
    (hf : ∀ a p'', Stays B p p'' → Ensures p'' (f a) Q) : Ensures p' (m >>= f) Q :=
  (hm p').bind fun a p'' hb => hf a p'' (h.builds hb)

end Stays

/-- A statement that begins in the body. -/
def Safe (B : ScannedBody) (m : ParseM Unit) : Prop := ∀ p, p.InBody B → p.Ahead B →
  Ensures p m fun _ p' => Settled B p p'

theorem Safe.of_consumes {m : ParseM Unit} (hB : B.Closed) (hm : Steps (Abides B) m)
    (hc : Consumes True True 0 m fun _ => 0) : Safe B m := by
  intro p hp ha
  refine ((hm.kept hp).and (hc p)).imp fun _ p' h => ?_
  exact (Stays.of_eats hB h.1 h.2 hp ha).toSettled

namespace ParseM

/-! ### Declarations and assignments -/

theorem abides_declare {name : Token} {x : Binding}
    (hx : ∀ id ty, x = .held id ty → 2 ≤ B.floor ∧ name.text ∉ B.names) :
    Steps (Abides B) (declare name x) := by
  refine .of_inBody fun p hp => ?_
  refine .step rfl ?_
  split
  · rename_i s hs
    refine .of_modify ⟨⟨hp.taken, hp.place, hp.scope.declare? hx hs, hp.deferred⟩, ?_,
      (KeptIn.refl hp).loops, Nat.le_refl _, fun _ _ => rfl⟩
    exact Scope.depth_declare? hs
  · exact .fail

theorem abides_bindLocal (hB : 2 ≤ B.floor) (name : Token) (ty : Ty) (value : NodeId) :
    Steps (Abides B) (bindLocal name ty value) := by
  refine .of_inBody fun p hp => ?_
  refine .step rfl ?_
  split
  · rename_i hheld
    refine (abides_declare fun _ _ _ => ⟨hB, ?_⟩).kept hp
    rw [hp.taken] at hheld
    simp_all
  · refine (Steps.bind (.build _) fun address => ?_).kept hp
    exact abides_declare nofun

instance : Declaring (Abides B) where
  declare _ h := abides_declare fun id ty heq => absurd heq (h id ty)

theorem abides_assign (x : Operand) (value : NodeId) : Steps (Abides B) (x.assign value) :=
  x.steps_assign (fun _ _ hs hp => (KeptIn.refl hp).withScope (hp.scope.revalues hs) hs.depth) value

/-! ### Deferred statements -/

section Closed

variable (hB : B.Closed)

include hB

theorem safe_deferStatement : Safe B (discard deferStatement) := by
  refine fun p hp ha => .map (deferStatement_ensures.imp ?_)
  rintro _ _ ⟨keyword, p1, p2, hkeyword, h1, ⟨ts, h2⟩, -, rfl⟩
  have hfirst : Eats True True 0 p.tokens 0 p1.tokens := h1.eats (bites_plain (hkeyword ▸ rfl))
  have hstays : Stays B p p1 := .of_eats hB (h1.abides hp) hfirst hp ha
  have hp1 := hstays.kept.inBody
  have hkept := hstays.kept.trans (h2.abides hp1)
  have hp2 := hkept.inBody
  refine ⟨{ hkept with inBody := ⟨hp2.taken, hp2.place, hp2.scope, ?_⟩ }, fun hnested => ?_⟩
  · -- However far the statement is skipped, its place is in the body.
    have hdeferred := hp2.deferred
    show ∀ block ∈ p2.defers.modifyHead _, _
    cases hdefers : p2.defers with
    | nil => simp
    | cons block blocks =>
      rw [hdefers] at hdeferred
      obtain ⟨hblock, hblocks⟩ := List.forall_mem_cons.1 hdeferred
      refine List.forall_mem_cons.2 ⟨List.forall_mem_cons.2 ⟨?_, hblock⟩, hblocks⟩
      exact ⟨hp1.place, hstays.ahead, hp1.scope.deep⟩
  · show p2.refused = p.refused
    rw [h2.eq, ← hstays.refused hnested]

section Inner

variable {inner : ParseM Unit} (hs : Safe B inner) (hr : Steps Covers inner)

include hs

omit hB in
theorem emitDeferred_stays {d : Deferred} (hp : p.InBody B) (ha : p.Ahead B)
    (hd : d.lexer.At B ∧ B.behind.length < d.lexer.tokens.length ∧ B.floor ≤ d.scope.depth) :
    Ensures p (emitDeferred inner d) fun _ p' => Stays B p p' := by
  refine (Stays.refl hp ha).still steady_isDead fun dead p1 h1 => ?_
  have hp1 := h1.kept.inBody
  split
  · exact .pure h1
  refine .step rfl ?_
  refine .step rfl ?_
  have hq : (p1.deferredAt d).InBody B :=
    ⟨hp1.taken, hd.1, hp1.scope.restrictTo hd.2.2, by simp [Parser.deferredAt]⟩
  refine restoring_ensures ((hs _ hq hd.2.1).imp fun _ after hafter => ?_)
  exact h1.trans ⟨⟨⟨⟨hafter.kept.inBody.taken, hp1.place,
    hp1.scope.writeBack hafter.kept.inBody.scope, hp1.deferred⟩, Scope.depth_writeBack,
    (KeptIn.refl hp1).loops, Nat.le_refl _, fun hnested _ => hafter.refused hnested⟩,
    hafter.refused⟩, h1.ahead⟩

omit hB in
theorem emitAll_stays {ds : List Deferred} (hp : p.InBody B) (ha : p.Ahead B)
    (hds : ∀ d ∈ ds, d.lexer.At B ∧ B.behind.length < d.lexer.tokens.length ∧
      B.floor ≤ d.scope.depth) :
    Ensures p (emitAll inner ds) fun _ p' => Stays B p p' := by
  induction ds generalizing p with
  | nil => exact .pure (.refl hp ha)
  | cons d ds ih =>
    obtain ⟨hd, hds⟩ := List.forall_mem_cons.1 hds
    refine (emitDeferred_stays hs hp ha hd).bind fun _ p1 h1 => ?_
    exact (ih h1.kept.inBody h1.ahead hds).imp fun _ _ h2 => h1.trans h2

omit hB in
/-- The deferred statements of blocks are read, behind other parts of a statement. -/
theorem runDefers_stays {f : Unit → ParseM β} {Q : β → Parser → Prop} (blocks : Nat) (h : Stays B p p')
    (hf : ∀ u p'', Stays B p p'' → Ensures p'' (f u) Q) :
    Ensures p' (runDefers inner blocks >>= f) Q := by
  have hrun : Ensures p' (runDefers inner blocks) fun _ p'' => Stays B p' p'' := by
    refine .step rfl ?_
    refine emitAll_stays hs h.kept.inBody h.ahead fun d hd => ?_
    obtain ⟨block, hblock, hd⟩ := List.mem_flatten.1 hd
    exact h.kept.inBody.deferred block (List.mem_of_mem_take hblock) d hd
  exact hrun.bind fun u p'' h'' => hf u p'' (h.trans h'')

/-! ### Blocks and branches -/

include hr

omit hB in
theorem statements_stays (hp : p.InBody B) (ha : p.Ahead B) :
    Ensures p (statements inner) fun _ p' => (p'.Ahead B → Stays B p p') ∧
      ∃ c, p'.tokens.head? = some c ∧ c.kind = .closeBrace := by
  refine loop_keeps (fun _ p' => p'.Ahead B → Stays B p p') ?_ fun _ => .refl hp ha
  rintro - p1 h1
  refine (peek_ensures _).bind ?_
  rintro c p2 ⟨h2, hc⟩
  have hstays2 : p2.Ahead B → Stays B p p2 := by
    intro ha2
    have hstays1 := h1 (by unfold Parser.Ahead at ha2 ⊢; rwa [← h2.same])
    have hkept := h2.abides hstays1.kept.inBody
    exact hstays1.trans ⟨⟨hkept, fun hnested => hkept.refused hnested (Nat.le_of_lt ha2)⟩, ha2⟩
  split
  · rename_i hkind
    exact .pure ⟨hstays2, c, by rw [h2.same, hc], hkind⟩
  · have hinner : Ensures p2 inner fun _ p3 => p2.Ahead B → Settled B p2 p3 := by
      by_cases ha2 : p2.Ahead B
      · exact (hs p2 (hstays2 ha2).kept.inBody ha2).imp fun _ _ h _ => h
      · exact .of_forall fun _ _ h => absurd h ha2
    refine (hinner.and (hr p2)).bind ?_
    rintro _ p3 ⟨h3, e, hfalls⟩
    refine .pure fun ha3 => ?_
    have ha2 : p2.Ahead B := ha3.trans_le hfalls.length_le
    exact (hstays2 ha2).trans ⟨h3 ha2, ha3⟩

/-- What is read of a block behind its first brace. -/
def blockTail (inner : ParseM Unit) : ParseM Unit := do
  openBlock
  statements inner
  runDefers inner (← lower (← get).defers.length)
  closeBlock
  let _ ← expect .closeBrace

omit hB hs hr in
theorem block_eq (inner : ParseM Unit) : block inner = expect .openBrace >>= fun _ => blockTail inner :=
  rfl

theorem blockTail_settled (hp : p.InBody B) (ha : p.Ahead B) :
    Ensures p (blockTail inner) fun _ p' => Settled B p p' ∧
      B.behind.length ≤ p'.tokens.length := by
  let q : Parser := { p with scope := p.scope.push, defers := [] :: p.defers }
  have hq : q.InBody B :=
    ⟨hp.taken, hp.place, hp.scope.push, List.forall_mem_cons.2 ⟨by simp, hp.deferred⟩⟩
  refine .step rfl ?_
  refine ((statements_stays hs hr hq ha).and (covers_statements hr q)).bind ?_
  rintro _ p1 ⟨⟨h1, c, hc, hkind⟩, e, hfalls⟩
  have h1 : Stays B q p1 := h1 (hfalls.ahead hB hq ha hc (hkind ▸ rfl))
  refine .step rfl ?_
  refine Ensures.bind (Q := fun _ p' => p' = p1) ?_ ?_
  · cases p1.defers.length with
    | zero => exact trivial
    | succ k => exact rfl
  rintro blocks p1 rfl
  refine runDefers_stays hs blocks h1 fun _ p2 h2 => ?_
  -- The frame and the deferred statements of the block are dropped.
  have hp2 := h2.kept.inBody
  have hq_depth : q.scope.depth = p.scope.depth + 1 := Scope.depth_push
  have hdepth : p2.scope.depth = p.scope.depth + 1 := h2.kept.depth.trans hq_depth
  have hdeep := hp.scope.deep
  let r : Parser := { p2 with scope := p2.scope.pop, defers := p2.defers.tail }
  have hr : Settled B p r := by
    refine ⟨⟨⟨hp2.taken, hp2.place, hp2.scope.pop (by omega), ?_⟩, ?_, ?_, h2.kept.length,
      fun hnested _ => h2.refused hnested⟩, h2.refused⟩
    · exact fun block hblock => hp2.deferred block (List.mem_of_mem_tail hblock)
    · rw [Scope.depth_pop, hdepth, Nat.add_sub_cancel]
    · refine h2.kept.loops.imp fun l l' hl => hl.mono fun arm h => ⟨h.1, ?_⟩
      exact Nat.le_trans (by omega) h.2
  refine .step rfl ?_
  refine (expect_ensures _).bind ?_
  rintro c p3 ⟨h3, -⟩
  have hlength : p2.tokens.length = p3.tokens.length + 1 := congrArg List.length h3.tokens
  have hahead := h2.ahead
  unfold Parser.Ahead at hahead
  refine .pure ⟨hr.trans ⟨h3.abides hr.kept.inBody, fun _ => ?_⟩, by omega⟩
  rw [h3.eq]

theorem block_settled (h : Stays B p p') : Ensures p' (block inner) fun _ p'' =>
    Settled B p p'' ∧ B.behind.length ≤ p''.tokens.length := by
  have hp := h.kept.inBody
  refine (expect_ensures _).bind ?_
  rintro o p1 ⟨h1, ho⟩
  have hopen : Eats True True 0 p'.tokens 1 p1.tokens :=
    h1.eats (bites_opens (ho ▸ rfl) fun _ => trivial)
  have hstays := h.trans (.of_eats hB (h1.abides hp) hopen hp h.ahead)
  refine (blockTail_settled hB hs hr hstays.kept.inBody hstays.ahead).imp fun _ p2 h2 => ?_
  exact ⟨hstays.toSettled.trans h2.1, h2.2⟩

theorem alternative_settled (hp : p.InBody B) (hle : B.behind.length ≤ p.tokens.length) :
    Ensures p (alternative inner) fun _ p' => Settled B p p' := by
  refine (accept_ensures _).bind ?_
  rintro (_ | t) p1 ⟨h1, ht⟩
  · refine .pure ⟨h1.abides hp, fun _ => ?_⟩
    rw [h1.eq]
  have htokens : p.tokens = t :: p1.tokens := h1.tokens
  have hkind := ht t rfl
  have ha : p.Ahead B := by
    rcases Nat.lt_or_eq_of_le hle with hlt | heq
    · exact hlt
    · obtain ⟨vs, hvs, -⟩ := hp.rest hle
      have hlength := congrArg List.length hvs
      rw [List.length_append] at hlength
      obtain rfl : vs = [] := List.eq_nil_of_length_eq_zero (by omega)
      rw [List.nil_append, htokens] at hvs
      exact absurd hkind (hB.head_ne t (by rw [← hvs]; rfl))
  have hfirst : Eats True True 0 p.tokens 0 p1.tokens := h1.eats (bites_plain (hkind ▸ rfl))
  have h1 : Stays B p p1 := .of_eats hB (h1.abides hp) hfirst hp ha
  refine h1.bind hB (reads_isNext _) (consumes_isNext _) fun nested p2 h2 => ?_
  split
  · exact (hs p2 h2.kept.inBody h2.ahead).imp fun _ p3 h3 => h2.toSettled.trans h3
  · exact (block_settled hB hs hr h2).imp fun _ p3 h3 => h3.1

theorem safe_ifStatement : Safe B (ifStatement inner) := by
  intro p hp ha
  refine (Stays.refl hp ha).bind hB (reads_expect _) (consumes_plain rfl) fun keyword p1 h1 => ?_
  refine h1.bind hB abides_condition consumes_condition fun condition p2 h2 => ?_
  refine .step rfl ?_
  have hparent := h2.kept.inBody.scope
  have hdepth := h2.kept.depth
  refine h2.still steady_cursor fun before p3 h3 => h3.still (steady_setSpan _) fun _ p4 h4 => ?_
  refine h4.still (steady_branch _ _) fun sides p5 h5 => ?_
  refine h5.still (steady_setCursor _) fun _ p6 h6 => ?_
  refine (block_settled hB hs hr h6).bind ?_
  rintro _ p7 ⟨h7, hle⟩
  refine .step rfl ?_
  refine .step rfl ?_
  refine (h7.withScope hparent hdepth).still (steady_setCursor _) fun _ p9 h9 hb9 => ?_
  obtain ⟨b, rfl⟩ := hb9
  refine (alternative_settled hB hs hr h9.kept.inBody hle).bind fun _ p10 h10 => ?_
  refine .step rfl ?_
  have hboth := h9.trans h10
  refine (Settled.stable p).join (fun _ => hparent.joins hdepth) (List.forall_mem_cons.2 ⟨?_, ?_⟩) hboth
  · exact hparent.cuts hdepth (h7.carries _) (.refl _)
  · exact List.forall_mem_singleton.2 (hparent.cuts hdepth (hboth.carries _) (.refl _))

/-! ### Loops and jumps -/

omit hs hr in
theorem loopCondition_stays {f : List Arm → ParseM β} {Q : β → Parser → Prop} {keyword : Token}
    (h : Stays B p p') (hf : ∀ exits p'', Stays B p p'' →
      (∀ arm ∈ exits, B.Carries p.scope.depth arm) →
      Ensures p'' (f exits) Q) : Ensures p' (loopCondition keyword >>= f) Q := by
  refine Ensures.bind (Q := fun exits p'' => Stays B p p'' ∧
    ∀ arm ∈ exits, B.Carries p.scope.depth arm) ?_
    fun exits p'' h'' => hf exits p'' h''.1 h''.2
  refine h.bind hB (reads_isNext _) (consumes_isNext _) fun none p1 h1 => ?_
  split
  · exact .pure ⟨h1, by simp⟩
  refine h1.bind hB abides_condition consumes_condition fun condition p2 h2 => ?_
  refine h2.still (steady_setSpan _) fun _ p3 h3 => h3.still (steady_branch _ _) fun sides p4 h4 => ?_
  refine h4.still steady_cursor fun c p5 h5 => h5.still (steady_setCursor _) fun _ p6 h6 => ?_
  refine .step rfl ?_
  exact .pure ⟨h6, List.forall_mem_singleton.2 ⟨h6.kept.inBody.scope, h6.kept.depth.ge⟩⟩

theorem loopBody_settled {f : OpenLoop → ParseM β} {Q : β → Parser → Prop} (h : Stays B p p')
    (hf : ∀ paths p'', Settled B p p'' → (∀ arm ∈ paths.breaks ++ paths.continues,
      B.Carries p.scope.depth arm) →
      Ensures p'' (f paths) Q) :
    Ensures p' (do openLoop; block inner; f (← closeLoop)) Q := by
  have hp := h.kept.inBody
  let q : Parser := { p' with loops := { blocks := p'.defers.length } :: p'.loops }
  have hq : q.InBody B := ⟨hp.taken, hp.place, hp.scope, hp.deferred⟩
  refine .step rfl ?_
  refine (block_settled hB hs hr (.refl hq h.ahead)).bind ?_
  rintro _ p1 ⟨h1, -⟩
  refine .step rfl ?_
  have hp1 := h1.kept.inBody
  have hloops := h1.kept.loops
  cases hopen : p1.loops with
  | nil => rw [hopen] at hloops; cases hloops
  | cons l ls =>
    rw [hopen] at hloops
    cases hloops with
    | cons hl hls =>
      refine hf _ _ (h.toSettled.trans ⟨⟨⟨hp1.taken, hp1.place, hp1.scope, hp1.deferred⟩, h1.kept.depth,
        hls, h1.kept.length, h1.kept.refused⟩, h1.refused⟩) fun arm harm => ?_
      rcases hl.arms arm harm with hold | ⟨hspares, hdepth⟩
      · simp at hold
      · exact ⟨hspares, h.kept.depth.ge.trans hdepth⟩

theorem safe_forStatement : Safe B (forStatement inner) := by
  intro p hp ha
  refine (Stays.refl hp ha).bind hB (reads_expect _) (consumes_plain rfl) fun keyword p1 h1 => ?_
  refine h1.still (steady_setSpan _) fun _ p2 h2 => h2.still steady_cursor fun c p3 h3 => ?_
  refine h3.still (steady_make _) fun header p4 h4 => ?_
  refine .step rfl ?_
  refine Ensures.bind (Q := fun r p' => Builds p4 p' ∧ p4.scope.Revalues r.2)
    (.build ((LoopPhis.enter_revalues _ _).imp fun r b hr => ⟨⟨b, rfl⟩, hr⟩)) ?_
  rintro ⟨phis, inside⟩ p5 ⟨hb5, hinside⟩
  have h5 : Stays B p { p5 with scope := inside } :=
    (h4.builds hb5).withScope (h4.kept.inBody.scope.revalues hinside) (hinside.depth.trans h4.kept.depth)
  refine .step rfl ?_
  refine loopCondition_stays hB h5 fun exits p6 h6 hexits => ?_
  refine .step rfl ?_
  refine loopBody_settled hB hs hr h6 fun paths p7 h7 hpaths => ?_
  have hall : ∀ arm ∈ exits ++ paths.breaks,
      B.Carries p.scope.depth arm := fun arm harm =>
    (List.mem_append.1 harm).elim (hexits arm) fun h => hpaths arm (List.mem_append_left _ h)
  refine h7.still (steady_anyLive _) fun live p8 h8 _ => ?_
  have hparent := h6.kept.inBody.scope
  have hdepth := h6.kept.depth
  have hrest : ∀ p9, Settled B p p9 → Ensures p9
      (do leaveLoop phis p6.scope (exits ++ paths.breaks) (paths.continues ++ [← arm]))
      fun _ p' => Settled B p p' := fun p9 h9 =>
    .step rfl ((Settled.stable p).leaveLoop (fun _ => hparent.joins hdepth)
      (fun arm harm _ => hparent.cuts hdepth (hall arm harm)) h9)
  split
  · exact h8.still (.build _) fun _ p9 h9 _ => hrest p9 h9
  · exact hrest p8 h8

omit hr in
theorem jumpStatement_settled (hp : p.InBody B) (ha : p.Ahead B) (ht : p.tokens.head? = some t)
    (hkind : t.kind.isPlain = true) :
    Ensures p (jumpStatement inner) fun _ p' => Settled B p p' := by
  refine (next_ensures _).bind fun t' p1 h1 => ?_
  obtain rfl : t' = t := by
    rw [h1.tokens] at ht
    exact Option.some.inj ht
  have hfirst : Eats True True 0 p.tokens 0 p1.tokens := h1.eats (bites_plain hkind)
  have hstays : Stays B p p1 := .of_eats hB (h1.abides hp) hfirst hp ha
  refine hstays.bind hB (reads_expect _) consumes_semicolon fun _ p2 h2 => ?_
  refine .step rfl ?_
  split
  · refine runDefers_stays hs _ h2 fun _ p4 h4 => .step rfl ?_
    refine (recordJump_gains (h4.carries _)).bind ?_
    rintro _ _ ⟨ls, rfl, hls⟩
    have hp4 := h4.kept.inBody
    have h5 : Settled B p { p4 with loops := ls } :=
      ⟨{ h4.kept with
        inBody := ⟨hp4.taken, hp4.place, hp4.scope, hp4.deferred⟩
        loops := OpenLoop.gains_trans h4.kept.loops hls }, h4.refused⟩
    exact (Steps.build _ _).imp fun _ _ hb => h5.builds hb
  · exact .fail

omit hB hs hr in
theorem abides_recordReturn (value : Option NodeId) : Steps (Abides B) (recordReturn value) :=
  .bind steady_cursor fun _ => .of_modify fun _ hp => { KeptIn.refl hp with
    inBody := ⟨hp.taken, hp.place, hp.scope, hp.deferred⟩ }

omit hr in
theorem safe_returnStatement : Safe B (returnStatement inner) := by
  intro p hp ha
  refine (Stays.refl hp ha).bind hB (reads_expect _) (consumes_plain rfl) fun keyword p1 h1 => ?_
  refine h1.still .get fun state p2 h2 => ?_
  split
  · exact Ensures.bind (Q := fun _ _ => False) trivial fun _ _ h => h.elim
  refine h2.still .get fun state' p3 h3 => ?_
  refine h3.bind hB (reads_isNext _) (consumes_isNext _) fun bare p4 h4 => ?_
  have hrest : ∀ value p5, Stays B p p5 → Ensures p5 (do
      let _ ← expect .semicolon
      setSpan keyword.span
      let value ← returnedValue state'.body.result value
      runDefers inner 0
      if !(← isDead) then recordReturn value
      build .kill) fun _ p' => Settled B p p' := by
    intro value p5 h5
    refine h5.bind hB (reads_expect _) consumes_semicolon fun _ p6 h6 => ?_
    refine h6.still (steady_setSpan _) fun _ p7 h7 => ?_
    refine h7.still (steady_returnedValue _ _) fun value p8 h8 => ?_
    refine runDefers_stays hs 0 h8 fun _ p9 h9 => ?_
    refine h9.still steady_isDead fun dead p10 h10 => ?_
    have hkill : ∀ p11, Stays B p p11 → Ensures p11 (build .kill) fun _ p' => Settled B p p' := by
      intro p11 h11
      exact (Steps.build _ p11).imp fun _ _ hb => h11.toSettled.builds hb
    split
    · exact h10.bind hB (abides_recordReturn value) (.of_steady (steady_recordReturn _)) fun _ => hkill
    · exact hkill p10 h10
  split
  · exact hrest none p4 h4
  · exact h4.bind hB (.map abides_expression) (.map consumes_expression) hrest

/-! ### All statements -/

theorem safe_statementWith : Safe B (statementWith inner) := by
  intro p hp ha
  refine (peek_ensures _).bind ?_
  rintro t p1 ⟨h1, ht⟩
  have hstays : Stays B p p1 :=
    .of_eats hB (h1.abides hp) h1.eats_nil hp ha
  refine (steady_setSpan (R := Builds) _ p1).bind fun _ p2 hb2 => ?_
  have h2 := hstays.builds hb2
  have hp2 := h2.kept.inBody
  have ht2 : p2.tokens.head? = some t := by
    obtain ⟨b, rfl⟩ := hb2
    rw [← ht, ← h1.same]
    rfl
  have hsettled : ∀ {m : ParseM Unit}, (Ensures p2 m fun _ p' => Settled B p2 p') →
      Ensures p2 m fun _ p' => Settled B p p' :=
    fun hm => hm.imp fun _ _ h3 => h2.toSettled.trans h3
  have hsafe : ∀ {m : ParseM Unit}, Safe B m → Ensures p2 m fun _ p' => Settled B p p' :=
    fun hm => hsettled (hm _ hp2 h2.ahead)
  split
  · exact hsafe (.of_consumes hB (steps_variableDeclaration abides_expression (abides_bindLocal hB.deep)) finishes_variableDeclaration.consumes)
  · exact hsafe (.of_consumes hB (steps_localConstant abides_expression) finishes_localConstant.consumes)
  · exact hsafe (safe_ifStatement hB hs hr)
  · exact hsafe (safe_forStatement hB hs hr)
  · rename_i hkind
    exact hsettled (jumpStatement_settled hB hs hp2 h2.ahead ht2 (hkind ▸ rfl))
  · rename_i hkind
    exact hsettled (jumpStatement_settled hB hs hp2 h2.ahead ht2 (hkind ▸ rfl))
  · exact hsafe (safe_returnStatement hB hs)
  · exact hsafe (safe_deferStatement hB)
  · exact (block_settled hB hs hr h2).imp fun _ _ h => h.1
  · rename_i hkind
    have hnext : ConsumesFrom (some t) True True 0 (next? >>= fun _ => pure ()) fun _ => 0 :=
      .next? (bites_semicolon hkind) (.pure rfl)
    have hkept : Steps (Abides B) (next? >>= fun _ => pure ()) := .bind reads_next? fun _ => .pure _
    refine hsettled (((hkept.kept hp2).and (hnext _ ht2)).imp fun _ _ h => ?_)
    exact (Stays.of_eats hB h.1 h.2 hp2 h2.ahead).toSettled
  · exact hsafe (.of_consumes hB (.bind (steps_simpleStatement abides_operand abides_assign) fun _ => .bind (reads_expect _) fun _ =>
      .pure _) finishes_simpleStatement.consumes)

end Inner

theorem safe_statementNested (fuel : Nat) : Safe B (statementNested fuel) := by
  induction fuel with
  | zero => exact fun _ _ _ => trivial
  | succ fuel ih => exact safe_statementWith hB ih (covers_statementNested fuel)

end Closed

end ParseM

end SeaOfNodes
