import SeaOfNodes.Proofs.Parse.Consume

/-!
Tokens of statements. The brackets of a statement are closed as they are opened, but for what is
skipped behind `defer`: it may close brackets that belong to blocks around it. So a statement closes
at least as many brackets as it opens, and if it does not close more of them, then it closes them in
the right places (`Falls`).
-/
namespace SeaOfNodes

open SeaOfNodes.ParseM

variable {α β σ : Type} {c : Prop} {p p' : Parser} {t : Token}

/-- Statements were read, or parts of them. -/
def Covers (p p' : Parser) : Prop := ∃ e, Falls e p.tokens p'.tokens

theorem Eats.covers (h : Eats True True 0 p.tokens 0 p'.tokens) : Covers p p' := ⟨0, .of_eats h⟩

instance : Framing Covers where
  refl _ := ⟨0, .refl _⟩
  trans := by
    rintro _ _ _ ⟨e, h⟩ ⟨e', h'⟩
    exact ⟨_, h.trans h'⟩
  build _ _ := ⟨0, .refl _⟩

theorem Steps.of_consumes {m : ParseM α} (h : Consumes True True 0 m fun _ => 0) : Steps Covers m :=
  fun p => (h p).imp fun _ _ h => h.covers

theorem Steps.of_steady {m : ParseM α} (h : Steady m) : Steps Covers m :=
  .of_consumes (.of_steady h)

/-- A statement was read up to its semicolon, which is in no brackets. -/
def Finished (p p' : Parser) : Prop :=
  ∃ s : Token, s.kind = .semicolon ∧ Eats False True 0 p.tokens 0 (s :: p'.tokens)

theorem Finished.eats (h : Finished p p') : Eats True True 0 p.tokens 0 p'.tokens := by
  obtain ⟨s, hs, heats⟩ := h
  exact (heats.mono False.elim id).trans (bites_semicolon hs _)

theorem Finished.behindStatement (h : Finished p p') : p'.tokens = behindStatement 0 p.tokens := by
  obtain ⟨s, hs, heats⟩ := h
  rw [heats.behindStatement, SeaOfNodes.behindStatement, if_pos ⟨hs, rfl⟩]

/-- A step that reads a statement, or the end of one, up to its semicolon. -/
def Finishes (m : ParseM α) : Prop := ∀ p, Ensures p m fun _ p' => Finished p p'

namespace Finishes

variable {m m' : ParseM α} {f : α → ParseM β}

theorem bind (hm : Consumes False True 0 m fun _ => 0) (hf : ∀ a, Finishes (f a)) :
    Finishes (m >>= f) := by
  refine fun p => (hm p).bind fun a p1 h1 => (hf a p1).imp ?_
  rintro _ p' ⟨s, hs, h2⟩
  exact ⟨s, hs, h1.trans h2⟩

theorem branch [Decidable c] (hm : Consumes False True 0 m fun _ => 0)
    (hm' : Consumes False True 0 m' fun _ => 0) (hf : ∀ a, Finishes (f a)) :
    Finishes (if c then m >>= f else m' >>= f) := by
  split
  · exact .bind hm hf
  · exact .bind hm' hf

theorem still (hm : Finishes m) (hf : ∀ a, Steady (f a)) : Finishes (m >>= f) := by
  refine fun p => (hm p).bind fun a p1 h1 => (hf a p1).imp fun _ p' h' => ?_
  unfold Finished
  rw [h'.tokens]
  exact h1

theorem semicolon {f : Token → ParseM α} (hf : ∀ t, Steady (f t)) :
    Finishes (expect .semicolon >>= f) := by
  intro p
  refine (expect_ensures _).bind ?_
  rintro s p1 ⟨h1, hs⟩
  refine (hf s p1).imp fun _ p2 h2 => ⟨s, hs, ?_⟩
  rw [h1.tokens, h2.tokens]
  exact .refl 0 _

theorem consumes (h : Finishes m) : Consumes True True 0 m fun _ => 0 :=
  fun p => (h p).imp fun _ _ h => h.eats

end Finishes

namespace ParseM

/-! ### Declarations and assignments -/

theorem consumes_semicolon : Consumes True True 0 (expect .semicolon) fun _ => 0 :=
  consumes_expect fun _ ht => bites_semicolon ht

theorem finishes_variableDeclaration : Finishes variableDeclaration := by
  refine .bind (consumes_plain rfl) fun _ => .bind consumes_identifier fun name => ?_
  refine .bind consumes_seen fun token => .branch (.pure rfl) (.map consumes_type) fun declared => ?_
  have hvalue : Consumes False True 0 (some <$> expression) fun _ => 0 := .map consumes_expression
  refine .bind (consumes_optional rfl) fun found => .branch hvalue (.pure rfl) fun value => ?_
  refine .semicolon fun last => .bind (steady_setSpan _) fun _ => ?_
  exact .bind (steady_initialValue _ _ _ _) fun r => steady_bindLocal _ _ _

theorem finishes_constantValue : Finishes constantValue := by
  refine .bind (consumes_isNext _) fun untyped => .branch (.pure rfl) (.map consumes_type) fun declared => ?_
  refine .bind (consumes_plain rfl) fun _ => .bind consumes_expression fun value => ?_
  refine .semicolon fun _ => ?_
  split
  · exact .build _
  · exact .pure _

theorem finishes_localConstant : Finishes localConstant := by
  refine .bind (consumes_plain rfl) fun _ => .bind consumes_identifier fun name => ?_
  exact .still finishes_constantValue fun value => steady_declare _ _

theorem finishes_globalConstant : Finishes globalConstant := by
  refine .bind consumes_identifier fun name => .still finishes_constantValue fun value => ?_
  refine .bind (steady_typeOf _) fun ty => .ite ?_ (steady_declare _ _)
  exact .bind (steady_setSpan _) fun _ => .bind (steady_report _) fun _ => steady_declare _ _

theorem isPlain_of_isAssignment (h : t.kind.isAssignment = true) : t.kind.isPlain = true := by
  revert h
  cases t.kind <;> simp [TokenKind.isAssignment, TokenKind.isPlain, TokenKind.opensGroup,
    TokenKind.closesGroup]

theorem consumes_simpleStatement {free : Prop} : Consumes free True 0 simpleStatement fun _ => 0 := by
  refine .bind consumes_operand fun target => consumes_peek? fun t => ?_
  cases t with
  | none => exact .of (.pure rfl)
  | some t =>
    refine .ite (fun ht => .next? (bites_plain (isPlain_of_isAssignment ht)) ?_) fun _ => .of (.pure rfl)
    refine .bind consumes_expression fun rhs => .still (steady_setSpan _) fun _ => ?_
    exact .still (steady_assignedValue _ _ _) fun value => .of_steady (steady_assign target value)

theorem finishes_simpleStatement :
    Finishes (simpleStatement >>= fun _ => expect .semicolon >>= fun _ => pure ()) :=
  .bind consumes_simpleStatement fun _ => .semicolon fun _ => .pure _

/-! ### Deferred statements -/

theorem deferStatement_ensures : Ensures p deferStatement fun _ p' => ∃ keyword p1 p2,
    keyword.kind = .keyword .defer ∧ Takes [keyword] p p1 ∧ Advances p1 p2 ∧
      (∃ e, Falls e p1.tokens p2.tokens) ∧ p' = p2.defer ⟨p1.lexer, p1.scope⟩ := by
  refine (expect_ensures _).bind ?_
  rintro keyword p1 ⟨h1, hkeyword⟩
  refine .step rfl ?_
  refine .step rfl ?_
  refine (isNext_ensures _).bind ?_
  rintro group p2 ⟨h2, hgroup⟩
  refine Ensures.branch (Q := fun _ p3 => Advances p2 p3 ∧ ∃ e, Falls e p2.tokens p3.tokens)
    (fun htrue => ?_) (fun _ => ?_) ?_
  · obtain ⟨t, ht, hkind⟩ := hgroup.1 htrue
    refine (skipGroup_ensures (by rw [h2.same, ht]) (by rw [hkind]; rfl)).imp ?_
    rintro _ p3 ⟨hadvances, hstarts⟩
    have heats : Eats True True 0 p2.tokens 0 p3.tokens := hstarts.eats
    exact ⟨hadvances, 0, .of_eats heats⟩
  · exact skipStatement_ensures.imp fun _ _ h => ⟨h.1, h.2.2⟩
  · rintro _ p3 ⟨⟨ts, h3⟩, hfalls⟩
    rw [h2.same] at hfalls
    exact .step rfl (.pure ⟨keyword, p1, p3, hkeyword, h1, ⟨_, h2.trans h3⟩, hfalls, rfl⟩)

theorem covers_deferStatement : Steps Covers (discard deferStatement) := by
  refine fun p => .map (deferStatement_ensures.imp ?_)
  rintro _ _ ⟨keyword, p1, p2, hkeyword, h1, -, ⟨e, hfalls⟩, rfl⟩
  have hfirst : Eats True True 0 p.tokens 0 p1.tokens := h1.eats (bites_plain (hkeyword ▸ rfl))
  exact ⟨_, (Falls.of_eats hfirst).trans hfalls⟩

/-- Deferred statements are read at their own places. -/
theorem steady_emitAll (inner : ParseM Unit) (ds : List Deferred) : Steady (emitAll inner ds) := by
  induction ds with
  | nil => exact .pure _
  | cons d ds ih =>
    refine .bind (.bind steady_isDead fun dead => .ite (.pure _) fun p => ?_) fun _ => ih
    refine .step rfl ?_
    refine .step rfl ?_
    exact restoring_ensures (.of_forall fun _ _ => ⟨rfl, rfl⟩)

theorem steady_runDefers (inner : ParseM Unit) (blocks : Nat) : Steady (runDefers inner blocks) :=
  .bind .get fun _ => steady_emitAll inner _

/-! ### Blocks and branches -/

section Inner

variable {inner : ParseM Unit} (h : Steps Covers inner)

include h

theorem covers_statements : Steps Covers (statements inner) := by
  refine .loop (fun _ => .bind (.of_consumes (consumes_look _)) fun token => ?_) _
  exact .ite (.pure _) (.bind h fun _ => .pure _)

/-- A block is a group if no brackets are closed in it that it did not open. -/
theorem block_ensures : Ensures p (block inner) fun _ p' =>
    ∃ e, Falls e p.tokens p'.tokens ∧ (e = 0 → StartsGroup p.tokens p'.tokens) := by
  refine (expect_ensures _).bind ?_
  rintro o p1 ⟨h1, ho⟩
  refine .step rfl ?_
  refine (covers_statements h _).bind ?_
  rintro _ p2 ⟨e, hfalls⟩
  refine .step rfl ?_
  refine (steady_lower (R := Unread) _ p2).bind fun _ p3 h3 => ?_
  refine (steady_runDefers inner _ p3).bind fun _ p4 h4 => ?_
  refine .step rfl ?_
  refine (expect_ensures _).bind ?_
  rintro c p5 ⟨h5, hc⟩
  have htokens : p2.tokens = c :: p5.tokens := by
    rw [← h3.tokens, ← h4.tokens]
    exact h5.tokens
  have hinside : Falls e p1.tokens (c :: p5.tokens) := htokens ▸ hfalls
  have hgroup := hinside.group (ho ▸ rfl : o.kind.opensGroup = true) (hc ▸ rfl)
  rw [← show p.tokens = o :: p1.tokens from h1.tokens] at hgroup
  exact .pure ⟨e, hgroup⟩

theorem covers_block : Steps Covers (block inner) := by
  refine fun p => (block_ensures h).imp ?_
  rintro _ p' ⟨e, hfalls, -⟩
  exact ⟨e, hfalls⟩

theorem covers_alternative : Steps Covers (alternative inner) := by
  refine .bind (.of_consumes (consumes_optional rfl)) fun found => .ite ?_ (.pure _)
  refine .bind (.of_consumes (consumes_isNext _)) fun nested => ?_
  exact .ite h (covers_block h)

theorem covers_ifStatement : Steps Covers (ifStatement inner) := by
  refine .bind (.of_consumes (consumes_plain rfl)) fun keyword => ?_
  refine .bind (.of_consumes consumes_condition) fun condition => .bind steady_scope fun parent => ?_
  refine .bind steady_cursor fun before => .bind (steady_setSpan _) fun _ => ?_
  refine .bind (steady_branch _ _) fun sides => .bind (steady_setCursor _) fun _ => ?_
  refine .bind (covers_block h) fun _ => .bind steady_arm fun taken => ?_
  refine .bind (.of_steady (steady_setScope _)) fun _ => .bind (steady_setCursor _) fun _ => ?_
  refine .bind (covers_alternative h) fun _ => .bind steady_arm fun untaken => ?_
  exact .bind (.build _) fun join => .of_steady (steady_follow _)

/-! ### Loops and jumps -/

omit h in
theorem consumes_loopCondition (keyword : Token) :
    Consumes True True 0 (loopCondition keyword) fun _ => 0 := by
  refine .bind (consumes_isNext _) fun none => .ite (.pure rfl) ?_
  refine .bind consumes_condition fun condition => .still (steady_setSpan _) fun _ => ?_
  refine .still (steady_branch _ _) fun sides => .still steady_cursor fun c => ?_
  exact .still (steady_setCursor _) fun _ => .still steady_scope fun s => .pure rfl

theorem covers_forStatement : Steps Covers (forStatement inner) := by
  refine .bind (.of_consumes (consumes_plain rfl)) fun keyword => ?_
  refine .bind (steady_setSpan _) fun _ => .bind steady_cursor fun c => ?_
  refine .bind (steady_make _) fun header => .bind steady_scope fun s => .bind (.build _) fun inside => ?_
  refine .bind (.of_steady (steady_setScope _)) fun _ => ?_
  refine .bind (.of_consumes (consumes_loopCondition _)) fun exits => .bind steady_scope fun parent => ?_
  refine .bind (.of_steady steady_openLoop) fun _ => .bind (covers_block h) fun _ => ?_
  refine .bind (.of_steady steady_closeLoop) fun paths => .bind (steady_anyLive _) fun live => ?_
  refine .skip (.build _) fun _ => .bind steady_arm fun arm => .of_steady (steady_leaveLoop _ _ _ _)

omit h in
theorem covers_returnStatement : Steps Covers (returnStatement inner) := by
  refine .bind (.of_consumes (consumes_plain rfl)) fun keyword => .bind .get fun p => ?_
  refine .skip (.fail _ _) fun _ => .bind .get fun p => ?_
  refine .bind (.of_consumes (consumes_isNext _)) fun bare => ?_
  refine .branch (.pure none) (.map (.of_consumes consumes_expression)) fun value => ?_
  refine .bind (.of_consumes consumes_semicolon) fun _ => .bind (steady_setSpan _) fun _ => ?_
  refine .bind (steady_returnedValue _ _) fun value => .bind (.of_steady (steady_runDefers _ 0)) fun _ => ?_
  exact .bind steady_isDead fun dead => .skip (.of_steady (steady_recordReturn _)) fun _ => .build _

omit h in
theorem covers_jumpStatement (ht : p.tokens.head? = some t) (hkind : t.kind.isPlain = true) :
    Ensures p (jumpStatement inner) fun _ p' => Covers p p' := by
  refine (next_ensures _).bind fun t' p1 h1 => ?_
  obtain rfl : t' = t := by
    rw [h1.tokens] at ht
    exact Option.some.inj ht
  have hfirst : Eats True True 0 p.tokens 0 p1.tokens := h1.eats (bites_plain hkind)
  refine Ensures.imp ((?_ : Steps Covers _) p1) fun _ p2 h2 => Chain.trans hfirst.covers h2
  refine .bind (.of_consumes consumes_semicolon) fun _ => .bind .get fun p => ?_
  split
  · refine .bind (.of_steady (steady_runDefers _ _)) fun _ => .bind steady_arm fun arm => ?_
    exact .bind (.of_steady (steady_recordJump _ _)) fun _ => .build _
  · exact .fail _ _

/-! ### All statements -/

theorem covers_statementWith : Steps Covers (statementWith inner) := by
  intro p
  refine (peek_ensures _).bind ?_
  rintro t p1 ⟨h1, ht⟩
  refine (steady_setSpan (R := Unread) _ p1).bind fun _ p2 h2 => ?_
  have htokens : p2.tokens = p.tokens := h2.tokens.trans h1.same
  rw [← htokens] at ht
  unfold Covers
  rw [← htokens]
  change Ensures p2 _ fun _ p' => Covers p2 p'
  split
  · exact Steps.of_consumes finishes_variableDeclaration.consumes p2
  · exact Steps.of_consumes finishes_localConstant.consumes p2
  · exact covers_ifStatement h p2
  · exact covers_forStatement h p2
  · rename_i hkind
    exact covers_jumpStatement ht (hkind ▸ rfl)
  · rename_i hkind
    exact covers_jumpStatement ht (hkind ▸ rfl)
  · exact covers_returnStatement p2
  · exact covers_deferStatement p2
  · exact covers_block h p2
  · rename_i hkind
    have hnext : ConsumesFrom (some t) True True 0 (next? >>= fun _ => pure ()) fun _ => 0 :=
      .next? (bites_semicolon hkind) (.pure rfl)
    exact (hnext p2 ht).imp fun _ _ h => h.covers
  · exact Steps.of_consumes finishes_simpleStatement.consumes p2

end Inner

theorem covers_statementNested (fuel : Nat) : Steps Covers (statementNested fuel) := by
  induction fuel with
  | zero => exact .fault _
  | succ fuel ih => exact covers_statementWith ih

end ParseM

end SeaOfNodes
