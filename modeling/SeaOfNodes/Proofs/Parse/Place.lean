import SeaOfNodes.Proofs.Parse.Boundary
import SeaOfNodes.Proofs.Parse.Scan

/-!
Places in expressions. An expression that denotes a local held as a value begins with its name, behind
any number of opening parentheses (`Operand.Denotes`); members and elements of it are selected behind
the name. So an `&` in front of such an expression stands in front of the name, where the scan of the
body finds it, and its operand is no local that is held.
-/
namespace SeaOfNodes

open SeaOfNodes.ParseM

variable {α β σ : Type} {p p' p'' : Parser} {t : Token} {ts : List Token} {x : Operand}

/-! ### The body that is read -/

/-- A text that was scanned: its tokens, the tokens behind it, and the names that were found behind
`&`, which are all such names if its brackets are nested. There are `floor` frames around it. -/
structure ScannedBody where
  tokens : List Token
  behind : List Token
  names : List String
  floor : Nat
  nested : Prop
  taken : nested → ∀ {t rest name}, t :: rest <:+ tokens ++ behind → behind.length ≤ rest.length →
    t.kind = .ampersand → nameBehind rest = some name → name ∈ names

variable {B : ScannedBody}

/-- No local with a name that was found behind `&` is held as a value. -/
abbrev ScannedBody.Spares (B : ScannedBody) (s : Scope) : Prop := s.Spares B.floor B.names

/-- A path that has kept `depth` frames. -/
def ScannedBody.Carries (B : ScannedBody) (depth : Nat) (arm : Arm) : Prop :=
  B.Spares arm.scope ∧ depth ≤ arm.scope.depth

/-- A place in the text from the first token of the body on. -/
def Lexer.At (B : ScannedBody) (l : Lexer) : Prop := l.tokens <:+ B.tokens ++ B.behind

/-- A body is read: no local with a name that was found behind `&` is held as a value, and all
deferred statements are in the body. -/
structure Parser.InBody (B : ScannedBody) (p : Parser) : Prop where
  taken : p.addressTaken = B.names
  place : p.lexer.At B
  scope : B.Spares p.scope
  deferred : ∀ block ∈ p.defers, ∀ d ∈ block, d.lexer.At B ∧
    B.behind.length < d.lexer.tokens.length ∧ B.floor ≤ d.scope.depth

/-- The paths that leave a loop, or go on with its next turn, are old ones, or `P` holds of them. -/
structure OpenLoop.Gains (P : Arm → Prop) (l l' : OpenLoop) : Prop where
  blocks : l'.blocks = l.blocks
  arms : ∀ arm ∈ l'.breaks ++ l'.continues, arm ∈ l.breaks ++ l.continues ∨ P arm

namespace OpenLoop

variable {P P' : Arm → Prop} {ls ls' ls'' : List OpenLoop}

theorem Gains.mono {l l' : OpenLoop} (h : l.Gains P l') (hP : ∀ arm, P arm → P' arm) : l.Gains P' l' :=
  ⟨h.blocks, fun arm harm => (h.arms arm harm).imp_right (hP arm)⟩

theorem gains_refl (P : Arm → Prop) (ls : List OpenLoop) : List.Forall₂ (Gains P) ls ls :=
  List.forall₂_same.2 fun _ _ => ⟨rfl, fun _ h => .inl h⟩

theorem gains_trans (h1 : List.Forall₂ (Gains P) ls ls') (h2 : List.Forall₂ (Gains P) ls' ls'') :
    List.Forall₂ (Gains P) ls ls'' := by
  induction h1 generalizing ls'' with
  | nil => exact h2
  | cons h _ ih =>
    cases h2 with
    | cons h' hrest =>
      exact .cons ⟨h'.blocks.trans h.blocks, fun arm harm => (h'.arms arm harm).elim (h.arms arm) .inr⟩
        (ih hrest)

end OpenLoop

theorem ParseM.recordJump_gains {P : Arm → Prop} {jump : Jump} {arm : Arm} (harm : P arm) :
    Ensures p (recordJump jump arm) fun _ p' => ∃ ls, p' = { p with loops := ls } ∧
      List.Forall₂ (OpenLoop.Gains P) p.loops ls := by
  refine .of_modify ?_
  split
  · exact ⟨p.loops, rfl, OpenLoop.gains_refl P _⟩
  · rename_i l loops hloops
    rw [hloops]
    refine ⟨_, rfl, .cons ⟨by cases jump <;> rfl, fun other hother => ?_⟩ (OpenLoop.gains_refl P _)⟩
    have hcases : other ∈ l.breaks ++ l.continues ∨ other = arm := by
      cases jump <;> simp only [List.mem_append, List.mem_singleton] at hother ⊢ <;> tauto
    rcases hcases with hold | rfl
    · exact .inl hold
    · exact .inr harm

/-- A part of a body was read. If it ends in the body, then no address of a local that is held as a
value was asked for. -/
structure KeptIn (B : ScannedBody) (p p' : Parser) : Prop where
  inBody : p'.InBody B
  depth : p'.scope.depth = p.scope.depth
  loops : List.Forall₂ (OpenLoop.Gains (B.Carries p.scope.depth)) p.loops p'.loops
  length : p'.tokens.length ≤ p.tokens.length
  refused : B.nested → B.behind.length ≤ p'.tokens.length → p'.refused = p.refused

namespace KeptIn

theorem refl (h : p.InBody B) : KeptIn B p p :=
  ⟨h, rfl, OpenLoop.gains_refl _ _, Nat.le_refl _, fun _ _ => rfl⟩

theorem trans (h1 : KeptIn B p p') (h2 : KeptIn B p' p'') : KeptIn B p p'' := by
  refine ⟨h2.inBody, h2.depth.trans h1.depth, OpenLoop.gains_trans h1.loops (h1.depth ▸ h2.loops),
    h2.length.trans h1.length, fun hB h => ?_⟩
  rw [h2.refused hB h, h1.refused hB (h.trans h2.length)]

theorem withScope {s : Scope} (h : KeptIn B p p') (hs : B.Spares s)
    (hdepth : s.depth = p.scope.depth) : KeptIn B p { p' with scope := s } :=
  ⟨⟨h.inBody.taken, h.inBody.place, hs, h.inBody.deferred⟩, hdepth, h.loops, h.length, h.refused⟩

end KeptIn

/-- What happens to a state in which a body is read. -/
def Abides (B : ScannedBody) (p p' : Parser) : Prop := p.InBody B → KeptIn B p p'

instance : Framing (Abides B) where
  refl _ := KeptIn.refl
  trans h1 h2 h := (h1 h).trans (h2 (h1 h).inBody)
  build _ _ h := ⟨⟨h.taken, h.place, h.scope, h.deferred⟩, rfl, (KeptIn.refl h).loops,
    Nat.le_refl _, fun _ _ => rfl⟩

theorem Steps.of_inBody {m : ParseM α}
    (h : ∀ p, p.InBody B → Ensures p m fun _ p' => KeptIn B p p') : Steps (Abides B) m := by
  intro p
  by_cases hp : p.InBody B
  · exact (h p hp).imp fun _ _ hk _ => hk
  · exact .of_forall fun _ _ hp' => absurd hp' hp

theorem Steps.kept {m : ParseM α} (h : Steps (Abides B) m) (hp : p.InBody B) :
    Ensures p m fun _ p' => KeptIn B p p' :=
  (h p).imp fun _ _ hk => hk hp

theorem KeptIn.bind {m : ParseM α} {f : α → ParseM β} {Q : β → Parser → Prop} (h : KeptIn B p p')
    (hm : Steps (Abides B) m) (hf : ∀ a p'', KeptIn B p p'' → Ensures p'' (f a) Q) :
    Ensures p' (m >>= f) Q :=
  (hm.kept h.inBody).bind fun a p'' h' => hf a p'' (h.trans h')

theorem KeptIn.still {m : ParseM α} {f : α → ParseM β} {Q : β → Parser → Prop} (h : KeptIn B p p')
    (hm : ∀ {R : Parser → Parser → Prop} [Framing R], Steps R m)
    (hf : ∀ a p'', KeptIn B p p'' → p''.lexer = p'.lexer → Ensures p'' (f a) Q) :
    Ensures p' (m >>= f) Q :=
  ((hm.kept h.inBody).and (hm p')).bind fun a p'' h' =>
    hf a p'' (h.trans h'.1) h'.2.lexer

/-! ### Tokens -/

theorem Parser.InBody.withLexer {l : Lexer} (h : p.InBody B) (hl : l.At B)
    (hlength : l.tokens.length ≤ p.tokens.length) : KeptIn B p { p with lexer := l } :=
  ⟨⟨h.taken, hl, h.scope, h.deferred⟩, rfl, (KeptIn.refl h).loops, hlength, fun _ _ => rfl⟩

theorem Takes.abides (h : Takes ts p p') : Abides B p p' := by
  intro hp
  have hsuffix : p'.tokens <:+ p.tokens := h.tokens ▸ List.suffix_append _ _
  rw [h.eq]
  exact hp.withLexer (hsuffix.trans hp.place) hsuffix.length_le

instance : Taking (Abides B) := ⟨Takes.abides⟩

/-! ### Parts of places -/

namespace Operand

theorem address_kept (hp : p.InBody B)
    (hx : B.nested → B.behind.length ≤ p.tokens.length → x.heldName? = none) :
    Ensures p x.address fun _ p' => KeptIn B p p' := by
  cases x with
  | memory base offset ty => exact (steady_make _ : Steps (Abides B) _).kept hp
  | held name path ty =>
    have hrefused : KeptIn B p { p with refused := name :: p.refused } :=
      ⟨⟨hp.taken, hp.place, hp.scope, hp.deferred⟩, rfl, (KeptIn.refl hp).loops, Nat.le_refl _,
        fun hB h => absurd (hx hB h) (by simp [heldName?])⟩
    refine Ensures.bind (Q := fun _ p' => KeptIn B p p') hrefused fun _ p1 h1 => ?_
    exact ((steady_report _).kept h1.inBody).imp fun _ _ h2 => h1.trans h2
  | value id =>
    exact (Steps.bind (steady_typeOf _) fun _ => .ite (.pure _) (.build _)).kept hp

end Operand

/-- If an operand is part of a local that is held as a value, then its text `ts` begins with the name of
that local, which was not found behind `&`. -/
def Operand.Denotes (B : ScannedBody) (ts : List Token) (x : Operand) : Prop :=
  ∀ name, x.heldName? = some name → name ∉ B.names ∧ nameBehind ts = some name

/-- A step that reads an operand. -/
def Finds (B : ScannedBody) (m : ParseM Operand) : Prop :=
  ∀ p, p.InBody B → Ensures p m fun x p' => KeptIn B p p' ∧ x.Denotes B p.tokens

theorem Operand.denotes_of_none (h : x.heldName? = none) : x.Denotes B ts := by
  simp [Denotes, h]

theorem Finds.steps {m : ParseM Operand} (h : Finds B m) : Steps (Abides B) m :=
  .of_inBody fun p hp => (h p hp).imp fun _ _ h => h.1

theorem Finds.loop {m : ParseM Operand} {step : Operand → ParseM (Operand ⊕ Operand)} (h : Finds B m)
    (hstep : ∀ x, Gives (Abides B) (step x) fun r => x.Within (r.elim id id)) :
    Finds B (m >>= loop step) := by
  intro p hp
  refine (h p hp).bind fun x p1 h1 => ?_
  refine loop_keeps (fun x p' => KeptIn B p p' ∧ x.Denotes B p.tokens) ?_ h1
  rintro x p2 ⟨h2, hx⟩
  refine (hstep x p2).imp ?_
  rintro (y | y) p3 ⟨h3, hy⟩
  · exact ⟨h2.trans (h3 h2.inBody), fun name hname => hx name (hy name hname)⟩
  · exact ⟨h2.trans (h3 h2.inBody), fun name hname => hx name (hy name hname)⟩

namespace ParseM

/-! ### Operands -/

variable {nested : ParseM Operand} {rhs : ParseM Operand}

theorem finds_parenthesized (h : Finds B nested) : Finds B (parenthesized nested) := by
  intro p hp
  refine (h p hp).bind ?_
  rintro first p1 ⟨h1, hfirst⟩
  refine h1.bind (reads_accept _) fun comma p2 h2 => ?_
  split
  · refine h2.bind (reads_expect _) fun _ p3 h3 => ?_
    exact .pure ⟨h3, hfirst⟩
  · refine h2.bind first.steady_read fun _ p3 h3 => ?_
    refine h3.bind (reads_separated (steps_readOf h.steps)) fun _ p4 h4 => ?_
    refine h4.bind (reads_expect _) fun _ p5 h5 => h5.bind (.mapM steady_typeOf _) fun _ p6 h6 => ?_
    exact h6.bind (steady_make _) fun _ p7 h7 => .pure ⟨h7, Operand.denotes_of_none rfl⟩

theorem named_kept (h : Finds B nested) (literals : Bool) (name : Token) (hp : p.InBody B) :
    Ensures p (named nested literals name) fun x p' => KeptIn B p p' ∧
      ∀ n, x.heldName? = some n → n ∉ B.names ∧ n = name.text := by
  have hother : ∀ {x : Operand}, x.heldName? = none →
      ∀ n, x.heldName? = some n → n ∉ B.names ∧ n = name.text := by simp +contextual
  refine .step rfl ?_
  split
  · exact .pure ⟨.refl hp, hother rfl⟩
  · rename_i hlookup
    refine .pure ⟨.refl hp, fun n hn => ?_⟩
    cases hn
    exact ⟨hp.scope.lookup hlookup, rfl⟩
  · exact .pure ⟨.refl hp, hother rfl⟩
  · have hliteral : ∀ opens ty, Gives (Abides B) (if opens = true then compositeLiteral nested ty
        else fail (.unexpectedToken "expression" ("type `" ++ name.text ++ "`")) name.span)
        fun y => y.heldName? = none :=
      fun opens ty => .ite (gives_compositeLiteral h.steps _) fun _ => trivial
    refine Ensures.imp (Q := fun x p' => Abides B p p' ∧ x.heldName? = none) ?_
      fun x p' hx => ⟨hx.1 hp, hother hx.2⟩
    split
    · exact Gives.bind (reads_isNext _) (fun opens => hliteral opens _) p
    · exact Gives.bind (.pure false) (fun opens => hliteral opens _) p
  · exact .fail

theorem finds_primary (h : Finds B nested) (literals : Bool) : Finds B (primary nested literals) := by
  intro p hp
  refine (next_ensures _).bind fun t p1 h1 => ?_
  refine (h1.abides hp).still (steady_setSpan _) fun _ p2 h2 hlexer2 => ?_
  refine h2.still (.build _) fun r p3 h3 hlexer3 => ?_
  have htokens : p.tokens = t :: p3.tokens := by
    rw [show p3.tokens = p1.tokens from congrArg Lexer.tokens (hlexer3.trans hlexer2)]
    exact h1.tokens
  rw [htokens]
  -- An operand that is no part of a local may have any text.
  have hother : ∀ {m : ParseM Operand}, Gives (Abides B) m (fun y => y.heldName? = none) →
      Ensures p3 m fun x p' => KeptIn B p p' ∧ x.Denotes B (t :: p3.tokens) :=
    fun hm => (hm p3).imp fun x p' hx => ⟨h3.trans (hx.1 h3.inBody), Operand.denotes_of_none hx.2⟩
  split
  · exact hother (.bind (steady_make _) fun _ => .pure rfl)
  split
  · rename_i hkind
    refine (finds_parenthesized h p3 h3.inBody).imp ?_
    rintro x p4 ⟨h4, hx⟩
    refine ⟨h3.trans h4, fun name hname => ?_⟩
    rw [nameBehind, hkind]
    exact hx name hname
  · exact hother (gives_arrayLiteral h.steps _)
  · rename_i hkind
    refine (named_kept h literals t h3.inBody).imp ?_
    rintro x p4 ⟨h4, hx⟩
    refine ⟨h3.trans h4, fun name hname => ?_⟩
    obtain ⟨hfree, rfl⟩ := hx name hname
    rw [nameBehind, hkind]
    exact ⟨hfree, rfl⟩
  · exact .fail

/-! ### Selections and signs -/

theorem finds_selected (h : Finds B nested) (literals : Bool) : Finds B (selected nested literals) :=
  (finds_primary h literals).loop (gives_selectionTurn h.steps)

theorem signs_ensures : Ensures p signs fun tokens p' =>
    Takes tokens.reverse p p' ∧ ∀ t ∈ tokens, t.kind.isUnary = true := by
  refine loop_keeps (fun tokens p' => Takes tokens.reverse p p' ∧ ∀ t ∈ tokens, t.kind.isUnary = true)
    ?_ ⟨.refl p, by simp⟩
  rintro tokens p1 ⟨h1, hunary⟩
  refine (peek_ensures _).bind ?_
  rintro t p2 ⟨h2, ht⟩
  have h12 := h1.trans h2
  rw [List.append_nil] at h12
  split
  · rename_i hkind
    refine next?_ensures.bind ?_
    rintro _ p3 ⟨h3, rfl⟩
    rw [h2.same, ht] at h3
    have h13 := h12.trans h3
    refine .pure ⟨?_, List.forall_mem_cons.2 ⟨hkind, hunary⟩⟩
    rw [List.reverse_cons]
    exact h13
  · exact .pure ⟨h12, hunary⟩

theorem applySign_kept (hp : p.InBody B) (ht : t.kind.isUnary = true)
    (hx : B.nested → B.behind.length ≤ p.tokens.length → t.kind = .ampersand → x.heldName? = none) :
    Ensures p (applySign t x) fun y p' => KeptIn B p p' ∧ y.heldName? = none := by
  refine (KeptIn.refl hp).still (steady_setSpan _) fun _ p1 h1 hlexer1 => ?_
  have hother : ∀ {m : ParseM Operand}, Gives (Abides B) m (fun y => y.heldName? = none) →
      Ensures p1 m fun y p' => KeptIn B p p' ∧ y.heldName? = none :=
    fun hm => (hm p1).imp fun _ _ h => ⟨h1.trans (h.1 h1.inBody), h.2⟩
  split
  · exact hother (.bind x.steady_read fun _ => .bind (steady_make _) fun _ => .pure rfl)
  · exact hother (.bind x.steady_read fun _ => .bind (steady_make _) fun _ => .pure rfl)
  · exact hother (.bind x.steady_read fun _ => .bind (steady_make _) fun _ => .pure rfl)
  · exact hother x.gives_dereference
  · rename_i hminus hbang htilde hasterisk
    have hsign : t.kind = .ampersand := by
      revert ht hminus hbang htilde hasterisk
      cases t.kind <;> simp [TokenKind.isUnary]
    have hlength : p1.tokens.length = p.tokens.length := congrArg (fun l => l.tokens.length) hlexer1
    refine (Operand.address_kept h1.inBody fun hB h => hx hB (hlength ▸ h) hsign).bind fun _ p2 h2 => ?_
    exact .pure ⟨h1.trans h2, rfl⟩

theorem applySigns_kept {tokens : List Token} {x : Operand} (hp : p.InBody B)
    (hunary : ∀ t ∈ tokens, t.kind.isUnary = true)
    (hx : B.nested → B.behind.length ≤ p.tokens.length → ∀ t, tokens.head? = some t → t.kind = .ampersand →
      x.heldName? = none) :
    Ensures p (applySigns tokens x) fun y p' => KeptIn B p p' ∧
      (tokens = [] ∧ y = x ∨ y.heldName? = none) := by
  induction tokens generalizing p x with
  | nil => exact .pure ⟨.refl hp, .inl ⟨rfl, rfl⟩⟩
  | cons t tokens ih =>
    obtain ⟨ht, hunary⟩ := List.forall_mem_cons.1 hunary
    refine (applySign_kept hp ht fun hB h => hx hB h t rfl).bind ?_
    rintro y p1 ⟨h1, hy⟩
    refine (ih h1.inBody hunary fun _ _ _ _ _ => hy).imp ?_
    rintro z p2 ⟨h2, hz⟩
    refine ⟨h1.trans h2, .inr ?_⟩
    rcases hz with ⟨-, rfl⟩ | hz
    · exact hy
    · exact hz

/-- The operand of the innermost `&` begins with a name that was found behind it, so it is no local
that is held as a value. -/
theorem finds_unary (h : Finds B nested) (literals : Bool) : Finds B (unary nested literals) := by
  intro p hp
  refine signs_ensures.bind ?_
  rintro tokens p1 ⟨h1, hunary⟩
  have hp1 : KeptIn B p p1 := h1.abides hp
  refine (finds_selected h literals p1 hp1.inBody).bind ?_
  rintro x p2 ⟨h2, hx⟩
  refine (applySigns_kept h2.inBody hunary fun hB hlength t ht hkind => ?_).imp ?_
  · obtain ⟨more, rfl⟩ := List.head?_eq_some_iff.1 ht
    have hsuffix : t :: p1.tokens <:+ B.tokens ++ B.behind := by
      refine List.IsSuffix.trans ?_ hp.place
      refine ⟨more.reverse, ?_⟩
      have htokens := h1.tokens
      rw [List.reverse_cons, List.append_assoc] at htokens
      exact htokens.symm
    cases hheld : x.heldName? with
    | none => rfl
    | some name =>
      obtain ⟨hfree, hname⟩ := hx name hheld
      exact absurd (B.taken hB hsuffix (hlength.trans h2.length) hkind hname) hfree
  · rintro y p3 ⟨h3, hy⟩
    refine ⟨hp1.trans (h2.trans h3), ?_⟩
    rcases hy with ⟨rfl, rfl⟩ | hy
    · rwa [← h1.same]
    · exact Operand.denotes_of_none hy

theorem finds_cast (h : Finds B nested) (literals : Bool) : Finds B (cast nested literals) :=
  (finds_unary h literals).loop gives_castTurn

/-! ### Binary operators -/

theorem abides_shortCircuit {rhs : ParseM Operand} (h : Steps (Abides B) rhs) (lhs : NodeId)
    (decides : Bool) (span : Span) : Steps (Abides B) (shortCircuit lhs decides rhs span) := by
  refine steps_shortCircuit (fun h' h'' hs hp => ?_) h lhs decides span
  have hp' := (h' hp).inBody.scope
  rcases hs with hs | rfl
  · exact (h'' hp).withScope (hp.scope.revalues hs) hs.depth
  · exact (h'' hp).withScope (hp'.truncate hp.scope.deep) (by rw [Scope.depth_truncate, (h' hp).depth, Nat.min_self])

theorem finds_binary {operand : ParseM Operand} (h : Finds B operand)
    (ranks : List (List (TokenKind × Connective))) : Finds B (binary operand ranks) := by
  induction ranks with
  | nil => exact h
  | cons rank tighter ih => exact ih.loop (gives_binaryTurn ih.steps abides_shortCircuit rank)

theorem finds_operandNested (fuel : Nat) (literals : Bool) : Finds B (operandNested fuel literals) := by
  induction fuel generalizing literals with
  | zero => exact fun _ _ => trivial
  | succ fuel ih => exact finds_binary (finds_cast (ih true) literals) ladder

theorem abides_operand : Steps (Abides B) operand :=
  .bind (.bind .get fun _ => .pure _) fun _ => (finds_operandNested _ _).steps

theorem abides_expression : Steps (Abides B) expression := steps_readOf abides_operand

theorem abides_condition : Steps (Abides B) condition :=
  .bind (.bind .get fun _ => .pure _) fun _ => steps_readOf (finds_operandNested _ _).steps

end ParseM

end SeaOfNodes
