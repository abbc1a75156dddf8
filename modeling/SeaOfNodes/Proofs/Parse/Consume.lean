import SeaOfNodes.Proofs.Parse.Group
import SeaOfNodes.Proofs.Parse.Steady

/-!
Tokens of types and expressions. Both are sequences of tokens in which brackets are closed as they are
opened, without semicolons outside of them (`consumes_operandNested`). There are no braces in a type.
-/
namespace SeaOfNodes

open SeaOfNodes.ParseM

variable {α β σ : Type} {free free' braces c : Prop} {d d1 d' : Nat} {p p' : Parser} {t : Token}

/-! ### What a step takes -/

/-- The token `t` takes the number of open brackets from `d` to `d'`. -/
def Bites (free braces : Prop) (d : Nat) (t : Token) (d' : Nat) : Prop :=
  ∀ ts, Eats free braces d (t :: ts) d' ts

theorem bites_plain (h : t.kind.isPlain = true) : Bites free braces d t d :=
  fun ts => .of_isPlain h (.refl d ts)

theorem bites_opens (h : t.kind.opensGroup = true) (hbraces : t.kind = .openBrace → braces) :
    Bites free braces d t (d + 1) :=
  fun ts => .opens h hbraces (.refl _ ts)

theorem bites_closes (h : t.kind.closesGroup = true) : Bites free braces (d + 1) t d :=
  fun ts => .closes h (.refl d ts)

theorem bites_semicolon (h : t.kind = .semicolon) : Bites True braces d t d :=
  fun ts => .plain (by simp [h, TokenKind.opensGroup]) (by simp [h, TokenKind.closesGroup])
    (fun _ _ => trivial) (.refl d ts)

/-- A step that takes tokens, beginning with `d` open brackets. `out` says how many brackets are open
behind it. -/
def Consumes (free braces : Prop) (d : Nat) (m : ParseM α) (out : α → Nat) : Prop :=
  ∀ p, Ensures p m fun a p' => Eats free braces d p.tokens (out a) p'.tokens

/-- The same for a step in front of which `t` is the next token. -/
def ConsumesFrom (t : Option Token) (free braces : Prop) (d : Nat) (m : ParseM α) (out : α → Nat) :
    Prop :=
  ∀ p, p.tokens.head? = t → Ensures p m fun a p' => Eats free braces d p.tokens (out a) p'.tokens

/-- The same for a token `t` that was taken and a step behind it. -/
def ConsumesAfter (t : Token) (free braces : Prop) (d : Nat) (m : ParseM α) (out : α → Nat) : Prop :=
  ∀ p, Ensures p m fun a p' => Eats free braces d (t :: p.tokens) (out a) p'.tokens

/-- A turn of a loop goes on with `d` brackets, or ends with `d'` of them. -/
def turnOut (d d' : Nat) : σ ⊕ α → Nat := Sum.elim (fun _ => d) fun _ => d'

theorem Takes.eats_nil (h : Takes [] p p') : Eats free braces d p.tokens d p'.tokens := by
  rw [h.same]
  exact .refl _ _

theorem Takes.eats (h : Takes [t] p p') (ht : Bites free braces d t d') :
    Eats free braces d p.tokens d' p'.tokens := by
  rw [h.tokens]
  exact ht _

theorem Unread.eats (h : Unread p p') : Eats free braces d p.tokens d p'.tokens := by
  rw [h.tokens]
  exact .refl _ _

namespace Consumes

variable {m m' : ParseM α} {f : α → ParseM β} {out out1 : α → Nat} {out' : β → Nat}

theorem pure {a : α} (h : out a = d) : Consumes free braces d (Pure.pure a) out := by
  intro p
  refine .pure ?_
  rw [h]
  exact .refl d _

theorem bind (hm : Consumes free braces d m out1)
    (hf : ∀ a, Consumes free braces (out1 a) (f a) out') : Consumes free braces d (m >>= f) out' :=
  fun p => (hm p).bind fun a p1 h1 => (hf a p1).imp fun _ _ h2 => h1.trans h2

theorem inside (h : Consumes free braces d m fun _ => d') :
    Consumes free' braces (d + 1) m fun _ => d' + 1 :=
  fun p => (h p).imp fun _ _ h => h.inside

theorem map {f : α → β} (hm : Consumes free braces d m fun a => out' (f a)) :
    Consumes free braces d (f <$> m) out' :=
  fun p => .map (hm p)

@[simp] theorem fail (cause : Cause) (span : Span) :
    Consumes free braces d (fail cause span : ParseM α) out :=
  fun _ => trivial

@[simp] theorem fault (f : Fault) : Consumes free braces d (throw (.fault f) : ParseM α) out :=
  fun _ => trivial

theorem of_steady (h : Steady m) : Consumes free braces d m fun _ => d :=
  fun p => (h p).imp fun _ _ h => h.eats

theorem still (hm : Steady m) (hf : ∀ a, Consumes free braces d (f a) out') :
    Consumes free braces d (m >>= f) out' :=
  .bind (.of_steady hm) hf

theorem ite [Decidable c] (hm : Consumes free braces d m out) (hm' : Consumes free braces d m' out) :
    Consumes free braces d (if c then m else m') out := by
  split
  · exact hm
  · exact hm'

theorem branch [Decidable c] (hm : Consumes free braces d m fun _ => d1)
    (hm' : Consumes free braces d m' fun _ => d1) (hf : ∀ a, Consumes free braces d1 (f a) out') :
    Consumes free braces d (if c then m >>= f else m' >>= f) out' :=
  .ite (.bind hm hf) (.bind hm' hf)

theorem along {Q : β → Parser → Prop} (hm : Consumes free braces d1 m out)
    (h : Eats free braces d p.tokens d1 p'.tokens)
    (hf : ∀ a p'', Eats free braces d p.tokens (out a) p''.tokens → Ensures p'' (f a) Q) :
    Ensures p' (m >>= f) Q :=
  (hm p').bind fun a p'' h' => hf a p'' (h.trans h')

theorem loop {step : σ → ParseM (σ ⊕ α)}
    (hstep : ∀ s, Consumes free braces d (step s) (turnOut d d')) (s : σ) :
    Consumes free braces d (loop step s) fun _ => d' := by
  refine .still steady_remaining fun fuel => ?_
  generalize fuel + 1 = fuel
  induction fuel generalizing s with
  | zero => exact .fault _
  | succ fuel ih =>
    refine .bind (hstep s) ?_
    rintro (s | a)
    · exact ih s
    · exact .pure rfl

end Consumes

theorem Ensures.branch_along [Decidable c] {m m' : ParseM α} {f : α → ParseM β}
    {Q : β → Parser → Prop} (hm : Consumes free braces d1 m fun _ => d')
    (hm' : Consumes free braces d1 m' fun _ => d') (h : Eats free braces d p.tokens d1 p'.tokens)
    (hf : ∀ a p'', Eats free braces d p.tokens d' p''.tokens → Ensures p'' (f a) Q) :
    Ensures p' (if c then m >>= f else m' >>= f) Q := by
  split
  · exact hm.along h hf
  · exact hm'.along h hf

namespace ConsumesAfter

variable {m : ParseM α} {f : α → ParseM β} {out : α → Nat} {out' : β → Nat}

theorem of (ht : Bites free braces d t d1) (h : Consumes free braces d1 m out) :
    ConsumesAfter t free braces d m out :=
  fun p => (h p).imp fun _ _ h => (ht _).trans h

theorem still (hm : Steady m) (hf : ∀ a, ConsumesAfter t free braces d (f a) out') :
    ConsumesAfter t free braces d (m >>= f) out' := by
  refine fun p => (hm p).bind fun a p1 h1 => ?_
  rw [← h1.tokens]
  exact hf a p1

end ConsumesAfter

namespace ConsumesFrom

variable {t : Option Token} {m m' : ParseM α} {out : α → Nat}

theorem of (h : Consumes free braces d m out) : ConsumesFrom t free braces d m out :=
  fun p _ => h p

theorem ite {c : Prop} [Decidable c] (hm : c → ConsumesFrom t free braces d m out)
    (hm' : ¬ c → ConsumesFrom t free braces d m' out) :
    ConsumesFrom t free braces d (if c then m else m') out := by
  split
  · exact hm ‹_›
  · exact hm' ‹_›

theorem next? {t : Token} {f : Option Token → ParseM α} (ht : Bites free braces d t d1)
    (hf : Consumes free braces d1 (f (some t)) out) :
    ConsumesFrom (some t) free braces d (next? >>= f) out := by
  intro p hp
  refine next?_ensures.bind ?_
  rintro r p1 ⟨h1, rfl⟩
  rw [hp] at h1 ⊢
  exact (hf p1).imp fun _ _ h2 => (h1.eats ht).trans h2

end ConsumesFrom

namespace ParseM

variable {f : Option Token → ParseM α} {out : α → Nat} {kind : TokenKind} {rhs : ParseM Operand}

/-! ### Tokens -/

theorem consumes_peek? (h : ∀ t, ConsumesFrom t free braces d (f t) out) :
    Consumes free braces d (peek? >>= f) out := by
  intro p
  refine peek?_ensures.bind ?_
  rintro r p1 ⟨h1, rfl⟩
  exact (h _ p1 (by rw [h1.same])).imp fun _ _ h2 => h1.eats_nil.trans h2

theorem consumes_peek {f : Token → ParseM α} (context : String)
    (h : ∀ t, ConsumesFrom (some t) free braces d (f t) out) :
    Consumes free braces d (peek context >>= f) out := by
  intro p
  refine (peek_ensures context).bind ?_
  rintro t p1 ⟨h1, ht⟩
  exact (h t p1 (by rw [h1.same, ht])).imp fun _ _ h2 => h1.eats_nil.trans h2

theorem consumes_next {f : Token → ParseM α} (context : String)
    (h : ∀ t, ConsumesAfter t free braces d (f t) out) :
    Consumes free braces d (next context >>= f) out := by
  refine fun p => (next_ensures context).bind fun t p1 h1 => ?_
  rw [h1.tokens]
  exact h t p1

theorem consumes_look (context : String) : Consumes free braces d (peek context) fun _ => d :=
  fun _ => (peek_ensures context).imp fun _ _ h => h.1.eats_nil

theorem consumes_seen : Consumes free braces d peek? fun _ => d :=
  fun _ => peek?_ensures.imp fun _ _ h => h.1.eats_nil

theorem consumes_isNext (kind : TokenKind) : Consumes free braces d (isNext kind) fun _ => d :=
  fun _ => (isNext_ensures kind).imp fun _ _ h => h.1.eats_nil

theorem consumes_peekNth (n : Nat) : Consumes free braces d (lex (Lexer.peekNth n)) fun _ => d :=
  fun _ => (peekNth_ensures n).imp fun _ _ h => h.1.eats_nil

theorem consumes_expect (h : ∀ t : Token, t.kind = kind → Bites free braces d t d') :
    Consumes free braces d (expect kind) fun _ => d' :=
  fun _ => (expect_ensures kind).imp fun t _ ht => ht.1.eats (h t ht.2)

theorem consumes_plain (h : kind.isPlain = true) : Consumes free braces d (expect kind) fun _ => d :=
  consumes_expect fun _ ht => bites_plain (ht ▸ h)

theorem consumes_open (h : kind.opensGroup = true) (hbraces : kind = .openBrace → braces) :
    Consumes free braces d (expect kind) fun _ => d + 1 :=
  consumes_expect fun _ ht => bites_opens (ht ▸ h) (ht ▸ hbraces)

theorem consumes_close (h : kind.closesGroup = true) :
    Consumes free braces (d + 1) (expect kind) fun _ => d :=
  consumes_expect fun _ ht => bites_closes (ht ▸ h)

theorem consumes_identifier : Consumes free braces d identifier fun _ => d :=
  fun _ => identifier_ensures.imp fun _ _ h => h.1.eats (bites_plain (by rw [h.2]; rfl))

theorem consumes_accept (h : ∀ t : Token, t.kind = kind → Bites free braces d t d1)
    (hsome : ∀ t, Consumes free braces d1 (f (some t)) out)
    (hnone : Consumes free braces d (f none) out) : Consumes free braces d (accept kind >>= f) out := by
  intro p
  refine (accept_ensures kind).bind ?_
  rintro (_ | t) p1 ⟨h1, ht⟩
  · exact (hnone p1).imp fun _ _ h2 => h1.eats_nil.trans h2
  · exact (hsome t p1).imp fun _ _ h2 => (h1.eats (h t (ht t rfl))).trans h2

theorem consumes_acceptPlain (h : kind.isPlain = true)
    (hsome : ∀ t, Consumes free braces d (f (some t)) out)
    (hnone : Consumes free braces d (f none) out) : Consumes free braces d (accept kind >>= f) out :=
  consumes_accept (fun _ ht => bites_plain (ht ▸ h)) hsome hnone

theorem consumes_optional (h : kind.isPlain = true) :
    Consumes free braces d (accept kind) fun _ => d := by
  rw [← bind_pure (accept kind)]
  exact consumes_acceptPlain h (fun _ => .pure rfl) (.pure rfl)

theorem consumes_acceptClose (h : kind.closesGroup = true)
    (hsome : ∀ t, Consumes free braces d (f (some t)) out)
    (hnone : Consumes free braces (d + 1) (f none) out) :
    Consumes free braces (d + 1) (accept kind >>= f) out :=
  consumes_accept (fun _ ht => bites_closes (ht ▸ h)) hsome hnone

theorem consumes_separated {item : ParseM α} (h : Consumes free braces d item fun _ => d) :
    Consumes free braces d (separated item) fun _ => d := by
  refine .loop (fun items => .bind h fun x => ?_) _
  exact consumes_acceptPlain rfl (fun _ => .pure rfl) (.pure rfl)

/-! ### Types -/

theorem consumes_arrayLength : Consumes free braces 1 arrayLength fun _ => 0 := by
  refine .bind (consumes_plain rfl) fun token => ?_
  split
  · exact .bind (consumes_close rfl) fun _ => .pure rfl
  · exact .fail _ _

section Inner

variable {inner : ParseM Ty} (h : Consumes free braces 0 inner fun _ => 0)

include h

theorem consumes_tupleType (span : Span) : Consumes free braces 1 (tupleType inner span) fun _ => 0 := by
  refine .bind (consumes_separated h.inside) fun members => .bind (consumes_close rfl) fun _ => ?_
  split
  · exact .pure rfl
  · exact .of_steady (steady_bounded _ _)

theorem consumes_functionType : Consumes free braces 0 (functionType inner) fun _ => 0 := by
  refine .bind (consumes_open rfl (by simp)) fun _ => .bind (consumes_isNext _) fun empty => ?_
  refine .branch (.pure rfl) (consumes_separated h.inside) fun params => ?_
  refine .bind (consumes_close rfl) fun _ => .bind consumes_seen fun token => ?_
  exact .branch h (.pure rfl) fun result => .pure rfl

theorem consumes_typeWith : Consumes free braces 0 (typeWith inner) fun _ => 0 := by
  refine consumes_next _ fun t => ?_
  split <;> rename_i hkind
  · exact .of (bites_plain (hkind ▸ rfl)) (.bind h fun _ => .pure rfl)
  · refine .of (bites_opens (hkind ▸ rfl) (by simp [hkind])) (.bind consumes_arrayLength fun length => ?_)
    exact .bind h fun _ => .of_steady (steady_arrayType _ _ _)
  · exact .of (bites_opens (hkind ▸ rfl) (by simp [hkind])) (consumes_tupleType h _)
  · exact .of (bites_plain (hkind ▸ rfl)) (consumes_functionType h)
  · exact .of (bites_plain (hkind ▸ rfl)) (.of_steady (steady_namedType _))
  · exact fun _ => trivial

end Inner

theorem consumes_type : Consumes free braces 0 type fun _ => 0 := by
  refine .still steady_remaining fun fuel => ?_
  generalize fuel + 1 = fuel
  induction fuel with
  | zero => exact .fault _
  | succ fuel ih => exact consumes_typeWith ih

/-! ### Literals -/

theorem consumes_readOf {m : ParseM Operand} (h : Consumes free True d m fun _ => d') :
    Consumes free True d (readOf m) fun _ => d' :=
  .bind h fun x => .of_steady x.steady_read

theorem consumes_memberLabel? (ty : Ty) (first : Token) :
    Consumes free True d (memberLabel? ty first) fun _ => d := by
  refine .ite (.bind (consumes_peekNth 1) fun token => .ite ?_ (.pure rfl)) (.pure rfl)
  exact .bind consumes_identifier fun _ => .bind (consumes_plain rfl) fun _ => .pure rfl

section Nested

variable {nested : ParseM Operand} (h : Consumes free True 0 nested fun _ => 0)

include h

theorem consumes_literalTurn (ty : Ty) (state : LiteralState) :
    Consumes free True 1 (literalTurn nested ty state) (turnOut 1 0) := by
  refine consumes_acceptClose rfl (fun _ => .pure rfl) (consumes_peek _ fun first => .of ?_)
  refine .bind (consumes_memberLabel? _ _) fun label => ?_
  refine .bind (consumes_readOf h.inside) fun value => .still (steady_setSpan _) fun _ => ?_
  refine .still (steady_putMember _ _ _ _) fun state => ?_
  refine consumes_acceptPlain rfl (fun _ => .pure rfl) ?_
  exact .bind (consumes_close rfl) fun _ => .pure rfl

theorem consumes_compositeLiteral (ty : Ty) :
    Consumes free True 0 (compositeLiteral nested ty) fun _ => 0 := by
  refine .still .get fun p => .bind (consumes_open rfl fun _ => trivial) fun _ => ?_
  refine .bind (.loop (consumes_literalTurn h ty) _) fun state => ?_
  refine .still (steady_setSpan _) fun _ => .ite (.still (steady_report _) fun _ => .pure rfl) ?_
  exact .still (steady_fillMembers _ _) fun _ => .still (steady_make _) fun _ => .pure rfl

theorem consumes_arrayLiteral (span : Span) : Consumes free True 1 (arrayLiteral nested span) fun _ => 0 := by
  refine .bind consumes_arrayLength fun length => .bind consumes_type fun element => ?_
  refine .still (steady_arrayType _ _ _) fun ty => .still (steady_setSpan _) fun _ => ?_
  exact consumes_compositeLiteral h ty

theorem consumes_parenthesized : Consumes free True 1 (parenthesized nested) fun _ => 0 := by
  refine .bind h.inside fun first => consumes_acceptPlain rfl (fun _ => ?_) ?_
  · refine .still first.steady_read fun _ => .bind (consumes_separated (consumes_readOf h.inside)) fun _ => ?_
    refine .bind (consumes_close rfl) fun _ => .still (.mapM steady_typeOf _) fun _ => ?_
    exact .still (steady_make _) fun _ => .pure rfl
  · exact .bind (consumes_close rfl) fun _ => .pure rfl

theorem consumes_named (literals : Bool) (name : Token) :
    Consumes free True 0 (named nested literals name) fun _ => 0 := by
  refine .still steady_scope fun s => ?_
  split
  · exact .pure rfl
  · exact .pure rfl
  · exact .pure rfl
  · refine .branch (consumes_isNext _) (.pure rfl) fun opens => .ite ?_ (.fail _ _)
    exact consumes_compositeLiteral h _
  · exact .fail _ _

end Nested

theorem isPlain_of_literalType? {ty : Ty} (h : literalType? t = .ok (some ty)) :
    t.kind.isPlain = true := by
  revert h
  unfold literalType?
  split <;> rename_i hkind <;> simp [hkind, TokenKind.isPlain, TokenKind.opensGroup,
    TokenKind.closesGroup, pure, Except.pure]

theorem consumes_primary {nested : ParseM Operand} (h : Consumes free True 0 nested fun _ => 0)
    (literals : Bool) : Consumes free True 0 (primary nested literals) fun _ => 0 := by
  refine consumes_next _ fun t => .still (steady_setSpan _) fun _ p => ?_
  refine (Ensures.build (Q := fun r p' => literalType? t = .ok r ∧ p'.tokens = p.tokens) (.lift ?_)).bind ?_
  · cases literalType? t with
    | ok r => exact ⟨rfl, rfl⟩
    | error f => exact trivial
  rintro r p1 ⟨hr, htokens⟩
  rw [← htokens]
  refine (?_ : ConsumesAfter t free True 0 _ _) p1
  -- The first token decides how many brackets are open behind it.
  split
  · refine .of (bites_plain (isPlain_of_literalType? hr)) ?_
    exact .still (steady_make _) fun _ => .pure rfl
  · split <;> rename_i hkind
    · exact .of (bites_opens (hkind ▸ rfl) fun _ => trivial) (consumes_parenthesized h)
    · exact .of (bites_opens (hkind ▸ rfl) fun _ => trivial) (consumes_arrayLiteral h _)
    · exact .of (bites_plain (hkind ▸ rfl)) (consumes_named h literals t)
    · exact fun _ => trivial

/-! ### Selections, signs and casts -/

theorem consumes_memberName {f : Token → MemberKey → ParseM α}
    (hf : ∀ member key, Consumes free True d (f member key) out) : Consumes free True d (do
      let member ← next "member name"
      let key ← memberKey member
      f member key) out := by
  refine consumes_next _ fun member => ?_
  unfold memberKey
  split <;> rename_i hkind
  · exact .of (bites_plain (hkind ▸ rfl)) (hf _ _)
  · split
    · exact .of (bites_plain (hkind ▸ rfl)) (hf _ _)
    · exact fun _ => trivial
  · exact fun _ => trivial

section Nested

variable {nested : ParseM Operand} (h : Consumes free True 0 nested fun _ => 0)

include h

theorem consumes_arguments : Consumes free True 1 (arguments nested) fun _ => 0 := by
  refine consumes_acceptClose rfl (fun _ => .pure rfl) ?_
  refine .bind (consumes_separated ?_) fun _ => .bind (consumes_close rfl) fun _ => .pure rfl
  refine consumes_peek _ fun first => .of (.bind (consumes_readOf h.inside) fun _ => .pure rfl)

theorem consumes_selectionTurn (x : Operand) :
    Consumes free True 0 (selectionTurn nested x) (turnOut 0 0) := by
  refine consumes_peek? fun t => ?_
  cases t with
  | none => exact .of (.pure rfl)
  | some t =>
    dsimp only
    split
    · rename_i hkind
      refine .next? (bites_plain (hkind ▸ rfl)) ?_
      exact consumes_memberName fun member key =>
        .still (steady_setSpan _) fun _ => .still (x.gives_member key).steps fun _ => .pure rfl
    · rename_i hkind
      refine .next? (bites_opens (hkind ▸ rfl) fun _ => trivial) (.bind (consumes_readOf h.inside) fun index => ?_)
      refine .bind (consumes_close rfl) fun close => .still (steady_setSpan _) fun _ => ?_
      exact .still (x.gives_index _).steps fun _ => .pure rfl
    · rename_i hkind
      refine .next? (bites_opens (hkind ▸ rfl) fun _ => trivial) (.bind (consumes_arguments h) fun arguments => ?_)
      exact .still (x.steady_call _ _) fun _ => .pure rfl
    · exact .of (.pure rfl)

theorem consumes_selected (literals : Bool) : Consumes free True 0 (selected nested literals) fun _ => 0 :=
  .bind (consumes_primary h literals) fun x => .loop (consumes_selectionTurn h) x

end Nested

theorem isPlain_of_isUnary (h : t.kind.isUnary = true) : t.kind.isPlain = true := by
  revert h
  cases t.kind <;> simp [TokenKind.isUnary, TokenKind.isPlain, TokenKind.opensGroup,
    TokenKind.closesGroup]

theorem consumes_signs : Consumes free True d signs fun _ => d := by
  refine .loop (fun tokens => consumes_peek _ fun t => .ite (fun ht => ?_) fun _ => .of (.pure rfl)) _
  exact .next? (bites_plain (isPlain_of_isUnary ht)) (.pure rfl)

theorem consumes_castTurn (x : Operand) : Consumes free True 0 (castTurn x) (turnOut 0 0) := by
  refine consumes_acceptPlain rfl (fun token => .bind consumes_type fun target => ?_) (.pure rfl)
  refine .still x.steady_read fun _ => .still (steady_setSpan _) fun _ => ?_
  exact .still (steady_make _) fun _ => .pure rfl

theorem consumes_cast {nested : ParseM Operand} (h : Consumes free True 0 nested fun _ => 0)
    (literals : Bool) : Consumes free True 0 (cast nested literals) fun _ => 0 := by
  refine .bind (.bind consumes_signs fun tokens => .bind (consumes_selected h literals) fun x => ?_)
    fun x => .loop consumes_castTurn x
  exact .of_steady (steady_applySigns _ _)

/-! ### Binary operators -/

theorem consumes_shortCircuit (h : Consumes free True 0 rhs fun _ => 0) (lhs : NodeId)
    (decides : Bool) (span : Span) :
    Consumes free True 0 (shortCircuit lhs decides rhs span) fun _ => 0 := by
  refine .still steady_scope fun parent => .still steady_cursor fun before => ?_
  refine .still (steady_setSpan _) fun _ => .still (steady_branch _ _) fun sides => ?_
  refine .still (steady_setCursor _) fun _ => .bind (consumes_readOf h) fun value => ?_
  refine .still (steady_setSpan _) fun _ => .still (steady_make _) fun value => ?_
  refine .still steady_arm fun arm => .still (.build _) fun join => ?_
  refine .still (steady_make _) fun short => .still (.build _) fun value => ?_
  exact .still (steady_follow _) fun _ => .pure rfl

theorem consumes_connect (h : Consumes free True 0 rhs fun _ => 0) (c : Connective) (lhs : NodeId)
    (span : Span) : Consumes free True 0 (connect c lhs rhs span) fun _ => 0 := by
  have hsimple : ∀ {m : NodeId → ParseM NodeId}, (∀ rhs, Steady (m rhs)) → Consumes free True 0 (do
      let rhs ← readOf rhs
      setSpan span
      m rhs) fun _ => 0 := by
    intro m hm
    refine .bind (consumes_readOf h) fun rhs => .still (steady_setSpan _) fun _ => ?_
    exact .of_steady (hm rhs)
  cases c with
  | binary op => exact hsimple fun _ => steady_make _
  | compare op => exact hsimple fun _ => steady_make _
  | shortCircuit op =>
    refine .still (steady_typeOf _) fun ty => ?_
    split
    · exact consumes_shortCircuit h _ _ _
    · exact hsimple fun _ => steady_make _

theorem isPlain_of_mem_ladder : ∀ rank ∈ ladder, ∀ entry ∈ rank, entry.1.isPlain = true := by decide

theorem consumes_binaryTurn (h : Consumes free True 0 rhs fun _ => 0)
    {rank : List (TokenKind × Connective)} (hrank : ∀ entry ∈ rank, entry.1.isPlain = true)
    (lhs : Operand) : Consumes free True 0 (binaryTurn rank rhs lhs) (turnOut 0 0) := by
  refine consumes_peek? fun t => ?_
  cases t with
  | none => exact .of (.pure rfl)
  | some t =>
    dsimp only
    split
    · exact .of (.pure rfl)
    · rename_i c hlookup
      obtain ⟨before, after, rfl, -⟩ := List.lookup_eq_some_iff.1 hlookup
      have hplain : t.kind.isPlain = true := hrank (t.kind, c) (by simp)
      refine .next? (bites_plain hplain) (.still lhs.steady_read fun lhs => ?_)
      exact .bind (consumes_connect h c lhs _) fun _ => .pure rfl

theorem consumes_binary {operand : ParseM Operand} (h : Consumes free True 0 operand fun _ => 0)
    {ranks : List (List (TokenKind × Connective))}
    (hranks : ∀ rank ∈ ranks, ∀ entry ∈ rank, entry.1.isPlain = true) :
    Consumes free True 0 (binary operand ranks) fun _ => 0 := by
  induction ranks with
  | nil => exact h
  | cons rank tighter ih =>
    obtain ⟨hrank, htighter⟩ := List.forall_mem_cons.1 hranks
    exact .bind (ih htighter) fun x => .loop (consumes_binaryTurn (ih htighter) hrank) x

theorem consumes_operandNested (fuel : Nat) (literals : Bool) :
    Consumes free True 0 (operandNested fuel literals) fun _ => 0 := by
  induction fuel generalizing literals with
  | zero => exact .fault _
  | succ fuel ih => exact consumes_binary (consumes_cast (ih true) literals) isPlain_of_mem_ladder

theorem consumes_operand : Consumes free True 0 operand fun _ => 0 :=
  .still (.bind .get fun _ => .pure _) fun _ => consumes_operandNested _ _

theorem consumes_expression : Consumes free True 0 expression fun _ => 0 := consumes_readOf consumes_operand

theorem consumes_condition : Consumes free True 0 condition fun _ => 0 :=
  .still (.bind .get fun _ => .pure _) fun _ => consumes_readOf (consumes_operandNested _ _)

end ParseM

end SeaOfNodes
