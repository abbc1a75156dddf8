import SeaOfNodes.Parse.Basic
import SeaOfNodes.Proofs.Build.Basic
import SeaOfNodes.Proofs.Token.Stream

/-!
Outcomes of the steps of construction, and the steps that read tokens. `Takes` says which tokens a
step takes; such a step changes nothing but the reader.
-/
namespace SeaOfNodes

/-- If a step of construction has a result, then `Q` holds of it and of the state behind the step. -/
def Ensures {α : Type} (p : Parser) (m : ParseM α) (Q : α → Parser → Prop) : Prop :=
  match m p with
  | .ok a p' => Q a p'
  | .error _ _ => True

namespace Ensures

variable {α β σ : Type} {p p' : Parser} {m : ParseM α} {f : α → ParseM β}
  {Q Q' : α → Parser → Prop} {R : β → Parser → Prop}

theorem result {a : α} (h : Ensures p m Q) (hm : m p = .ok a p') : Q a p' := by
  unfold Ensures at h
  rwa [hm] at h

theorem of_result (h : ∀ a p', m p = .ok a p' → Q a p') : Ensures p m Q := by
  unfold Ensures
  split
  · exact h _ _ ‹_›
  · exact trivial

theorem of_forall (h : ∀ a p', Q a p') : Ensures p m Q := .of_result fun a p' _ => h a p'

theorem pure {a : α} (h : Q a p) : Ensures p (Pure.pure a) Q := h

theorem bind (hm : Ensures p m Q) (hf : ∀ a p', Q a p' → Ensures p' (f a) R) :
    Ensures p (m >>= f) R := by
  unfold Ensures at hm ⊢
  simp only [Bind.bind, EStateM.bind]
  cases hp : m p with
  | ok a p' =>
    rw [hp] at hm
    exact hf a p' hm
  | error e p' => exact trivial

theorem imp (hm : Ensures p m Q) (hQ : ∀ a p', Q a p' → Q' a p') : Ensures p m Q' :=
  .of_result fun a p' h => hQ a p' (hm.result h)

theorem step {a : α} (hm : m p = .ok a p') (h : Ensures p' (f a) R) : Ensures p (m >>= f) R := by
  refine bind (Q := fun b q => b = a ∧ q = p') (.of_result fun b q hb => ?_) ?_
  · cases hm.symm.trans hb
    exact ⟨rfl, rfl⟩
  · rintro _ _ ⟨rfl, rfl⟩
    exact h

theorem and (h : Ensures p m Q) (h' : Ensures p m Q') :
    Ensures p m fun a p' => Q a p' ∧ Q' a p' :=
  .of_result fun _ _ hm => ⟨h.result hm, h'.result hm⟩

theorem map {f : α → β} (hm : Ensures p m fun a p' => R (f a) p') : Ensures p (f <$> m) R :=
  hm.bind fun _ _ h => h

theorem get : Ensures p MonadState.get fun a p' => a = p ∧ p' = p := ⟨rfl, rfl⟩

theorem set {Q : PUnit → Parser → Prop} (h : Q () p') : Ensures p (MonadState.set p') Q := h

theorem of_modify {f : Parser → Parser} {Q : PUnit → Parser → Prop} (h : Q () (f p)) :
    Ensures p (modify f) Q := h

theorem fail {cause : Cause} {span : Span} : Ensures p (ParseM.fail cause span : ParseM α) Q :=
  trivial

theorem branch {c : Prop} [Decidable c] {m m' : ParseM α} {f : α → ParseM β}
    (hm : c → Ensures p m Q) (hm' : ¬ c → Ensures p m' Q)
    (hf : ∀ a p', Q a p' → Ensures p' (f a) R) :
    Ensures p (if c then m >>= f else m' >>= f) R := by
  split
  · exact (hm ‹_›).bind hf
  · exact (hm' ‹_›).bind hf

theorem build {m : BuildM α}
    (h : Does AnyFault p.builder m fun a b => Q a { p with builder := b }) :
    Ensures p (ParseM.build m) Q := by
  unfold Ensures ParseM.build
  unfold Does Yields at h
  cases hm : m p.builder with
  | ok r | error f =>
    rw [hm] at h
    exact h

end Ensures

/-! ### Tokens -/

/-- The tokens that were not taken yet. -/
def Parser.tokens (p : Parser) : List Token := p.lexer.tokens

/-- A step took some tokens and changed nothing else. -/
structure Takes (ts : List Token) (p p' : Parser) : Prop where
  eq : p' = { p with lexer := p'.lexer }
  tokens : p.tokens = ts ++ p'.tokens

namespace Takes

variable {ts us : List Token} {p p' p'' : Parser}

theorem refl (p : Parser) : Takes [] p p := ⟨rfl, rfl⟩

theorem trans (h1 : Takes ts p p') (h2 : Takes us p' p'') : Takes (ts ++ us) p p'' := by
  refine ⟨?_, ?_⟩
  · rw [h2.eq, h1.eq]
  · rw [h1.tokens, h2.tokens, List.append_assoc]

theorem same (h : Takes [] p p') : p'.tokens = p.tokens := by rw [h.tokens]; rfl

end Takes

namespace ParseM

variable {α σ : Type} {p : Parser} {Q : α → Parser → Prop}

theorem lex_ensures {m : LexM α}
    (h : ∀ a l, m p.lexer = .ok a l → Q a { p with lexer := l }) : Ensures p (lex m) Q := by
  unfold Ensures lex
  cases hm : m p.lexer with
  | ok a l => exact h a l hm
  | error e l => exact trivial

theorem peekNth_ensures (n : Nat) :
    Ensures p (lex (Lexer.peekNth n)) fun r p' => Takes [] p p' ∧ r = p.tokens[n]? := by
  refine lex_ensures fun r l h => ?_
  obtain ⟨htokens, hr⟩ := Lexer.peekNth_spec h
  exact ⟨⟨rfl, htokens.symm⟩, hr⟩

theorem peek?_ensures : Ensures p peek? fun r p' => Takes [] p p' ∧ r = p.tokens.head? := by
  rw [peek?, Lexer.peek_eq_peekNth]
  refine (peekNth_ensures 0).imp fun r p' h => ⟨h.1, ?_⟩
  rw [h.2, List.head?_eq_getElem?]

theorem next?_ensures : Ensures p next? fun r p' => Takes r.toList p p' ∧ r = p.tokens.head? := by
  refine lex_ensures fun r l h => ?_
  obtain ⟨htokens, hend⟩ := Lexer.next_spec h
  have htokens : p.tokens = r.toList ++ l.tokens := htokens
  refine ⟨⟨rfl, htokens⟩, ?_⟩
  cases r with
  | none => rw [htokens, hend rfl]; rfl
  | some t => rw [htokens]; rfl

theorem isNext_ensures (kind : TokenKind) : Ensures p (isNext kind) fun r p' =>
    Takes [] p p' ∧ (r = true ↔ ∃ t, p.tokens.head? = some t ∧ t.kind = kind) := by
  refine peek?_ensures.bind ?_
  rintro r p' ⟨htakes, rfl⟩
  refine .pure ⟨htakes, ?_⟩
  cases p.tokens.head? <;> simp

theorem accept_ensures (kind : TokenKind) : Ensures p (accept kind) fun r p' =>
    Takes r.toList p p' ∧ ∀ t, r = some t → t.kind = kind := by
  refine (isNext_ensures kind).bind ?_
  rintro next p1 ⟨h1, hnext⟩
  split
  · rename_i htrue
    obtain ⟨t, ht, hkind⟩ := hnext.1 htrue
    refine next?_ensures.imp ?_
    rintro r p' ⟨h2, rfl⟩
    refine ⟨h1.trans h2, fun t' ht' => ?_⟩
    rw [h1.same, ht] at ht'
    exact Option.some.inj ht' ▸ hkind
  · exact .pure ⟨h1, by simp⟩

theorem peek_ensures (context : String) : Ensures p (peek context) fun t p' =>
    Takes [] p p' ∧ p.tokens.head? = some t := by
  refine peek?_ensures.bind ?_
  rintro r p' ⟨htakes, hr⟩
  cases r with
  | none => exact Ensures.get.bind fun _ _ _ => .fail
  | some t => exact .pure ⟨htakes, hr.symm⟩

theorem next_ensures (context : String) : Ensures p (next context) fun t p' => Takes [t] p p' := by
  refine next?_ensures.bind ?_
  rintro r p' ⟨htakes, -⟩
  cases r with
  | none => exact Ensures.get.bind fun _ _ _ => .fail
  | some t => exact .pure htakes

theorem expect_ensures (kind : TokenKind) : Ensures p (expect kind) fun t p' =>
    Takes [t] p p' ∧ t.kind = kind := by
  refine (next_ensures _).bind ?_
  rintro t p' htakes
  split
  · rename_i hkind
    exact .pure ⟨htakes, hkind⟩
  · exact .fail

theorem identifier_ensures : Ensures p identifier fun t p' =>
    Takes [t] p p' ∧ t.kind = .identifier := by
  refine (next_ensures _).bind ?_
  rintro t p' htakes
  split
  · rename_i hkind
    exact .pure ⟨htakes, hkind⟩
  · exact .fail

/-! ### Loops -/

theorem loop_keeps {step : σ → ParseM (σ ⊕ α)} {s : σ} (I : σ → Parser → Prop)
    (hstep : ∀ s p, I s p → Ensures p (step s) fun r p' =>
      r.elim (fun s' => I s' p') fun a => Q a p')
    (hI : I s p) : Ensures p (loop step s) Q := by
  refine .step rfl ?_
  generalize _ + 1 = fuel
  induction fuel generalizing s p with
  | zero => exact trivial
  | succ fuel ih =>
    refine (hstep s p hI).bind ?_
    rintro (s' | a) p' h
    · exact ih h
    · exact .pure h

end ParseM

end SeaOfNodes
