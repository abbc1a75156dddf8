import SeaOfNodes.Proofs.Parse.Effect
import SeaOfNodes.Proofs.Parse.Nesting
import SeaOfNodes.Proofs.Parse.Scan

/-!
Boundaries of items. The text is read three times, and the first two times parts of it are skipped.
All passes see the same items (`construct_itemBounds`): the pass over the types and the one over the
declarations stop at the same tokens, and a body ends where it was skipped to.

The pass over the declarations reads to the end of the text, so no part of a program closes more
brackets than it opens. Then no deferred statement in a body closes a bracket that it did not open.
-/
namespace SeaOfNodes

open SeaOfNodes.ParseM

variable {α σ : Type} {ts us vs : List Token} {p p' : Parser}

/-! ### Items -/

/-- The brackets of the tokens that are taken from `ts` until `us` are left are closed as they are
opened. -/
def Shut (ts us : List Token) : Prop :=
  ∃ ws, ts = ws ++ us ∧ openings ws = closings ws ∧ ∀ vs, vs <+: ws → closings vs ≤ openings vs

theorem Eats.shut {free braces : Prop} (h : Eats free braces 0 ts 0 us) : Shut ts us := by
  obtain ⟨ws, hws, hcount, hle⟩ := h.brackets
  exact ⟨ws, hws, by omega, fun vs hvs => by simpa using hle vs hvs⟩

theorem Shut.trans (h1 : Shut ts us) (h2 : Shut us vs) : Shut ts vs := by
  obtain ⟨ws, rfl, hws, hle⟩ := h1
  obtain ⟨ws', rfl, hws', hle'⟩ := h2
  refine ⟨ws ++ ws', by simp, by simp [hws, hws'], fun xs hxs => ?_⟩
  obtain ⟨zs, hzs⟩ := hxs
  rcases List.append_eq_append_iff.1 hzs with ⟨ys, rfl, -⟩ | ⟨ys, rfl, rfl⟩
  · exact hle xs (List.prefix_append _ _)
  · have := hle' ys (List.prefix_append _ _)
    rw [openings_append, closings_append]
    omega

theorem Shut.cons {t : Token} (ht : t.kind.isPlain = true) (h : Shut ts us) : Shut (t :: ts) us :=
  (bites_plain ht ts : Eats True True 0 (t :: ts) 0 ts).shut.trans h

/-- If all that comes behind is shut as well, then no more brackets can be closed than opened. -/
theorem Falls.eq_zero {e : Nat} (h : Falls e ts us) (hts : Shut ts []) : e = 0 := by
  obtain ⟨ws, hws, hcount, -⟩ := h.brackets
  obtain ⟨ws', rfl, -, hle⟩ := hts
  have := hle ws ⟨us, by simpa using hws.symm⟩
  omega

/-- An item comes first in `ts`, and `us` come behind it, for a pass that skips functions and
constants. -/
inductive Item : List Token → List Token → Prop where
  | type {t name word : Token} {ts us : List Token} : t.kind = .keyword .type →
    name.kind = .identifier → word.kind = .keyword .struct → StartsGroup ts us →
    Item (t :: name :: word :: ts) us
  | function {t : Token} {ts : List Token} : t.kind = .keyword .func → Item (t :: ts) (behindFunction ts)
  | constant {t : Token} {ts : List Token} : t.kind = .keyword .const →
    Item (t :: ts) (behindStatement 0 ts)

theorem Item.head_ne {t : Token} (h : Item ts us) (ht : ts.head? = some t) :
    t.kind ≠ .keyword .else_ := by
  cases h <;> cases ht <;> simp_all

/-- Whether a function comes first. -/
def startsFunction (ts : List Token) : Bool := ts.head?.any fun t => t.kind == .keyword .func

/-! ### Places of turns -/

namespace ParseM

/-- Where the turns of a loop begin and end, but for the last one: the tokens that are left there. -/
def turnBounds (step : σ → ParseM (σ ⊕ α)) : Nat → σ → Parser → List (List Token × List Token)
  | 0, _, _ => []
  | fuel + 1, s, p =>
    match step s p with
    | .ok (.inl s) p' => (p.tokens, p'.tokens) :: turnBounds step fuel s p'
    | _ => []

/-- The same for a loop that has as many turns as it needs. -/
def loopBounds (step : σ → ParseM (σ ⊕ α)) (s : σ) (p : Parser) : List (List Token × List Token) :=
  match remaining p with
  | .ok fuel p => turnBounds step (fuel + 1) s p
  | .error _ _ => []

/-- Reads one item in the pass over the types. -/
def typeTurn : Unit → ParseM (Unit ⊕ Unit) := fun () => do
  match ← next? with
  | none => return .inr ()
  | some token =>
    match token.kind with
    | .keyword .type => structDeclaration
    | .keyword .func => skipFunction
    | .keyword .const => skipStatement
    | _ => unexpected token itemNames
    return .inl ()

def readBody (d : FunctionDeclaration) : ParseM Unit := do
  enterFunction d
  bindParameters d.entry 0 d.params
  block (statementNested (2 * (← get).size + 2))

theorem buildFunction_eq (d : FunctionDeclaration) : buildFunction d = (do
    readBody d
    endBody d
    setScope (← scope).pop
    finishFunction d.entry) := by
  simp only [buildFunction, buildFunctionWith, readBody, bind_assoc]

/-- Where the bodies of functions end when they are read one after the other: the tokens that are
left there. -/
def bodyEnds : List FunctionDeclaration → Parser → List (List Token)
  | [], _ => []
  | d :: ds, p =>
    match readBody d p, buildFunction d p with
    | .ok _ q, .ok _ p' => q.tokens :: bodyEnds ds p'
    | _, _ => []

/-! ### Types -/

theorem fieldTurn_ensures (fields : List (Token × Ty)) :
    Ensures p (fieldTurn fields) fun r p' => r.elim (fun _ => Eats True True 0 p.tokens 0 p'.tokens)
      fun _ => ∃ c : Token, c.kind.closesGroup = true ∧ p.tokens = c :: p'.tokens := by
  refine (accept_ensures _).bind ?_
  rintro (_ | c) p1 ⟨h1, hc⟩
  · have hfirst : Eats True True 0 p.tokens 0 p1.tokens := h1.eats_nil
    refine consumes_identifier.along hfirst fun field p2 h2 => ?_
    refine consumes_type.along h2 fun ty p3 h3 => consumes_semicolon.along h3 fun _ p4 h4 => ?_
    split
    · exact .fail
    · exact .pure h4
  · exact .pure ⟨c, by rw [hc c rfl]; rfl, h1.tokens⟩

theorem structDeclaration_ensures : Ensures p structDeclaration fun _ p' => ∃ name word ts,
    p.tokens = name :: word :: ts ∧ name.kind = .identifier ∧ word.kind = .keyword .struct ∧
      StartsGroup ts p'.tokens := by
  refine identifier_ensures.bind ?_
  rintro name p1 ⟨h1, hname⟩
  refine (expect_ensures _).bind ?_
  rintro word p2 ⟨h2, hword⟩
  refine (expect_ensures _).bind ?_
  rintro o p3 ⟨h3, ho⟩
  have hloop : Ensures p3 (loop fieldTurn []) fun _ p4 => ∃ c : Token,
      c.kind.closesGroup = true ∧ Eats True True 0 p3.tokens 0 (c :: p4.tokens) := by
    refine loop_keeps (fun _ p' => Eats True True 0 p3.tokens 0 p'.tokens) ?_ (.refl 0 _)
    intro fields p' heats
    refine (fieldTurn_ensures fields).imp ?_
    rintro (_ | _) p4 h4
    · exact heats.trans h4
    · obtain ⟨c, hc, htokens⟩ := h4
      exact ⟨c, hc, htokens ▸ heats⟩
  refine hloop.bind ?_
  rintro fields p4 ⟨c, hc, heats⟩
  have htokens : p.tokens = name :: word :: p2.tokens := by
    rw [h1.tokens, h2.tokens]
    rfl
  refine (steady_bounded (R := Unread) _ _ p4).bind fun _ p5 h5 => ?_
  have hgroup : StartsGroup p2.tokens p5.tokens := by
    rw [show p2.tokens = o :: p3.tokens from h3.tokens, h5.tokens]
    exact ⟨o, _, c, rfl, ho ▸ rfl, heats, hc⟩
  refine .step rfl ?_
  split
  · exact .of_modify ⟨name, word, _, htokens, hname, hword, hgroup⟩
  · exact .fail

theorem typeTurn_ensures : Ensures p (typeTurn ()) fun r p' =>
    r.elim (fun _ => Item p.tokens p'.tokens) fun _ => p.tokens = [] := by
  refine next?_ensures.bind ?_
  rintro r p1 ⟨h1, hr⟩
  cases r with
  | none => exact .pure (List.head?_eq_none_iff.1 hr.symm)
  | some t =>
    have htokens : p.tokens = t :: p1.tokens := h1.tokens
    rw [htokens]
    dsimp only
    split
    · rename_i hkind
      refine structDeclaration_ensures.bind ?_
      rintro _ p2 ⟨name, word, ts, hts, hname, hword, hgroup⟩
      refine .pure ?_
      rw [hts]
      exact .type hkind hname hword hgroup
    · rename_i hkind
      refine skipFunction_ensures.bind fun _ p2 hbehind => .pure ?_
      rw [hbehind]
      exact .function hkind
    · rename_i hkind
      refine skipStatement_ensures.bind fun _ p2 h2 => .pure ?_
      rw [h2.2.1]
      exact .constant hkind
    · exact .fail

/-! ### Declarations -/

theorem consumes_parameterTurn (params : List (Token × Ty)) :
    Consumes True False 1 (parameterTurn params) (turnOut 1 1) := by
  have htype : Consumes True False 0 type fun _ => 0 := consumes_type
  refine .bind consumes_identifier fun name => .bind htype.inside fun ty => ?_
  refine .ite (fun _ => trivial) (.bind (consumes_optional rfl) fun found => ?_)
  exact .ite (.pure rfl) (.pure rfl)

/-- A function was read behind its keyword: its signature, and then a body that was skipped. -/
structure SkipsBody (d : FunctionDeclaration) (p p' : Parser) : Prop where
  group : StartsGroup d.body.tokens p'.tokens
  signature : Shut p.tokens d.body.tokens
  behind : p'.tokens = behindFunction p.tokens

theorem functionSignature_skipsBody :
    Ensures p functionSignature fun d p' => SkipsBody d p p' := by
  have hstart : Eats True False 0 p.tokens 0 p.tokens := .refl 0 _
  refine consumes_identifier.along hstart fun name p1 h1 => ?_
  refine (consumes_open rfl (by simp)).along h1 fun _ p2 h2 => ?_
  refine (consumes_isNext _).along h2 fun empty p3 h3 => ?_
  refine .branch_along (.pure rfl) (.loop consumes_parameterTurn _) h3 fun params p4 h4 => ?_
  refine (consumes_close rfl).along h4 fun _ p5 h5 => (consumes_isNext _).along h5 fun void p6 h6 => ?_
  refine .branch_along (.pure rfl) consumes_type h6 fun result p7 h7 => ?_
  refine (Consumes.of_steady (steady_setSpan _)).along h7 fun _ p8 h8 => ?_
  refine (Consumes.of_steady (steady_make _)).along h8 fun entry p9 h9 => ?_
  refine (Consumes.of_steady (steady_declare _ _)).along h9 fun _ q heats => ?_
  refine .step rfl ?_
  refine (peek_ensures _).bind ?_
  rintro first q1 ⟨hq1, hfirst⟩
  split
  · exact .fail
  rename_i hkind
  have hkind : first.kind = .openBrace := Decidable.not_not.1 hkind
  refine (skipGroup_ensures (by rw [hq1.same, hfirst]) (by rw [hkind]; rfl)).bind ?_
  rintro _ q2 ⟨-, hgroup⟩
  rw [hq1.same] at hgroup
  refine .pure ⟨hgroup, heats.shut, ?_⟩
  -- There are no braces in the signature.
  obtain ⟨us, hus⟩ := List.head?_eq_some_iff.1 hfirst
  have hdrop : p.tokens.dropWhile (fun t => t.kind ≠ .openBrace) = q.tokens := by
    rw [heats.dropWhile, hus, List.dropWhile_cons_of_neg (by simp [hkind])]
  rw [behindFunction, hdrop]
  exact hgroup.behindGroup.symm

/-- A turn of the pass over the declarations, where an item comes first. -/
structure Declares (functions functions' : List FunctionDeclaration) (p p' : Parser) : Prop where
  shut : Shut p.tokens p'.tokens
  functions : if startsFunction p.tokens then ∃ d, functions' = functions ++ [d] ∧
    StartsGroup d.body.tokens p'.tokens else functions' = functions

theorem declarationTurn_ensures {t : Token} {ts : List Token} (functions : List FunctionDeclaration)
    (hts : p.tokens = t :: ts)
    {Q : List FunctionDeclaration ⊕ List FunctionDeclaration → Parser → Prop}
    (hrest : ∀ p1, p1.tokens = ts → Ensures p1 (match t.kind with
        | .keyword .type => do
          let _ ← identifier
          let _ ← expect (.keyword .struct)
          skipGroup
          return .inl functions
        | .keyword .func => return .inl (functions ++ [← functionSignature])
        | .keyword .const => do
          globalConstant
          return .inl functions
        | _ => unexpected t itemNames) Q) : Ensures p (declarationTurn functions) Q := by
  refine next?_ensures.bind ?_
  rintro r p1 ⟨h1, rfl⟩
  rw [hts] at h1 ⊢
  exact hrest p1 (List.cons.inj (h1.tokens.symm.trans hts)).2

theorem declarationTurn_declares (functions : List FunctionDeclaration) (hitem : Item p.tokens us) :
    Ensures p (declarationTurn functions) fun r p' =>
      p'.tokens = us ∧ r.elim (fun functions' => Declares functions functions' p p') fun _ => False := by
  generalize hts : p.tokens = ts at hitem
  cases hitem with
  | @type t name word ts us ht hname hword hgroup =>
    refine declarationTurn_ensures functions hts fun p1 htokens1 => ?_
    rw [ht]
    refine identifier_ensures.bind ?_
    rintro name' p2 ⟨h2, -⟩
    refine (expect_ensures _).bind ?_
    rintro word' p3 ⟨h3, -⟩
    have htokens3 : p3.tokens = ts := by
      have h := h2.tokens.symm.trans htokens1
      rw [h3.tokens] at h
      exact (List.cons.inj (List.cons.inj h).2).2
    have hopens : ∃ o, p3.tokens.head? = some o ∧ o.kind.opensGroup = true := by
      obtain ⟨o, ms, c, rfl, ho, -⟩ := hgroup
      exact ⟨o, htokens3 ▸ rfl, ho⟩
    obtain ⟨o, hhead, ho⟩ := hopens
    refine (skipGroup_ensures hhead ho).bind ?_
    rintro _ p4 ⟨-, hgroup'⟩
    have htokens4 : p4.tokens = us := by
      rw [← hgroup'.behindGroup, htokens3, hgroup.behindGroup]
    have hshut : Shut p.tokens p4.tokens := by
      rw [hts, htokens4]
      have heats : Eats True True 0 ts 0 us := hgroup.eats
      exact .cons (ht ▸ rfl) (.cons (by rw [hname]; rfl) (.cons (by rw [hword]; rfl) heats.shut))
    exact .pure ⟨htokens4, hshut, by simp [hts, startsFunction, ht]⟩
  | @function t ts ht =>
    refine declarationTurn_ensures functions hts fun p1 htokens1 => ?_
    rw [ht]
    refine functionSignature_skipsBody.bind fun d p2 h2 => ?_
    have hshut : Shut p.tokens p2.tokens := by
      have heats : Eats True True 0 d.body.tokens 0 p2.tokens := h2.group.eats
      have hsignature := h2.signature
      rw [htokens1] at hsignature
      rw [hts]
      exact .cons (ht ▸ rfl) (hsignature.trans heats.shut)
    refine .pure ⟨by rw [h2.behind, htokens1], hshut, ?_⟩
    rw [if_pos (by simp [hts, startsFunction, ht])]
    exact ⟨d, rfl, h2.group⟩
  | @constant t ts ht =>
    refine declarationTurn_ensures functions hts fun p1 htokens1 => ?_
    rw [ht]
    refine (finishes_globalConstant p1).bind fun _ p2 h2 => ?_
    have hshut : Shut p.tokens p2.tokens := by
      rw [hts, ← htokens1]
      exact .cons (ht ▸ rfl) h2.eats.shut
    exact .pure ⟨by rw [h2.behindStatement, htokens1], hshut, by simp [hts, startsFunction, ht]⟩

theorem declarationTurn_end (functions : List FunctionDeclaration) (hp : p.tokens = []) :
    Ensures p (declarationTurn functions) fun r _ => r = .inr functions := by
  refine next?_ensures.bind ?_
  rintro r p1 ⟨h1, rfl⟩
  rw [hp]
  exact .pure rfl

/-! ### All passes -/

end ParseM

/-- The body of a function was skipped, and is the end of an item. What comes behind that item is
shut, and does not go on with a statement. -/
structure FunctionDeclaration.Ends (d : FunctionDeclaration) (item : List Token × List Token) : Prop where
  group : StartsGroup d.body.tokens item.2
  shut : Shut item.2 []
  behind : ∀ t, item.2.head? = some t → t.kind ≠ .keyword .else_

def functionBounds (items : List (List Token × List Token)) : List (List Token × List Token) :=
  items.filter fun item => startsFunction item.1

theorem functionBounds_cons (item : List Token × List Token) (items : List (List Token × List Token)) :
    functionBounds (item :: items) =
      if startsFunction item.1 then item :: functionBounds items else functionBounds items := by
  simp [functionBounds, List.filter_cons]

namespace ParseM

theorem turnBounds_agree {fuel fuel' : Nat} {q q' : Parser}
    {functions functions' : List FunctionDeclaration} (htokens : p.tokens = q.tokens)
    (htypes : turns typeTurn fuel () p = .ok () p')
    (hdeclarations : turns declarationTurn fuel' functions q = .ok functions' q') :
    turnBounds typeTurn fuel () p = turnBounds declarationTurn fuel' functions q ∧
      Shut q.tokens [] ∧ (∀ t, q.tokens.head? = some t → t.kind ≠ .keyword .else_) ∧
      ∃ new, functions' = functions ++ new ∧ List.Forall₂ FunctionDeclaration.Ends new
        (functionBounds (turnBounds declarationTurn fuel' functions q)) := by
  induction fuel generalizing fuel' p q functions with
  | zero => cases htypes
  | succ fuel ih =>
    cases fuel' with
    | zero => cases hdeclarations
    | succ fuel' =>
      obtain ⟨r, p1, hr, hrest⟩ := bind_eq_ok htypes
      obtain ⟨r', q1, hr', hrest'⟩ := bind_eq_ok hdeclarations
      have hitem := typeTurn_ensures.result hr
      rw [turnBounds, turnBounds, hr, hr']
      cases r with
      | inr s =>
        have hnil : q.tokens = [] := htokens ▸ hitem
        obtain rfl := (declarationTurn_end functions hnil).result hr'
        cases hrest'
        refine ⟨rfl, hnil ▸ (Eats.refl 0 [] : Eats True True 0 [] 0 []).shut, by simp [hnil], [],
          by simp, .nil⟩
      | inl s =>
        -- Both passes take the same item.
        have hitem : Item q.tokens p1.tokens := htokens ▸ hitem
        obtain ⟨htokens1, hdeclares⟩ := (declarationTurn_declares functions hitem).result hr'
        cases r' with
        | inr _ => exact hdeclares.elim
        | inl functions1 =>
          obtain ⟨hbounds, hshut, hbehind, new, hnew, hends⟩ := ih htokens1.symm hrest hrest'
          dsimp only
          refine ⟨by rw [hbounds, htokens, htokens1], hdeclares.shut.trans hshut,
            fun t => hitem.head_ne, ?_⟩
          have hfunctions := hdeclares.functions
          split at hfunctions
          · rename_i hstarts
            obtain ⟨d, rfl, hgroup⟩ := hfunctions
            refine ⟨d :: new, by rw [hnew, List.append_assoc]; rfl, ?_⟩
            rw [functionBounds_cons, if_pos hstarts]
            exact .cons ⟨hgroup, hshut, hbehind⟩ hends
          · rename_i hstarts
            obtain rfl := hfunctions
            refine ⟨new, hnew, ?_⟩
            rw [functionBounds_cons, if_neg hstarts]
            exact hends

theorem readBody_ends {d : FunctionDeclaration} {item : List Token × List Token} (h : d.Ends item) :
    Ensures p (readBody d) fun _ p' => p'.tokens = item.2 := by
  refine (enterFunction_ensures d).bind ?_
  rintro _ _ ⟨b, rfl⟩
  refine (steady_bindParameters _ _ _ _).bind fun _ p2 h2 => ?_
  have htokens : p2.tokens = d.body.tokens := h2.tokens
  refine .step rfl ?_
  refine (block_ensures (covers_statementNested _)).imp ?_
  rintro _ p3 ⟨e, hfalls, hgroup⟩
  rw [htokens] at hfalls hgroup
  have heats : Eats True True 0 d.body.tokens 0 item.2 := h.group.eats
  have hzero : e = 0 := hfalls.eq_zero (heats.shut.trans h.shut)
  rw [← (hgroup hzero).behindGroup, h.group.behindGroup]

theorem bodyEnds_eq {functions : List FunctionDeclaration} {items : List (List Token × List Token)}
    (h : List.Forall₂ FunctionDeclaration.Ends functions items)
    (hbuild : buildFunctions functions p = .ok () p') : bodyEnds functions p = items.map Prod.snd := by
  induction functions generalizing p items with
  | nil =>
    cases h
    rfl
  | cons d ds ih =>
    cases h with
    | @cons _ item _ items hd hds =>
      obtain ⟨_, p1, hfunction, hrest⟩ := bind_eq_ok hbuild
      have hparts := hfunction
      rw [buildFunction_eq] at hparts
      obtain ⟨_, q, hbody, -⟩ := bind_eq_ok hparts
      have htokens := (readBody_ends hd).result hbody
      rw [bodyEnds, hbody, hfunction]
      dsimp only
      rw [htokens, ih hds hrest]
      rfl

theorem declarations_eq_ok {functions : List FunctionDeclaration} {main : NodeId}
    (h : declarations p = .ok (functions, main) p') : ∃ p1 p2, declareTypes p = .ok () p1 ∧
      declareFunctions { p1 with lexer := p.lexer } = .ok functions p2 ∧ findMain p2 = .ok main p' := by
  obtain ⟨_, _, hget, h⟩ := bind_eq_ok h
  cases hget
  obtain ⟨_, p1, htypes, h⟩ := bind_eq_ok h
  obtain ⟨_, _, hset, h⟩ := bind_eq_ok h
  cases hset
  obtain ⟨functions', p2, hfunctions, h⟩ := bind_eq_ok h
  obtain ⟨main', p3, hmain, h⟩ := bind_eq_ok h
  obtain ⟨hpair, rfl⟩ := EStateM.Result.ok.inj h
  cases hpair
  exact ⟨p1, p2, htypes, hfunctions, hmain⟩

end ParseM

/-- The passes over a program agree on its items. The pass over the types and the pass over the
declarations take the same items, and when the bodies of the functions are read, they end where the
pass over the declarations skipped them to. -/
theorem construct_itemBounds {text : String} {promote : Bool} {c : Construction}
    (h : construct text promote = .ok c) : ∃ p₁ p₂ p₃ p₄ functions main,
      declareTypes (.ofText text promote) = .ok () p₁ ∧
      declareFunctions { p₁ with lexer := .ofString text } = .ok functions p₂ ∧
      findMain p₂ = .ok main p₃ ∧ buildFunctions functions p₃ = .ok () p₄ ∧
      loopBounds typeTurn () (.ofText text promote) =
        loopBounds declarationTurn [] { p₁ with lexer := .ofString text } ∧
      bodyEnds functions p₃ = (functionBounds
        (loopBounds declarationTurn [] { p₁ with lexer := .ofString text })).map Prod.snd := by
  obtain ⟨exit, n, p, hprogram, rfl⟩ := construct_eq_ok h
  obtain ⟨⟨functions, main⟩, p₃, hdeclarations, hrest⟩ := bind_eq_ok hprogram
  obtain ⟨_, p₄, hbodies, -⟩ := bind_eq_ok hrest
  obtain ⟨p₁, p₂, htypes, hfunctions, hmain⟩ := declarations_eq_ok hdeclarations
  change declareFunctions { p₁ with lexer := .ofString text } = .ok functions p₂ at hfunctions
  refine ⟨p₁, p₂, p₃, p₄, functions, main, htypes, hfunctions, hmain, hbodies, ?_⟩
  -- Both loops begin in front of the first token.
  obtain ⟨fuel, _, hfuel, hturns⟩ := bind_eq_ok htypes
  obtain ⟨fuel', _, hfuel', hturns'⟩ := bind_eq_ok hfunctions
  rw [loopBounds, loopBounds, hfuel, hfuel']
  obtain ⟨-, rfl⟩ := EStateM.Result.ok.inj hfuel
  obtain ⟨-, rfl⟩ := EStateM.Result.ok.inj hfuel'
  obtain ⟨hbounds, -, -, new, rfl, hends⟩ :=
    turnBounds_agree (p := .ofText text promote) (q := { p₁ with lexer := .ofString text }) rfl
      hturns hturns'
  exact ⟨hbounds, bodyEnds_eq hends hbodies⟩

/-- A type, a constant and three functions, with deferred statements in a deferred block and in a loop. -/
def deferredBlocks : String :=
  "type P struct \x7b x [2]int; \x7d const k = (1, [1]int\x7b2\x7d).0;\n" ++
  "func g(n int) (int, P) \x7b defer \x7b defer h(n); h(n + 1); \x7d return (n, P \x7b\x7d); \x7d\n" ++
  "func h(n int) \x7b for n < k \x7b defer g(n); if n == 3 \x7b break; \x7d n += 1; \x7d \x7d\n" ++
  "func main() \x7b g(k); \x7d"

theorem construct_itemBounds_deferred : (∃ c, construct deferredBlocks true = .ok c) ∧
    ∃ p₁ p₂ p₃ p₄ functions main, declareTypes (.ofText deferredBlocks true) = .ok () p₁ ∧
      declareFunctions { p₁ with lexer := .ofString deferredBlocks } = .ok functions p₂ ∧
      findMain p₂ = .ok main p₃ ∧ buildFunctions functions p₃ = .ok () p₄ ∧
      loopBounds typeTurn () (.ofText deferredBlocks true) =
        loopBounds declarationTurn [] { p₁ with lexer := .ofString deferredBlocks } ∧
      bodyEnds functions p₃ = (functionBounds
        (loopBounds declarationTurn [] { p₁ with lexer := .ofString deferredBlocks })).map Prod.snd := by
  have hok : passes (fun _ => true) (construct deferredBlocks true) = true := by decide +kernel
  obtain ⟨c, hc, -⟩ := exists_ok_of_passes hok
  exact ⟨⟨c, hc⟩, construct_itemBounds hc⟩

example : (loopBounds typeTurn () (.ofText deferredBlocks true)).length = 5 := by decide +kernel

end SeaOfNodes
