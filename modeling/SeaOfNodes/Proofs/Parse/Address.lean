import SeaOfNodes.Proofs.Parse.Inside

/-!
Addresses of locals. In a body whose brackets nest by kind, no address of a local that is held as a
value is ever asked for (`buildFunction_refused`): the scan of the body has found the names of all
locals whose address is taken, and these have stack slots.
-/
namespace SeaOfNodes

open SeaOfNodes.ParseM

variable {α β σ : Type} {B : ScannedBody} {n : Nat} {p p' p'' : Parser} {t : Token}
  {d : FunctionDeclaration} {functions : List FunctionDeclaration} {item : List Token × List Token}
  {main : NodeId} {promote : Bool} {text : String}

/-! ### Declarations -/

/-- No local is in scope. -/
structure Parser.Outside (p : Parser) : Prop where
  depth : p.scope.depth = 1
  spares : p.scope.Spares 1 []

theorem declarations_outside (h : declarations (.ofText text promote) = .ok (functions, main) p) :
    p.Outside := by
  let B : ScannedBody :=
    { tokens := (Lexer.ofString text).tokens
      behind := []
      names := []
      floor := 1
      nested := False
      taken := False.elim }
  have hplace : (Lexer.ofString text).At B := by simp [B, Lexer.At]
  have hstart : (Parser.ofText text promote).InBody B :=
    ⟨rfl, hplace, ⟨Nat.le_refl _, fun _ _ _ _ hb => absurd hb Scope.not_binds_initial⟩,
      by simp [Parser.ofText]⟩
  obtain ⟨p1, p2, htypes, hfunctions, hmain⟩ := declarations_eq_ok h
  have h1 : KeptIn B _ p1 := (steps_declareTypes.kept hstart).result htypes
  have hagain : Parser.InBody B { p1 with lexer := (Parser.ofText text promote).lexer } :=
    ⟨h1.inBody.taken, hplace, h1.inBody.scope, h1.inBody.deferred⟩
  have h2 : KeptIn B _ p2 := ((Steps.loop (steps_declarationTurn abides_expression) []).kept hagain).result hfunctions
  obtain ⟨b, ms, rfl⟩ := (steady_findMain (R := Builds) p2).result hmain
  exact ⟨h2.depth.trans h1.depth, h2.inBody.scope⟩

theorem declarations_ends (h : declarations (.ofText text promote) = .ok (functions, main) p) :
    ∀ d ∈ functions, ∃ item, d.Ends item := by
  obtain ⟨p1, p2, htypes, hfunctions, -⟩ := declarations_eq_ok h
  obtain ⟨fuel, _, hfuel, hturns⟩ := bind_eq_ok htypes
  obtain ⟨fuel', _, hfuel', hturns'⟩ := bind_eq_ok hfunctions
  cases hfuel
  cases hfuel'
  obtain ⟨-, -, -, new, rfl, hends⟩ := turnBounds_agree (p := .ofText text promote)
    (q := { p1 with lexer := .ofString text }) rfl hturns hturns'
  intro d hd
  obtain ⟨i, hi, rfl⟩ := List.mem_iff_getElem.1 hd
  exact ⟨_, hends.get hi (hends.length_eq ▸ hi)⟩

/-! ### Bodies -/

def FunctionDeclaration.bodyTokens (d : FunctionDeclaration) : List Token :=
  d.body.tokens.take (d.body.tokens.length - (behindGroup 0 d.body.tokens).length)

theorem FunctionDeclaration.Ends.scanned {o : Token} {ts : List Token} (h : d.Ends item) (hts : d.body.tokens = o :: ts) (ho : o.kind = .openBrace) :
    ∃ B : ScannedBody, B.Closed ∧ B.floor = 2 ∧ B.names = takenNames 0 d.body.tokens ∧
      ts = B.tokens ++ B.behind ∧ B.tokens ≠ [] ∧ (nests [] d.bodyTokens = true → B.nested) := by
  obtain ⟨o', ms, c, heq, -, heats, hc⟩ := h.group
  cases hts.symm.trans heq
  obtain ⟨ws, rfl, -, hsinks⟩ := (Falls.of_eats heats).brackets
  have hinside : ∀ vs, vs <:+ ws ++ [c] → vs ≠ [] → openings vs < closings vs := by
    intro vs hvs hne
    obtain hnil | ⟨zs, rfl, hzs⟩ := List.suffix_concat_iff.1 hvs
    · exact absurd hnil hne
    · have := hsinks zs hzs
      simp [hc, opensGroup_of_closesGroup hc]
      omega
  have hbody : d.bodyTokens = o :: (ws ++ [c]) := by
    have hparts : o :: (ws ++ c :: item.2) = (o :: (ws ++ [c])) ++ item.2 := by simp
    rw [FunctionDeclaration.bodyTokens, h.group.behindGroup, hts, hparts, List.length_append,
      Nat.add_sub_cancel, List.take_left]
  let B : ScannedBody :=
    { tokens := ws ++ [c]
      behind := item.2
      names := takenNames 0 d.body.tokens
      floor := 2
      nested := nests [] d.bodyTokens = true
      taken := by
        intro hnests t rest name hsuffix hlength ht hname
        rw [hbody, nests, ho] at hnests
        have hmem := mem_takenNames hnests rfl hinside hsuffix hlength ht hname
        rw [hts, takenNames, ho]
        simpa using hmem }
  exact ⟨B, ⟨Nat.le_refl _, hinside, h.shut, h.behind⟩, rfl, rfl, by simp [B], by simp [B], id⟩

namespace ParseM

theorem bindParameters_ensures {d : FunctionDeclaration} {b : Builder} (hp : p.Outside) :
    Ensures { p.entering d with builder := b } (bindParameters d.entry 0 d.params) fun _ p'' =>
      p''.lexer = d.body ∧ p''.addressTaken = takenNames 0 d.body.tokens ∧
      p''.defers = [] ∧ p''.scope.depth = 2 ∧ p''.scope.Spares 2 (takenNames 0 d.body.tokens) ∧
      p''.refused = p.refused := by
  -- No part of the body is read yet.
  let B : ScannedBody :=
    { tokens := []
      behind := d.body.tokens
      names := takenNames 0 d.body.tokens
      floor := 2
      nested := True
      taken := by
        intro _ t rest name hsuffix hlength
        have := hsuffix.length_le
        simp only [List.nil_append, List.length_cons] at this
        omega }
  have hdepth : p.scope.push.depth = 2 := by rw [Scope.depth_push, hp.depth]
  have hin : Parser.InBody B { p.entering d with builder := b } := by
    refine ⟨rfl, List.suffix_refl _, ⟨hdepth.ge, fun k n id ty hb => ?_⟩, by simp [Parser.entering]⟩
    have hbefore := Scope.binds_push hb
    have hlt := hbefore.lt_depth
    have hne := (hp.spares.held k n id ty hbefore).1
    have := hp.depth
    omega
  refine (((steps_bindParameters (abides_bindLocal (Nat.le_refl _)) _ _ _).kept hin).and
    (steady_bindParameters _ _ _ _)).imp ?_
  rintro _ p'' ⟨hkept, hunread⟩
  refine ⟨hunread.lexer, hkept.inBody.taken, hunread.defers, hkept.depth.trans hdepth,
    hkept.inBody.scope, hkept.refused trivial ?_⟩
  exact (congrArg (fun l => l.tokens.length) hunread.lexer).ge

theorem endBody_settled (h : Settled B p p') :
    Ensures p' (endBody d) fun _ p'' => Settled B p p'' := by
  refine h.still steady_isDead fun dead p1 h1 _ => ?_
  split
  · exact .pure h1
  split
  · refine h1.still steady_cursor fun c p2 h2 _ => .of_modify ?_
    have hp := h2.kept.inBody
    exact ⟨{ h2.kept with inBody := ⟨hp.taken, hp.place, hp.scope, hp.deferred⟩ }, h2.refused⟩
  · exact .fail

theorem buildFunction_outside (hends : d.Ends item) (hp : p.Outside) :
    Ensures p (buildFunction d) fun _ p' => p'.Outside ∧
      (nests [] d.bodyTokens = true → p'.refused = p.refused) := by
  refine (enterFunction_ensures d).bind ?_
  rintro _ _ ⟨b, rfl⟩
  refine (bindParameters_ensures hp).bind ?_
  rintro _ p2 ⟨hlexer, htaken, hdefers, hdepth, hspares, hrefused⟩
  refine .step rfl ?_
  beta_reduce
  rw [block_eq, bind_assoc]
  refine (expect_ensures _).bind ?_
  rintro o p3 ⟨h3, ho⟩
  have htokens : d.body.tokens = o :: p3.tokens := hlexer ▸ h3.tokens
  obtain ⟨B, hB, hfloor, hnames, hparts, hne, hnested⟩ := hends.scanned htokens ho
  have hp3 : p3.InBody B := by
    refine ⟨?_, ?_, ?_, ?_⟩
    · rw [h3.eq, hnames]
      exact htaken
    · show p3.tokens <:+ _
      rw [hparts]
    · rw [ScannedBody.Spares, h3.eq, hnames, hfloor]
      exact hspares
    · rw [h3.eq]
      simp [hdefers]
  have hahead : p3.Ahead B := by
    have := List.length_pos_iff.2 hne
    unfold Parser.Ahead
    rw [hparts, List.length_append]
    omega
  refine (blockTail_settled hB (safe_statementNested hB _) (covers_statementNested _) hp3
    hahead).bind ?_
  rintro _ p4 ⟨h4, -⟩
  refine (endBody_settled h4).bind fun _ p5 h5 => ?_
  refine .step rfl ?_
  refine .step rfl ?_
  refine (steady_finishFunction (R := Builds) _ _).imp ?_
  rintro _ _ ⟨b, ms, rfl⟩
  -- Only the frames around the function are left.
  have hdepth5 : p5.scope.depth = 2 := by
    rw [h5.kept.depth, h3.eq]
    exact hdepth
  have hpop : p5.scope.pop.depth = 1 := by rw [Scope.depth_pop, hdepth5]
  refine ⟨⟨hpop, hpop.ge, fun k n id ty hb => ?_⟩, fun hnests => ?_⟩
  · exact ⟨(h5.kept.inBody.scope.held k n id ty (Scope.binds_pop hb)).1, by simp⟩
  · refine (h5.refused (hnested hnests)).trans ?_
    rw [h3.eq]
    exact hrefused

theorem buildFunctions_outside (hp : p.Outside) (hends : ∀ d ∈ functions, ∃ item, d.Ends item)
    (h : buildFunctions functions p = .ok () p') : p'.Outside := by
  induction functions generalizing p with
  | nil =>
    cases h
    exact hp
  | cons d ds ih =>
    obtain ⟨⟨item, hitem⟩, hds⟩ := List.forall_mem_cons.1 hends
    obtain ⟨_, p1, hfirst, hrest⟩ := bind_eq_ok h
    exact ih ((buildFunction_outside hitem hp).result hfirst).1 hds hrest

end ParseM

/-- In a function whose brackets nest by kind, no address of a local that is held as a value is ever
asked for. -/
theorem buildFunction_refused {text : String} {promote : Bool} {before after : List FunctionDeclaration}
    {d : FunctionDeclaration} {main : NodeId} {p q q' : Parser}
    (hdeclarations : declarations (.ofText text promote) = .ok (before ++ d :: after, main) p)
    (hbefore : buildFunctions before p = .ok () q) (hbody : buildFunction d q = .ok () q')
    (hnests : nests [] d.bodyTokens = true) : q'.refused = q.refused := by
  have hends := declarations_ends hdeclarations
  have hq := buildFunctions_outside (declarations_outside hdeclarations)
    (fun d' hd' => hends d' (List.mem_append_left _ hd')) hbefore
  obtain ⟨item, hitem⟩ := hends d (by simp)
  exact ((buildFunction_outside hitem hq).result hbody).2 hnests

/-- Addresses of locals behind parentheses, of members and elements, under shadowing, and in deferred
statements. -/
def addresses : String :=
  "func main() \x7b f(1); \x7d\n" ++
  "func f(n int) int \x7b var x = n; var p = &(x); defer \x7b var q = &((n)); *q = *p; \x7d\n" ++
  "\x7b var x = (1, [2]int\x7b1, 2\x7d); var q = &(x).1[0]; *p = *q; \x7d return x; \x7d"

theorem addresses_built : (match declarations (.ofText addresses true) with
    | .ok ([first, d], _) p => match buildFunctions [first] p with
      | .ok () q => match buildFunction d q with
        | .ok () q' => nests [] d.bodyTokens && q'.addressTaken == ["x", "n", "x"]
        | .error _ _ => false
      | .error _ _ => false
    | _ => false) = true := by decide +kernel

theorem buildFunction_refused_addresses : ∃ before d after main p q q',
    declarations (.ofText addresses true) = .ok (before ++ d :: after, main) p ∧
      buildFunctions before p = .ok () q ∧ buildFunction d q = .ok () q' ∧
      nests [] d.bodyTokens = true ∧ q'.addressTaken = ["x", "n", "x"] ∧
      q'.refused = q.refused := by
  have hruns := addresses_built
  split at hruns
  · rename_i first d main p hdeclarations
    split at hruns
    · rename_i q hbefore
      split at hruns
      · rename_i q' hbody
        obtain ⟨hnests, htaken⟩ := Bool.and_eq_true_iff.1 hruns
        have hparts : declarations (.ofText addresses true) = .ok ([first] ++ d :: [], main) p :=
          hdeclarations
        exact ⟨[first], d, [], main, p, q, q', hparts, hbefore, hbody, hnests, by simpa using htaken,
          buildFunction_refused hparts hbefore hbody hnests⟩
      · exact absurd hruns Bool.false_ne_true
    · exact absurd hruns Bool.false_ne_true
  · exact absurd hruns Bool.false_ne_true

end SeaOfNodes
