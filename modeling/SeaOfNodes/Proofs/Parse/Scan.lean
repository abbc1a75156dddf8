import SeaOfNodes.Parse.Program
import SeaOfNodes.Proofs.Parse.Group

/-!
The scan for addresses. Before a body is read, its tokens are scanned for names behind `&`. The scan
counts braces only, and reading counts brackets of all shapes. If the brackets of a body nest by
kind, then both see the same end, and the scan finds every name that comes behind an `&` of the body
and any number of opening parentheses (`mem_takenNames`).
-/
namespace SeaOfNodes

variable {t : Token} {ts us rest : List Token} {name : String} {p : Parser} {stack : List TokenKind}

/-! ### Brackets by kind -/

def TokenKind.closer? : TokenKind → Option TokenKind
  | .openParen => some .closeParen
  | .openBracket => some .closeBracket
  | .openBrace => some .closeBrace
  | _ => none

/-- Whether all brackets are closed by ones of their own kind, where those in `stack` are still to
come, the innermost first. -/
def nests : List TokenKind → List Token → Bool
  | stack, [] => stack.isEmpty
  | stack, t :: ts =>
    match t.kind.closer? with
    | some close => nests (close :: stack) ts
    | none =>
      if t.kind.closesGroup then stack.head? == some t.kind && nests stack.tail ts
      else nests stack ts

theorem TokenKind.opensGroup_eq (k : TokenKind) : k.opensGroup = k.closer?.isSome := by
  cases k <;> rfl

/-- A token of a text whose brackets nest by kind. -/
inductive NestsCons (stack : List TokenKind) (t : Token) (ts : List Token) : Prop where
  | opens (close : TokenKind) : t.kind.closer? = some close → t.kind.closesGroup = false →
    nests (close :: stack) ts = true → NestsCons stack t ts
  | closes (stack' : List TokenKind) : stack = t.kind :: stack' → t.kind.closer? = none →
    t.kind.closesGroup = true → nests stack' ts = true → NestsCons stack t ts
  | plain : t.kind.closer? = none → t.kind.closesGroup = false → nests stack ts = true →
    NestsCons stack t ts

theorem nests_cons (h : nests stack (t :: ts) = true) : NestsCons stack t ts := by
  rw [nests] at h
  split at h
  · rename_i close hclose
    have hopens : t.kind.opensGroup = true := by rw [TokenKind.opensGroup_eq, hclose]; rfl
    exact .opens close hclose (closesGroup_of_opensGroup hopens) h
  · rename_i hnone
    split at h
    · rename_i hcloses
      obtain ⟨hhead, htail⟩ := Bool.and_eq_true_iff.1 h
      obtain ⟨stack', rfl⟩ := List.head?_eq_some_iff.1 (eq_of_beq hhead)
      exact .closes stack' rfl hnone hcloses htail
    · rename_i hcloses
      exact .plain hnone (by simpa using hcloses) h

theorem nests_count (h : nests stack ts = true) : openings ts + stack.length = closings ts := by
  induction ts generalizing stack with
  | nil =>
    rw [nests, List.isEmpty_iff] at h
    simp [h]
  | cons t ts ih =>
    rw [openings_cons, TokenKind.opensGroup_eq]
    cases nests_cons h with
    | opens close hclose hcloses hrest =>
      have := ih hrest
      simp only [List.length_cons] at this
      simp [hclose, hcloses]
      omega
    | closes stack' hstack hclose hcloses hrest =>
      have := ih hrest
      simp [hstack, hclose, hcloses]
      omega
    | plain hclose hcloses hrest =>
      have := ih hrest
      simp [hclose, hcloses]
      omega

/-! ### Names behind an address sign -/

/-- The name behind the opening parentheses that come first, if there is one. -/
def nameBehind : List Token → Option String
  | [] => none
  | t :: ts =>
    match t.kind with
    | .openParen => nameBehind ts
    | .identifier => some t.text
    | _ => none

/-- The names behind `&` up to the brace that closes the outermost one of `depth` open ones. -/
def takenNames : Nat → List Token → List String
  | _, [] => []
  | depth, t :: ts =>
    match t.kind with
    | .openBrace => takenNames (depth + 1) ts
    | .closeBrace => if depth ≤ 1 then [] else takenNames (depth - 1) ts
    | .ampersand => (nameBehind ts).toList ++ takenNames depth ts
    | _ => takenNames depth ts

theorem takenNames_other {d : Nat} (ho : t.kind ≠ .openBrace) (hc : t.kind ≠ .closeBrace)
    (ha : t.kind ≠ .ampersand) : takenNames d (t :: ts) = takenNames d ts := by
  rw [takenNames]
  split
  · contradiction
  · contradiction
  · contradiction
  · rfl

theorem mem_takenNames_cons {d : Nat} (ho : t.kind ≠ .openBrace) (hc : t.kind ≠ .closeBrace)
    (h : name ∈ takenNames d ts) : name ∈ takenNames d (t :: ts) := by
  by_cases ha : t.kind = .ampersand
  · rw [takenNames, ha]
    exact List.mem_append_right _ h
  · rwa [takenNames_other ho hc ha]

/-- Every name behind an `&` is found that comes before the end of the group that is scanned. -/
theorem mem_takenNames (hnests : nests stack ts = true)
    (hbottom : stack.getLast? = some .closeBrace)
    (hinside : ∀ vs, vs <:+ ts → vs ≠ [] → openings vs < closings vs)
    (hsuffix : t :: rest <:+ ts ++ us) (hlength : us.length ≤ rest.length)
    (ht : t.kind = .ampersand) (hname : nameBehind rest = some name) :
    name ∈ takenNames (stack.count .closeBrace) (ts ++ us) := by
  induction ts generalizing stack with
  | nil =>
    have := hsuffix.length_le
    simp only [List.nil_append, List.length_cons] at this
    omega
  | cons u ts ih =>
    have hinside' : ∀ vs, vs <:+ ts → vs ≠ [] → openings vs < closings vs :=
      fun vs hvs => hinside vs (hvs.trans (List.suffix_cons u ts))
    rw [List.cons_append] at hsuffix ⊢
    rcases List.suffix_cons_iff.1 hsuffix with heq | hsuffix
    · cases heq
      rw [takenNames, ht]
      simp [hname]
    · have ih : ∀ s : List TokenKind, nests s ts = true → s.getLast? = some .closeBrace →
          name ∈ takenNames (s.count .closeBrace) (ts ++ us) := fun _ h h' => ih h h' hinside' hsuffix
      cases nests_cons hnests with
      | opens close hclose hcloses hrest =>
        have hbottom' : (close :: stack).getLast? = some .closeBrace := by
          rw [List.getLast?_cons, hbottom]
          rfl
        have hmem := ih _ hrest hbottom'
        by_cases hkind : u.kind = .openBrace
        · obtain rfl : TokenKind.closeBrace = close := by
            rw [hkind] at hclose
            exact Option.some.inj hclose
          rw [List.count_cons_self] at hmem
          rwa [takenNames, hkind]
        · have hother : close ≠ .closeBrace := by
            rintro rfl
            unfold TokenKind.closer? at hclose
            split at hclose <;> simp_all
          rw [List.count_cons_of_ne hother] at hmem
          exact mem_takenNames_cons hkind (fun h => by simp [h, TokenKind.closesGroup] at hcloses) hmem
      | closes stack' hstack hclose hcloses hrest =>
        subst hstack
        -- The last brace that the scan counts is the end of the group.
        by_cases hne : stack' = []
        · subst hne
          have hcount := nests_count hrest
          have hts : ts = [] := by
            by_contra hts
            have := hinside' ts List.suffix_rfl hts
            simp only [List.length_nil] at hcount
            omega
          subst hts
          have := hsuffix.length_le
          simp only [List.nil_append, List.length_cons] at this
          omega
        · obtain ⟨x, xs, rfl⟩ := List.exists_cons_of_ne_nil hne
          have hbottom' : (x :: xs).getLast? = some .closeBrace := by
            rwa [List.getLast?_cons_cons] at hbottom
          have hpos := List.count_pos_iff.2 (List.mem_of_getLast? hbottom')
          have hmem := ih _ hrest hbottom'
          by_cases hkind : u.kind = .closeBrace
          · rw [takenNames, hkind]
            simp only [List.count_cons_self]
            rw [if_neg (by omega)]
            exact hmem
          · rw [List.count_cons_of_ne hkind]
            exact mem_takenNames_cons (fun h => by simp [h, TokenKind.closesGroup] at hcloses) hkind hmem
      | plain hclose hcloses hrest =>
        refine mem_takenNames_cons (fun h => ?_) (fun h => ?_) (ih _ hrest hbottom)
        · simp [h, TokenKind.closer?] at hclose
        · simp [h, TokenKind.closesGroup] at hcloses

/-! ### The scan -/

namespace ParseM

theorem nameAhead_ensures : Ensures p nameAhead fun r p' =>
    Takes [] p p' ∧ r = nameBehind p.tokens := by
  refine loop_keeps (fun ahead p' => Takes [] p p' ∧
    nameBehind (p.tokens.drop ahead) = nameBehind p.tokens) ?_ ⟨.refl p, rfl⟩
  rintro ahead p1 ⟨h1, hname⟩
  refine (peekNth_ensures ahead).bind ?_
  rintro r p2 ⟨h2, hr⟩
  have htakes : Takes [] p p2 := h1.trans h2
  rw [h1.same] at hr
  cases r with
  | none =>
    refine .pure ⟨htakes, ?_⟩
    rw [← hname, List.drop_eq_nil_of_le (List.getElem?_eq_none_iff.1 hr.symm)]
    rfl
  | some t =>
    obtain ⟨hlt, ht⟩ := List.getElem?_eq_some_iff.1 hr.symm
    rw [List.drop_eq_getElem_cons hlt, ht, nameBehind] at hname
    dsimp only
    split
    · rename_i hkind
      rw [hkind] at hname
      exact .pure ⟨htakes, hname⟩
    · rename_i hkind
      rw [hkind] at hname
      exact .pure ⟨htakes, hname⟩
    · refine .pure ⟨htakes, ?_⟩
      rw [← hname]
      split <;> simp_all

theorem addressTaken_ensures : Ensures p addressTaken fun names p' =>
    p' = { p with lexer := p'.lexer } ∧ names = takenNames 0 p.tokens := by
  refine loop_keeps (fun state p' => (∃ ts, Takes ts p p') ∧
    state.2 ++ takenNames state.1 p'.tokens = takenNames 0 p.tokens) ?_ ⟨⟨[], .refl p⟩, rfl⟩
  rintro ⟨depth, names⟩ p1 ⟨⟨ts, h1⟩, hnames⟩
  refine next?_ensures.bind ?_
  rintro r p2 ⟨h2, hr⟩
  have htakes := h1.trans h2
  cases r with
  | none =>
    rw [List.head?_eq_none_iff.1 hr.symm, takenNames, List.append_nil] at hnames
    exact .pure ⟨htakes.eq, hnames⟩
  | some t =>
    have htokens : p1.tokens = t :: p2.tokens := h2.tokens
    rw [htokens] at hnames
    dsimp only at hnames ⊢
    split
    · rename_i hkind
      rw [takenNames, hkind] at hnames
      exact .pure ⟨⟨_, htakes⟩, hnames⟩
    · rename_i hkind
      rw [takenNames, hkind] at hnames
      split
      · rename_i hdepth
        rw [if_pos hdepth, List.append_nil] at hnames
        exact .pure ⟨htakes.eq, hnames⟩
      · rename_i hdepth
        rw [if_neg hdepth] at hnames
        exact .pure ⟨⟨_, htakes⟩, hnames⟩
    · rename_i hkind
      rw [takenNames, hkind] at hnames
      refine nameAhead_ensures.bind ?_
      rintro _ p3 ⟨h3, rfl⟩
      refine .pure ⟨⟨_, htakes.trans h3⟩, ?_⟩
      rw [← hnames, h3.same, List.append_assoc]
    · rename_i hopen hclose hsign
      rw [takenNames_other hopen hclose hsign] at hnames
      exact .pure ⟨⟨_, htakes⟩, hnames⟩

end ParseM

/-- The state in which the body of a function begins to be read. -/
def Parser.entering (p : Parser) (d : FunctionDeclaration) : Parser :=
  { p with
    lexer := d.body
    addressTaken := takenNames 0 d.body.tokens
    body := { span := d.name.span, result := d.result, returns := [] }
    loops := []
    defers := []
    scope := p.scope.push }

theorem ParseM.enterFunction_ensures (d : FunctionDeclaration) :
    Ensures p (enterFunction d) fun _ p' => ∃ b, p' = { p.entering d with builder := b } := by
  refine .step rfl ?_
  refine addressTaken_ensures.bind ?_
  rintro names p1 ⟨h1, rfl⟩
  refine .step rfl ?_
  rw [h1]
  exact ⟨_, rfl⟩

end SeaOfNodes
