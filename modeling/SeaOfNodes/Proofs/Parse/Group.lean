import SeaOfNodes.Proofs.Parse.Outcome

/-!
Groups in brackets. `Eats` follows the number of open brackets while tokens are taken. Skipping a
group or a statement leads to a place that depends on the tokens alone, and that a step that reads
the same tokens does not overtake.
-/
namespace SeaOfNodes

variable {t o c : Token} {ts us vs ws : List Token} {d d' d'' e e' : Nat} {free free' braces braces' : Prop}

/-! ### Open brackets -/

/-- Tokens are taken from `ts` until `us` are left, and the number of open brackets goes from `d` to
`d'`. Semicolons outside of brackets are taken only if that is `free`, and braces are opened only if
there may be `braces`. -/
inductive Eats (free braces : Prop) : Nat → List Token → Nat → List Token → Prop where
  | refl (d : Nat) (ts : List Token) : Eats free braces d ts d ts
  | plain {d d' : Nat} {t : Token} {ts us : List Token} : t.kind.opensGroup = false →
    t.kind.closesGroup = false → (d = 0 → t.kind = .semicolon → free) →
    Eats free braces d ts d' us → Eats free braces d (t :: ts) d' us
  | opens {d d' : Nat} {t : Token} {ts us : List Token} : t.kind.opensGroup = true →
    (t.kind = .openBrace → braces) → Eats free braces (d + 1) ts d' us →
    Eats free braces d (t :: ts) d' us
  | closes {d d' : Nat} {t : Token} {ts us : List Token} : t.kind.closesGroup = true →
    Eats free braces d ts d' us → Eats free braces (d + 1) (t :: ts) d' us

/-- A token that is no bracket and no semicolon. -/
def TokenKind.isPlain (k : TokenKind) : Bool :=
  !k.opensGroup && !k.closesGroup && k != .semicolon

theorem Eats.of_isPlain (ht : t.kind.isPlain = true) (h : Eats free braces d ts d' us) :
    Eats free braces d (t :: ts) d' us := by
  simp only [TokenKind.isPlain, Bool.and_eq_true, Bool.not_eq_true', bne_iff_ne] at ht
  exact .plain ht.1.1 ht.1.2 (fun _ hs => absurd hs ht.2) h

/-- The number of opening brackets. -/
def openings (ts : List Token) : Nat := ts.countP fun t => t.kind.opensGroup

/-- The number of closing brackets. -/
def closings (ts : List Token) : Nat := ts.countP fun t => t.kind.closesGroup

@[simp] theorem openings_nil : openings [] = 0 := rfl

@[simp] theorem closings_nil : closings [] = 0 := rfl

@[simp] theorem openings_cons : openings (t :: ts) = openings ts + t.kind.opensGroup.toNat := by
  cases h : t.kind.opensGroup <;> simp [openings, h]

@[simp] theorem closings_cons : closings (t :: ts) = closings ts + t.kind.closesGroup.toNat := by
  cases h : t.kind.closesGroup <;> simp [closings, h]

@[simp] theorem openings_append : openings (ts ++ us) = openings ts + openings us :=
  List.countP_append

@[simp] theorem closings_append : closings (ts ++ us) = closings ts + closings us :=
  List.countP_append

theorem closings_le_cons (h : ∀ vs, vs <+: ws → closings vs ≤ d' + openings vs)
    (ht : d' + t.kind.closesGroup.toNat ≤ d + t.kind.opensGroup.toNat) :
    ∀ vs, vs <+: t :: ws → closings vs ≤ d + openings vs := by
  rintro (_ | ⟨t', vs⟩) hvs
  · exact Nat.zero_le _
  · obtain ⟨rfl, htail⟩ := List.cons_prefix_cons.1 hvs
    have := h vs htail
    rw [openings_cons, closings_cons]
    omega

theorem closesGroup_of_opensGroup (h : t.kind.opensGroup = true) : t.kind.closesGroup = false := by
  revert h
  cases t.kind <;> simp [TokenKind.opensGroup, TokenKind.closesGroup]

theorem opensGroup_of_closesGroup (h : t.kind.closesGroup = true) : t.kind.opensGroup = false := by
  revert h
  cases t.kind <;> simp [TokenKind.opensGroup, TokenKind.closesGroup]

namespace Eats

theorem trans (h1 : Eats free braces d ts d' us) (h2 : Eats free braces d' us d'' vs) :
    Eats free braces d ts d'' vs := by
  induction h1 with
  | refl => exact h2
  | plain ho hc hs _ ih => exact .plain ho hc hs (ih h2)
  | opens ho hb _ ih => exact .opens ho hb (ih h2)
  | closes hc _ ih => exact .closes hc (ih h2)

section

variable (h : Eats free braces d ts d' us)
include h

theorem mono (hfree : free → free') (hbraces : braces → braces') : Eats free' braces' d ts d' us := by
  induction h with
  | refl => exact .refl _ _
  | plain ho hc hs _ ih => exact .plain ho hc (fun hd ht => hfree (hs hd ht)) ih
  | opens ho hb _ ih => exact .opens ho (fun ht => hbraces (hb ht)) ih
  | closes hc _ ih => exact .closes hc ih

theorem inside : Eats free' braces (d + 1) ts (d' + 1) us := by
  induction h with
  | refl => exact .refl _ _
  | plain ho hc _ _ ih => exact .plain ho hc (fun hd => absurd hd (Nat.succ_ne_zero _)) ih
  | opens ho hb _ ih => exact .opens ho hb ih
  | closes hc _ ih => exact .closes hc ih

/-- The brackets among the tokens that are taken; no part of them closes more than was open. -/
theorem brackets : ∃ ws, ts = ws ++ us ∧
    d + openings ws = d' + closings ws ∧ ∀ vs, vs <+: ws → closings vs ≤ d + openings vs := by
  induction h with
  | refl d ts =>
    refine ⟨[], rfl, rfl, fun vs hvs => ?_⟩
    rw [List.prefix_nil.1 hvs]
    exact Nat.zero_le _
  | @plain d d' t ts us ho hc _ _ ih =>
    obtain ⟨ws, rfl, hcount, hle⟩ := ih
    refine ⟨t :: ws, rfl, ?_, closings_le_cons hle ?_⟩ <;> simp [ho, hc, hcount]
  | @opens d d' t ts us ho _ _ ih =>
    have hc := closesGroup_of_opensGroup ho
    obtain ⟨ws, rfl, hcount, hle⟩ := ih
    refine ⟨t :: ws, rfl, ?_, closings_le_cons hle ?_⟩ <;> simp [ho, hc]
    omega
  | @closes d d' t ts us hc _ ih =>
    have ho := opensGroup_of_closesGroup hc
    obtain ⟨ws, rfl, hcount, hle⟩ := ih
    refine ⟨t :: ws, rfl, ?_, closings_le_cons hle ?_⟩ <;> simp [ho, hc]
    omega

end

end Eats

/-- A group in brackets comes first in `ts`, and `us` come behind it. -/
def StartsGroup (ts us : List Token) : Prop :=
  ∃ o ms c, ts = o :: ms ∧ o.kind.opensGroup = true ∧ Eats True True 0 ms 0 (c :: us) ∧
    c.kind.closesGroup = true

theorem StartsGroup.eats (h : StartsGroup ts us) : Eats free True 0 ts 0 us := by
  obtain ⟨o, ms, c, rfl, ho, hms, hc⟩ := h
  exact .opens ho (fun _ => trivial) (hms.inside.trans (.closes hc (.refl 0 us)))

/-- Fewer brackets are open behind `ws` than at any place in it. -/
def Sinks (ws : List Token) : Prop := ∀ vs, vs <:+ ws → openings vs ≤ closings vs

theorem Sinks.append (h : Sinks ws) (h' : Sinks vs) : Sinks (ws ++ vs) := by
  rintro xs ⟨ys, hys⟩
  rcases List.append_eq_append_iff.1 hys with ⟨zs, rfl, rfl⟩ | ⟨zs, rfl, rfl⟩
  · have := h zs (List.suffix_append _ _)
    have := h' vs List.suffix_rfl
    rw [openings_append, closings_append]
    omega
  · exact h' xs (List.suffix_append _ _)

theorem sinks_closes (hc : c.kind.closesGroup = true) : Sinks [c] := by
  intro xs hxs
  rcases List.suffix_cons_iff.1 hxs with rfl | hnil
  · simp [opensGroup_of_closesGroup hc]
  · rw [List.suffix_nil.1 hnil]
    exact Nat.le_refl _

/-- Tokens are taken from `ts` until `us` are left, and `e` more brackets are closed than opened. -/
structure Falls (e : Nat) (ts us : List Token) : Prop where
  brackets : ∃ ws, ts = ws ++ us ∧ openings ws + e = closings ws ∧ Sinks ws
  eats : e = 0 → Eats True True 0 ts 0 us

namespace Falls

theorem of_eats (h : Eats free braces 0 ts 0 us) : Falls 0 ts us := by
  obtain ⟨ws, hws, hcount, hle⟩ := h.brackets
  refine ⟨⟨ws, hws, by omega, ?_⟩, fun _ => h.mono (fun _ => trivial) fun _ => trivial⟩
  rintro vs ⟨xs, rfl⟩
  have := hle xs (List.prefix_append _ _)
  rw [openings_append, closings_append] at hcount
  omega

theorem refl (ts : List Token) : Falls 0 ts ts := .of_eats (.refl 0 ts : Eats True True 0 ts 0 ts)

theorem trans (h1 : Falls e ts us) (h2 : Falls e' us vs) : Falls (e + e') ts vs := by
  obtain ⟨ws, rfl, hws, hsinks⟩ := h1.brackets
  obtain ⟨ws', rfl, hws', hsinks'⟩ := h2.brackets
  refine ⟨⟨ws ++ ws', by simp, ?_, hsinks.append hsinks'⟩,
    fun he => (h1.eats (by omega)).trans (h2.eats (by omega))⟩
  rw [openings_append, closings_append]
  omega

theorem length_le (h : Falls e ts us) : us.length ≤ ts.length := by
  obtain ⟨ws, rfl, -⟩ := h.brackets
  simp

theorem closes (h : Falls e ts (c :: us)) (hc : c.kind.closesGroup = true) : Falls (e + 1) ts us := by
  obtain ⟨ws, rfl, hws, hsinks⟩ := h.brackets
  refine ⟨⟨ws ++ [c], by simp, ?_, hsinks.append (sinks_closes hc)⟩, fun he => by omega⟩
  simp [opensGroup_of_closesGroup hc, hc]
  omega

theorem group (ho : o.kind.opensGroup = true) (h : Falls e ts (c :: us))
    (hc : c.kind.closesGroup = true) : Falls e (o :: ts) us ∧ (e = 0 → StartsGroup (o :: ts) us) := by
  obtain ⟨ws, rfl, hws, hsinks⟩ := h.brackets
  have hgroup : e = 0 → StartsGroup (o :: (ws ++ c :: us)) us :=
    fun he => ⟨o, _, c, rfl, ho, h.eats he, hc⟩
  have hcount : openings (o :: (ws ++ [c])) + e = closings (o :: (ws ++ [c])) := by
    simp [ho, hc, opensGroup_of_closesGroup hc, closesGroup_of_opensGroup ho]
    omega
  refine ⟨⟨⟨o :: (ws ++ [c]), by simp, hcount, fun vs hvs => ?_⟩, fun he => (hgroup he).eats⟩, hgroup⟩
  rcases List.suffix_cons_iff.1 hvs with rfl | hvs
  · omega
  · exact hsinks.append (sinks_closes hc) vs hvs

end Falls

/-! ### What is behind a group -/

/-- The tokens behind the bracket that closes the outermost one of `depth` open groups. -/
def behindGroup : Nat → List Token → List Token
  | _, [] => []
  | depth, t :: ts =>
    if t.kind.opensGroup then behindGroup (depth + 1) ts
    else if t.kind.closesGroup then if depth ≤ 1 then ts else behindGroup (depth - 1) ts
    else behindGroup depth ts

/-- The tokens behind the next semicolon that is in no brackets. -/
def behindStatement : Nat → List Token → List Token
  | _, [] => []
  | depth, t :: ts =>
    if t.kind = .semicolon ∧ depth = 0 then ts
    else if t.kind.opensGroup then behindStatement (depth + 1) ts
    else if t.kind.closesGroup then behindStatement (depth - 1) ts
    else behindStatement depth ts

/-- The tokens behind a function whose signature comes next. -/
def behindFunction (ts : List Token) : List Token :=
  behindGroup 0 (ts.dropWhile fun t => t.kind ≠ .openBrace)

theorem Eats.behindGroup (h : Eats free braces d ts d' us) :
    SeaOfNodes.behindGroup (d + 1) ts = SeaOfNodes.behindGroup (d' + 1) us := by
  induction h with
  | refl => rfl
  | plain ho hc _ _ ih => simpa [SeaOfNodes.behindGroup, ho, hc] using ih
  | opens ho _ _ ih => simpa [SeaOfNodes.behindGroup, ho] using ih
  | @closes d d' t ts us hc _ ih =>
    have ho := opensGroup_of_closesGroup hc
    simpa [SeaOfNodes.behindGroup, ho, hc] using ih

theorem StartsGroup.behindGroup (h : StartsGroup ts us) : SeaOfNodes.behindGroup 0 ts = us := by
  obtain ⟨o, ms, c, rfl, ho, hms, hc⟩ := h
  have hco := opensGroup_of_closesGroup hc
  rw [SeaOfNodes.behindGroup, if_pos ho, hms.behindGroup, SeaOfNodes.behindGroup]
  simp [hco, hc]

theorem Eats.behindStatement (h : Eats False braces d ts d' us) :
    SeaOfNodes.behindStatement d ts = SeaOfNodes.behindStatement d' us := by
  induction h with
  | refl => rfl
  | @plain d d' t ts us ho hc hs _ ih =>
    have hnot : ¬ (t.kind = .semicolon ∧ d = 0) := fun h => hs h.2 h.1
    simpa [SeaOfNodes.behindStatement, ho, hc, hnot] using ih
  | @opens d d' t ts us ho _ _ ih =>
    have hnot : ¬ (t.kind = .semicolon ∧ d = 0) := by
      rintro ⟨hs, -⟩
      simp [hs, TokenKind.opensGroup] at ho
    simpa [SeaOfNodes.behindStatement, ho, hnot] using ih
  | @closes d d' t ts us hc _ ih =>
    have ho := opensGroup_of_closesGroup hc
    simpa [SeaOfNodes.behindStatement, ho, hc] using ih

theorem Eats.dropWhile (h : Eats free False d ts d' us) :
    ts.dropWhile (fun t => t.kind ≠ .openBrace) = us.dropWhile fun t => t.kind ≠ .openBrace := by
  induction h with
  | refl => rfl
  | @plain d d' t ts us ho _ _ _ ih =>
    have hne : t.kind ≠ .openBrace := fun ht => by simp [ht, TokenKind.opensGroup] at ho
    rwa [List.dropWhile_cons_of_pos (by simpa using hne)]
  | @opens d d' t ts us _ hb _ ih => rwa [List.dropWhile_cons_of_pos (by simpa using hb)]
  | @closes d d' t ts us hc _ ih =>
    have hne : t.kind ≠ .openBrace := fun ht => by simp [ht, TokenKind.closesGroup] at hc
    rwa [List.dropWhile_cons_of_pos (by simpa using hne)]

theorem behindStatement_behindGroup (ts : List Token) (d : Nat) :
    behindStatement 0 (behindGroup (d + 1) ts) = behindStatement (d + 1) ts := by
  induction ts generalizing d with
  | nil => rfl
  | cons t ts ih =>
    have hnot : ¬ (t.kind = .semicolon ∧ d + 1 = 0) := by omega
    simp only [behindGroup, behindStatement, hnot]
    split
    · exact ih (d + 1)
    split
    · cases d with
      | zero => rfl
      | succ d => exact ih d
    · exact ih d

namespace ParseM

variable {p p' : Parser}

/-! ### Skipping -/

/-- A step that took tokens and changed nothing else. -/
def Advances (p p' : Parser) : Prop := ∃ ts, Takes ts p p'

theorem Advances.then (h : Advances p p') {p'' : Parser} (h' : Takes ts p' p'') : Advances p p'' := by
  obtain ⟨us, hus⟩ := h
  exact ⟨_, hus.trans h'⟩

theorem depthAfter_ensures {kind : TokenKind} (h : kind.opensGroup = true ∨ 1 ≤ d) :
    Ensures p (depthAfter d kind) fun n p' => p' = p ∧
      n = (if kind.opensGroup then d + 1 else if kind.closesGroup then d - 1 else d) := by
  unfold depthAfter
  split
  · exact .pure ⟨rfl, rfl⟩
  split
  · cases d with
    | zero => simp_all
    | succ d => exact .pure ⟨rfl, rfl⟩
  · exact .pure ⟨rfl, rfl⟩

/-- A group of `p` is skipped: the number of groups that were open before the token that was taken
last. -/
inductive InGroup (p : Parser) : Nat × Token → Parser → Prop where
  | first {o : Token} {p' : Parser} : o.kind.opensGroup = true → Takes [o] p p' → InGroup p (0, o) p'
  | inside {o t : Token} {ms : List Token} {d : Nat} {p' : Parser} : o.kind.opensGroup = true →
    Advances p p' → p.tokens = o :: ms → Eats True True 0 ms d (t :: p'.tokens) →
    InGroup p (d + 1, t) p'

theorem InGroup.next_ensures {ms : List Token} (ho : o.kind.opensGroup = true) (hp : Advances p p')
    (hms : p.tokens = o :: ms) (h : Eats True True 0 ms d p'.tokens) :
    Ensures p' (next "closing bracket") fun u p'' => InGroup p (d + 1, u) p'' := by
  refine (ParseM.next_ensures _).imp fun u p'' h'' => ?_
  have htokens : p'.tokens = u :: p''.tokens := h''.tokens
  exact .inside ho (hp.then h'') hms (htokens ▸ h)

theorem skipGroup_ensures (ht : p.tokens.head? = some t) (hopens : t.kind.opensGroup = true) :
    Ensures p skipGroup fun _ p' => Advances p p' ∧ StartsGroup p.tokens p'.tokens := by
  refine (next_ensures _).bind ?_
  rintro first p1 h1
  obtain rfl : first = t := by
    rw [h1.tokens] at ht
    exact Option.some.inj ht
  refine loop_keeps (InGroup p) ?_ (.first hopens h1)
  rintro _ p' (⟨ho, htakes⟩ | ⟨ho, hp, hms, heats⟩)
  · refine (depthAfter_ensures (.inl ho)).bind ?_
    rintro n p' ⟨rfl, rfl⟩
    rw [if_pos ho]
    exact (InGroup.next_ensures ho ⟨_, htakes⟩ htakes.tokens (.refl 0 _)).bind fun _ _ h => .pure h
  · rename_i o t ms d
    refine (depthAfter_ensures (.inr (by simp))).bind ?_
    rintro n p' ⟨rfl, rfl⟩
    -- The number of open groups behind the token decides whether the group ends here.
    by_cases hopen : t.kind.opensGroup = true
    · have hrest : Eats True True 0 ms (d + 1) p'.tokens :=
        heats.trans (.opens hopen (fun _ => trivial) (.refl _ _))
      rw [if_pos hopen]
      exact (InGroup.next_ensures ho hp hms hrest).bind fun _ _ h => .pure h
    · rw [if_neg hopen]
      by_cases hclose : t.kind.closesGroup = true
      · rw [if_pos hclose]
        cases d with
        | zero => exact .pure ⟨hp, o, ms, t, hms, ho, heats, hclose⟩
        | succ d =>
          have hrest : Eats True True 0 ms d p'.tokens := heats.trans (.closes hclose (.refl _ _))
          exact (InGroup.next_ensures ho hp hms hrest).bind fun _ _ h => .pure h
      · have hrest : Eats True True 0 ms d p'.tokens := heats.trans
          (.plain (by simpa using hopen) (by simpa using hclose) (fun _ _ => trivial) (.refl _ _))
        rw [if_neg hclose]
        exact (InGroup.next_ensures ho hp hms hrest).bind fun _ _ h => .pure h

/-- Skipping a statement leads behind its semicolon. Closing brackets in front of that count as any
other token. -/
theorem skipStatement_ensures : Ensures p skipStatement fun _ p' => Advances p p' ∧
    p'.tokens = behindStatement 0 p.tokens ∧ ∃ e, Falls e p.tokens p'.tokens := by
  refine loop_keeps (fun _ p' => Advances p p' ∧
    behindStatement 0 p'.tokens = behindStatement 0 p.tokens ∧ ∃ e, Falls e p.tokens p'.tokens)
    ?_ ⟨⟨[], .refl p⟩, rfl, 0, .refl _⟩
  rintro - p' ⟨hp', hbehind, e, hfalls⟩
  refine (peek_ensures _).bind ?_
  rintro t p1 ⟨h1, ht⟩
  have hp1 := hp'.then h1
  obtain ⟨us, hus⟩ : ∃ us, p'.tokens = t :: us := List.head?_eq_some_iff.1 ht
  have hus1 : p1.tokens = t :: us := h1.same.trans hus
  rw [hus] at hbehind hfalls
  -- What is left behind the next token, if that is taken alone.
  have hnext : Ensures p1 next? fun _ p2 => Advances p p2 ∧ p2.tokens = us := by
    refine next?_ensures.imp ?_
    rintro r p2 ⟨h2, rfl⟩
    rw [hus1] at h2
    exact ⟨hp1.then h2, (List.cons.inj (h2.tokens.symm.trans hus1)).2⟩
  have hplain : t.kind.opensGroup = false → t.kind.closesGroup = false → Falls e p.tokens us := by
    intro ho hc
    have heats : Eats True True 0 (t :: us) 0 us := .plain ho hc (fun _ _ => trivial) (.refl 0 us)
    exact hfalls.trans (.of_eats heats)
  split
  · rename_i hs
    refine hnext.bind ?_
    rintro - p2 ⟨h2, htokens⟩
    rw [behindStatement, if_pos ⟨hs, rfl⟩] at hbehind
    refine .pure ⟨h2, htokens.trans hbehind, e, ?_⟩
    rw [htokens]
    exact hplain (by simp [hs, TokenKind.opensGroup]) (by simp [hs, TokenKind.closesGroup])
  · rename_i hs
    rw [behindStatement, if_neg fun h => hs h.1] at hbehind
    split
    · rename_i ho
      refine (skipGroup_ensures (hus1 ▸ rfl) ho).bind ?_
      rintro - p2 ⟨⟨vs, htakes2⟩, hgroup⟩
      rw [hus1] at hgroup
      have heats : Eats True True 0 (t :: us) 0 p2.tokens := hgroup.eats
      refine .pure ⟨hp1.then htakes2, ?_, e, hfalls.trans (.of_eats heats)⟩
      rw [← hgroup.behindGroup, ← hbehind, if_pos ho]
      have hopen : behindGroup 0 (t :: us) = behindGroup 1 us := by simp [behindGroup, ho]
      rw [hopen, behindStatement_behindGroup]
    · rename_i ho
      refine hnext.bind ?_
      rintro - p2 ⟨h2, htokens⟩
      rw [if_neg ho] at hbehind
      refine .pure ⟨h2, ?_, ?_⟩
      · rw [htokens, ← hbehind]
        split <;> rfl
      · rw [htokens]
        by_cases hc : t.kind.closesGroup = true
        · exact ⟨e + 1, hfalls.closes hc⟩
        · exact ⟨e, hplain (by simpa using ho) (by simpa using hc)⟩

theorem skipFunction_ensures :
    Ensures p skipFunction fun _ p' => p'.tokens = behindFunction p.tokens := by
  refine (loop_keeps (Q := fun _ p' =>
      p'.tokens = p.tokens.dropWhile (fun t => t.kind ≠ .openBrace) ∧
      ∃ t, p'.tokens.head? = some t ∧ t.kind = .openBrace)
    (fun _ p' => p'.tokens.dropWhile (fun t => t.kind ≠ .openBrace) =
      p.tokens.dropWhile (fun t => t.kind ≠ .openBrace)) ?_ rfl).bind ?_
  · rintro - p' hdrop
    refine (isNext_ensures _).bind ?_
    rintro r p1 ⟨h1, hr⟩
    cases r with
    | true =>
      obtain ⟨t, ht, hkind⟩ := hr.1 rfl
      obtain ⟨us, hus⟩ : ∃ us, p'.tokens = t :: us := List.head?_eq_some_iff.1 ht
      refine .pure ⟨?_, t, by rw [h1.same, ht], hkind⟩
      rw [h1.same, ← hdrop, hus, List.dropWhile_cons_of_neg (by simp [hkind])]
    | false =>
      refine (next_ensures _).bind ?_
      rintro t p2 h2
      have htokens : p'.tokens = t :: p2.tokens := h1.same.symm.trans h2.tokens
      have hkind : t.kind ≠ .openBrace := by
        intro hkind
        exact absurd (hr.2 ⟨t, htokens ▸ rfl, hkind⟩) (by simp)
      refine .pure ?_
      dsimp only [Sum.elim_inl]
      rw [← hdrop, htokens, List.dropWhile_cons_of_pos (by simp [hkind])]
  · rintro - p1 ⟨htokens, t, ht, hkind⟩
    refine (skipGroup_ensures ht (hkind ▸ rfl)).imp ?_
    rintro - p2 ⟨-, htokens2⟩
    rw [← htokens2.behindGroup, htokens]
    rfl

end ParseM

end SeaOfNodes
