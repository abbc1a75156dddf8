import SeaOfNodes.Proofs.Graph.Persist

/-!
How construction changes a graph. `Constructs` lists the changes: nodes are added with their edges,
phis are added to regions that are complete, and a loop is built in one piece. Its header gets phis
with one case each; whatever the body adds comes next; then the header and its phis get an input
for each path back, and phis that turned out to have one value are replaced.

So all phis fit at every point but between the inputs of one path back (`Constructs.fits`): a body
adds no phi to a header that was there before, and no input to a region or a phi.
-/
namespace SeaOfNodes

namespace Graph

variable {g g' g'' : Graph} {id x phi region header : NodeId} {node : Node} {n : Nat}
  {phis xs : List NodeId}

/-! ### Changes -/

/-- The node of an error is added, or is there. -/
def Reports (g g' : Graph) : Prop :=
  g' = g ∨ ∃ origins span ty id,
    ({ g with origins := origins } : Graph).create (.error span) ty [] = .ok (id, g')

/-- The header of a loop gets its phis. The node of an error stands for a variable whose type is
one. -/
inductive Opens (header : NodeId) : List NodeId → Graph → Graph → Prop where
  | nil {g : Graph} : Opens header [] g g
  | phi {phi case : NodeId} {phis : List NodeId} {ty : Ty} {g g₁ g₂ : Graph} :
    g.addPhi header [case] ty = .ok (phi, g₁) → Opens header phis g₁ g₂ →
      Opens header (phi :: phis) g g₂
  | error {id : NodeId} {phis : List NodeId} {g g₁ g₂ : Graph} :
    g.Reports g₁ → g₁.At id (fun op _ => ∃ span, op = .error span) → Opens header phis g₁ g₂ →
      Opens header (id :: phis) g g₂

/-- The nodes of a list get one more input each, as often as the list has them. -/
inductive Appends : List NodeId → Graph → Graph → Prop where
  | nil {g : Graph} : Appends [] g g
  | cons {x input : NodeId} {xs : List NodeId} {g g₁ g₂ : Graph} :
    g.appendInput x input = .ok g₁ → Appends xs g₁ g₂ → Appends (x :: xs) g g₂

inductive Collapses (phis : List NodeId) : Graph → Graph → Prop where
  | nil {g : Graph} : Collapses phis g g
  | cons {old new : NodeId} {g g₁ g₂ : Graph} :
    old ∈ phis → g.replace old new = .ok g₁ → Collapses phis g₁ g₂ → Collapses phis g g₂

/-- The changes of construction, from one graph to a later one. -/
inductive Constructs : Graph → Graph → Prop where
  | refl (g : Graph) : Constructs g g
  | trans {g g' g'' : Graph} : Constructs g g' → Constructs g' g'' → Constructs g g''
  | create {op : Op} {ty : Ty} {inputs : List NodeId} {id : NodeId} {g g' : Graph} :
    op ≠ .phi → g.create op ty inputs = .ok (id, g') → Constructs g g'
  | control {id predecessor : NodeId} {g g' : Graph} :
    g.At id (fun op _ => op ≠ .phi) → g.attachControl id predecessor = .ok g' → Constructs g g'
  | memory {id : NodeId} {effect : MemoryEffect} {g g' : Graph} :
    g.At id (fun op _ => op.isMerge = false ∧ op ≠ .phi) → g.attachMemory id effect = .ok g' →
      Constructs g g'
  | root {id : NodeId} {g : Graph} : g.Has id → Constructs g (g.markRoot id)
  | origins (origins : Nat) (g : Graph) : Constructs g { g with origins := origins }
  | dead {id : NodeId} {g : Graph} :
    g.At id (fun op ty => op = .constant ∧ ty.isDead = true) →
      Constructs g { g with deadNode := some id }
  /-- A phi is added to a region that has all its predecessors. -/
  | phi {phi region : NodeId} {cases : List NodeId} {ty : Ty} {g g' : Graph} :
    g.MergeOf region cases.length → g.At region (fun op _ => op = .region) →
      g.addPhi region cases ty = .ok (phi, g') → Constructs g g'
  /-- A function gets the return of its body. -/
  | body {id input : NodeId} {g g' : Graph} :
    g.At id (fun op _ => op.isMerge = false ∧ op ≠ .phi) → g.appendInput id input = .ok g' →
      Constructs g g'
  /-- A loop is built from its header to the paths back. -/
  | loop {header entry : NodeId} {ty : Ty} {phis : List NodeId} {paths : Nat}
      {g g₁ g₂ g₃ g₄ g₅ : Graph} :
    g.create .loop ty [entry] = .ok (header, g₁) → Opens header phis g₁ g₂ → Constructs g₂ g₃ →
      Appends (List.replicate paths (header :: phis)).flatten g₃ g₄ → Collapses phis g₄ g₅ →
      Constructs g g₅

/-! ### Opening a loop -/

theorem Reports.persists (hd : g.Dense) (h : g.Reports g') :
    g'.Dense ∧ Persists g g' ∧ ∀ phi, g'.LivePhi phi → g.Has phi := by
  rcases h with heq | ⟨origins, span, ty, id, h⟩
  · subst heq
    exact ⟨hd, .refl _, fun phi hlive => hlive.has⟩
  · have hd' : ({ g with origins := origins } : Graph).Dense := ⟨hd.free, hd.has_iff⟩
    have hsame : Persists g { g with origins := origins } :=
      .of_enters (.refl _) rfl (fun _ => rfl) rfl
    refine ⟨hd'.create h, hsame.trans (.of_create hd' h), fun phi hlive => ?_⟩
    have hx := has_of_livePhi_create hd' (by simp) h hlive
    exact hx

/-- What stands for a variable at the head of a loop: the node of an error, or a phi with one
case. -/
structure Opened (header : NodeId) (phis : List NodeId) (g g' : Graph) : Prop where
  dense : g'.Dense
  persists : Persists g g'
  listed : ∀ x ∈ phis, (g'.At x fun op _ => ∃ span, op = .error span) ∨
    (¬ g.Has x ∧ g'.IsPhi x ∧ phis.count x = 1 ∧ (g'.LivePhi x → g'.PhiAt x header 1))
  new : ∀ phi, ¬ g.Has phi → g'.LivePhi phi → phi ∈ phis

theorem IsPhi.not_error (h : g.IsPhi x) : ¬ g.At x fun op _ => ∃ span, op = .error span := by
  intro herror
  refine h.false_of herror ?_
  rintro op ty rfl ⟨span, hop⟩
  contradiction

theorem Opens.opened (h : Opens header phis g g') (hd : g.Dense) : Opened header phis g g' := by
  induction h with
  | nil => exact ⟨hd, .refl _, by simp, fun phi hx hlive => absurd hlive.has hx⟩
  | @phi phi case phis ty g g1 g2 hadd _ ih =>
    have hadds := addPhi_spec hd hadd
    have ih := ih hadds.dense
    have hphi : g1.Has phi := hadds.has.2 (.inl rfl)
    -- The phi is listed once: what is listed later is an error, or was added later.
    have hnot : phi ∉ phis := by
      intro hmem
      rcases ih.listed phi hmem with herror | ⟨hfresh, -⟩
      · exact IsPhi.not_error (ih.persists.keeps.at hadds.isPhi) herror
      · exact hfresh hphi
    refine ⟨ih.dense, (Persists.of_addsPhi hadds).trans ih.persists, ?_, ?_⟩
    · intro x hx
      rcases List.mem_cons.1 hx with rfl | hx
      · refine .inr ⟨hadds.fresh, ih.persists.keeps.at hadds.isPhi, ?_, ?_⟩
        · rw [List.count_cons_self, List.count_eq_zero_of_not_mem hnot]
        · intro hlive
          exact ih.persists.phi (ih.persists.live hphi hlive) hlive hadds.phiAt
      · refine (ih.listed x hx).imp_right ?_
        rintro ⟨hfresh, hisPhi, hcount, hat⟩
        have hne : phi ≠ x := by
          rintro rfl
          exact hnot hx
        refine ⟨fun hhas => hfresh (hadds.has.2 (.inr hhas)), hisPhi, ?_, hat⟩
        rw [List.count_cons_of_ne hne, hcount]
    · intro x hx hlive
      by_cases hx1 : g1.Has x
      · rcases hadds.has.1 hx1 with rfl | hhas
        · exact List.mem_cons_self
        · exact absurd hhas hx
      · exact List.mem_cons_of_mem _ (ih.new x hx1 hlive)
  | @error id phis g g1 g2 hreports herror _ ih =>
    obtain ⟨hd1, hpersists, hold⟩ := hreports.persists hd
    have ih := ih hd1
    have herror := ih.persists.keeps.at herror
    refine ⟨ih.dense, hpersists.trans ih.persists, ?_, ?_⟩
    · intro x hx
      rcases List.mem_cons.1 hx with rfl | hx
      · exact .inl herror
      · refine (ih.listed x hx).imp_right ?_
        rintro ⟨hfresh, hisPhi, hcount, hat⟩
        have hne : id ≠ x := by
          rintro rfl
          exact hisPhi.not_error herror
        refine ⟨fun hhas => hfresh (hpersists.keeps.has hhas), hisPhi, ?_, hat⟩
        rw [List.count_cons_of_ne hne, hcount]
    · intro x hx hlive
      have hx1 : ¬ g1.Has x := fun hhas => hx (hold x (ih.persists.live hhas hlive))
      exact List.mem_cons_of_mem _ (ih.new x hx1 hlive)

/-! ### Closing a loop -/

/-- `g'` is `g` with one more input for each time that `xs` has a node. -/
structure Appended (xs : List NodeId) (g g' : Graph) : Prop where
  node : ∀ {x node}, g.get? x = some node → ∃ node', g'.get? x = some node' ∧
    node'.op = node.op ∧ node'.ty = node.ty ∧ node'.replaced = node.replaced ∧
    node'.inputs.length = node.inputs.length + xs.count x ∧
    ∀ y, node.inputs.head? = some y → node'.inputs.head? = some y
  back : ∀ {x}, g'.Has x → g.Has x
  control : g'.control = g.control
  entry : g'.phiRegion = g.phiRegion
  dense : g.Dense → g'.Dense

theorem appended_one {input : NodeId} (h : g.appendInput id input = .ok g') : Appended [id] g g' := by
  obtain ⟨node, hn, henters, -⟩ := appendInput_spec h
  refine ⟨?_, ?_, henters.control, henters.phiRegion, ?_⟩
  · intro x other ho
    by_cases hx : x = id
    · subst hx
      cases hn.symm.trans ho
      obtain ⟨us, hus, -⟩ := henters.node
        (by rw [get?_mapNode _ ⟨node, hn⟩, if_pos rfl, hn]; rfl)
      refine ⟨_, hus, rfl, rfl, rfl, by simp [Node.append], ?_⟩
      intro y hy
      simp [Node.append, hy]
    · obtain ⟨us, hus, -⟩ := henters.node
        (by rw [get?_mapNode _ ⟨node, hn⟩, if_neg hx, ho])
      have hne : id ≠ x := fun he => hx he.symm
      exact ⟨_, hus, rfl, rfl, rfl, by simp [List.count_cons_of_ne hne], fun y hy => hy⟩
  · intro x hx
    exact (has_mapNode _ ⟨node, hn⟩).1 (henters.has.1 hx)
  · intro hd
    exact (hd.mapNode ⟨node, hn⟩ _).enters henters

theorem Appended.trans {ys : List NodeId} (h1 : Appended xs g g') (h2 : Appended ys g' g'') :
    Appended (xs ++ ys) g g'' where
  node hn := by
    obtain ⟨node1, hn1, hop1, hty1, hmark1, hlength1, hhead1⟩ := h1.node hn
    obtain ⟨node2, hn2, hop2, hty2, hmark2, hlength2, hhead2⟩ := h2.node hn1
    refine ⟨node2, hn2, hop2.trans hop1, hty2.trans hty1, hmark2.trans hmark1, ?_,
      fun y hy => hhead2 y (hhead1 y hy)⟩
    rw [hlength2, hlength1, List.count_append, Nat.add_assoc]
  back hx := h1.back (h2.back hx)
  control := h2.control.trans h1.control
  entry := h2.entry.trans h1.entry
  dense hd := h2.dense (h1.dense hd)

theorem Appends.appended (h : Appends xs g g') : Appended xs g g' := by
  induction h with
  | nil =>
    refine ⟨?_, id, rfl, rfl, id⟩
    intro x node hn
    exact ⟨node, hn, rfl, rfl, rfl, by simp, fun y hy => hy⟩
  | cons happend _ ih => exact (appended_one happend).trans ih

namespace Appended

theorem keeps (h : Appended xs g g') : Keeps g g' := by
  constructor
  intro x node hn
  obtain ⟨node', hn', hop, hty, -⟩ := h.node hn
  exact ⟨node', hn', hop, hty⟩

theorem livePhi (h : Appended xs g g') (hlive : g'.LivePhi phi) : g.LivePhi phi := by
  obtain ⟨node', hn', hop, hlive⟩ := hlive
  obtain ⟨node, hn⟩ := h.back ⟨node', hn'⟩
  obtain ⟨other, ho, hop', -, hmark, -⟩ := h.node hn
  cases hn'.symm.trans ho
  exact ⟨node, hn, hop' ▸ hop, hmark ▸ hlive⟩

theorem mergeOf (h : Appended xs g g') (hmerge : g.MergeOf region n) :
    g'.MergeOf region (n + xs.count region) := by
  obtain ⟨node, hn, hop, hlength⟩ := hmerge
  obtain ⟨node', hn', hop', -, -, hlength', -⟩ := h.node hn
  exact ⟨node', hn', hop' ▸ hop, by rw [hlength', hlength]⟩

theorem phiAt (h : Appended xs g g') (hat : g.PhiAt phi region n) :
    g'.PhiAt phi region (n + xs.count phi) := by
  obtain ⟨node, hn, hhead, hlength⟩ := hat.input
  obtain ⟨node', hn', -, -, -, hlength', hhead'⟩ := h.node hn
  refine ⟨⟨node', hn', hhead' region hhead, by omega⟩, ?_, ?_⟩
  · rw [h.control]
    exact hat.control
  · rw [h.entry]
    exact hat.entry

end Appended

/-- A header with one predecessor and its phis, which have one case. -/
structure Headed (g : Graph) (header : NodeId) (phis : List NodeId) : Prop where
  merge : g.MergeOf header 1
  plain : ∀ x ∈ phis, g.At x fun op _ => op.isMerge = false
  listed : ∀ x ∈ phis, g.LivePhi x → phis.count x = 1 ∧ g.PhiAt x header 1
  all : ∀ phi n, g.LivePhi phi → g.PhiAt phi header n → phi ∈ phis

theorem Headed.not_mem (h : Headed g header phis) (hmerge : g.MergeOf region n) : region ∉ phis := by
  intro hmem
  refine (h.plain region hmem).false_of hmerge.isMerge ?_
  intro op ty hfalse
  simp [hfalse]

theorem Opened.headed (h : Opened header phis g g') (hmerge : g.MergeOf header 1)
    (hold : ∀ phi n, g.LivePhi phi → ¬ g.PhiAt phi header n) (hfit : g.PhisFit) :
    Headed g' header phis where
  merge := h.persists.merge hmerge
  plain x hx := by
    rcases h.listed x hx with herror | ⟨-, hphi, -⟩
    · refine herror.mono ?_
      rintro op ty ⟨span, rfl⟩
      rfl
    · refine hphi.mono ?_
      rintro op ty rfl
      rfl
  listed x hx hlive := by
    rcases h.listed x hx with herror | ⟨-, -, hcount, hat⟩
    · exact absurd herror hlive.isPhi.not_error
    · exact ⟨hcount, hat hlive⟩
  all phi n hlive hat := by
    by_cases hx : g.Has phi
    · obtain ⟨hlive0, hat0⟩ := h.persists.phiAt_back hfit hx hlive hat
      exact absurd hat0 (hold phi n hlive0)
    · exact h.new phi hx hlive

theorem Opens.fits {entry : NodeId} {ty : Ty} (hopens : Opens header phis g' g'') (hd : g.Dense)
    (hfit : g.PhisFit) (hc : g.create .loop ty [entry] = .ok (header, g')) :
    Fits g g'' ∧ Headed g'' header phis ∧ g''.At header fun op _ => op = .loop := by
  obtain ⟨hfresh, us, hself⟩ := create_self hd hc
  have hcreate : Fits g g' := .create hd hfit (by simp) hc
  have hmerge : g'.MergeOf header 1 := ⟨_, hself, rfl, rfl⟩
  have hold : ∀ phi n, g'.LivePhi phi → ¬ g'.PhiAt phi header n := by
    intro phi n hlive' hat'
    have hx := has_of_livePhi_create hd (by simp) hc hlive'
    obtain ⟨hlive, hat⟩ := hcreate.spares.phiAt_back hfit hx hlive' hat'
    exact hfresh (hfit.mergeOf hlive hat).has
  have hopened := hopens.opened hcreate.dense
  have hheaded := hopened.headed hmerge hold hcreate.fit
  have hnew : ∀ phi, ¬ g'.Has phi → g''.LivePhi phi → g''.PhiAt phi header 1 := by
    intro phi hx hlive
    exact (hheaded.listed phi (hopened.new phi hx hlive) hlive).2
  have hpersists := hcreate.spares.toPersists.trans hopened.persists
  refine ⟨⟨hopened.dense, ?_, hpersists, ?_⟩, hheaded, hopened.persists.keeps.at ⟨_, hself, rfl⟩⟩
  · refine hcreate.fit.persists hopened.persists ?_
    intro phi hx hlive
    exact ⟨header, 1, hnew phi hx hlive, hheaded.merge⟩
  · intro phi region n hx hlive hat hloop
    have hx' : ¬ g'.Has phi := by
      intro hhas
      exact hx (has_of_livePhi_create hd (by simp) hc (hopened.persists.live hhas hlive))
    obtain ⟨rfl, -⟩ := hat.unique (hnew phi hx' hlive)
    exact hfresh hloop.has

theorem Headed.fits (h : Headed g header phis) (hloop : g.At header fun op _ => op = .loop)
    (hfit : g.PhisFit) (hfits : Fits g g') : Headed g' header phis where
  merge := hfits.spares.merge h.merge
  plain x hx := hfits.spares.keeps.at (h.plain x hx)
  listed x hx hlive' := by
    have hlive := hfits.spares.live (h.plain x hx).has hlive'
    obtain ⟨hcount, hat⟩ := h.listed x hx hlive
    exact ⟨hcount, hfits.spares.phi hlive hlive' hat⟩
  all phi n hlive' hat' := by
    by_cases hx : g.Has phi
    · obtain ⟨hlive, hat⟩ := hfits.spares.phiAt_back hfit hx hlive' hat'
      exact h.all phi n hlive hat
    · exact absurd hloop (hfits.spares.fresh hx hlive' hat')

theorem count_replicate_flatten (paths : Nat) (xs : List NodeId) :
    (List.replicate paths xs).flatten.count x = paths * xs.count x := by
  induction paths with
  | zero => simp
  | succ paths ih =>
    rw [List.replicate_succ, List.flatten_cons, List.count_append, ih, Nat.succ_mul, Nat.add_comm]

section Close

variable {paths : Nat}

section

variable (h : Headed g header phis)
include h

theorem Headed.count_other (hmerge : g.MergeOf region n) (hne : region ≠ header) :
    (List.replicate paths (header :: phis)).flatten.count region = 0 := by
  have hnot : region ∉ header :: phis := by
    rw [List.mem_cons, not_or]
    exact ⟨hne, h.not_mem hmerge⟩
  rw [count_replicate_flatten, List.count_eq_zero_of_not_mem hnot, Nat.mul_zero]

theorem Headed.count_header :
    (List.replicate paths (header :: phis)).flatten.count header = paths := by
  rw [count_replicate_flatten, List.count_cons_self,
    List.count_eq_zero_of_not_mem (h.not_mem h.merge), Nat.zero_add, Nat.mul_one]

theorem Headed.ne_header (hlive : g.LivePhi phi) : header ≠ phi := by
  rintro rfl
  exact h.merge.not_isPhi hlive.isPhi

theorem Headed.count_phi (hlive : g.LivePhi phi) (hat : g.PhiAt phi region n) :
    (List.replicate paths (header :: phis)).flatten.count phi =
      if region = header then paths else 0 := by
  rw [count_replicate_flatten, List.count_cons_of_ne (h.ne_header hlive)]
  by_cases hregion : region = header
  · -- All phis of the header are listed, once each.
    subst hregion
    rw [if_pos rfl, (h.listed phi (h.all phi n hlive hat) hlive).1, Nat.mul_one]
  · have hnot : phi ∉ phis := by
      intro hmem
      exact hregion (hat.unique (h.listed phi hmem hlive).2).1
    rw [if_neg hregion, List.count_eq_zero_of_not_mem hnot, Nat.mul_zero]

end

variable (h : Headed g header phis)
  (ha : Appended (List.replicate paths (header :: phis)).flatten g g')
include h ha

theorem Headed.phisFit (hfit : g.PhisFit) : g'.PhisFit := by
  intro phi hlive'
  have hlive := ha.livePhi hlive'
  obtain ⟨region, n, hat, hmerge⟩ := hfit phi hlive
  have hat' := ha.phiAt hat
  have hmerge' := ha.mergeOf hmerge
  rw [h.count_phi hlive hat] at hat'
  by_cases hregion : region = header
  · subst hregion
    rw [if_pos rfl] at hat'
    rw [h.count_header] at hmerge'
    exact ⟨region, n + paths, hat', hmerge'⟩
  · rw [if_neg hregion] at hat'
    rw [h.count_other hmerge hregion] at hmerge'
    exact ⟨region, n, hat', hmerge'⟩

theorem Headed.mergeOf (hmerge : g.MergeOf region n) (hne : region ≠ header) :
    g'.MergeOf region n := by
  have hmerge' := ha.mergeOf hmerge
  rwa [h.count_other hmerge hne] at hmerge'

end Close

/-! ### Replacing phis -/

theorem Collapses.keeps (h : Collapses phis g g') : Keeps g g' := by
  induction h with
  | nil => exact .refl _
  | cons _ hr _ ih => exact (keeps_replace hr).trans ih

theorem Collapses.fits (h : Collapses phis g g') (hd : g.Dense) (hfit : g.PhisFit)
    (hphis : ∀ x ∈ phis, g.At x fun op _ => op.isMerge = false) :
    g'.Dense ∧ g'.PhisFit ∧ Persists g g' ∧ ∀ phi, g'.LivePhi phi → g.Has phi := by
  induction h with
  | nil => exact ⟨hd, hfit, .refl _, fun phi hlive => hlive.has⟩
  | @cons old new g g1 g2 hmem hr _ ih =>
    obtain ⟨hpersists, hold⟩ := Persists.of_replace hfit (hphis old hmem) hr
    have hfit1 : g1.PhisFit :=
      hfit.persists hpersists fun phi hx hlive => absurd (hold phi hlive) hx
    obtain ⟨hd2, hfit2, hpersists2, hold2⟩ :=
      ih (hd.replace hr) hfit1 fun x hx => hpersists.keeps.at (hphis x hx)
    refine ⟨hd2, hfit2, hpersists.trans hpersists2, ?_⟩
    intro phi hlive
    exact hold phi (hpersists2.live (hold2 phi hlive) hlive)

/-- What closing a loop leaves of a graph: no phi is new, and those of other nodes stay as they
are. -/
structure Closes (header : NodeId) (g g' : Graph) : Prop where
  keeps : Keeps g g'
  merge : ∀ {region n}, g.MergeOf region n → region ≠ header → g'.MergeOf region n
  live : ∀ {phi}, g'.LivePhi phi → g.LivePhi phi
  phi : ∀ {phi region n}, g'.LivePhi phi → g.PhiAt phi region n →
    ∃ m, g'.PhiAt phi region m ∧ (region ≠ header → m = n)

theorem Headed.closes {paths : Nat} (h : Headed g header phis) (hd : g.Dense) (hfit : g.PhisFit)
    (ha : Appends (List.replicate paths (header :: phis)).flatten g g') (hc : Collapses phis g' g'') :
    g''.Dense ∧ g''.PhisFit ∧ Closes header g g'' := by
  have ha := ha.appended
  obtain ⟨hd', hfit', hpersists, hold⟩ := hc.fits (ha.dense hd) (h.phisFit ha hfit)
    fun x hx => ha.keeps.at (h.plain x hx)
  have hlive' : ∀ {phi}, g''.LivePhi phi → g'.LivePhi phi := fun hlive =>
    hpersists.live (hold _ hlive) hlive
  refine ⟨hd', hfit', ha.keeps.trans hpersists.keeps, ?_, fun hlive => ha.livePhi (hlive' hlive), ?_⟩
  · intro region n hmerge hne
    exact hpersists.merge (h.mergeOf ha hmerge hne)
  · intro phi region n hlive hat
    refine ⟨_, hpersists.phi (hlive' hlive) hlive (ha.phiAt hat), ?_⟩
    intro hne
    rw [h.count_phi (ha.livePhi (hlive' hlive)) hat, if_neg hne, Nat.add_zero]

theorem Spares.closes (h : Spares g g') (hfit : g.PhisFit) (hfit' : g'.PhisFit)
    (hc : Closes header g' g'') (hfresh : ¬ g.Has header) : Spares g g'' := by
  have hne : ∀ {region}, g.Has region → region ≠ header := by
    rintro region hhas rfl
    exact hfresh hhas
  refine ⟨⟨h.keeps.trans hc.keeps, ?_, ?_, ?_⟩, ?_⟩
  · intro region n hmerge
    exact hc.merge (h.merge hmerge) (hne hmerge.has)
  · intro phi hx hlive
    exact h.live hx (hc.live hlive)
  · intro phi region n hlive hlive'' hat
    obtain ⟨m, hat'', hm⟩ := hc.phi hlive'' (h.phi hlive (hc.live hlive'') hat)
    obtain rfl := hm (hne (hfit.mergeOf hlive hat).has)
    exact hat''
  · intro phi region n hx hlive'' hat''
    -- The phi belongs to the same node before the loop is closed, if to fewer of its paths.
    have hlive' := hc.live hlive''
    obtain ⟨region', n', hat', -⟩ := hfit' phi hlive'
    obtain ⟨m, hat, -⟩ := hc.phi hlive'' hat'
    obtain ⟨rfl, -⟩ := hat.unique hat''
    exact h.fresh hx hlive' hat'

/-! ### Construction -/

theorem Constructs.fits (h : Constructs g g') (hd : g.Dense) (hfit : g.PhisFit) : Fits g g' := by
  induction h with
  | refl g => exact .refl hd hfit
  | trans _ _ ih1 ih2 =>
    have h1 := ih1 hd hfit
    exact h1.trans (ih2 h1.dense h1.fit)
  | create hop hcreate => exact .create hd hfit hop hcreate
  | control hid hattach => exact .attachControl hd hfit hid hattach
  | memory _ hattach => exact .attachMemory hd hfit hattach
  | root _ | origins origins g | dead _ => exact .of_slots hd hfit rfl rfl rfl rfl
  | phi hmerge hregion hadd => exact .addPhi hd hfit hmerge hregion hadd
  | body hid happend => exact .appendInput hd hfit hid happend
  | loop hcreate hopens _ happends hcollapses ih =>
    obtain ⟨hopen, hheaded, hloop⟩ := hopens.fits hd hfit hcreate
    -- The body leaves the header and its phis alone.
    have hbody := ih hopen.dense hopen.fit
    have hheaded := hheaded.fits hloop hopen.fit hbody
    obtain ⟨hd', hfit', hcloses⟩ := hheaded.closes hbody.dense hbody.fit happends hcollapses
    have hfresh := (create_self hd hcreate).1
    exact ⟨hd', hfit', (hopen.trans hbody).spares.closes hfit hbody.fit hcloses hfresh⟩

end Graph

end SeaOfNodes
