import SeaOfNodes.Proofs.Ty.Datum
import SeaOfNodes.Proofs.Ty.Semilattice

/-!
Assignment of a value to a declared type. What is assigned has the declared type, is not changed
when it is assigned once more, and keeps what is known of its scalars (`assignTo_lands`). An
assignment of another type is an error, but for what is compared nowhere: the declared elements of
arrays without members, and the fields of structs with one name (`assignTo_adapts_iff`).
-/
namespace SeaOfNodes.Ty

variable {a b v d r s t u : Ty} {ts us vs : List Ty} {fields : String → List String}

/-! ### Shapes and members -/

theorem isAggregate_congr (h : a.shape = b.shape) : a.isAggregate = b.isAggregate := by
  have hshape : ∀ t : Ty, t.shape.isAggregate = t.isAggregate := fun t => by cases t <;> rfl
  rw [← hshape a, h, hshape b]

theorem isError_congr (h : a.shape = b.shape) : a.isError = b.isError := by
  have hshape : ∀ t : Ty, t.shape.isError = t.isError := fun t => by cases t <;> rfl
  rw [← hshape a, h, hshape b]

theorem shape_bottom : d.bottom.shape = d.shape := by
  unfold shape bottom
  rw [withLevel_withLevel]

theorem withMembers_bottom (hd : d.isAggregate = true) :
    d.bottom.withMembers ts = d.withMembers ts := by
  cases d <;> first | rfl | contradiction

theorem length_members_shape : t.shape.members.length = t.members.length := by
  cases t <;> first
    | rfl
    | simp [shape, bottom, withLevel, plain, members, withLevels_eq_map, plains_eq_map]

theorem getElem?_members_withMembers {i : Nat}
    (h : i < (t.withMembers ts).members.length) : (t.withMembers ts).members[i]? = ts[i]? := by
  cases t with
  | struct n ls us =>
    simp only [withMembers, members, List.length_take] at h ⊢
    rw [List.getElem?_take, if_pos (by omega)]
  | array e us => rfl
  | tuple us => rfl
  | _ => simp [withMembers, members] at h

/-! ### What an assignment gives -/

theorem assigns_eq (ts us : List Ty) : assigns ts us =
    match firstError? (List.zipWith assignTo ts us) with
    | some e => .error e
    | none => .ok (List.zipWith assignTo ts us) :=
  zipped_eq (fun _ => rfl) (fun _ _ => rfl) (fun _ _ _ _ => rfl) ts us

theorem assignTo_struct (n : String) (ls ks : List String) (ts us : List Ty) :
    (struct n ls ts).assignTo (struct n ks us) = collect
      (fun vs => .struct n (ks.take vs.length) (vs.take ks.length))
        (List.zipWith assignTo ts us) := by
  rw [assignTo, if_pos rfl, assigns_eq, collect]
  cases firstError? (List.zipWith assignTo ts us) <;> rfl

theorem assignTo_array (e f : Ty) (h : ts.length = us.length) :
    (array e ts).assignTo (array f us) = collect (array f) (List.zipWith assignTo ts us) := by
  rw [assignTo, if_pos h, assigns_eq, collect]
  cases firstError? (List.zipWith assignTo ts us) <;> rfl

theorem assignTo_tuple (h : ts.length = us.length) :
    (tuple ts).assignTo (tuple us) = collect tuple (List.zipWith assignTo ts us) := by
  rw [assignTo, if_pos h, assigns_eq, collect]
  cases firstError? (List.zipWith assignTo ts us) <;> rfl

/-- What an assignment gives, if that is no error. -/
inductive Assigned : Ty → Ty → Ty → Prop where
  | int {v w : IntWidth} {l m : Level Int} :
    (v = .untyped ∧ ∀ a, l = .const a → w.fits a = true) ∨ v = w →
    Assigned (.int v l) (.int w m) (.int w l)
  | intFloat (l : Level Int) (w : FloatWidth) (m : Level Double) :
    Assigned (.int .untyped l) (.float w m) (.float w (l.map fun a => w.round (.ofInt a)))
  | float {v w : FloatWidth} {l m k : Level Double} :
    v = .untyped ∧ k = l.map w.round ∨ v = w ∧ k = l →
      Assigned (.float v l) (.float w m) (.float w k)
  | bool (l m : Level Bool) : Assigned (.bool l) (.bool m) (.bool l)
  | rune (l m : Level Char) : Assigned (.rune l) (.rune m) (.rune l)
  | string (l m : Level String) : Assigned (.string l) (.string m) (.string l)
  | void : Assigned .void .void .void
  | pointer {p q : Ty} {l m : Level Unit} : isUntypedNil p l = true ∨ p.sameShape q = true →
    Assigned (.pointer p l) (.pointer q m) (.pointer q l)
  | struct (n : String) (ls ks : List String) {ts us vs : List Ty} :
    List.zipWith assignTo ts us = vs → vs.any isError = false →
    Assigned (.struct n ls ts) (.struct n ks us) (.struct n (ks.take vs.length) (vs.take ks.length))
  | array (e f : Ty) {ts us vs : List Ty} : List.zipWith assignTo ts us = vs →
    vs.any isError = false → ts.length = us.length →
    Assigned (.array e ts) (.array f us) (.array f vs)
  | tuple {ts us vs : List Ty} : List.zipWith assignTo ts us = vs → vs.any isError = false →
    ts.length = us.length → Assigned (.tuple ts) (.tuple us) (.tuple vs)
  | function {ps qs : List Ty} {r s : Ty} (l m : Level String) : sameSignature ps r qs s = true →
    Assigned (.function ps r l) (.function qs s m) (.function qs s l)

theorem zipWith_of_assigns (h : assigns ts us = .ok vs) :
    List.zipWith assignTo ts us = vs ∧ vs.any isError = false := by
  rw [assigns_eq] at h
  split at h
  · contradiction
  · cases h
    exact ⟨rfl, firstError?_eq_none_iff.1 ‹_›⟩

theorem assigned_assignTo (h : (v.assignTo d).isError = false) : Assigned v d (v.assignTo d) := by
  revert h
  fun_cases assignTo v d <;> intro h
  case case3 l w m =>
    unfold assignInt at h ⊢
    split
    · split
      · exact .int (.inl ⟨rfl, fun _ ha => Level.const.inj ha ▸ ‹_›⟩)
      · simp_all [fail, isError]
    · rename_i hconst
      exact .int (.inl ⟨rfl, fun a ha => absurd ha (hconst a)⟩)
  all_goals first
    | contradiction
    | exact .int (.inr rfl)
    | exact .intFloat _ _ _
    | exact .float (.inl ⟨rfl, rfl⟩)
    | exact .float (.inr ⟨rfl, rfl⟩)
    | exact .pointer (Bool.or_eq_true_iff.1 ‹_›)
    | exact .struct _ _ _ (zipWith_of_assigns ‹_›).1 (zipWith_of_assigns ‹_›).2
    | exact .array _ _ (zipWith_of_assigns ‹_›).1 (zipWith_of_assigns ‹_›).2 ‹_›
    | exact .tuple (zipWith_of_assigns ‹_›).1 (zipWith_of_assigns ‹_›).2 ‹_›
    | exact .function _ _ ‹_›
    | constructor

/-! ### Landing in the declared type -/

/-- `P` holds of a type, of its members, and of theirs. -/
inductive Throughout (P : Ty → Prop) : Ty → Prop where
  | mk {t : Ty} : P t → (∀ m ∈ t.members, Throughout P m) → Throughout P t

theorem Throughout.self {P : Ty → Prop} (h : t.Throughout P) : P t := by
  cases h
  assumption

theorem Throughout.members {P : Ty → Prop} (h : t.Throughout P) :
    ∀ m ∈ t.members, m.Throughout P := by
  cases h
  assumption

theorem Throughout.pair {n : String} {ls : List String} {a b : Ty} (h : P (.struct n ls [a, b]))
    (ha : P a) (hb : P b) (hmembers : a.members = []) (hmembers' : b.members = []) :
    (struct n ls [a, b]).Throughout P := by
  refine .mk h fun m hm => ?_
  rcases List.mem_pair.1 hm with rfl | rfl
  · exact .mk ha (by simp [hmembers])
  · exact .mk hb (by simp [hmembers'])

/-- A struct has the fields that its name stands for, and a member for each of them. -/
def HasFields (fields : String → List String) : Ty → Prop
  | .struct n ls ts => ls = fields n ∧ ts.length = ls.length
  | _ => True

/-- The part of a type at the end of a path of members. -/
def at? (t : Ty) : List Nat → Option Ty
  | [] => some t
  | i :: path => t.members[i]?.bind (at? · path)

/-- A constant of a scalar other than a float or a pointer. -/
inductive Known where
  | int (v : Int)
  | bool (v : Bool)
  | rune (v : Char)
  | string (v : String)
  | function (name : String)

/-- The constant of a scalar. -/
def known? : Ty → Option Known
  | .int _ l => l.const?.map .int
  | .bool l => l.const?.map .bool
  | .rune l => l.const?.map .rune
  | .string l => l.const?.map .string
  | .function _ _ l => l.const?.map .function
  | _ => none

/-- `r` is the value `v` as one of the declared type `d`. -/
structure Lands (v d r : Ty) : Prop where
  shape : r.shape = d.shape
  again : r.assignTo d = r
  constant : v.isConstant = true → r.isConstant = true
  leaf : ∀ path t k, v.at? path = some t → t.known? = some k → ∃ s, r.at? path = some s ∧
    (s.known? = some k ∨ t.primitive? = some (.int .untyped) ∧ s.isFloat = true)

theorem at?_of_scalar (h : v.isAggregate = false) {path : List Nat} (hpath : v.at? path = some t) :
    t = v ∧ path = [] := by
  cases path with
  | nil => exact ⟨(Option.some.inj hpath).symm, rfl⟩
  | cons i path => cases v <;> contradiction

theorem Lands.of_scalar (hscalar : v.isAggregate = false) (hshape : r.shape = d.shape)
    (hagain : r.assignTo d = r) (hconst : v.isConstant = true → r.isConstant = true)
    (hknown : ∀ k, v.known? = some k →
      r.known? = some k ∨ v.primitive? = some (.int .untyped) ∧ r.isFloat = true) :
    Lands v d r := by
  refine ⟨hshape, hagain, hconst, fun path t k ht hk => ?_⟩
  obtain ⟨rfl, rfl⟩ := at?_of_scalar hscalar ht
  exact ⟨r, rfl, hknown k hk⟩

section Members

variable (h : List.Forall₂ (fun t u => Lands t u (t.assignTo u)) ts us)
include h

theorem shapes_of_lands : (List.zipWith assignTo ts us).map shape = us.map shape := by
  induction h with
  | nil => rfl
  | cons ht _ ih => exact congrArg₂ List.cons ht.shape ih

theorem again_of_lands :
    List.zipWith assignTo (List.zipWith assignTo ts us) us = List.zipWith assignTo ts us := by
  induction h with
  | nil => rfl
  | cons ht _ ih => exact congrArg₂ List.cons ht.again ih

theorem constants_of_lands (hconst : allConstant ts = true) :
    allConstant (List.zipWith assignTo ts us) = true := by
  induction h with
  | nil => rfl
  | cons ht _ ih =>
    rw [allConstant, Bool.and_eq_true] at hconst
    rw [List.zipWith_cons_cons, allConstant, ht.constant hconst.1, ih hconst.2, Bool.and_true]

theorem leaves_of_lands (i : Nat) (path : List Nat) {k : Known} (hk : t.known? = some k)
    (ht : ts[i]?.bind (at? · path) = some t) :
    ∃ s, (List.zipWith assignTo ts us)[i]?.bind (at? · path) = some s ∧
      (s.known? = some k ∨ t.primitive? = some (.int .untyped) ∧ s.isFloat = true) := by
  induction h generalizing i with
  | nil => contradiction
  | cons hhead _ ih =>
    cases i with
    | zero => exact hhead.leaf path t k ht hk
    | succ i => exact ih i ht

theorem Lands.of_members (hvs : List.zipWith assignTo ts us = vs) (hv : v.isAggregate = true)
    (hmembers : v.members = ts) (hr : r.isAggregate = true) (hrmembers : r.members = vs)
    (hshape : vs.map Ty.shape = us.map Ty.shape → r.shape = d.shape)
    (hagain : List.zipWith assignTo vs us = vs → r.assignTo d = r) : Lands v d r where
  shape := hshape (hvs ▸ shapes_of_lands h)
  again := hagain (hvs ▸ again_of_lands h)
  constant hconst := by
    rw [isConstant_iff_members hv, hmembers] at hconst
    rw [isConstant_iff_members hr, hrmembers, ← hvs]
    exact allConstant_iff.1 (constants_of_lands h (allConstant_iff.2 hconst))
  leaf path t k ht hk := by
    cases path with
    | nil =>
      cases ht
      cases v <;> contradiction
    | cons i path =>
      rw [at?, hmembers] at ht
      rw [at?, hrmembers, ← hvs]
      exact leaves_of_lands h i path hk ht

end Members

theorem forall₂_of_zipWith {f : Ty → Ty → Ty} {P : Ty → Ty → Prop} (hlength : ts.length = us.length)
    (hno : (List.zipWith f ts us).any isError = false)
    (h : ∀ t ∈ ts, ∀ u ∈ us, (f t u).isError = false → P t u) : List.Forall₂ P ts us := by
  induction ts generalizing us with
  | nil => cases us <;> first | exact .nil | contradiction
  | cons t ts ih =>
    cases us with
    | nil => contradiction
    | cons u us =>
      rw [List.zipWith_cons_cons, List.any_cons, Bool.or_eq_false_iff] at hno
      refine .cons (h t (.head _) u (.head _) hno.1)
        (ih (Nat.succ.inj hlength) hno.2 fun t ht u hu => ?_)
      exact h t (.tail _ ht) u (.tail _ hu)

theorem assignTo_int_self (w : IntWidth) (l m : Level Int) :
    (int w l).assignTo (int w m) = int w l := by
  rw [assignTo]
  split
  · rename_i hw
    subst hw
    cases l <;> simp [assignInt, IntWidth.fits, IntWidth.wrap_untyped]
  · exact if_pos rfl

theorem assignTo_float_self (w : FloatWidth) (l m : Level Double) :
    (float w l).assignTo (float w m) = float w l := by
  rw [assignTo]
  split
  · rename_i hw
    subst hw
    cases l <;> rfl
  · exact if_pos rfl

theorem lands_assignTo (hv : v.Throughout (HasFields fields)) (hd : d.Throughout (HasFields fields))
    (h : (v.assignTo d).isError = false) : Lands v d (v.assignTo d) := by
  induction v using members_induction generalizing d with
  | h v ih =>
    have hpair : ∀ t ∈ v.members, ∀ u ∈ d.members, (t.assignTo u).isError = false →
        Lands t u (t.assignTo u) :=
      fun t ht u hu => ih t ht (hv.members t ht) (hd.members u hu)
    have hassigned := assigned_assignTo h
    generalize v.assignTo d = r at hassigned ⊢
    cases hassigned with
    | int _ => exact .of_scalar rfl rfl (assignTo_int_self _ _ _) id fun _ => .inl
    | intFloat l w m =>
      refine .of_scalar rfl rfl (assignTo_float_self _ _ _) (fun hconst => ?_)
        fun _ _ => .inr ⟨rfl, rfl⟩
      cases l <;> first | rfl | contradiction
    | @float _ w l _ _ hk =>
      refine .of_scalar rfl rfl (assignTo_float_self _ _ _) (fun hconst => ?_) nofun
      rcases hk with ⟨-, rfl⟩ | ⟨-, rfl⟩
      · cases l <;> first | rfl | contradiction
      · exact hconst
    | bool l _ | rune l _ | string l _ => exact .of_scalar rfl rfl rfl id fun _ => .inl
    | void => exact .of_scalar rfl rfl rfl id nofun
    | @pointer _ q l _ _ =>
      refine .of_scalar rfl rfl ?_ id nofun
      simp [assignTo, sameShape_of_plain]
    | @function _ qs _ s l _ _ =>
      refine .of_scalar rfl rfl ?_ id fun _ => .inl
      simp [assignTo, sameSignature_of_plain]
    | @struct n ls ks ts us vs hvs hno =>
      -- Both have the fields that the name stands for, so that no member is left over.
      obtain ⟨hls, hts⟩ := hv.self
      obtain ⟨rfl, hus⟩ := hd.self
      have hlength : ts.length = us.length := by rw [hts, hus, hls]
      have htake : (fields n).take vs.length = fields n ∧ vs.take (fields n).length = vs := by
        simp [← hvs, hlength, hus]
      have hlands := forall₂_of_zipWith hlength (hvs ▸ hno) hpair
      rw [htake.1, htake.2]
      refine .of_members hlands hvs rfl rfl rfl rfl (fun hshapes => ?_) fun hagain => ?_
      · rw [shape_struct, shape_struct, hshapes]
      · rw [assignTo_struct, hagain, collect_eq hno, htake.1, htake.2]
    | array e f hvs hno hlength =>
      have hlands := forall₂_of_zipWith hlength (hvs ▸ hno) hpair
      refine .of_members hlands hvs rfl rfl rfl rfl (fun hshapes => ?_) fun hagain => ?_
      · rw [shape_array, shape_array, hshapes]
      · rw [assignTo_array _ _ (by simp [← hvs, hlength]), hagain, collect_eq hno]
    | tuple hvs hno hlength =>
      have hlands := forall₂_of_zipWith hlength (hvs ▸ hno) hpair
      refine .of_members hlands hvs rfl rfl rfl rfl (fun hshapes => ?_) fun hagain => ?_
      · rw [shape_tuple, shape_tuple, hshapes]
      · rw [assignTo_tuple (by simp [← hvs, hlength]), hagain, collect_eq hno]

/-- A value that is assigned to a declared type without an error is one of that type, stays the same
when it is assigned once more, is known where it was known, and keeps the constants of its scalars,
but for an untyped integer that becomes a float. Structs of one name have one list of fields. -/
theorem assignTo_lands (hv : v.Throughout (HasFields fields)) (hd : d.Throughout (HasFields fields))
    (h : (v.assignTo d).isError = false) :
    ((v.assignTo d).bottom == d.bottom) = true ∧
    ((v.assignTo d).assignTo d == v.assignTo d) = true ∧
    (v.isConstant = true → (v.assignTo d).isConstant = true) ∧
    ∀ path t k, v.at? path = some t → t.known? = some k → ∃ s, (v.assignTo d).at? path = some s ∧
      (s.known? = some k ∨ t.primitive? = some (.int .untyped) ∧ s.isFloat = true) := by
  have hlands := lands_assignTo hv hd h
  exact ⟨sameShape_iff.2 hlands.shape, beq_iff.2 (congrArg plain hlands.again), hlands.constant,
    hlands.leaf⟩

/-- A struct of an untyped number and `nil` becomes one of an `i8` and a pointer. -/
theorem assignTo_lands_pair :
    let v := struct "P" ["x", "y"] [.int .untyped (.const 3), nil]
    let d := struct "P" ["x", "y"] [.int .i8 .bottom, pointerTo (.bool .bottom)]
    (v.assignTo d).isError = false ∧ ((v.assignTo d).bottom == d.bottom) = true ∧
      ∃ s, (v.assignTo d).at? [0] = some s ∧ s.known? = some (.int 3) := by
  intro v d
  have hv : v.Throughout (HasFields fun _ => ["x", "y"]) := .pair ⟨rfl, rfl⟩ trivial trivial rfl rfl
  have hno : (v.assignTo d).isError = false := by decide
  obtain ⟨hshape, -, -, hleaf⟩ := assignTo_lands (v := v) (d := d) hv
    (.pair ⟨rfl, rfl⟩ trivial trivial rfl rfl) hno
  obtain ⟨s, hs, hk | ⟨-, hfloat⟩⟩ := hleaf [0] _ (.int 3) rfl rfl
  · exact ⟨hno, hshape, s, hs, hk⟩
  · obtain rfl := Option.some.inj hs
    contradiction

/-! ### Other types are rejected -/

/-- The shape of `d` is that of `v` where untyped numbers may have got a width and `nil` without a
pointee may have got one. -/
inductive Adapts : Ty → Ty → Prop where
  | int {v w : IntWidth} (l m : Level Int) : v = .untyped ∨ v = w → Adapts (.int v l) (.int w m)
  | intFloat (l : Level Int) (w : FloatWidth) (m : Level Double) :
    Adapts (.int .untyped l) (.float w m)
  | float {v w : FloatWidth} (l m : Level Double) : v = .untyped ∨ v = w →
    Adapts (.float v l) (.float w m)
  | bool (l m : Level Bool) : Adapts (.bool l) (.bool m)
  | rune (l m : Level Char) : Adapts (.rune l) (.rune m)
  | string (l m : Level String) : Adapts (.string l) (.string m)
  | void : Adapts .void .void
  | pointer {p q : Ty} {l : Level Unit} (m : Level Unit) :
    isUntypedNil p l = true ∨ p.sameShape q = true → Adapts (.pointer p l) (.pointer q m)
  | struct (n : String) (ls : List String) {ts us : List Ty} : List.Forall₂ Adapts ts us →
    Adapts (.struct n ls ts) (.struct n ls us)
  | array {e f : Ty} {ts us : List Ty} : Adapts e f → List.Forall₂ Adapts ts us →
    Adapts (.array e ts) (.array f us)
  | tuple {ts us : List Ty} : List.Forall₂ Adapts ts us → Adapts (.tuple ts) (.tuple us)
  | function {ps qs : List Ty} {r s : Ty} (l m : Level String) : sameSignature ps r qs s = true →
    Adapts (.function ps r l) (.function qs s m)

/-- Two types agree in what no assignment compares: the fields of structs, and the declared elements
of arrays. -/
inductive Concurs : Ty → Ty → Prop where
  | scalar {v d : Ty} : v.isAggregate = false → Concurs v d
  | struct (n m : String) (ls : List String) {ts us : List Ty} : List.Forall₂ Concurs ts us →
    Concurs (.struct n ls ts) (.struct m ls us)
  | array {e f : Ty} {ts us : List Ty} : Adapts e f → List.Forall₂ Concurs ts us →
    Concurs (.array e ts) (.array f us)
  | tuple {ts us : List Ty} : List.Forall₂ Concurs ts us → Concurs (.tuple ts) (.tuple us)

theorem Adapts.concurs (h : Adapts v d) : Concurs v d := by
  induction v using members_induction generalizing d with
  | h v ih =>
    have hmembers : ∀ {ts us : List Ty}, (∀ t ∈ ts, t ∈ v.members) → List.Forall₂ Adapts ts us →
        List.Forall₂ Concurs ts us := by
      intro ts us hts h
      induction h with
      | nil => exact .nil
      | cons ht _ ih' =>
        exact .cons (ih _ (hts _ (.head _)) ht) (ih' fun t ht => hts t (.tail _ ht))
    cases h with
    | struct n ls h => exact .struct n n ls (hmembers (fun _ ht => ht) h)
    | array he h => exact .array he (hmembers (fun _ ht => ht) h)
    | tuple h => exact .tuple (hmembers (fun _ ht => ht) h)
    | _ => exact .scalar rfl

theorem adapts_of_assignTo (h : (v.assignTo d).isError = false) (hconcurs : Concurs v d) :
    Adapts v d := by
  induction v using members_induction generalizing d with
  | h v ih =>
    have hmembers : ∀ {ts us : List Ty}, (∀ t ∈ ts, t ∈ v.members) →
        (List.zipWith assignTo ts us).any isError = false → List.Forall₂ Concurs ts us →
        List.Forall₂ Adapts ts us := by
      intro ts us hts hno h
      induction h with
      | nil => exact .nil
      | cons ht _ ih' =>
        rw [List.zipWith_cons_cons, List.any_cons, Bool.or_eq_false_iff] at hno
        exact .cons (ih _ (hts _ (.head _)) hno.1 ht) (ih' (fun t ht => hts t (.tail _ ht)) hno.2)
    -- The assignment accounts for names, lengths and scalars, and `Concurs` for fields and elements.
    have hassigned := assigned_assignTo h
    generalize v.assignTo d = r at hassigned
    cases hassigned with
    | int hw => exact .int _ _ (hw.imp_left And.left)
    | intFloat l w m => exact .intFloat l w m
    | float hw => exact .float _ _ (hw.imp And.left And.left)
    | bool l m => exact .bool l m
    | rune l m => exact .rune l m
    | string l m => exact .string l m
    | void => exact .void
    | pointer hp => exact .pointer _ hp
    | function l m hs => exact .function l m hs
    | struct n ls ks hvs hno =>
      cases hconcurs with
      | scalar hscalar => contradiction
      | struct _ _ _ hc => exact .struct n ls (hmembers (fun _ ht => ht) (hvs ▸ hno) hc)
    | array e f hvs hno _ =>
      cases hconcurs with
      | scalar hscalar => contradiction
      | array he hc => exact .array he (hmembers (fun _ ht => ht) (hvs ▸ hno) hc)
    | tuple hvs hno _ =>
      cases hconcurs with
      | scalar hscalar => contradiction
      | tuple hc => exact .tuple (hmembers (fun _ ht => ht) (hvs ▸ hno) hc)

/-- An assignment that is accepted gives untyped numbers a width and `nil` a pointee and changes
nothing else of the type exactly if, where it is accepted, the types agree in the fields of structs
and in the declared elements of arrays. -/
theorem assignTo_adapts_iff (v d : Ty) : ((v.assignTo d).isError = false → Adapts v d) ↔
    ((v.assignTo d).isError = false → Concurs v d) :=
  ⟨fun h hno => (h hno).concurs, fun h hno => adapts_of_assignTo hno (h hno)⟩

/-- An empty array of integers is assigned to one of booleans. -/
theorem not_adapts_emptyArray :
    ((array (.int .int .bottom) []).assignTo (array (.bool .bottom) [])).isError = false ∧
      ¬ Adapts (array (.int .int .bottom) []) (array (.bool .bottom) []) :=
  ⟨rfl, fun h => by cases h with | array he _ => cases he⟩

end SeaOfNodes.Ty
