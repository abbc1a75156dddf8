import Mathlib.Data.String.Basic
import SeaOfNodes.Proofs.Ty.Value

/-!
Whether the order matters in which two types meet. What a meet does not merge it takes from its left
operand: the labels of structs, the elements of arrays, pointees and signatures. So two types meet in
the same type in both orders exactly if they are the same in these, or meet in an error
(`beq_meet_comm_iff`).
-/
namespace SeaOfNodes

theorem IntWidth.unify?_comm (w v : IntWidth) : w.unify? v = v.unify? w := by
  cases w <;> cases v <;> rfl

theorem FloatWidth.unify?_comm (w v : FloatWidth) : w.unify? v = v.unify? w := by
  cases w <;> cases v <;> rfl

namespace Ty

variable {a b c t : Ty} {ts us vs : List Ty} {aggregate : List Ty → Ty}

/-! ### Errors among members -/

theorem isError_iff : t.isError = true ↔ ∃ e, t = .error e := by cases t <;> simp [isError]

theorem firstError?_cons_of_not (h : t.isError = false) : firstError? (t :: ts) = firstError? ts := by
  cases t <;> first | rfl | contradiction

theorem firstError?_eq_none_iff : firstError? ts = none ↔ ts.any isError = false := by
  induction ts with
  | nil => simp [firstError?]
  | cons t ts ih =>
    cases ht : t.isError with
    | true =>
      obtain ⟨e, rfl⟩ := isError_iff.1 ht
      simp [firstError?, isError]
    | false => rw [firstError?_cons_of_not ht, ih, List.any_cons, ht, Bool.false_or]

/-- An aggregate of members, unless one of these is an error; the first error wins. -/
def collect (aggregate : List Ty → Ty) (members : List Ty) : Ty :=
  match firstError? members with
  | some e => .error e
  | none => aggregate members

theorem collect_eq (h : ts.any isError = false) : collect aggregate ts = aggregate ts := by
  rw [collect, firstError?_eq_none_iff.2 h]

theorem isError_collect_of (aggregate : List Ty → Ty) (h : ts.any isError = true) :
    (collect aggregate ts).isError = true := by
  unfold collect
  cases hfirst : firstError? ts with
  | some e => rfl
  | none => simp [firstError?_eq_none_iff.1 hfirst] at h

theorem isError_collect (h : (aggregate ts).isError = false) :
    (collect aggregate ts).isError = ts.any isError := by
  cases hts : ts.any isError with
  | true => exact isError_collect_of aggregate hts
  | false => rw [collect_eq hts, h]

theorem zipped_eq {f : Ty → Ty → Ty} {F : List Ty → List Ty → Except Blame (List Ty)}
    (hnil : ∀ us, F [] us = .ok []) (hend : ∀ t ts, F (t :: ts) [] = .ok [])
    (hcons : ∀ t ts u us, F (t :: ts) (u :: us) = match f t u with
      | .error e => .error e
      | v => match F ts us with
        | .ok vs => .ok (v :: vs)
        | .error e => .error e) (ts us : List Ty) : F ts us =
    match firstError? (List.zipWith f ts us) with
    | some e => .error e
    | none => .ok (List.zipWith f ts us) := by
  induction ts generalizing us with
  | nil => simp [hnil, firstError?]
  | cons t ts ih =>
    cases us with
    | nil => simp [hend, firstError?]
    | cons u us =>
      rw [hcons, ih, List.zipWith_cons_cons]
      cases hv : (f t u).isError with
      | true =>
        obtain ⟨e, he⟩ := isError_iff.1 hv
        simp [he, firstError?]
      | false =>
        rw [firstError?_cons_of_not hv]
        split
        · rename_i e he
          simp [he, isError] at hv
        · cases firstError? (List.zipWith f ts us) <;> rfl

theorem meets_eq (ts us : List Ty) : meets ts us =
    match firstError? (List.zipWith meet ts us) with
    | some e => .error e
    | none => .ok (List.zipWith meet ts us) :=
  zipped_eq (fun _ => rfl) (fun _ _ => rfl) (fun _ _ _ _ => rfl) ts us

/-! ### Meets of aggregates -/

theorem meet_struct (n : String) (ls ks : List String) (ts us : List Ty) :
    (struct n ls ts).meet (struct n ks us) = collect
      (fun vs => .struct n (ls.take vs.length) (vs.take ls.length)) (List.zipWith meet ts us) := by
  rw [meet, if_pos rfl, meets_eq, collect]
  cases firstError? (List.zipWith meet ts us) <;> rfl

/-- A struct with a member for each label loses the labels behind the end of the other. -/
theorem meet_struct_of_length {n : String} {ls ks : List String} (h : ls.length = ts.length) :
    (struct n ls ts).meet (struct n ks us) =
      collect (struct n (ls.take us.length)) (List.zipWith meet ts us) := by
  have hlabels : ls.take (List.zipWith meet ts us).length = ls.take us.length := by
    rw [List.length_zipWith, List.take_eq_take_iff]
    omega
  have hmembers : (List.zipWith meet ts us).take ls.length = List.zipWith meet ts us := by
    refine List.take_of_length_le ?_
    rw [List.length_zipWith]
    omega
  rw [meet_struct, collect, collect, hlabels, hmembers]

theorem meet_array {e f : Ty} (h : ts.length = us.length) :
    (array e ts).meet (array f us) = collect (array e) (List.zipWith meet ts us) := by
  rw [meet, if_pos h, meets_eq, collect]
  cases firstError? (List.zipWith meet ts us) <;> rfl

theorem meet_tuple (h : ts.length = us.length) :
    (tuple ts).meet (tuple us) = collect tuple (List.zipWith meet ts us) := by
  rw [meet, if_pos h, meets_eq, collect]
  cases firstError? (List.zipWith meet ts us) <;> rfl

/-! ### Kinds -/

/-- The constructor of a type. -/
def kind : Ty → Nat
  | .int .. => 0
  | .float .. => 1
  | .bool _ => 2
  | .rune _ => 3
  | .string _ => 4
  | .pointer .. => 5
  | .struct .. => 6
  | .array .. => 7
  | .tuple _ => 8
  | .function .. => 9
  | .void => 10
  | .control _ => 11
  | .memory => 12
  | .error _ => 13

@[simp] theorem isError_mismatched (a b : Ty) : (mismatched a b).isError = true := rfl

theorem meet_of_kind_ne (h : a.kind ≠ b.kind) (ha : a.isError = false) (hb : b.isError = false) :
    a.meet b = mismatched a b := by
  cases a <;> cases b <;> first | contradiction | rfl

theorem isError_meet_left (h : a.isError = true) : (a.meet b).isError = true := by
  obtain ⟨e, rfl⟩ := isError_iff.1 h
  cases b <;> rfl

theorem isError_meet_right (h : b.isError = true) : (a.meet b).isError = true := by
  obtain ⟨e, rfl⟩ := isError_iff.1 h
  cases a <;> rfl

theorem isError_meet_of_kind_ne (h : a.kind ≠ b.kind) : (a.meet b).isError = true := by
  cases ha : a.isError with
  | true => exact isError_meet_left ha
  | false =>
    cases hb : b.isError with
    | true => exact isError_meet_right hb
    | false =>
      rw [meet_of_kind_ne h ha hb]
      rfl

/-- Two types of one kind. -/
inductive Paired : Ty → Ty → Prop where
  | int (w v : IntWidth) (l m : Level Int) : Paired (.int w l) (.int v m)
  | float (w v : FloatWidth) (l m : Level Double) : Paired (.float w l) (.float v m)
  | bool (l m : Level Bool) : Paired (.bool l) (.bool m)
  | rune (l m : Level Char) : Paired (.rune l) (.rune m)
  | string (l m : Level String) : Paired (.string l) (.string m)
  | pointer (p q : Ty) (l m : Level Unit) : Paired (.pointer p l) (.pointer q m)
  | struct (n m : String) (ls ks : List String) (ts us : List Ty) :
    Paired (.struct n ls ts) (.struct m ks us)
  | array (e f : Ty) (ts us : List Ty) : Paired (.array e ts) (.array f us)
  | tuple (ts us : List Ty) : Paired (.tuple ts) (.tuple us)
  | function (ps qs : List Ty) (r s : Ty) (l m : Level String) :
    Paired (.function ps r l) (.function qs s m)
  | void : Paired .void .void
  | control (l m : Bool) : Paired (.control l) (.control m)
  | memory : Paired .memory .memory
  | error (e f : Blame) : Paired (.error e) (.error f)

theorem paired_of_kind (h : a.kind = b.kind) : Paired a b := by
  cases a <;> cases b <;> first | constructor | simp [kind] at h

/-- What two types meet in, if that is no error. -/
inductive Met : Ty → Ty → Ty → Prop where
  | int {w v u : IntWidth} (l m : Level Int) : w.unify? v = some u →
    Met (.int w l) (.int v m) (.int u (l.meet m))
  | float {w v u : FloatWidth} (l m : Level Double) : w.unify? v = some u →
    Met (.float w l) (.float v m) (.float u (l.meet m))
  | bool (l m : Level Bool) : Met (.bool l) (.bool m) (.bool (l.meet m))
  | rune (l m : Level Char) : Met (.rune l) (.rune m) (.rune (l.meet m))
  | string (l m : Level String) : Met (.string l) (.string m) (.string (l.meet m))
  | pointer {p q r : Ty} (l m : Level Unit) : r = p ∨ r = q →
    Met (.pointer p l) (.pointer q m) (.pointer r (l.meet m))
  | struct {n : String} (ls ks : List String) {ts us vs : List Ty} : List.zipWith meet ts us = vs →
    vs.any isError = false → Met (.struct n ls ts) (.struct n ks us)
      (.struct n (ls.take vs.length) (vs.take ls.length))
  | array (e f : Ty) {ts us vs : List Ty} : List.zipWith meet ts us = vs → vs.any isError = false →
    ts.length = us.length → Met (.array e ts) (.array f us) (.array e vs)
  | tuple {ts us vs : List Ty} : List.zipWith meet ts us = vs → vs.any isError = false →
    ts.length = us.length → Met (.tuple ts) (.tuple us) (.tuple vs)
  | function {ps qs : List Ty} {r s : Ty} (l m : Level String) : sameSignature ps r qs s = true →
    Met (.function ps r l) (.function qs s m) (.function ps r (l.meet m))
  | void : Met .void .void .void
  | control (l m : Bool) : Met (.control l) (.control m) (.control (l || m))
  | memory : Met .memory .memory .memory

theorem met_meet (h : (a.meet b).isError = false) : Met a b (a.meet b) := by
  have hkind : a.kind = b.kind := by
    by_contra hne
    simp [isError_meet_of_kind_ne hne] at h
  revert h
  cases paired_of_kind hkind with
  | int w v l m | float w v l m =>
    rw [meet]
    split <;> intro h
    · constructor
      assumption
    · contradiction
  | pointer p q l m =>
    rw [meet, meetPointer]
    split <;> intro h
    · exact .pointer l m (.inr rfl)
    · split at h
      · rw [if_pos (by assumption)]
        exact .pointer l m (.inl rfl)
      · contradiction
  | function ps qs r s l m =>
    rw [meet]
    split <;> intro h
    · exact .function l m (by assumption)
    · contradiction
  | struct n m ls ks ts us =>
    intro h
    by_cases hn : n = m
    · subst hn
      rw [meet_struct] at h ⊢
      rw [isError_collect rfl] at h
      rw [collect_eq h]
      exact .struct ls ks rfl h
    · simp [meet, if_neg hn] at h
  | array e f ts us =>
    intro h
    by_cases hlength : ts.length = us.length
    · rw [meet_array hlength] at h ⊢
      rw [isError_collect rfl] at h
      rw [collect_eq h]
      exact .array e f rfl h hlength
    · simp [meet, if_neg hlength] at h
  | tuple ts us =>
    intro h
    by_cases hlength : ts.length = us.length
    · rw [meet_tuple hlength] at h ⊢
      rw [isError_collect rfl] at h
      rw [collect_eq h]
      exact .tuple rfl h hlength
    · simp [meet, if_neg hlength] at h
  | error e f => exact fun h => by contradiction
  | _ => exact fun _ => by constructor

theorem kind_meet (h : (a.meet b).isError = false) : a.kind = b.kind ∧ (a.meet b).kind = a.kind := by
  have hmet := met_meet h
  generalize a.meet b = r at hmet
  cases hmet <;> exact ⟨rfl, rfl⟩

/-! ### Types without errors -/

mutual

/-- Whether no part of a type is an error, and every struct has a member for each label. -/
def isErrorFree : Ty → Bool
  | .pointer p _ => p.isErrorFree
  | .struct _ ls ts => ls.length == ts.length && allErrorFree ts
  | .array e ts => e.isErrorFree && allErrorFree ts
  | .tuple ts => allErrorFree ts
  | .function ps r _ => allErrorFree ps && r.isErrorFree
  | .error _ => false
  | _ => true

def allErrorFree : List Ty → Bool
  | [] => true
  | t :: ts => t.isErrorFree && allErrorFree ts

end

mutual

theorem plain_of_isErrorFree : ∀ {t : Ty}, t.isErrorFree = true → t.plain = t
  | .pointer p _, h => by rw [plain, plain_of_isErrorFree (t := p) h]
  | .struct _ ls ts, h => by
    rw [isErrorFree, Bool.and_eq_true] at h
    rw [plain, plains_of_allErrorFree h.2]
  | .array e ts, h => by
    rw [isErrorFree, Bool.and_eq_true] at h
    rw [plain, plain_of_isErrorFree h.1, plains_of_allErrorFree h.2]
  | .tuple ts, h => by rw [plain, @plains_of_allErrorFree ts h]
  | .function ps r _, h => by
    rw [isErrorFree, Bool.and_eq_true] at h
    rw [plain, plains_of_allErrorFree h.1, plain_of_isErrorFree h.2]
  | .error _, h => by contradiction
  | .int .., _ | .float .., _ | .bool _, _ | .rune _, _ | .string _, _ | .void, _ | .control _, _
  | .memory, _ => rfl

theorem plains_of_allErrorFree : ∀ {ts : List Ty}, allErrorFree ts = true → plains ts = ts
  | [], _ => rfl
  | t :: ts, h => by
    rw [allErrorFree, Bool.and_eq_true] at h
    rw [plains, plain_of_isErrorFree h.1, plains_of_allErrorFree h.2]

end

theorem beq_iff_eq_of_isErrorFree (ha : a.isErrorFree = true) (hb : b.isErrorFree = true) :
    (a == b) = true ↔ a = b := by
  rw [beq_iff, plain_of_isErrorFree ha, plain_of_isErrorFree hb]

theorem beqList_iff_eq_of_allErrorFree (ht : allErrorFree ts = true) (hu : allErrorFree us = true) :
    beqList ts us = true ↔ ts = us := by
  rw [beqList_iff_plains, plains_of_allErrorFree ht, plains_of_allErrorFree hu]

theorem isError_of_isErrorFree (h : t.isErrorFree = true) : t.isError = false := by
  cases t <;> first | rfl | contradiction

/-! ### Meets without errors -/

theorem allErrorFree_iff : allErrorFree ts = true ↔ ∀ t ∈ ts, t.isErrorFree = true := by
  induction ts with
  | nil => simp [allErrorFree]
  | cons t ts ih => simp [allErrorFree, ih]

theorem mem_paired {f : Ty → Ty → Ty} {v : Ty} (hvs : List.zipWith f ts us = vs)
    (hno : vs.any isError = false) (hv : v ∈ vs) :
    ∃ t ∈ ts, ∃ u ∈ us, v = f t u ∧ (f t u).isError = false := by
  have hno : v.isError = false := by simpa using List.any_eq_false.1 hno v hv
  rw [← hvs, ← List.map_uncurry_zip_eq_zipWith] at hv
  obtain ⟨⟨t, u⟩, hmem, rfl⟩ := List.mem_map.1 hv
  obtain ⟨ht, hu⟩ := List.of_mem_zip hmem
  exact ⟨t, ht, u, hu, rfl, hno⟩

theorem isErrorFree_meet (ha : a.isErrorFree = true) (hb : b.isErrorFree = true)
    (h : (a.meet b).isError = false) : (a.meet b).isErrorFree = true := by
  induction a using members_induction generalizing b with
  | h a ih =>
    have hmembers : ∀ {us vs}, List.zipWith meet a.members us = vs → vs.any isError = false →
        allErrorFree a.members = true → allErrorFree us = true → allErrorFree vs = true := by
      intro us vs hvs hno ha hb
      rw [allErrorFree_iff] at ha hb ⊢
      intro v hv
      obtain ⟨t, ht, u, hu, rfl, hno⟩ := mem_paired hvs hno hv
      exact ih t ht (ha t ht) (hb u hu) hno
    have hmet := met_meet h
    generalize a.meet b = r at hmet
    cases hmet with
    | @struct _ _ _ _ _ vs hvs hno =>
      rw [isErrorFree, Bool.and_eq_true] at ha hb
      have hall := allErrorFree_iff.1 (hmembers hvs hno ha.2 hb.2)
      rw [isErrorFree, Bool.and_eq_true, allErrorFree_iff]
      exact ⟨by simp [Nat.min_comm], fun v hv => hall v (List.mem_of_mem_take hv)⟩
    | array e f hvs hno _ =>
      rw [isErrorFree, Bool.and_eq_true] at ha hb ⊢
      exact ⟨ha.1, hmembers hvs hno ha.2 hb.2⟩
    | tuple hvs hno _ => exact hmembers hvs hno ha hb
    | pointer l m hr => rcases hr with rfl | rfl <;> assumption
    | function l m _ => exact ha
    | _ => rfl

/-! ### Two types -/

theorem sortedPair_comm (x y : String) : sortedPair x y = sortedPair y x := by
  unfold sortedPair
  rcases lt_trichotomy x y with h | rfl | h
  · rw [if_neg h.asymm, if_pos h]
  · rfl
  · rw [if_pos h, if_neg h.asymm]

theorem mismatched_comm (a b : Ty) : mismatched a b = mismatched b a := by
  unfold mismatched
  rw [sortedPair_comm]

theorem isUntypedNil_iff {p : Ty} {l : Level Unit} :
    isUntypedNil p l = true ↔ p = .void ∧ l = .const () := by
  cases p <;> cases l <;> simp [isUntypedNil]

theorem sameShape_comm (a b : Ty) : a.sameShape b = b.sameShape a := by
  rw [Bool.eq_iff_iff, sameShape_iff, sameShape_iff, eq_comm]

theorem sameSignature_iff {ps qs : List Ty} {r s : Ty} : sameSignature ps r qs s = true ↔
    ps.map shape = qs.map shape ∧ r.shape = s.shape := by
  have hall : ps.length = qs.length ∧ (ps.zip qs).all (fun p => p.1.sameShape p.2) = true ↔
      ps.map shape = qs.map shape := by
    induction ps generalizing qs with
    | nil => cases qs <;> simp
    | cons p ps ih =>
      cases qs with
      | nil => simp
      | cons q qs =>
        simp only [List.length_cons, Nat.add_right_cancel_iff, List.zip_cons_cons, List.all_cons,
          Bool.and_eq_true, sameShape_iff, List.map_cons, List.cons.injEq] at ih ⊢
        rw [← ih]
        tauto
  simp only [sameSignature, Bool.and_eq_true, beq_iff_eq, sameShape_iff, hall]

theorem sameSignature_comm (ps qs : List Ty) (r s : Ty) :
    sameSignature ps r qs s = sameSignature qs s ps r := by
  rw [Bool.eq_iff_iff, sameSignature_iff, sameSignature_iff]
  exact and_congr eq_comm eq_comm

mutual

/-- Whether two types are the same, wherever they meet, in what a meet takes from its left operand. -/
def agrees : Ty → Ty → Bool
  | .pointer p l, .pointer q m =>
    isUntypedNil p l || isUntypedNil q m || !p.sameShape q || p == q
  | .struct _ ls ts, .struct _ ks us => ls.take ks.length == ks.take ls.length && agreesAll ts us
  | .array e ts, .array f us => e == f && agreesAll ts us
  | .tuple ts, .tuple us => agreesAll ts us
  | .function ps r _, .function qs s _ => !sameSignature ps r qs s || beqList ps qs && r == s
  | _, _ => true

def agreesAll : List Ty → List Ty → Bool
  | t :: ts, u :: us => t.agrees u && agreesAll ts us
  | _, _ => true

end

/-- The meets `x` and `y` of two types in both orders: they are the same if there is an error, and
else exactly if the types agree. -/
structure Swaps (x y : Ty) (agree : Bool) : Prop where
  left : x.isError = true → x = y
  right : y.isError = true → x = y
  same : x.isError = false → (x = y ↔ agree = true)

namespace Swaps

variable {x y : Ty} {agree : Bool}

theorem of_eq (h : x = y) (hagree : agree = true) : Swaps x y agree :=
  ⟨fun _ => h, fun _ => h, fun _ => iff_of_true h hagree⟩

theorem of_error (h : x = y) (hx : x.isError = true) : Swaps x y agree :=
  ⟨fun _ => h, fun _ => h, fun hfalse => by simp [hx] at hfalse⟩

theorem of_iff (hx : x.isError = false) (hy : y.isError = false) (h : x = y ↔ agree = true) :
    Swaps x y agree :=
  ⟨fun htrue => by simp [hx] at htrue, fun htrue => by simp [hy] at htrue, fun _ => h⟩

theorem isError_eq (h : Swaps x y agree) : x.isError = y.isError := by
  cases hx : x.isError with
  | true => rw [← h.left hx, hx]
  | false =>
    cases hy : y.isError with
    | true => rw [h.right hy, hy] at hx; contradiction
    | false => rfl

theorem eq_iff (h : Swaps x y agree) : x = y ↔ x.isError = true ∨ agree = true := by
  cases hx : x.isError with
  | true => simp [h.left hx]
  | false => simp [h.same hx]

theorem collect {left right : List Ty → Ty} {xs ys : List Ty}
    (hleft : ∀ vs, (left vs).isError = false) (hright : ∀ vs, (right vs).isError = false)
    (hfirst : firstError? xs = firstError? ys)
    (h : xs.any isError = false → (left xs = right ys ↔ agree = true)) :
    Swaps (collect left xs) (collect right ys) agree := by
  cases hxs : xs.any isError with
  | true =>
    refine of_error ?_ (isError_collect_of left hxs)
    cases hx : firstError? xs with
    | none => simp [firstError?_eq_none_iff.1 hx] at hxs
    | some e => rw [Ty.collect, Ty.collect, ← hfirst, hx]
  | false =>
    have hys : ys.any isError = false := by
      rw [← firstError?_eq_none_iff, ← hfirst, firstError?_eq_none_iff, hxs]
    rw [collect_eq hxs, collect_eq hys]
    exact of_iff (hleft xs) (hright ys) (h hxs)

end Swaps

theorem swaps_meetPointer {p q : Ty} (l m : Level Unit) (hp : p.isErrorFree = true)
    (hq : q.isErrorFree = true) :
    Swaps (meetPointer p l q m) (meetPointer q m p l) ((pointer p l).agrees (pointer q m)) := by
  unfold meetPointer agrees
  rw [sameShape_comm q p, Level.meet_comm m l]
  cases hnil : isUntypedNil p l with
  | true =>
    cases hnil' : isUntypedNil q m with
    | true =>
      obtain ⟨rfl, -⟩ := isUntypedNil_iff.1 hnil
      obtain ⟨rfl, -⟩ := isUntypedNil_iff.1 hnil'
      exact .of_eq rfl rfl
    | false => exact .of_eq rfl rfl
  | false =>
    cases hnil' : isUntypedNil q m with
    | true => exact .of_eq rfl rfl
    | false =>
      cases p.sameShape q with
      | true =>
        refine .of_iff rfl rfl ?_
        simp [beq_iff_eq_of_isErrorFree hp hq]
      | false =>
        rw [sortedPair_comm]
        exact .of_error rfl rfl

theorem swaps_members (h : ∀ t ∈ ts, ∀ {u}, t.isErrorFree = true → u.isErrorFree = true →
      Swaps (t.meet u) (u.meet t) (t.agrees u))
    (ht : allErrorFree ts = true) (hu : allErrorFree us = true) :
    firstError? (List.zipWith meet ts us) = firstError? (List.zipWith meet us ts) ∧
      ((List.zipWith meet ts us).any isError = false →
        (List.zipWith meet ts us = List.zipWith meet us ts ↔ agreesAll ts us = true)) := by
  induction ts generalizing us with
  | nil => cases us <;> simp [agreesAll]
  | cons t ts ih =>
    cases us with
    | nil => simp [agreesAll]
    | cons u us =>
      rw [allErrorFree, Bool.and_eq_true] at ht hu
      have hhead := h t (.head _) ht.1 hu.1
      obtain ⟨hfirst, hsame⟩ := ih (fun t ht => h t (.tail _ ht)) ht.2 hu.2
      rw [List.zipWith_cons_cons, List.zipWith_cons_cons, agreesAll, Bool.and_eq_true]
      refine ⟨?_, fun hxs => ?_⟩
      · cases hx : (t.meet u).isError with
        | true =>
          rw [← hhead.left hx]
          obtain ⟨e, he⟩ := isError_iff.1 hx
          rw [he]
          rfl
        | false =>
          have hy := hhead.isError_eq.symm.trans hx
          rw [firstError?_cons_of_not hx, firstError?_cons_of_not hy, hfirst]
      · rw [List.any_cons, Bool.or_eq_false_iff] at hxs
        rw [List.cons.injEq, hhead.same hxs.1, hsame hxs.2]

/-- Two types meet in the same type in both orders if there is an error, and else exactly if they
agree. -/
theorem swaps_meet (ha : a.isErrorFree = true) (hb : b.isErrorFree = true) :
    Swaps (a.meet b) (b.meet a) (a.agrees b) := by
  induction a using members_induction generalizing b with
  | h a ih =>
    by_cases hkind : a.kind = b.kind
    · cases paired_of_kind hkind with
      | int w v l m =>
        rw [meet, meet, IntWidth.unify?_comm v w, Level.meet_comm m l]
        cases w.unify? v with
        | some u => exact .of_eq rfl rfl
        | none => exact .of_error (mismatched_comm _ _) rfl
      | float w v l m =>
        rw [meet, meet, FloatWidth.unify?_comm v w, Level.meet_comm m l]
        cases w.unify? v with
        | some u => exact .of_eq rfl rfl
        | none => exact .of_error (mismatched_comm _ _) rfl
      | bool l m | rune l m | string l m => exact .of_eq (by rw [meet, meet, Level.meet_comm]) rfl
      | pointer p q l m =>
        exact swaps_meetPointer l m ha hb
      | function ps qs r s l m =>
        rw [isErrorFree, Bool.and_eq_true] at ha hb
        rw [meet, meet, agrees, sameSignature_comm qs ps, Level.meet_comm m l]
        cases sameSignature ps r qs s with
        | true =>
          refine .of_iff rfl rfl ?_
          simp [beq_iff_eq_of_isErrorFree ha.2 hb.2, beqList_iff_eq_of_allErrorFree ha.1 hb.1]
        | false => exact .of_error (mismatched_comm _ _) rfl
      | control l m => exact .of_eq (by rw [meet, meet, Bool.or_comm]) rfl
      | void | memory => exact .of_eq rfl rfl
      | struct n m ls ks ts us =>
        rw [isErrorFree, Bool.and_eq_true, beq_iff_eq] at ha hb
        by_cases hn : n = m
        · subst hn
          obtain ⟨hfirst, hsame⟩ := @swaps_members ts us ih ha.2 hb.2
          rw [meet_struct_of_length ha.1, meet_struct_of_length hb.1]
          refine .collect (fun _ => rfl) (fun _ => rfl) hfirst fun hxs => ?_
          rw [struct.injEq, agrees, Bool.and_eq_true, hsame hxs, hb.1, ha.1]
          simp
        · rw [meet, meet, if_neg hn, if_neg (Ne.symm hn), mismatched_comm]
          exact .of_error rfl rfl
      | array e f ts us =>
        rw [isErrorFree, Bool.and_eq_true] at ha hb
        by_cases hlength : ts.length = us.length
        · obtain ⟨hfirst, hsame⟩ := @swaps_members ts us ih ha.2 hb.2
          rw [meet_array hlength, meet_array hlength.symm]
          refine .collect (fun _ => rfl) (fun _ => rfl) hfirst fun hxs => ?_
          rw [array.injEq, agrees, Bool.and_eq_true, hsame hxs, beq_iff_eq_of_isErrorFree ha.1 hb.1]
        · rw [meet, meet, if_neg hlength, if_neg (Ne.symm hlength), mismatched_comm]
          exact .of_error rfl rfl
      | tuple ts us =>
        by_cases hlength : ts.length = us.length
        · obtain ⟨hfirst, hsame⟩ := @swaps_members ts us ih ha hb
          rw [meet_tuple hlength, meet_tuple hlength.symm]
          refine .collect (fun _ => rfl) (fun _ => rfl) hfirst fun hxs => ?_
          rw [tuple.injEq, agrees, hsame hxs]
        · rw [meet, meet, if_neg hlength, if_neg (Ne.symm hlength), mismatched_comm]
          exact .of_error rfl rfl
      | error => contradiction
    · have ha := isError_of_isErrorFree ha
      have hb := isError_of_isErrorFree hb
      rw [meet_of_kind_ne hkind ha hb, meet_of_kind_ne (Ne.symm hkind) hb ha, mismatched_comm]
      exact .of_error rfl rfl

theorem beq_meet_comm_iff (ha : a.isErrorFree = true) (hb : b.isErrorFree = true) :
    (a.meet b == b.meet a) = true ↔ (a.meet b).isError = true ∨ a.agrees b = true := by
  have hswaps := swaps_meet ha hb
  rw [← hswaps.eq_iff]
  cases hab : (a.meet b).isError with
  | true => simp [hswaps.left hab, beq_iff]
  | false =>
    have hba := hswaps.isError_eq.symm.trans hab
    exact beq_iff_eq_of_isErrorFree (isErrorFree_meet ha hb hab) (isErrorFree_meet hb ha hba)

end Ty

end SeaOfNodes
