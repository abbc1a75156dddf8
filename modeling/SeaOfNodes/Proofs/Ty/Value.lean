import SeaOfNodes.Build.Request

/-!
The values that a type describes. `Ty.Describes` gives a type its meaning: a level that is known
describes one value, the bottom level all values of the kind, and the top level none.

Types of one shape that are no errors merge without one, and the merge describes the values of both
(`describes_inferCases`). A type that is known describes no value but one (`Describes.value?_eq`).
-/
namespace SeaOfNodes

inductive Value where
  | int (value : Int)
  | float (value : Double)
  | bool (value : Bool)
  | rune (value : Char)
  | string (value : String)
  /-- `nil` has no address. -/
  | pointer (address : Option Nat)
  | function (name : String)
  | aggregate (members : List Value)
  | void

def Level.Describes {α : Type} : Level α → α → Prop
  | .top, _ => False
  | .const a, v => v = a
  | .bottom, _ => True

theorem Level.Describes.meet {α : Type} [DecidableEq α] {l m : Level α} {v : α}
    (h : l.Describes v ∨ m.Describes v) : (l.meet m).Describes v := by
  cases l <;> cases m <;> grind [Level.Describes, meet]

theorem Level.Describes.const?_eq {α : Type} {l : Level α} {v : α} (h : l.Describes v)
    (hc : l.isConst = true) : l.const? = some v := by
  cases l <;> simp_all [Level.Describes, isConst, const?]

namespace Ty

variable {a b t : Ty} {ts : List Ty}

/-- The types that a type is made of. -/
def parts : Ty → List Ty
  | .pointer p _ => [p]
  | .struct _ _ ts | .tuple ts => ts
  | .array e ts => e :: ts
  | .function ps r _ => r :: ps
  | _ => []

theorem sizeOf_lt_of_mem_parts {u : Ty} (h : u ∈ t.parts) : sizeOf u < sizeOf t := by
  cases t <;> simp only [parts, List.mem_cons, List.not_mem_nil, or_false] at h
  case struct | tuple =>
    have := List.sizeOf_lt_of_mem h
    simp
    omega
  case pointer =>
    simp [h]
    omega
  all_goals
    rcases h with rfl | h
    · simp
      omega
    · have := List.sizeOf_lt_of_mem h
      simp
      omega

/-- What holds of a type if it holds of the types that it is made of holds of all types. -/
theorem parts_induction {P : Ty → Prop} (h : ∀ t, (∀ u ∈ t.parts, P u) → P t) (t : Ty) : P t :=
  h t fun u _ => parts_induction h u
termination_by sizeOf t
decreasing_by exact sizeOf_lt_of_mem_parts ‹_›

theorem mem_parts_of_mem_members {m : Ty} (h : m ∈ t.members) : m ∈ t.parts := by
  cases t <;> first | exact h | exact .tail _ h | contradiction

theorem members_induction {P : Ty → Prop} (h : ∀ t, (∀ m ∈ t.members, P m) → P t) (t : Ty) : P t :=
  parts_induction (fun t ih => h t fun m hm => ih m (mem_parts_of_mem_members hm)) t

/-- The values that a level of pointers describes: the pointer that is known is `nil`. -/
def describesAddress : Level Unit → Option Nat → Prop
  | .top, _ => False
  | .const _, address => address = none
  | .bottom, _ => True

mutual

/-- Whether a value is one of those that a type stands for. -/
def Describes : Ty → Value → Prop
  | .int w l, .int v => w.fits v = true ∧ l.Describes v
  | .float _ l, .float v => l.Describes v
  | .bool l, .bool v => l.Describes v
  | .rune l, .rune v => l.Describes v
  | .string l, .string v => l.Describes v
  | .pointer _ l, .pointer address => describesAddress l address
  | .function _ _ l, .function name => l.Describes name
  | .struct _ _ ts, .aggregate vs => DescribesAll ts vs
  | .array _ ts, .aggregate vs => DescribesAll ts vs
  | .tuple ts, .aggregate vs => DescribesAll ts vs
  | .void, .void => True
  | _, _ => False

def DescribesAll : List Ty → List Value → Prop
  | [], [] => True
  | t :: ts, v :: vs => Describes t v ∧ DescribesAll ts vs
  | _, _ => False

end

/-! ### Types without origins -/

mutual

/-- The type with the origins of all its errors taken away. -/
def plain : Ty → Ty
  | .pointer p l => .pointer p.plain l
  | .struct n ls ts => .struct n ls (plains ts)
  | .array e ts => .array e.plain (plains ts)
  | .tuple ts => .tuple (plains ts)
  | .function ps r l => .function (plains ps) r.plain l
  | .error b => .error ⟨b.message, none⟩
  | t => t

def plains : List Ty → List Ty
  | [] => []
  | t :: ts => t.plain :: plains ts

end

mutual

theorem beq_iff_plain : ∀ a b : Ty, a.beq b = true ↔ a.plain = b.plain
  | .int .., b | .float .., b | .bool _, b | .rune _, b | .string _, b =>
    by cases b <;> simp [beq, plain]
  | .pointer p _, b => by
    cases b with
    | pointer q _ => simp [beq, plain, beq_iff_plain p q]
    | _ => simp [beq, plain]
  | .struct _ _ ts, b => by
    cases b with
    | struct _ _ us => simp [beq, plain, beqList_iff_plains ts us, and_assoc]
    | _ => simp [beq, plain]
  | .array e ts, b => by
    cases b with
    | array f us => simp [beq, plain, beq_iff_plain e f, beqList_iff_plains ts us]
    | _ => simp [beq, plain]
  | .tuple ts, b => by
    cases b with
    | tuple us => simp [beq, plain, beqList_iff_plains ts us]
    | _ => simp [beq, plain]
  | .function ps r _, b => by
    cases b with
    | function qs s _ =>
      simp [beq, plain, beq_iff_plain r s, beqList_iff_plains ps qs, and_assoc]
    | _ => simp [beq, plain]
  | .void, b | .control _, b | .memory, b => by cases b <;> simp [beq, plain]
  | .error e, b => by
    cases b with
    | error f =>
      simp only [beq, plain, error.injEq, Blame.mk.injEq, and_true]
      exact beq_iff_eq (b := f.message)
    | _ => simp [beq, plain]

theorem beqList_iff_plains : ∀ ts us : List Ty, beqList ts us = true ↔ plains ts = plains us
  | [], us => by cases us <;> simp [beqList, plains]
  | t :: ts, us => by
    cases us with
    | nil => simp [beqList, plains]
    | cons u us => simp [beqList, plains, beq_iff_plain t u, beqList_iff_plains ts us]

end

theorem beq_iff : (a == b) = true ↔ a.plain = b.plain := beq_iff_plain a b

mutual

theorem plain_stamp : ∀ (n : Nat) (t : Ty), (t.stamp n).1.plain = t.plain
  | n, .pointer p l => by simp [stamp, plain, plain_stamp n p]
  | n, .struct _ _ ts => by simp [stamp, plain, plains_stamps n ts]
  | n, .array e ts => by simp [stamp, plain, plain_stamp n e, plains_stamps _ ts]
  | n, .tuple ts => by simp [stamp, plain, plains_stamps n ts]
  | n, .function ps r _ => by simp [stamp, plain, plains_stamps n ps, plain_stamp _ r]
  | n, .error ⟨message, origin⟩ => by cases origin <;> simp [stamp, plain, Blame.stamp]
  | n, .int .. | n, .float .. | n, .bool _ | n, .rune _ | n, .string _ | n, .void
  | n, .control _ | n, .memory => by simp [stamp]

theorem plains_stamps : ∀ (n : Nat) (ts : List Ty), plains (stamps n ts).1 = plains ts
  | _, [] => rfl
  | n, t :: ts => by simp [stamps, plains, plain_stamp n t, plains_stamps _ ts]

end

mutual

theorem describes_plain : ∀ (t : Ty) (v : Value), t.plain.Describes v ↔ t.Describes v
  | .struct _ _ ts, v | .array _ ts, v | .tuple ts, v => by
    cases v with
    | aggregate vs => simp [plain, Describes, describesAll_plains ts vs]
    | _ => simp [plain, Describes]
  | .pointer .., v | .function .., v | .error _, v => by cases v <;> simp [plain, Describes]
  | .int .., _ | .float .., _ | .bool _, _ | .rune _, _ | .string _, _ | .void, _
  | .control _, _ | .memory, _ => by simp [plain]

theorem describesAll_plains : ∀ (ts : List Ty) (vs : List Value),
    DescribesAll (plains ts) vs ↔ DescribesAll ts vs
  | [], _ => by simp [plains]
  | t :: ts, vs => by
    cases vs with
    | nil => simp [plains, DescribesAll]
    | cons v vs => simp [plains, DescribesAll, describes_plain t v, describesAll_plains ts vs]

end

theorem describes_congr (h : a.plain = b.plain) (v : Value) : a.Describes v ↔ b.Describes v := by
  rw [← describes_plain a, h, describes_plain b]

/-! ### Shapes -/

theorem plains_eq_map (ts : List Ty) : plains ts = ts.map plain := by
  induction ts with
  | nil => rfl
  | cons t ts ih => simp [plains, ih]

theorem plain_withLevel (bottom : Bool) (t : Ty) :
    (t.withLevel bottom).plain = t.plain.withLevel bottom := by
  induction t using members_induction with
  | h t ih => cases t <;> simp_all [withLevel, plain, members, withLevels_eq_map, plains_eq_map]

/-- The declared type, without origins of errors. -/
def shape (t : Ty) : Ty := t.bottom.plain

theorem sameShape_iff : a.sameShape b = true ↔ a.shape = b.shape := beq_iff

theorem shape_congr (h : a.plain = b.plain) : a.shape = b.shape := by
  unfold shape bottom
  rw [plain_withLevel, plain_withLevel, h]

theorem sameShape_of_plain (h : a.plain = b.plain) : a.sameShape b = true :=
  sameShape_iff.2 (shape_congr h)

theorem plains_bottoms (ts : List Ty) : plains (withLevels true ts) = ts.map shape := by
  rw [plains_eq_map, withLevels_eq_map, List.map_map]
  rfl

theorem shape_struct (n : String) (ls : List String) (ts : List Ty) :
    (struct n ls ts).shape = .struct n ls (ts.map shape) := by
  simp [shape, bottom, withLevel, plain, withLevels_eq_map, plains_eq_map]

theorem shape_array (e : Ty) (ts : List Ty) :
    (array e ts).shape = .array e.plain (ts.map shape) := by
  simp [shape, bottom, withLevel, plain, withLevels_eq_map, plains_eq_map]

theorem shape_tuple (ts : List Ty) : (tuple ts).shape = .tuple (ts.map shape) := by
  simp [shape, bottom, withLevel, plain, withLevels_eq_map, plains_eq_map]

theorem shape_pointer (p : Ty) (l : Level Unit) :
    (pointer p l).shape = .pointer p.plain .bottom := by
  simp [shape, bottom, withLevel, plain]

theorem sameSignature_of_plain {ps qs : List Ty} {r s : Ty} (hp : ps.map plain = qs.map plain)
    (hr : r.plain = s.plain) : sameSignature ps r qs s = true := by
  have hlength : ps.length = qs.length := by simpa using congrArg List.length hp
  have hzip : (ps.zip qs).all (fun p => p.1.sameShape p.2) = true := by
    induction ps generalizing qs with
    | nil => rfl
    | cons p ps ih =>
      cases qs with
      | nil => rfl
      | cons q qs =>
        obtain ⟨hhead, htail⟩ := List.cons.inj hp
        simp [sameShape_of_plain hhead, ih htail (by simpa using hlength)]
  simp [sameSignature, hlength, hzip, sameShape_of_plain hr]

mutual

/-- Whether a value of the type has no error among its parts, and a member for each label. -/
def isProper : Ty → Bool
  | .struct _ ls ts => ls.length == ts.length && allProper ts
  | .array _ ts | .tuple ts => allProper ts
  | .error _ => false
  | _ => true

def allProper : List Ty → Bool
  | [] => true
  | t :: ts => t.isProper && allProper ts

end

theorem allProper_iff : allProper ts = true ↔ ∀ t ∈ ts, t.isProper = true := by
  induction ts with
  | nil => simp [allProper]
  | cons t ts ih => simp [allProper, ih]

theorem isProper_shape (t : Ty) : t.shape.isProper = t.isProper := by
  induction t using members_induction with
  | h t ih =>
    rw [Bool.eq_iff_iff]
    cases t with
    | struct n ls ts | array e ts | tuple ts =>
      simp_all [shape_struct, shape_array, shape_tuple, isProper, members, allProper_iff]
    | _ => simp [shape, bottom, withLevel, plain, isProper]

theorem isProper_congr (h : a.shape = b.shape) : a.isProper = b.isProper := by
  rw [← isProper_shape a, h, isProper_shape b]

/-! ### Merges -/

structure Covers (a b t : Ty) : Prop where
  shape : t.shape = a.shape
  describes : ∀ v, a.Describes v ∨ b.Describes v → t.Describes v

theorem Covers.isProper {t : Ty} (h : Covers a b t) (ha : a.isProper = true) : t.isProper = true :=
  (isProper_congr h.shape).trans ha

theorem covers_meetPointer {p q : Ty} {l m : Level Unit} (h : p.plain = q.plain) :
    Covers (.pointer p l) (.pointer q m) (meetPointer p l q m) := by
  have hlevel : ∀ v : Value, (pointer p l).Describes v ∨ (pointer q m).Describes v →
      ∀ r, (pointer r (l.meet m)).Describes v := by
    intro v hv r
    cases v with
    | pointer address =>
      simp only [Describes] at hv ⊢
      cases l <;> cases m <;> simp_all [describesAddress, Level.meet]
    | _ => simp [Describes] at hv
  unfold meetPointer
  split
  · exact ⟨by simp [shape_pointer, h], fun v hv => hlevel v hv q⟩
  · rw [if_pos (by simp [sameShape_of_plain h])]
    exact ⟨rfl, fun v hv => hlevel v hv p⟩

mutual

/-- Types of one shape meet in a type of that shape, which describes the values of both. -/
theorem covers_meet : ∀ {a b : Ty}, a.shape = b.shape → a.isProper = true → Covers a b (a.meet b)
  | .int w l, b, h, _ => by
    cases b <;> simp [shape, bottom, withLevel, plain] at h
    subst h
    have hunify : w.unify? w = some w := by cases w <;> rfl
    simp only [meet, hunify]
    refine ⟨by simp [shape, bottom, withLevel], fun v hv => ?_⟩
    cases v <;> simp only [Describes, or_self] at hv ⊢
    exact ⟨hv.elim And.left And.left, .meet (hv.imp And.right And.right)⟩
  | .float w l, b, h, _ => by
    cases b <;> simp [shape, bottom, withLevel, plain] at h
    subst h
    have hunify : w.unify? w = some w := by cases w <;> rfl
    simp only [meet, hunify]
    refine ⟨by simp [shape, bottom, withLevel], fun v hv => ?_⟩
    cases v <;> simp only [Describes, or_self] at hv ⊢
    exact .meet hv
  | .bool l, b, h, _ | .rune l, b, h, _ | .string l, b, h, _ => by
    cases b <;> simp [shape, bottom, withLevel, plain] at h
    rw [meet]
    refine ⟨by simp [shape, bottom, withLevel], fun v hv => ?_⟩
    cases v <;> simp only [Describes, or_self] at hv ⊢
    exact .meet hv
  | .pointer p l, b, h, _ => by
    cases b <;> simp [shape, bottom, withLevel, plain] at h
    rw [meet]
    exact covers_meetPointer h
  | .function ps r l, b, h, _ => by
    cases b <;> simp [shape, bottom, withLevel, plain] at h
    rw [plains_eq_map, plains_eq_map] at h
    rw [meet, if_pos (sameSignature_of_plain h.1 h.2)]
    refine ⟨by simp [shape, bottom, withLevel], fun v hv => ?_⟩
    cases v <;> simp only [Describes, or_self] at hv ⊢
    exact .meet hv
  | .struct n ls ts, b, h, hp => by
    cases b <;> simp [shape, bottom, withLevel, plain, plains_bottoms] at h
    obtain ⟨rfl, rfl, h⟩ := h
    simp only [isProper, Bool.and_eq_true, beq_iff_eq] at hp
    obtain ⟨vs, hvs, hshapes, hdescribes⟩ := covers_meets h hp.2
    -- There is a label for each member, so none is dropped.
    have hlength : ls.length = vs.length := by
      have hmembers := congrArg List.length hshapes
      simp only [List.length_map] at hmembers
      omega
    rw [meet, if_pos rfl, hvs]
    simp only [← hlength, List.take_length]
    rw [hlength, List.take_length]
    refine ⟨by simp [shape_struct, hshapes], fun v hv => ?_⟩
    cases v <;> simp only [Describes, or_self] at hv ⊢
    exact hdescribes _ hv
  | .array e ts, b, h, hp => by
    cases b <;> simp [shape, bottom, withLevel, plain, plains_bottoms] at h
    obtain ⟨vs, hvs, hshapes, hdescribes⟩ := covers_meets h.2 hp
    have hlength := congrArg List.length h.2
    simp only [List.length_map] at hlength
    rw [meet, if_pos hlength, hvs]
    refine ⟨by simp [shape_array, hshapes], fun v hv => ?_⟩
    cases v <;> simp only [Describes, or_self] at hv ⊢
    exact hdescribes _ hv
  | .tuple ts, b, h, hp => by
    cases b <;> simp [shape, bottom, withLevel, plain, plains_bottoms] at h
    obtain ⟨vs, hvs, hshapes, hdescribes⟩ := covers_meets h hp
    have hlength := congrArg List.length h
    simp only [List.length_map] at hlength
    rw [meet, if_pos hlength, hvs]
    refine ⟨by simp [shape_tuple, hshapes], fun v hv => ?_⟩
    cases v <;> simp only [Describes, or_self] at hv ⊢
    exact hdescribes _ hv
  | .void, b, h, _ | .memory, b, h, _ => by
    cases b <;> simp [shape, bottom, withLevel, plain] at h
    rw [meet]
    exact ⟨rfl, fun v hv => hv.elim id id⟩
  | .control _, b, h, _ => by
    cases b <;> simp [shape, bottom, withLevel, plain] at h
    rw [meet]
    exact ⟨by simp [shape, bottom, withLevel], fun v hv => by cases v <;> simp [Describes] at hv⟩
  | .error _, b, h, hp => by simp [isProper] at hp

theorem covers_meets : ∀ {ts us : List Ty}, ts.map shape = us.map shape → allProper ts = true →
    ∃ vs, meets ts us = .ok vs ∧ vs.map shape = ts.map shape ∧
      ∀ xs, DescribesAll ts xs ∨ DescribesAll us xs → DescribesAll vs xs
  | [], us, h, _ => by
    obtain rfl : us = [] := by simpa using h.symm
    exact ⟨[], by simp [meets], rfl, fun xs hxs => hxs.elim id id⟩
  | t :: ts, us, h, hp => by
    cases us with
    | nil => simp at h
    | cons u us =>
      obtain ⟨hhead, htail⟩ := List.cons.inj h
      rw [allProper, Bool.and_eq_true] at hp
      have hmeet := covers_meet hhead hp.1
      obtain ⟨vs, hvs, hshapes, hdescribes⟩ := covers_meets htail hp.2
      have hproper := hmeet.isProper hp.1
      refine ⟨t.meet u :: vs, ?_, by simp [hmeet.shape, hshapes], fun xs hxs => ?_⟩
      · rw [meets, hvs]
        split
        · rename_i e he
          rw [he] at hproper
          contradiction
        · rfl
      · cases xs <;> simp only [DescribesAll, or_self] at hxs ⊢
        exact ⟨hmeet.describes _ (hxs.imp And.left And.left),
          hdescribes _ (hxs.imp And.right And.right)⟩

end

theorem covers_phi (h : a.shape = b.shape) (hp : a.isProper = true) : Covers a b (a.phi b) := by
  unfold phi
  split
  · rename_i heq
    exact ⟨rfl, fun v hv => hv.elim id (describes_congr (beq_iff.1 heq) v).2⟩
  · exact covers_meet h hp

theorem describes_inferCases {s : Ty} {ts : List Ty} (hs : s.isProper = true) (hne : ts ≠ [])
    (h : ∀ t ∈ ts, t.shape = s.shape) :
    (inferCases ts).shape = s.shape ∧
      ∀ t ∈ ts, ∀ v, t.Describes v → (inferCases ts).Describes v := by
  obtain ⟨first, rest, rfl⟩ := List.exists_cons_of_ne_nil hne
  rw [inferCases]
  -- The merge so far describes the values of the types before it.
  clear hne
  induction rest generalizing first with
  | nil => exact ⟨h first List.mem_cons_self, fun t ht v hv => by simp_all⟩
  | cons next rest ih =>
    have hfirst := h first List.mem_cons_self
    have hnext := h next (by simp)
    have hphi := covers_phi (hfirst.trans hnext.symm) ((isProper_congr hfirst).trans hs)
    have hall : ∀ t ∈ first.phi next :: rest, t.shape = s.shape := by
      refine List.forall_mem_cons.2 ⟨hphi.shape.trans hfirst, fun t ht => h t (by simp [ht])⟩
    obtain ⟨hshape, hdescribes⟩ := ih _ hall
    refine ⟨hshape, fun t ht v hv => ?_⟩
    rcases List.mem_cons.1 ht with rfl | ht
    · exact hdescribes _ List.mem_cons_self v (hphi.describes v (.inl hv))
    · rcases List.mem_cons.1 ht with rfl | ht
      · exact hdescribes _ List.mem_cons_self v (hphi.describes v (.inr hv))
      · exact hdescribes t (List.mem_cons_of_mem _ ht) v hv

/-! ### Known values -/

mutual

/-- The value of a type that is known. -/
def value? : Ty → Option Value
  | .int _ l => l.const?.map .int
  | .float _ l => l.const?.map .float
  | .bool l => l.const?.map .bool
  | .rune l => l.const?.map .rune
  | .string l => l.const?.map .string
  | .pointer _ l => l.const?.map fun _ => .pointer none
  | .function _ _ l => l.const?.map .function
  | .struct _ _ ts | .array _ ts | .tuple ts => (values? ts).map .aggregate
  | .void | .control _ | .memory | .error _ => none

def values? : List Ty → Option (List Value)
  | [] => some []
  | t :: ts =>
    match t.value?, values? ts with
    | some v, some vs => some (v :: vs)
    | _, _ => none

end

mutual

theorem isSome_value? : ∀ t : Ty, t.value?.isSome = t.isConstant
  | .int _ l => by cases l <;> rfl
  | .float _ l => by cases l <;> rfl
  | .bool l => by cases l <;> rfl
  | .rune l => by cases l <;> rfl
  | .string l => by cases l <;> rfl
  | .pointer _ l => by cases l <;> rfl
  | .function _ _ l => by cases l <;> rfl
  | .struct _ _ ts | .array _ ts | .tuple ts => by simp [value?, isConstant, isSome_values? ts]
  | .void | .control _ | .memory | .error _ => rfl

theorem isSome_values? : ∀ ts : List Ty, (values? ts).isSome = allConstant ts
  | [] => rfl
  | t :: ts => by
    rw [values?, allConstant, ← isSome_value? t, ← isSome_values? ts]
    cases t.value? <;> cases values? ts <;> rfl

end

mutual

theorem value?_plain : ∀ t : Ty, t.plain.value? = t.value?
  | .struct _ _ ts | .array _ ts | .tuple ts => by simp only [plain, value?, values?_plains ts]
  | .int .. | .float .. | .bool _ | .rune _ | .string _ | .pointer .. | .function .. | .void
  | .control _ | .memory | .error _ => rfl

theorem values?_plains : ∀ ts : List Ty, values? (plains ts) = values? ts
  | [] => rfl
  | t :: ts => by simp only [plains, values?, value?_plain t, values?_plains ts]

end

theorem allConstant_iff : allConstant ts = true ↔ ∀ t ∈ ts, t.isConstant = true := by
  induction ts with
  | nil => simp [allConstant]
  | cons t ts ih => simp [allConstant, ih]

theorem isConstant_plain (t : Ty) : t.plain.isConstant = t.isConstant := by
  rw [← isSome_value?, value?_plain, isSome_value?]

theorem isConstant_iff_members {t : Ty} (h : t.isAggregate = true) :
    t.isConstant = true ↔ ∀ e ∈ t.members, e.isConstant = true := by
  cases t <;> first | contradiction | exact allConstant_iff

theorem isAggregate_of_mem_members {t e : Ty} (h : e ∈ t.members) : t.isAggregate = true := by
  cases t <;> first | rfl | contradiction

theorem describes_aggregate_iff (h : t.isAggregate = true) {vs : List Value} :
    t.Describes (.aggregate vs) ↔ DescribesAll t.members vs := by
  cases t <;> first | exact .rfl | contradiction

theorem DescribesAll.getElem? {v : Value} {vs : List Value} (h : DescribesAll ts vs) {i : Nat}
    (ht : ts[i]? = some t) (hv : vs[i]? = some v) : t.Describes v := by
  induction ts generalizing vs i with
  | nil => simp at ht
  | cons u ts ih =>
    cases vs with
    | nil => simp at hv
    | cons w vs =>
      cases i with
      | zero =>
        cases ht
        cases hv
        exact h.1
      | succ i => exact ih h.2 ht hv

mutual

/-- Whether the levels of a type allow a value, whatever the widths of its integers are. -/
def Permits : Ty → Value → Prop
  | .int _ l, .int v => l.Describes v
  | .float _ l, .float v => l.Describes v
  | .bool l, .bool v => l.Describes v
  | .rune l, .rune v => l.Describes v
  | .string l, .string v => l.Describes v
  | .pointer _ l, .pointer address => describesAddress l address
  | .function _ _ l, .function name => l.Describes name
  | .struct _ _ ts, .aggregate vs | .array _ ts, .aggregate vs | .tuple ts, .aggregate vs =>
    PermitsAll ts vs
  | .void, .void => True
  | _, _ => False

def PermitsAll : List Ty → List Value → Prop
  | [], [] => True
  | t :: ts, v :: vs => Permits t v ∧ PermitsAll ts vs
  | _, _ => False

end

mutual

theorem Describes.permits : ∀ {t : Ty} {v : Value}, t.Describes v → t.Permits v
  | .int .., v, h => by cases v <;> first | exact h.2 | exact h
  | .struct .., v, h | .array .., v, h | .tuple _, v, h => by
    cases v <;> first | exact DescribesAll.permits h | exact h
  | .float .., v, h | .bool _, v, h | .rune _, v, h | .string _, v, h | .pointer .., v, h
  | .function .., v, h | .void, v, h | .control _, v, h | .memory, v, h | .error _, v, h => by
    cases v <;> exact h

theorem DescribesAll.permits : ∀ {ts : List Ty} {vs : List Value}, DescribesAll ts vs →
    PermitsAll ts vs
  | [], vs, h => by cases vs <;> exact h
  | t :: ts, vs, h => by
    cases vs <;> first | exact ⟨Describes.permits h.1, DescribesAll.permits h.2⟩ | exact h

end

mutual

theorem Permits.value?_eq : ∀ {t : Ty} {v : Value}, t.Permits v → t.isConstant = true →
    t.value? = some v
  | .int .., v, h, hc | .float .., v, h, hc | .bool _, v, h, hc | .rune _, v, h, hc
  | .string _, v, h, hc | .function .., v, h, hc => by
    cases v <;> simp only [Permits] at h
    simp [value?, h.const?_eq hc]
  | .pointer _ l, v, h, hc => by
    cases v <;> simp only [Permits] at h
    cases l <;> simp_all [value?, describesAddress, isConstant, Level.isConst, Level.const?]
  | .struct _ _ ts, v, h, hc | .array _ ts, v, h, hc | .tuple ts, v, h, hc => by
    cases v <;> simp only [Permits] at h
    simp [value?, PermitsAll.values?_eq h hc]
  | .void, _, _, hc | .control _, _, _, hc | .memory, _, _, hc | .error _, _, _, hc => by
    simp [isConstant] at hc

theorem PermitsAll.values?_eq : ∀ {ts : List Ty} {vs : List Value}, PermitsAll ts vs →
    allConstant ts = true → values? ts = some vs
  | [], vs, h, _ => by
    cases vs <;> simp only [PermitsAll] at h
    rfl
  | t :: ts, vs, h, hc => by
    cases vs <;> simp only [PermitsAll] at h
    rw [allConstant, Bool.and_eq_true] at hc
    simp [values?, Permits.value?_eq h.1 hc.1, PermitsAll.values?_eq h.2 hc.2]

end

theorem Describes.value?_eq {v : Value} (h : t.Describes v) (hc : t.isConstant = true) :
    t.value? = some v :=
  h.permits.value?_eq hc

end Ty

end SeaOfNodes
