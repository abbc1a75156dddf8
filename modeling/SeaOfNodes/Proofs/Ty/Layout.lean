import Mathlib.Algebra.Ring.Nat
import Mathlib.Data.List.TakeWhile
import SeaOfNodes.Ty.Layout

/-!
Layouts of types that hold at most `Ty.maxScalars` scalars. The sizes and offsets without a bound
(`Ty.exactLayout`, `Ty.exactOffsets`) are those that are computed, a scalar takes at most 16 bytes
with the space in front of it, and the scalars of a value lie one behind the other.
-/
namespace SeaOfNodes

namespace Layout

/-- The least multiple of `align` from `n` on. -/
def roundUp (n align : Nat) : Nat := (n + align - 1) / align * align

theorem le_roundUp (n : Nat) {align : Nat} (h : 0 < align) : n ≤ roundUp n align := by
  have hdiv := Nat.div_add_mod (n + align - 1) align
  have hmod := Nat.mod_lt (n + align - 1) h
  rw [roundUp, Nat.mul_comm]
  omega

theorem dvd_roundUp (n align : Nat) : align ∣ roundUp n align := Nat.dvd_mul_left _ _

theorem roundUp_le {n m align : Nat} (h : 0 < align) (hdvd : align ∣ m) (hle : n ≤ m) :
    roundUp n align ≤ m := by
  obtain ⟨k, rfl⟩ := hdvd
  rw [roundUp, Nat.mul_comm]
  refine Nat.mul_le_mul_left align (Nat.le_of_lt_succ ?_)
  rw [Nat.div_lt_iff_lt_mul h, Nat.succ_mul, Nat.mul_comm k]
  omega

theorem roundUp_of_dvd {n align : Nat} (h : 0 < align) (hdvd : align ∣ n) : roundUp n align = n :=
  Nat.le_antisymm (roundUp_le h hdvd (Nat.le_refl n)) (le_roundUp n h)

theorem roundUp?_eq {n align : Nat} (h : roundUp n align ≤ maxOffset) :
    roundUp? n align = some (roundUp n align) := bounded?_eq_some_iff.2 ⟨rfl, h⟩

/-- The offsets of members that follow each other, with the size and alignment reached, as
`Layout.place?` finds them when nothing is too large. -/
def place (size align : Nat) : List Layout → List Nat × Nat × Nat
  | [] => ([], size, align)
  | l :: ls =>
    let offset := roundUp size l.align
    let rest := place (offset + l.size) (max align l.align) ls
    (offset :: rest.1, rest.2)

/-- A layout of a value with `count` scalars that members can follow: it ends at a multiple of its
alignment, and with the space up to the next eight bytes it takes 16 bytes for each scalar. -/
structure Tight (l : Layout) (count : Nat) : Prop where
  align : l.align ∣ 8
  size : l.align ∣ l.size
  bytes : roundUp l.size 8 ≤ 16 * count

theorem Tight.pos {l : Layout} {count : Nat} (h : l.Tight count) : 0 < l.align :=
  Nat.pos_of_dvd_of_pos h.align (by decide)

end Layout

namespace Ty

mutual

/-- Size and alignment without a bound. -/
def exactLayout : Ty → Layout
  | .struct _ _ ts | .tuple ts =>
    let (size, align) := (Layout.place 0 1 (exactLayouts ts)).2
    ⟨Layout.roundUp size align, align⟩
  | .array e ts =>
    let l := e.exactLayout
    ⟨Layout.roundUp l.size l.align * ts.length, l.align⟩
  | t => t.layout?.getD ⟨0, 1⟩

def exactLayouts : List Ty → List Layout
  | [] => []
  | t :: ts => t.exactLayout :: exactLayouts ts

end

/-- Offsets of members without a bound. -/
def exactOffsets : Ty → List Nat
  | .struct _ _ ts | .tuple ts => (Layout.place 0 1 (exactLayouts ts)).1
  | .array e ts =>
    (List.range ts.length).map (· * Layout.roundUp e.exactLayout.size e.exactLayout.align)
  | _ => []

/-- Types that programs can write: no aggregate in them holds too many scalars, the elements of an
array are alike, and every field has its name. -/
inductive Sized : Ty → Prop where
  | scalar {t : Ty} : t.isAggregate = false → t.isError = false → Sized t
  | struct {n : String} {ls : List String} {ts : List Ty} : (∀ t ∈ ts, Sized t) →
    (Ty.struct n ls ts).scalarCount ≤ maxScalars → ls.length = ts.length → Sized (.struct n ls ts)
  | tuple {ts : List Ty} : (∀ t ∈ ts, Sized t) → (Ty.tuple ts).scalarCount ≤ maxScalars →
    Sized (.tuple ts)
  | array {e : Ty} {n : Nat} : Sized e → e.scalarCount * n ≤ maxScalars →
    Sized (.array e (List.replicate n e))

/-- The bytes of a value. -/
def bytes (t : Ty) : Nat := t.exactLayout.size

/-- Values at offsets that follow each other from `a` to `b`. -/
def Spread : Nat → List (Nat × Ty) → Nat → Prop
  | a, [], b => a ≤ b
  | a, (o, t) :: xs, b => a ≤ o ∧ Spread (o + t.bytes) xs b

/-- What the layout of a type with few scalars is like. -/
structure LaidOut (t : Ty) : Prop where
  count : t.scalarCount ≤ maxScalars
  layout : t.layout? = some t.exactLayout
  tight : t.exactLayout.Tight t.scalarCount
  offsets : t.memberOffsets? = some t.exactOffsets
  length : t.exactOffsets.length = t.members.length
  aligned : ∀ x ∈ t.exactOffsets.zip t.members, x.2.exactLayout.align ∣ x.1
  spread : Spread 0 (t.exactOffsets.zip t.members) t.bytes

theorem scalarSum_le {t : Ty} {ts : List Ty} (h : scalarSum (t :: ts) ≤ maxScalars) :
    t.scalarCount + scalarSum ts = scalarSum (t :: ts) := by
  have hmax : maxScalars < maxCount := by decide
  rw [scalarSum] at h ⊢
  omega

theorem place?_eq {ts : List Ty} (hts : ∀ t ∈ ts, t.exactLayout.Tight t.scalarCount)
    (size align count : Nat)
    (hsize : Layout.roundUp size 8 ≤ 16 * count) (hcount : count + scalarSum ts ≤ maxScalars) :
    Layout.place? size align (exactLayouts ts) = some (Layout.place size align (exactLayouts ts)) ∧
      Layout.roundUp (Layout.place size align (exactLayouts ts)).2.1 8 ≤
        16 * (count + scalarSum ts) := by
  induction ts generalizing size align count with
  | nil => exact ⟨rfl, hsize⟩
  | cons t ts ih =>
    have hsum := scalarSum_le (Nat.le_trans (Nat.le_add_left _ _) hcount)
    have hmax : 16 * maxScalars ≤ maxOffset := by decide
    have ht := hts t (.head _)
    -- The member begins within the eight bytes that are counted already.
    have hstart : Layout.roundUp size t.exactLayout.align ≤ Layout.roundUp size 8 :=
      Layout.roundUp_le ht.pos (Nat.dvd_trans ht.align (Layout.dvd_roundUp _ _))
        (Layout.le_roundUp _ (by decide))
    have hnext : Layout.roundUp (Layout.roundUp size t.exactLayout.align + t.exactLayout.size) 8 ≤
        16 * (count + t.scalarCount) := by
      have hend :=
        Layout.roundUp_le
          (by decide)
        (Nat.dvd_add (Layout.dvd_roundUp _ _) (Layout.dvd_roundUp _ _))
        (Nat.add_le_add hstart (Layout.le_roundUp t.exactLayout.size (by decide)))
      have hbytes := ht.bytes
      omega
    have hle := Layout.le_roundUp (Layout.roundUp size t.exactLayout.align + t.exactLayout.size)
      (show 0 < 8 by decide)
    obtain ⟨hplace, hbound⟩ := ih (fun t h => hts t (.tail _ h)) _ (max align t.exactLayout.align)
      _ hnext (by omega)
    rw [exactLayouts, Layout.place?, Nat.max_eq_left ht.pos, Layout.roundUp?_eq (by omega)]
    refine ⟨?_, ?_⟩
    · show (Layout.place? (min _ maxOffset) _ _).bind _ = _
      rw [Nat.min_eq_left (by omega), hplace]
      rfl
    · rw [← hsum, ← Nat.add_assoc]
      exact hbound

/-- Members that are placed lie one behind the other, each at a multiple of its alignment. -/
theorem spread_place {ts : List Ty} (hts : ∀ t ∈ ts, t.exactLayout.Tight t.scalarCount)
    (size align : Nat) (halign : align ∣ 8) {r : List Nat × Nat × Nat}
    (hr : Layout.place size align (exactLayouts ts) = r) :
    r.1.length = ts.length ∧ (∀ x ∈ r.1.zip ts, x.2.exactLayout.align ∣ x.1) ∧
      Spread size (r.1.zip ts) r.2.1 ∧ r.2.2 ∣ 8 := by
  induction ts generalizing size align r with
  | nil =>
    obtain rfl := hr
    exact ⟨rfl, by simp [exactLayouts], Nat.le_refl _, halign⟩
  | cons t ts ih =>
    have ht := hts t (.head _)
    have hmax : max align t.exactLayout.align ∣ 8 := by
      rcases Nat.le_total align t.exactLayout.align with h | h
      · rw [Nat.max_eq_right h]
        exact ht.align
      · rwa [Nat.max_eq_left h]
    obtain ⟨hlength, haligned, hspread, hend⟩ := ih (fun t h => hts t (.tail _ h)) _ _ hmax rfl
    obtain rfl := hr
    refine ⟨congrArg Nat.succ hlength, List.forall_mem_cons.2 ⟨Layout.dvd_roundUp _ _, haligned⟩,
      ?_, hend⟩
    exact ⟨Layout.le_roundUp _ ht.pos, hspread⟩

theorem layouts?_eq {ts : List Ty} (h : ∀ t ∈ ts, t.LaidOut) :
    layouts? ts = some (exactLayouts ts) := by
  induction ts with
  | nil => rfl
  | cons t ts ih =>
    rw [layouts?, (h t (.head _)).layout, ih fun t ht => h t (.tail _ ht)]
    rfl

theorem sequential?_eq {ts : List Ty} (hts : ∀ t ∈ ts, t.LaidOut)
    (hcount : scalarSum ts ≤ maxScalars) :
    let r := Layout.place 0 1 (exactLayouts ts)
    Layout.sequential? (exactLayouts ts) = some (r.1, ⟨Layout.roundUp r.2.1 r.2.2, r.2.2⟩) ∧
      Layout.Tight ⟨Layout.roundUp r.2.1 r.2.2, r.2.2⟩ (scalarSum ts) := by
  have htight := fun t h => (hts t h).tight
  obtain ⟨hplace, hbytes⟩ := place?_eq htight 0 1 0 (by decide) (by simpa using hcount)
  obtain ⟨-, -, -, halign⟩ := spread_place htight 0 1 (by decide) rfl
  generalize hr : Layout.place 0 1 (exactLayouts ts) = r at *
  have hpos := Nat.pos_of_dvd_of_pos halign (by decide)
  have hup : Layout.roundUp r.2.1 r.2.2 ≤ Layout.roundUp r.2.1 8 :=
    Layout.roundUp_le hpos (Nat.dvd_trans halign (Layout.dvd_roundUp _ _))
      (Layout.le_roundUp _ (by decide))
  have hmax : 16 * maxScalars ≤ maxOffset := by decide
  refine ⟨?_, halign, Layout.dvd_roundUp _ _, ?_⟩
  · rw [Layout.sequential?, hplace]
    show (Layout.roundUp? r.2.1 r.2.2).bind _ = _
    rw [Layout.roundUp?_eq (by omega)]
    rfl
  · show Layout.roundUp (Layout.roundUp r.2.1 r.2.2) 8 ≤ _
    have hle := Layout.roundUp_le (by decide) (Layout.dvd_roundUp _ _) hup
    omega

theorem Spread.mono {a b c : Nat} {xs : List (Nat × Ty)} (h : Spread a xs b) (hle : b ≤ c) :
    Spread a xs c := by
  induction xs generalizing a with
  | nil => exact Nat.le_trans h hle
  | cons x xs ih => exact ⟨h.1, ih h.2⟩

theorem Spread.mono_left {a b c : Nat} {xs : List (Nat × Ty)} (h : Spread b xs c) (hle : a ≤ b) :
    Spread a xs c := by
  cases xs with
  | nil => exact Nat.le_trans hle h
  | cons x xs => exact ⟨Nat.le_trans hle h.1, h.2⟩

theorem spread_replicate (e : Ty) {stride : Nat} (h : e.bytes ≤ stride) (n a : Nat) :
    Spread (a * stride) (((List.range' a n).map (· * stride)).zip (List.replicate n e))
      ((a + n) * stride) := by
  induction n generalizing a with
  | zero => exact Nat.le_refl _
  | succ n ih =>
    refine ⟨Nat.le_refl _, ?_⟩
    have hrest := ih (a + 1)
    rw [Nat.add_right_comm a 1 n] at hrest
    refine hrest.mono_left ?_
    rw [Nat.succ_mul]
    exact Nat.add_le_add_left h _

def scalarLayouts : List Layout := [⟨0, 1⟩, ⟨1, 1⟩, ⟨2, 2⟩, ⟨4, 4⟩, ⟨8, 8⟩, ⟨16, 8⟩]

theorem laidOut_scalar {t : Ty} (h : t.isAggregate = false) : t.LaidOut := by
  have hlayout : t.layout? = some t.exactLayout ∧ t.exactLayout ∈ scalarLayouts := by
    cases t with
    | int w l =>
      cases w <;> exact ⟨rfl, by simp [exactLayout, layout?, IntWidth.bits?, scalarLayouts]⟩
    | float w l => cases w <;> exact ⟨rfl, by simp [exactLayout, layout?, scalarLayouts]⟩
    | struct | array | tuple => contradiction
    | _ => exact ⟨rfl, by simp [exactLayout, layout?, scalarLayouts]⟩
  have hcount : t.scalarCount = 1 := by cases t <;> first | rfl | contradiction
  have htight : t.exactLayout.Tight t.scalarCount := by
    have hall : ∀ l ∈ scalarLayouts, l.align ∣ 8 ∧ l.align ∣ l.size ∧
        Layout.roundUp l.size 8 ≤ 16 := by
      decide
    obtain ⟨halign, hsize, hbytes⟩ := hall _ hlayout.2
    exact ⟨halign, hsize, hcount ▸ hbytes⟩
  have hmembers : t.members = [] ∧ t.exactOffsets = [] ∧ t.memberOffsets? = some [] := by
    cases t <;> first | contradiction | exact ⟨rfl, rfl, rfl⟩
  obtain ⟨hmembers, hexact, hoffsets⟩ := hmembers
  refine ⟨by rw [hcount]; decide, hlayout.1, htight, by rw [hoffsets, hexact], ?_, ?_, ?_⟩ <;>
    rw [hexact]
  · rw [hmembers]
    rfl
  · simp
  · exact Nat.zero_le _

theorem scalarCount_array {e : Ty} {n : Nat} (h : e.scalarCount * n ≤ maxScalars) :
    (array e (List.replicate n e)).scalarCount = e.scalarCount * n := by
  have hmax : maxScalars < maxCount := by decide
  rw [scalarCount, List.length_replicate]
  omega

theorem laidOut_array {e : Ty} {n : Nat} (he : e.LaidOut)
    (hcount : e.scalarCount * n ≤ maxScalars) :
    (array e (List.replicate n e)).LaidOut := by
  have hmax : 16 * maxScalars ≤ maxOffset := by decide
  have hstride : Layout.roundUp e.bytes e.exactLayout.align = e.bytes :=
    Layout.roundUp_of_dvd he.tight.pos he.tight.size
  have hbytes : e.bytes ≤ 16 * e.scalarCount :=
    Nat.le_trans (Layout.le_roundUp _ (by decide)) he.tight.bytes
  have hsize : e.bytes * n ≤ 16 * (e.scalarCount * n) :=
    Nat.mul_assoc .. ▸ Nat.mul_le_mul_right n hbytes
  have hzero : e.scalarCount = 0 ∨ n ≤ maxScalars := by
    rcases Nat.eq_zero_or_pos e.scalarCount with h | h
    · exact .inl h
    · exact .inr (Nat.le_trans (Nat.le_mul_of_pos_left n h) hcount)
  have hlength : e.bytes * min n maxOffset = e.bytes * n := by
    rcases hzero with h | h
    · have hbytes : e.bytes = 0 := by omega
      rw [hbytes, Nat.zero_mul, Nat.zero_mul]
    · rw [Nat.min_eq_left (by omega)]
  have hcounts := scalarCount_array hcount
  have hle : e.bytes * n ≤ maxOffset := by omega
  have hlayout : (array e (List.replicate n e)).exactLayout =
      ⟨e.bytes * n, e.exactLayout.align⟩ := by
    rw [exactLayout, List.length_replicate]
    exact congrArg (fun s => Layout.mk (s * n) _) hstride
  have hoffsets : (array e (List.replicate n e)).exactOffsets =
      (List.range n).map (· * e.bytes) := by
    rw [exactOffsets, List.length_replicate]
    exact congrArg (fun s => (List.range n).map (· * s)) hstride
  have hstride? : e.exactLayout.stride? = some e.bytes := by
    have hcount := he.count
    rw [Layout.stride?, Nat.max_eq_left he.tight.pos]
    exact hstride ▸ Layout.roundUp?_eq (by rw [← bytes, hstride]; omega)
  refine ⟨hcounts ▸ hcount, ?_, ?_, ?_, ?_, ?_, ?_⟩
  · rw [layout?, he.layout, hlayout]
    show (e.exactLayout.stride?).bind _ = _
    rw [hstride?, List.length_replicate]
    show some _ = some _
    rw [hlength, Nat.min_eq_left hle]
  · rw [hlayout, hcounts]
    refine ⟨he.tight.align, Nat.dvd_mul_right_of_dvd he.tight.size n, ?_⟩
    calc Layout.roundUp (e.bytes * n) 8
      _ ≤ Layout.roundUp e.bytes 8 * n := Layout.roundUp_le (by decide)
          (Nat.dvd_mul_right_of_dvd (Layout.dvd_roundUp _ _) n)
          (Nat.mul_le_mul_right n (Layout.le_roundUp _ (by decide)))
      _ ≤ 16 * e.scalarCount * n := Nat.mul_le_mul_right n he.tight.bytes
      _ = 16 * (e.scalarCount * n) := Nat.mul_assoc ..
  · rw [memberOffsets?, he.layout, hoffsets]
    show (e.exactLayout.stride?).bind _ = _
    rw [hstride?, List.length_replicate]
    refine congrArg some (List.takeWhile_eq_self_iff.2 fun o ho => ?_)
    obtain ⟨i, hi, rfl⟩ := List.mem_map.1 ho
    have hi := Nat.mul_le_mul_right e.bytes (Nat.le_of_lt (List.mem_range.1 hi))
    rw [Nat.mul_comm n] at hi
    exact decide_eq_true (Nat.le_trans hi hle)
  · rw [hoffsets]
    simp [members]
  · intro x hx
    obtain ⟨ho, ht⟩ := List.of_mem_zip hx
    obtain rfl := List.eq_of_mem_replicate ht
    obtain ⟨i, -, hi⟩ := List.mem_map.1 (hoffsets ▸ ho)
    exact hi ▸ Nat.dvd_mul_left_of_dvd he.tight.size i
  · have hspread := spread_replicate e (Nat.le_refl _) n 0
    rw [Nat.zero_mul, Nat.zero_add, ← List.range_eq_range', Nat.mul_comm] at hspread
    have hend : (array e (List.replicate n e)).bytes = e.bytes * n :=
      congrArg Layout.size hlayout
    rw [hoffsets, hend]
    exact hspread

theorem laidOut_tuple {ts : List Ty} (hts : ∀ t ∈ ts, t.LaidOut)
    (hcount : scalarSum ts ≤ maxScalars) :
    (tuple ts).LaidOut := by
  obtain ⟨hsequential, htight⟩ := sequential?_eq hts hcount
  obtain ⟨hlength, haligned, hspread, halign⟩ :=
    spread_place (fun t h => (hts t h).tight) 0 1 (by decide) rfl
  refine ⟨hcount, ?_, htight, ?_, hlength, haligned, hspread.mono ?_⟩
  · rw [layout?, layouts?_eq hts]
    show (Layout.sequential? _).bind _ = _
    rw [hsequential]
    rfl
  · rw [memberOffsets?, layouts?_eq hts]
    show (Layout.sequential? _).bind _ = _
    rw [hsequential]
    rfl
  · exact Layout.le_roundUp _ (Nat.pos_of_dvd_of_pos halign (by decide))

theorem Sized.laidOut {t : Ty} (h : t.Sized) : t.LaidOut := by
  induction h with
  | scalar hscalar _ => exact laidOut_scalar hscalar
  | struct _ hcount _ ih =>
    obtain ⟨hcount, hlayout, htight, hoffsets, hlength, haligned, hspread⟩ :=
      laidOut_tuple ih hcount
    exact ⟨hcount, hlayout, htight, hoffsets, hlength, haligned, hspread⟩
  | tuple _ hcount ih => exact laidOut_tuple ih hcount
  | array _ hcount ih => exact laidOut_array ih hcount

theorem Sized.members {t m : Ty} (h : t.Sized) (hm : m ∈ t.members) : m.Sized := by
  cases h with
  | scalar hscalar _ => cases t <;> contradiction
  | struct hts _ _ | tuple hts _ => exact hts m hm
  | array he _ => exact List.eq_of_mem_replicate hm ▸ he

theorem Sized.induction {P : Ty → Prop}
    (hscalar : ∀ t : Ty, t.isAggregate = false → t.isError = false → P t)
    (haggregate : ∀ t : Ty, t.Sized → t.isAggregate = true → (∀ m ∈ t.members, P m) → P t) {t : Ty}
    (h : t.Sized) : P t := by
  induction h with
  | scalar h herror => exact hscalar _ h herror
  | struct hts hcount hlabels ih => exact haggregate _ (.struct hts hcount hlabels) rfl ih
  | tuple hts hcount ih => exact haggregate _ (.tuple hts hcount) rfl ih
  | array he hcount ih =>
    exact haggregate _ (.array he hcount) rfl fun m hm => List.eq_of_mem_replicate hm ▸ ih

/-! ### Scalars -/

mutual

/-- The scalars of a value at an offset, with their own offsets. -/
def spots (base : Nat) : Ty → List (Nat × Ty)
  | .struct n ls ts => spotsOf base ((Ty.struct n ls ts).memberOffsets?.getD []) ts
  | .array e ts => spotsOf base ((Ty.array e ts).memberOffsets?.getD []) ts
  | .tuple ts => spotsOf base ((Ty.tuple ts).memberOffsets?.getD []) ts
  | t => [(base, t)]

def spotsOf (base : Nat) : List Nat → List Ty → List (Nat × Ty)
  | o :: os, t :: ts => spots (base + o) t ++ spotsOf base os ts
  | _, _ => []

end

theorem spots_of_aggregate {t : Ty} (ht : t.LaidOut) (h : t.isAggregate = true) (base : Nat) :
    t.spots base = spotsOf base t.exactOffsets t.members := by
  have hoffsets := ht.offsets
  cases t <;> first | contradiction | rw [spots, hoffsets]; rfl

theorem Spread.append {a b c : Nat} {xs ys : List (Nat × Ty)} (hxs : Spread a xs b)
    (hys : Spread b ys c) : Spread a (xs ++ ys) c := by
  induction xs generalizing a with
  | nil => exact hys.mono_left hxs
  | cons x xs ih => exact ⟨hxs.1, ih hxs.2⟩

theorem spread_spotsOf {os : List Nat} {ts : List Ty} {a b : Nat} (base : Nat)
    (h : Spread a (os.zip ts) b)
    (hts : ∀ t ∈ ts, ∀ base, Spread base (t.spots base) (base + t.bytes)) :
    Spread (base + a) (spotsOf base os ts) (base + b) := by
  have hnil {a : Nat} (h : a ≤ b) : Spread (base + a) [] (base + b) := Nat.add_le_add_left h base
  induction ts generalizing os a with
  | nil => cases os <;> exact hnil h
  | cons t ts ih =>
    cases os with
    | nil => exact hnil h
    | cons o os =>
      have hrest := ih h.2 fun t ht => hts t (.tail _ ht)
      rw [← Nat.add_assoc] at hrest
      exact ((hts t (.head _) (base + o)).append hrest).mono_left (Nat.add_le_add_left h.1 base)

theorem spots_of_scalar {t : Ty} (h : t.isAggregate = false) (base : Nat) :
    t.spots base = [(base, t)] := by
  cases t <;> first | contradiction | rfl

theorem Sized.spread_spots {t : Ty} (h : t.Sized) (base : Nat) :
    Spread base (t.spots base) (base + t.bytes) := by
  refine Sized.induction (P := fun t => ∀ base, Spread base (t.spots base) (base + t.bytes))
    ?_ ?_ h base
  · intro t h _ base
    rw [spots_of_scalar h]
    exact ⟨Nat.le_refl _, Nat.le_refl _⟩
  · intro t ht h ih base
    rw [spots_of_aggregate ht.laidOut h]
    exact spread_spotsOf base ht.laidOut.spread ih

theorem Spread.bounds {a b : Nat} {xs : List (Nat × Ty)} (h : Spread a xs b) :
    a ≤ b ∧ ∀ x ∈ xs, a ≤ x.1 ∧ x.1 + x.2.bytes ≤ b := by
  induction xs generalizing a with
  | nil => exact ⟨h, by simp⟩
  | cons x xs ih =>
    obtain ⟨hle, hrest⟩ := ih h.2
    refine ⟨by have := h.1; omega, List.forall_mem_cons.2 ⟨⟨h.1, hle⟩, fun y hy => ?_⟩⟩
    have hy := hrest y hy
    have hx := h.1
    omega

theorem Spread.pairwise {a b : Nat} {xs : List (Nat × Ty)} (h : Spread a xs b) :
    xs.Pairwise fun x y => x.1 + x.2.bytes ≤ y.1 := by
  induction xs generalizing a with
  | nil => exact .nil
  | cons x xs ih => exact .cons (fun y hy => (h.2.bounds.2 y hy).1) (ih h.2)

theorem mem_spotsOf {os : List Nat} {ts : List Ty} {base : Nat} {x : Nat × Ty}
    (hx : x ∈ spotsOf base os ts) : ∃ t ∈ ts, ∃ base, x ∈ t.spots base := by
  induction ts generalizing os with
  | nil => cases os <;> contradiction
  | cons t ts ih =>
    cases os with
    | nil => contradiction
    | cons o os =>
      rcases List.mem_append.1 hx with hx | hx
      · exact ⟨t, .head _, base + o, hx⟩
      · obtain ⟨t', ht', hx⟩ := ih hx
        exact ⟨t', .tail _ ht', hx⟩

theorem Sized.isAggregate_of_mem {t : Ty} (h : t.Sized) (base : Nat) :
    ∀ x ∈ t.spots base, x.2.isAggregate = false := by
  refine Sized.induction (P := fun t => ∀ base, ∀ x ∈ t.spots base, x.2.isAggregate = false)
    ?_ ?_ h base
  · intro t h _ base x hx
    rw [spots_of_scalar h] at hx
    exact List.mem_singleton.1 hx ▸ h
  · intro t ht h ih base x hx
    rw [spots_of_aggregate ht.laidOut h] at hx
    obtain ⟨m, hm, base, hx⟩ := mem_spotsOf hx
    exact ih m hm base x hx

theorem length_spotsOf {os : List Nat} {ts : List Ty} (hlength : os.length = ts.length)
    (hts : ∀ t ∈ ts, ∀ base, (t.spots base).length = t.scalarCount) (base : Nat) :
    (spotsOf base os ts).length = (ts.map scalarCount).sum := by
  induction ts generalizing os with
  | nil => cases os <;> rfl
  | cons t ts ih =>
    cases os with
    | nil => contradiction
    | cons o os =>
      rw [spotsOf, List.length_append, hts t (.head _),
        ih (Nat.succ.inj hlength) fun t ht => hts t (.tail _ ht)]
      rfl

theorem scalarSum_eq {ts : List Ty} (h : scalarSum ts ≤ maxScalars) :
    scalarSum ts = (ts.map scalarCount).sum := by
  induction ts with
  | nil => rfl
  | cons t ts ih =>
    have hsum := scalarSum_le h
    rw [← hsum, ih (by omega)]
    rfl

theorem Sized.scalarCount_eq {t : Ty} (h : t.Sized) (haggregate : t.isAggregate = true) :
    t.scalarCount = (t.members.map scalarCount).sum := by
  cases h with
  | scalar h _ => simp [h] at haggregate
  | struct _ hcount _ | tuple _ hcount => exact scalarSum_eq hcount
  | array _ hcount =>
    rw [scalarCount_array hcount]
    simp [Ty.members, Nat.mul_comm]

theorem Sized.length_spots {t : Ty} (h : t.Sized) (base : Nat) :
    (t.spots base).length = t.scalarCount := by
  refine Sized.induction (P := fun t => ∀ base, (t.spots base).length = t.scalarCount) ?_ ?_ h base
  · intro t h _ base
    cases t <;> first | contradiction | rfl
  · intro t ht h ih base
    rw [spots_of_aggregate ht.laidOut h, ht.scalarCount_eq h]
    exact length_spotsOf ht.laidOut.length ih base

end Ty

end SeaOfNodes
