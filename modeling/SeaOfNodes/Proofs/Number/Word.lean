import SeaOfNodes.Proofs.Ty.Datum

/-!
Constants are folded as a machine computes. A value of a width of `n` bits is a word of `n` bits,
and an operator on two constants gives the number of the word that the machine's operator gives. The
steps in 128 bits that lead there are never refused.
-/
namespace SeaOfNodes

variable {n : Nat} {signed : Bool} {a b v : Int} {op : BinaryOp}

/-- The number that a word stands for. -/
def wordValue (signed : Bool) (x : BitVec n) : Int := if signed then x.toInt else x.toNat

/-- An operator on words, where it is defined: not for a divisor zero and a negative amount. -/
def BinaryOp.onWords? (op : BinaryOp) (signed : Bool) (x y : BitVec n) : Option (BitVec n) :=
  match op with
  | .add => some (x + y)
  | .subtract => some (x - y)
  | .multiply => some (x * y)
  | .divide => if y = 0 then none else some (if signed then x.sdiv y else x / y)
  | .modulus => if y = 0 then none else some (if signed then x.srem y else x % y)
  | .bitwiseAnd => some (x &&& y)
  | .bitwiseOr => some (x ||| y)
  | .bitwiseXor => some (x ^^^ y)
  | .shiftLeft => if wordValue signed y < 0 then none else some (x <<< y.toNat)
  | .shiftRight =>
    if wordValue signed y < 0 then none
    else some (if signed then x.sshiftRight y.toNat else x >>> y.toNat)
  | .logicalAnd | .logicalOr => none

def IsWord (signed : Bool) (n : Nat) (a : Int) : Prop := wordValue signed (BitVec.ofInt n a) = a

theorem IsWord.toInt (h : IsWord true n a) : (BitVec.ofInt n a).toInt = a := h

theorem IsWord.toNat (h : IsWord false n a) : ((BitVec.ofInt n a).toNat : Int) = a := h

theorem IsWord.toNat_of_nonneg (h : IsWord signed n a) (ha : 0 ≤ a) :
    (BitVec.ofInt n a).toNat = a.toNat := by
  cases signed with
  | false =>
    have := h.toNat
    omega
  | true =>
    have hi := h.toInt
    rw [BitVec.toInt_eq_toNat_cond] at hi
    split at hi <;> omega

theorem IsWord.ofInt_eq_zero (h : IsWord signed n a) : BitVec.ofInt n a = 0 ↔ a = 0 := by
  constructor
  · intro hzero
    rw [← h, hzero]
    cases signed <;> simp [wordValue]
  · rintro rfl
    rfl

theorem ofInt_sub (n : Nat) (a b : Int) :
    BitVec.ofInt n (a - b) = BitVec.ofInt n a - BitVec.ofInt n b := by
  rw [Int.sub_eq_add_neg, BitVec.ofInt_add, BitVec.ofInt_neg, BitVec.sub_eq_add_neg]

section Division

variable (ha : IsWord signed n a) (hb : IsWord signed n b)
include ha hb

theorem ofInt_tdiv : BitVec.ofInt n (a.tdiv b) =
    if signed then (BitVec.ofInt n a).sdiv (BitVec.ofInt n b)
    else BitVec.ofInt n a / BitVec.ofInt n b := by
  cases signed with
  | true =>
    refine BitVec.eq_of_toInt_eq ?_
    rw [if_pos rfl, BitVec.toInt_sdiv, BitVec.toInt_ofInt, ha.toInt, hb.toInt]
  | false =>
    refine BitVec.eq_of_toNat_eq ?_
    have hlt : (BitVec.ofInt n a).toNat / (BitVec.ofInt n b).toNat < 2 ^ n :=
      (Nat.div_le_self _ _).trans_lt (BitVec.ofInt n a).isLt
    conv_lhs => rw [← ha.toNat, ← hb.toNat, ← Int.ofNat_tdiv]
    rw [BitVec.ofInt_natCast, BitVec.toNat_ofNat, Nat.mod_eq_of_lt hlt]
    rfl

theorem ofInt_tmod : BitVec.ofInt n (a.tmod b) =
    if signed then (BitVec.ofInt n a).srem (BitVec.ofInt n b)
    else BitVec.ofInt n a % BitVec.ofInt n b := by
  cases signed with
  | true =>
    rw [if_pos rfl, ← @BitVec.ofInt_toInt _ ((BitVec.ofInt n a).srem _), BitVec.toInt_srem,
      ha.toInt,
      hb.toInt]
  | false =>
    refine BitVec.eq_of_toNat_eq ?_
    have hlt : (BitVec.ofInt n a).toNat % (BitVec.ofInt n b).toNat < 2 ^ n :=
      (Nat.mod_le _ _).trans_lt (BitVec.ofInt n a).isLt
    conv_lhs => rw [← ha.toNat, ← hb.toNat, ← Int.ofNat_tmod]
    rw [BitVec.ofInt_natCast, BitVec.toNat_ofNat, Nat.mod_eq_of_lt hlt]
    rfl

end Division

theorem ofInt_mul_pow (n k : Nat) (a : Int) :
    BitVec.ofInt n (a * 2 ^ k) = BitVec.ofInt n a <<< k := by
  have htwo : BitVec.ofInt n (2 ^ k) = BitVec.twoPow n k := by
    refine BitVec.eq_of_toNat_eq ?_
    rw [show (2 : Int) ^ k = (2 ^ k : Nat) by push_cast; rfl, BitVec.ofInt_natCast,
      BitVec.toNat_ofNat, BitVec.toNat_twoPow]
  rw [BitVec.ofInt_mul, BitVec.shiftLeft_eq_mul_twoPow, htwo]

theorem ofInt_div_pow (ha : IsWord signed n a) (k : Nat) : BitVec.ofInt n (a / 2 ^ k) =
    if signed then (BitVec.ofInt n a).sshiftRight k else BitVec.ofInt n a >>> k := by
  cases signed with
  | true =>
    rw [if_pos rfl, ← @BitVec.ofInt_toInt _ ((BitVec.ofInt n a).sshiftRight k),
      BitVec.toInt_sshiftRight, ha.toInt, Int.shiftRight_eq_div_pow]
    rfl
  | false =>
    refine BitVec.eq_of_toNat_eq ?_
    have hlt : (BitVec.ofInt n a).toNat / 2 ^ k < 2 ^ n :=
      (Nat.div_le_self _ _).trans_lt (BitVec.ofInt n a).isLt
    conv_lhs => rw [← ha.toNat]
    rw [show ((BitVec.ofInt n a).toNat : Int) / 2 ^ k = ((BitVec.ofInt n a).toNat / 2 ^ k : Nat) by
      push_cast; rfl, BitVec.ofInt_natCast, BitVec.toNat_ofNat, Nat.mod_eq_of_lt hlt]
    exact (Nat.shiftRight_eq_div_pow _ _).symm

theorem onWords?_ofInt (ha : IsWord signed n a) (hb : IsWord signed n b) :
    op.onWords? signed (BitVec.ofInt n a) (BitVec.ofInt n b) =
      (op.onInts? a b).map (BitVec.ofInt n) := by
  have hsign : wordValue signed (BitVec.ofInt n b) < 0 ↔ b < 0 := by rw [hb]
  cases op with
  | add => simp [BinaryOp.onWords?, BinaryOp.onInts?, BitVec.ofInt_add]
  | subtract => simp [BinaryOp.onWords?, BinaryOp.onInts?, ofInt_sub]
  | multiply => simp [BinaryOp.onWords?, BinaryOp.onInts?, BitVec.ofInt_mul]
  | divide =>
    simp only [BinaryOp.onWords?, BinaryOp.onInts?, hb.ofInt_eq_zero]
    split
    · rfl
    · rw [← ofInt_tdiv ha hb]
      rfl
  | modulus =>
    simp only [BinaryOp.onWords?, BinaryOp.onInts?, hb.ofInt_eq_zero]
    split
    · rfl
    · rw [← ofInt_tmod ha hb]
      rfl
  | bitwiseAnd => simp [BinaryOp.onWords?, BinaryOp.onInts?, ofInt_land]
  | bitwiseOr => simp [BinaryOp.onWords?, BinaryOp.onInts?, ofInt_lor]
  | bitwiseXor => simp [BinaryOp.onWords?, BinaryOp.onInts?, ofInt_xor]
  | shiftLeft =>
    simp only [BinaryOp.onWords?, BinaryOp.onInts?, hsign]
    split
    · rfl
    · rw [hb.toNat_of_nonneg (by omega), ← ofInt_mul_pow]
      rfl
  | shiftRight =>
    simp only [BinaryOp.onWords?, BinaryOp.onInts?, hsign]
    split
    · rfl
    · rw [hb.toNat_of_nonneg (by omega), ← ofInt_div_pow ha]
      rfl
  | logicalAnd | logicalOr => rfl

/-! ### Steps in 128 bits -/

/-- A shift to the left and back to the right, which a machine refuses to make by all bits. -/
def IntWidth.wrapWord? (w : IntWidth) (x : BitVec 128) : Option (BitVec 128) :=
  match w.bits? with
  | none => some x
  | some n =>
    if 128 - n < 128 then
      some (if w.isSigned then (x <<< (128 - n)).sshiftRight (128 - n)
        else x <<< (128 - n) >>> (128 - n))
    else none

/-- An operator on 128-bit words, as a machine carries it out: it refuses to divide by zero, and to
shift by an amount that is negative or not below the number of bits. -/
def BinaryOp.carry? (op : BinaryOp) (x y : BitVec 128) : Option (BitVec 128) :=
  if op.isShift = true ∧ 128 ≤ y.toInt then none else op.onWords? true x y

/-- `IntWidth.evaluate` step by step on 128-bit words. There is no result where a step is
refused. -/
def IntWidth.evaluateWords? (w : IntWidth) (op : BinaryOp) (x y : BitVec 128) :
    Option (Except String (BitVec 128)) :=
  if op.isShift = true ∧ y.toInt < 0 then some (.error "negative shift amount")
  else if op.isShift = true ∧ w.bits?.getD 128 ≤ y.toInt then
    (w.wrapWord? (if op = .shiftRight ∧ x.toInt < 0 then -1 else 0)).map .ok
  else if op = .logicalAnd ∨ op = .logicalOr then some (.error "logical operator on integers")
  else ((op.carry? x y).bind w.wrapWord?).map .ok

theorem IntWidth.wrap_eq_wordValue {w : IntWidth} (hw : w.bits? = some n) (v : Int) :
    w.wrap v = wordValue w.isSigned (BitVec.ofInt n v) := by
  rw [wrap_eq hw, wordValue]
  split
  · exact (BitVec.toInt_ofInt v).symm
  · exact (Int.toNat_of_nonneg (Int.emod_nonneg v (Int.natCast_pos.2 (pow2_pos n)).ne')).symm

theorem signExtend_shift (hn : 0 < n) (hle : n ≤ 128) (v : Int) :
    (BitVec.ofInt 128 v <<< (128 - n)).sshiftRight (128 - n) =
      (BitVec.ofInt n v).signExtend 128 := by
  refine BitVec.eq_of_getLsbD_eq fun i hi => ?_
  simp only [BitVec.getLsbD_sshiftRight, BitVec.getLsbD_shiftLeft, BitVec.getLsbD_signExtend,
    getLsbD_ofInt, BitVec.msb_eq_getLsbD_last]
  by_cases h : i < n
  · have h1 : 128 - n + i < 128 := by omega
    simp [h, h1, hi, show ¬ 128 ≤ i by omega]
  · have h1 : ¬ 128 - n + i < 128 := by omega
    have h2 : 127 - (128 - n) = n - 1 := by omega
    have h3 : n - 1 < 128 := by omega
    simp [h, h1, hi, h2, h3, hn, show ¬ 127 < 128 - n by omega]

theorem setWidth_shift (hle : n ≤ 128) (v : Int) :
    BitVec.ofInt 128 v <<< (128 - n) >>> (128 - n) = (BitVec.ofInt n v).setWidth 128 := by
  refine BitVec.eq_of_getLsbD_eq fun i hi => ?_
  simp only [BitVec.getLsbD_ushiftRight, BitVec.getLsbD_shiftLeft, BitVec.getLsbD_setWidth,
    getLsbD_ofInt]
  by_cases h : i < n
  · simp [h, show 128 - n + i < 128 by omega]
  · simp [h, show ¬ 128 - n + i < 128 by omega]

theorem IntWidth.wrapWord?_ofInt (w : IntWidth) (v : Int) :
    w.wrapWord? (BitVec.ofInt 128 v) = some (BitVec.ofInt 128 (w.truncate v)) := by
  rw [wrapWord?, truncate]
  cases hw : w.bits? with
  | none =>
    obtain rfl := bits?_eq_none hw
    rw [wrap_untyped, wrap128_eq_toInt, BitVec.ofInt_toInt]
  | some n =>
    obtain ⟨hdvd, hpos⟩ := bits?_eq_some hw
    have hle : n ≤ 128 := (Nat.le_of_dvd (by decide) hdvd).trans (by decide)
    rw [wrap_wrap128 hw, wrap_eq_wordValue hw, wordValue]
    simp only [show 128 - n < 128 by omega, if_true, signExtend_shift hpos hle, setWidth_shift hle]
    split
    · rfl
    · rw [BitVec.ofInt_natCast, BitVec.ofNat_toNat]

theorem IntWidth.truncate_of_bits_le {w : IntWidth} (ha : w.holds a = true)
    (hshift : op.isShift = true) (hb : (w.bits?.getD 128 : Int) ≤ b)
    (hv : op.onInts? a b = some v) :
    w.truncate v = w.truncate (if op = .shiftRight ∧ a < 0 then -1 else 0) := by
  cases op with
  | shiftLeft =>
    obtain ⟨-, hv⟩ := Option.ite_none_left_eq_some.1 hv
    cases hv
    rw [truncate_mul_pow hb]
    rfl
  | shiftRight =>
    obtain ⟨-, hv⟩ := Option.ite_none_left_eq_some.1 hv
    cases hv
    rw [div_pow_of_bits_le ha hb]
    simp
  | _ => contradiction

/-- No step is refused unless a divisor is zero, and the outcome is that of `IntWidth.evaluate`. -/
theorem IntWidth.evaluateWords?_ofInt {w : IntWidth} (ha : w.holds a = true) (hb : wrap128 b = b)
    (hzero : (op = .divide ∨ op = .modulus) → b ≠ 0) :
    w.evaluateWords? op (BitVec.ofInt 128 a) (BitVec.ofInt 128 b) =
      some ((w.evaluate op a b).map (BitVec.ofInt 128)) := by
  obtain ⟨-, h128⟩ := holds_iff.1 ha
  have hwa : IsWord true 128 a := (wrap128_eq_toInt a).symm.trans h128
  have hwb : IsWord true 128 b := (wrap128_eq_toInt b).symm.trans hb
  have hcarry : op.isShift = false ∨ b < 128 → ∀ v, op.onInts? a b = some v →
      op.carry? (BitVec.ofInt 128 a) (BitVec.ofInt 128 b) = some (BitVec.ofInt 128 v) := by
    intro hamount v hv
    rw [BinaryOp.carry?, if_neg, onWords?_ofInt hwa hwb, hv]
    · rfl
    · rw [hwb.toInt]
      rcases hamount with h | h
      · simp [h]
      · omega
  have hbits : (w.bits?.getD 128 : Int) ≤ 128 := by cases w <;> decide
  rw [evaluateWords?, hwa.toInt, hwb.toInt]
  cases hv : op.onInts? a b with
  | some v =>
    rw [evaluate_of_exact h128 (fun _ => ha) hv]
    have hnone : op.onInts? a b ≠ none := by simp [hv]
    rw [if_neg fun h => hnone (BinaryOp.onInts?_eq_none_iff.2 (.inr (.inr h)))]
    split
    · rename_i hfull
      rw [show (if op = .shiftRight ∧ a < 0 then (-1 : BitVec 128) else 0) =
        BitVec.ofInt 128 (if op = .shiftRight ∧ a < 0 then -1 else 0) by split <;> rfl,
          wrapWord?_ofInt,
        truncate_of_bits_le ha hfull.1 hfull.2 hv]
      rfl
    · rename_i hnot
      rw [if_neg fun h => hnone (BinaryOp.onInts?_eq_none_iff.2 (.inl h)), hcarry ?_ v hv]
      · rw [Option.bind_some, wrapWord?_ofInt]
        rfl
      · by_cases hshift : op.isShift = true
        · exact .inr (by have := not_and.1 hnot hshift; omega)
        · exact .inl (by simpa using hshift)
  | none =>
    rcases BinaryOp.onInts?_eq_none_iff.1 hv with hlogical | ⟨hdivides, rfl⟩ | ⟨hshift, hneg⟩
    · rcases hlogical with rfl | rfl <;> rfl
    · exact absurd rfl (hzero hdivides)
    · rw [if_pos ⟨hshift, hneg⟩]
      cases op <;> first | contradiction | simp [evaluate, hneg, Except.map]

/-! ### Constants -/

/-- The range of a width of `n` bits. -/
def InRange (signed : Bool) (n : Nat) (r : Int) : Prop :=
  if signed then -2 ^ (n - 1) ≤ r ∧ r < 2 ^ (n - 1) else 0 ≤ r ∧ r < 2 ^ n

theorem inRange_wordValue (x : BitVec n) : InRange signed n (wordValue signed x) := by
  cases signed with
  | true => exact ⟨x.le_toInt, x.toInt_lt⟩
  | false =>
    have hlt : (x.toNat : Int) < 2 ^ n := by exact_mod_cast x.isLt
    exact ⟨Int.natCast_nonneg _, hlt⟩

theorem isWord_of_inRange (hn : 0 < n) (h : InRange signed n a) : IsWord signed n a := by
  cases signed with
  | true => exact BitVec.toInt_ofInt_eq_self hn h.1 h.2
  | false =>
    have hmod : a % (2 ^ n : Nat) = a := Int.emod_eq_of_lt h.1 (by exact_mod_cast h.2)
    show ((BitVec.ofInt n a).toNat : Int) = a
    rw [BitVec.toNat_ofInt, hmod, Int.toNat_of_nonneg h.1]

namespace IntWidth

variable {w : IntWidth} (hw : w.bits? = some n)
include hw

theorem isWord_of_fits (ha : w.fits a = true) : IsWord w.isSigned n a := by
  rw [IsWord, ← wrap_eq_wordValue hw]
  exact beq_iff_eq.1 ha

theorem holds_of_fits (ha : w.fits a = true) : w.holds a = true := by
  rw [← beq_iff_eq.1 ha]
  exact holds_wrap hw a

theorem truncate_eq_wordValue (v : Int) :
    w.truncate v = wordValue w.isSigned (BitVec.ofInt n v) := by
  rw [truncate, wrap_wrap128 hw, wrap_eq_wordValue hw]

theorem wrap_eq_iff (r : Int) : w.wrap v = r ↔ InRange w.isSigned n r ∧ r % 2 ^ n = v % 2 ^ n := by
  have hpow : (2 : Int) ^ n = pow2 n := by simp [pow2]
  constructor
  · rintro rfl
    refine ⟨?_, wrap_emod hw v⟩
    rw [wrap_eq_wordValue hw]
    exact inRange_wordValue _
  · rintro ⟨hrange, hmod⟩
    rw [← wrap_congr hw hmod, wrap_eq_wordValue hw]
    exact isWord_of_inRange (bits?_eq_some hw).2 hrange

end IntWidth

theorem ofInt_complement (n : Nat) (a : Int) : BitVec.ofInt n (-a - 1) = ~~~BitVec.ofInt n a := by
  rw [BitVec.not_eq_neg_add, ofInt_sub, BitVec.ofInt_neg]
  rfl

theorem Ty.intBinary_self (op : BinaryOp) (w : IntWidth) (l m : Level Int) :
    intBinary op w l w m = intResult op w l m := by
  have hunify : w.unify? w = some w := by cases w <;> rfl
  rw [intBinary, hunify, ite_self]

theorem Ty.isError_intResult_of_none {w : IntWidth} (h : op.onInts? a b = none) :
    (intResult op w (.const a) (.const b)).isError = true := by
  rcases BinaryOp.onInts?_eq_none_iff.1 h with hlogical | ⟨hdivides, rfl⟩ | ⟨hshift, hneg⟩
  · rcases hlogical with rfl | rfl <;> rfl
  · rcases hdivides with rfl | rfl <;> rfl
  · cases op <;> first
      | contradiction
      | simp [intResult, absorbed, IntWidth.evaluate, hneg, isError, fail]

/-- Constants of a sized width are folded as a machine with words of that size computes. -/
theorem Ty.binary_eq_onWords {w : IntWidth} (hw : w.bits? = some n) :
    (∀ op a b, (Primitive.int w).supportsBinary op = true → w.fits a = true → w.fits b = true →
      let r := op.onWords? w.isSigned (BitVec.ofInt n a) (BitVec.ofInt n b)
      (∀ x, r = some x → Ty.binary op (.int w (.const a)) (.int w (.const b)) =
        .int w (.const (wordValue w.isSigned x))) ∧
      ((Ty.binary op (.int w (.const a)) (.int w (.const b))).isError = true ↔ r = none) ∧
      (r = none ↔ (op = .divide ∨ op = .modulus) ∧ b = 0 ∨ op.isShift = true ∧ b < 0) ∧
      ((op = .divide ∨ op = .modulus → b ≠ 0) →
        w.evaluateWords? op (BitVec.ofInt 128 a) (BitVec.ofInt 128 b) =
          some ((w.evaluate op a b).map (BitVec.ofInt 128)))) ∧
    (∀ a, w.fits a = true →
      let x := BitVec.ofInt n a
      let y := BitVec.ofInt 128 a
      (Ty.int w (.const a)).unary .negate = .int w (.const (wordValue w.isSigned (-x))) ∧
      w.wrapWord? (-y) = some (BitVec.ofInt 128 (wordValue w.isSigned (-x))) ∧
      (Ty.int w (.const a)).unary .bitwiseNot = .int w (.const (wordValue w.isSigned (~~~x))) ∧
      w.wrapWord? (~~~y) = some (BitVec.ofInt 128 (wordValue w.isSigned (~~~x)))) ∧
    ∀ v, w.wrapWord? (BitVec.ofInt 128 v) = some (BitVec.ofInt 128 (w.wrap v)) ∧
      ∀ r, w.wrap v = r ↔ InRange w.isSigned n r ∧ r % 2 ^ n = v % 2 ^ n := by
  have hstep : ∀ v, w.wrapWord? (BitVec.ofInt 128 v) = some (BitVec.ofInt 128 (w.wrap v)) := by
    intro v
    rw [w.wrapWord?_ofInt, IntWidth.truncate, IntWidth.wrap_wrap128 hw]
  refine ⟨?_, ?_, fun v => ⟨hstep v, IntWidth.wrap_eq_iff hw⟩⟩
  · intro op a b hop ha hb
    have hbinary : Ty.binary op (.int w (.const a)) (.int w (.const b)) =
        intResult op w (.const a) (.const b) := by
      rw [binary_int hop, intBinary_self]
    have hnone := @BinaryOp.onInts?_eq_none_iff op a b
    have hlogical : ¬(op = .logicalAnd ∨ op = .logicalOr) := by
      rintro (rfl | rfl) <;> contradiction
    obtain hholds := IntWidth.holds_of_fits hw ha
    obtain ⟨-, h128⟩ := IntWidth.holds_iff.1 hholds
    have hb128 := (IntWidth.holds_iff.1 (IntWidth.holds_of_fits hw hb)).2
    rw [hbinary, onWords?_ofInt (IntWidth.isWord_of_fits hw ha) (IntWidth.isWord_of_fits hw hb)]
    refine ⟨?_, ?_, ?_, IntWidth.evaluateWords?_ofInt hholds hb128⟩
    · intro x hx
      obtain ⟨v, hv, rfl⟩ := Option.map_eq_some_iff.1 hx
      rw [intResult_of_exact h128 (fun _ => hholds) hv, IntWidth.truncate_eq_wordValue hw]
    · rw [Option.map_eq_none_iff]
      cases hv : op.onInts? a b with
      | some v => simp [intResult_of_exact h128 (fun _ => hholds) hv, isError]
      | none => simp [isError_intResult_of_none hv]
    · rw [Option.map_eq_none_iff, hnone]
      exact or_iff_right hlogical
  · intro a ha
    refine ⟨?_, ?_, ?_, ?_⟩
    · rw [(Turns.int w _ (by decide)).unary_eq, ← BitVec.ofInt_neg,
        ← IntWidth.truncate_eq_wordValue hw]
      rfl
    · rw [← BitVec.ofInt_neg, ← BitVec.ofInt_neg, hstep, IntWidth.wrap_eq_wordValue hw]
    · rw [(Turns.int w _ (by decide)).unary_eq, ← ofInt_complement, ← IntWidth.wrap_eq_wordValue hw]
      rfl
    · rw [← ofInt_complement, ← ofInt_complement, hstep, IntWidth.wrap_eq_wordValue hw]

theorem Ty.binary_eq_onWords_i8 : IntWidth.bits? .i8 = some 8 ∧
    Ty.binary .divide (.int .i8 (.const (-128))) (.int .i8 (.const (-1))) =
      .int .i8 (.const (-128)) ∧
    Ty.binary .shiftRight (.int .i8 (.const (-5))) (.int .i8 (.const 100)) =
      .int .i8 (.const (-1)) :=
  have h := (binary_eq_onWords (w := .i8) rfl).1
  ⟨rfl, (h .divide (-128) (-1) rfl rfl rfl).1 (-128) (by decide),
    (h .shiftRight (-5) 100 rfl rfl rfl).1 (-1) (by decide)⟩

end SeaOfNodes
