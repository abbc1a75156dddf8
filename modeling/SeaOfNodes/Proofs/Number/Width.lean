import Mathlib.Data.Int.Bitwise
import Mathlib.Data.Int.ModEq
import Mathlib.Tactic.NormNum
import Mathlib.Tactic.Positivity
import SeaOfNodes.Ty.Arithmetic

/-!
Numbers that are values of their width, and what operators make of them. A number of any width is in
the 128 bits of literals; what is wrapped to a width is a value of it, and a value does not change
when it is wrapped again. An operator gives what its width leaves of the exact result, so that the
identities of integers hold.
-/
namespace SeaOfNodes

theorem wrap128_eq_iff {v : Int} :
    wrap128 v = v ↔ -170141183460469231731687303715884105728 ≤ v ∧
      v < 170141183460469231731687303715884105728 := by
  have hpow : (pow2 128 : Int) = 340282366920938463463374607431768211456 := rfl
  rw [wrap128, Int.bmod_eq_iff (pow2_pos 128), hpow]
  omega

theorem wrap128_wrap128 (v : Int) : wrap128 (wrap128 v) = wrap128 v := Int.bmod_bmod

theorem wrap128_eq_toInt (v : Int) : wrap128 v = (BitVec.ofInt 128 v).toInt :=
  (BitVec.toInt_ofInt v).symm

/-- The result of an operator on integers without a bound, where it has one. -/
def BinaryOp.onInts? (op : BinaryOp) (a b : Int) : Option Int :=
  match op with
  | .add => some (a + b)
  | .subtract => some (a - b)
  | .multiply => some (a * b)
  | .divide => if b = 0 then none else some (a.tdiv b)
  | .modulus => if b = 0 then none else some (a.tmod b)
  | .bitwiseAnd => some (a.land b)
  | .bitwiseOr => some (a.lor b)
  | .bitwiseXor => some (a.xor b)
  | .shiftLeft => if b < 0 then none else some (a * 2 ^ b.toNat)
  | .shiftRight => if b < 0 then none else some (a / 2 ^ b.toNat)
  | .logicalAnd | .logicalOr => none

theorem BinaryOp.onInts?_eq_none_iff {op : BinaryOp} {a b : Int} : op.onInts? a b = none ↔
    (op = .logicalAnd ∨ op = .logicalOr) ∨ (op = .divide ∨ op = .modulus) ∧ b = 0 ∨
      op.isShift = true ∧ b < 0 := by
  cases op <;> simp [onInts?, isShift]

/-! ### Words of integers -/

theorem getLsbD_ofInt (n : Nat) (a : Int) (i : Nat) :
    (BitVec.ofInt n a).getLsbD i = (decide (i < n) && a.testBit i) := by
  cases a with
  | ofNat m => simp [Int.testBit, BitVec.getLsbD_ofNat]
  | negSucc m =>
    rw [BitVec.ofInt_negSucc_eq_not_ofNat, BitVec.getLsbD_not, BitVec.getLsbD_ofNat]
    by_cases h : i < n <;> simp [h, Int.testBit]

theorem ofInt_land (n : Nat) (a b : Int) :
    BitVec.ofInt n (a.land b) = BitVec.ofInt n a &&& BitVec.ofInt n b := by
  refine BitVec.eq_of_getLsbD_eq fun i hi => ?_
  simp only [getLsbD_ofInt, BitVec.getLsbD_and, Int.testBit_land, hi, decide_true, Bool.true_and]

theorem ofInt_lor (n : Nat) (a b : Int) :
    BitVec.ofInt n (a.lor b) = BitVec.ofInt n a ||| BitVec.ofInt n b := by
  refine BitVec.eq_of_getLsbD_eq fun i hi => ?_
  simp only [getLsbD_ofInt, BitVec.getLsbD_or, Int.testBit_lor, hi, decide_true, Bool.true_and]

theorem ofInt_xor (n : Nat) (a b : Int) :
    BitVec.ofInt n (a.xor b) = BitVec.ofInt n a ^^^ BitVec.ofInt n b := by
  refine BitVec.eq_of_getLsbD_eq fun i hi => ?_
  simp only [getLsbD_ofInt, BitVec.getLsbD_xor, Int.testBit_lxor, hi, decide_true, Bool.true_and]

namespace IntWidth

/-- Whether `v` is a value of the width, within the bits that literals have. -/
def holds (w : IntWidth) (v : Int) : Bool := w.fits v && wrap128 v == v

theorem holds_iff {w : IntWidth} {v : Int} : w.holds v = true ↔ w.wrap v = v ∧ wrap128 v = v := by
  rw [holds, Bool.and_eq_true, fits, beq_iff_eq, beq_iff_eq]

theorem wrap_untyped (v : Int) : wrap .untyped v = v := rfl

theorem bits?_eq_some {w : IntWidth} {n : Nat} (h : w.bits? = some n) : n ∣ 64 ∧ 0 < n := by
  cases w <;> simp [bits?] at h <;> subst h <;> decide

theorem bits?_eq_none {w : IntWidth} (h : w.bits? = none) : w = .untyped := by
  cases w <;> simp [bits?] at h ⊢

variable {w : IntWidth} {op : BinaryOp} {n : Nat} {a b v : Int}

theorem wrap_eq (h : w.bits? = some n) (v : Int) :
    w.wrap v = if w.isSigned then Int.bmod v (pow2 n) else v % pow2 n := by rw [wrap, h]

theorem wrap_emod (h : w.bits? = some n) (v : Int) : w.wrap v % pow2 n = v % pow2 n := by
  rw [wrap_eq h]
  split
  · exact Int.bmod_emod
  · exact Int.emod_emod_of_dvd _ (dvd_refl _)

theorem wrap_congr (h : w.bits? = some n) (hab : a % pow2 n = b % pow2 n) :
    w.wrap a = w.wrap b := by
  rw [wrap_eq h, wrap_eq h, hab]
  split
  · rw [← Int.emod_bmod a, hab, Int.emod_bmod]
  · rfl

theorem wrap_wrap (w : IntWidth) (v : Int) : w.wrap (w.wrap v) = w.wrap v := by
  cases h : w.bits? with
  | none => rw [bits?_eq_none h, wrap_untyped]
  | some n => exact wrap_congr h (wrap_emod h v)

theorem wrap_zero (w : IntWidth) : w.wrap 0 = 0 := by cases w <;> rfl

theorem dvd_pow2 (h : w.bits? = some n) : pow2 n ∣ pow2 128 := by
  obtain ⟨hn, -⟩ := bits?_eq_some h
  exact Nat.pow_dvd_pow 2 ((Nat.le_of_dvd (by decide) hn).trans (by decide))

theorem wrap_wrap128 (h : w.bits? = some n) (v : Int) : w.wrap (wrap128 v) = w.wrap v := by
  refine wrap_congr h ?_
  have hdvd : (pow2 n : Int) ∣ pow2 128 := Int.natCast_dvd_natCast.2 (dvd_pow2 h)
  rw [← Int.emod_emod_of_dvd (wrap128 v) hdvd, wrap128, Int.bmod_emod, Int.emod_emod_of_dvd _ hdvd]

theorem wrap128_wrap (h : w.bits? = some n) (v : Int) : wrap128 (w.wrap v) = w.wrap v := by
  have hn : pow2 n ≤ 18446744073709551616 := by
    obtain ⟨hn, -⟩ := bits?_eq_some h
    exact Nat.pow_le_pow_right (by decide) (Nat.le_of_dvd (by decide) hn)
  have hpos : (0 : Int) < pow2 n := Int.natCast_pos.2 (pow2_pos n)
  rw [wrap128_eq_iff, wrap_eq h]
  split
  · have hlow := @Int.le_bmod v _ (pow2_pos n)
    have hhigh := @Int.bmod_lt v _ (pow2_pos n)
    omega
  · have hlow := Int.emod_nonneg v hpos.ne'
    have hhigh := Int.emod_lt_of_pos v hpos
    omega

theorem holds_wrap (h : w.bits? = some n) (v : Int) : w.holds (w.wrap v) = true :=
  holds_iff.2 ⟨wrap_wrap w v, wrap128_wrap h v⟩

theorem holds_of_wrap128 (hv : wrap128 a = a) : w.holds (w.wrap a) = true := by
  cases h : w.bits? with
  | some n => exact holds_wrap h a
  | none =>
    obtain rfl := bits?_eq_none h
    exact holds_iff.2 ⟨rfl, hv⟩

/-! ### Operators -/

theorem wrap128_tmod (ha : wrap128 a = a) (b : Int) : wrap128 (a.tmod b) = a.tmod b := by
  rw [wrap128_eq_iff] at ha ⊢
  have habs : (a.tmod b).natAbs ≤ a.natAbs := by
    rw [Int.natAbs_tmod]
    exact Nat.mod_le _ _
  have hneg : a ≤ 0 → a.tmod b ≤ 0 := by
    intro h
    have := Int.tmod_nonneg b (Int.neg_nonneg_of_nonpos h)
    rw [Int.neg_tmod] at this
    omega
  omega

theorem wrap128_shiftRight (ha : wrap128 a = a) (n : Nat) : wrap128 (a >>> n) = a >>> n := by
  rw [wrap128_eq_iff] at ha ⊢
  have hpos : (0 : Int) < (2 ^ n : Nat) := Int.natCast_pos.2 (Nat.pow_pos (by decide))
  rw [Int.shiftRight_eq_div_pow, Int.le_ediv_iff_mul_le hpos, Int.ediv_lt_iff_lt_mul hpos]
  omega

/-- The number that is left of `v` in a width: as many of its bits as the width has, and 128 of a
literal. -/
def truncate (w : IntWidth) (v : Int) : Int := w.wrap (wrap128 v)

theorem holds_truncate (w : IntWidth) (v : Int) : w.holds (w.truncate v) = true :=
  holds_of_wrap128 (wrap128_wrap128 v)

theorem truncate_of_holds (ha : w.holds a = true) : w.truncate a = a := by
  rw [truncate, (holds_iff.1 ha).2, (holds_iff.1 ha).1]

theorem truncate_zero (w : IntWidth) : w.truncate 0 = 0 := wrap_zero w

theorem bound_of_holds (ha : w.holds a = true) :
    -2 ^ w.bits?.getD 128 ≤ a ∧ a < 2 ^ w.bits?.getD 128 := by
  obtain ⟨hw, h128⟩ := holds_iff.1 ha
  cases h : w.bits? with
  | none =>
    rw [wrap128_eq_iff] at h128
    norm_num
    omega
  | some n =>
    have hpow : (pow2 n : Int) = 2 ^ n := by simp [pow2]
    have hpos : (0 : Int) < pow2 n := Int.natCast_pos.2 (pow2_pos n)
    rw [wrap_eq h] at hw
    rw [Option.getD_some]
    split at hw
    · have hlow := @Int.le_bmod a _ (pow2_pos n)
      have hhigh := @Int.bmod_lt a _ (pow2_pos n)
      omega
    · have hlow := Int.emod_nonneg a hpos.ne'
      have hhigh := Int.emod_lt_of_pos a hpos
      omega

theorem truncate_mul_pow (hb : (w.bits?.getD 128 : Int) ≤ b) :
    w.truncate (a * 2 ^ b.toNat) = w.wrap 0 := by
  have hdvd : ∀ n : Nat, (n : Int) ≤ b → (pow2 n : Int) ∣ a * 2 ^ b.toNat := by
    intro n hn
    exact Dvd.dvd.mul_left (pow_dvd_pow 2 (by omega)) a
  rw [truncate]
  cases h : w.bits? with
  | none =>
    rw [h] at hb
    rw [wrap128, Int.bmod_eq_zero_of_dvd (hdvd 128 hb)]
  | some n =>
    rw [h] at hb
    rw [wrap_wrap128 h]
    refine wrap_congr h ?_
    rw [Int.emod_eq_zero_of_dvd (hdvd n hb), Int.zero_emod]

theorem div_pow_of_bits_le (ha : w.holds a = true) (hb : (w.bits?.getD 128 : Int) ≤ b) :
    a / 2 ^ b.toNat = if a < 0 then -1 else 0 := by
  obtain ⟨hlow, hhigh⟩ := bound_of_holds ha
  have hpos : (0 : Int) < 2 ^ b.toNat := by positivity
  have hle : (2 : Int) ^ w.bits?.getD 128 ≤ 2 ^ b.toNat :=
    pow_le_pow_right₀ (by decide) (by omega)
  split
  · rw [Int.ediv_eq_iff_of_pos hpos]
    omega
  · exact Int.ediv_eq_zero_of_lt (by omega) (by omega)

theorem evaluate_of_exact (h128 : wrap128 a = a) (ha : op.isShift = true → w.holds a = true)
    (h : op.onInts? a b = some v) : w.evaluate op a b = .ok (w.truncate v) := by
  cases op with
  | add | subtract | multiply =>
    cases h
    rfl
  | divide =>
    obtain ⟨-, hv⟩ := Option.ite_none_left_eq_some.1 h
    cases hv
    rfl
  | modulus =>
    obtain ⟨-, hv⟩ := Option.ite_none_left_eq_some.1 h
    cases hv
    rw [truncate, wrap128_tmod h128]
    rfl
  | bitwiseAnd =>
    cases h
    rw [truncate, wrap128_eq_toInt, ofInt_land]
    rfl
  | bitwiseOr =>
    cases h
    rw [truncate, wrap128_eq_toInt, ofInt_lor]
    rfl
  | bitwiseXor =>
    cases h
    rw [truncate, wrap128_eq_toInt, ofInt_xor]
    rfl
  | shiftLeft =>
    obtain ⟨hb, hv⟩ := Option.ite_none_left_eq_some.1 h
    cases hv
    simp only [evaluate, if_neg hb]
    split
    · rw [truncate_mul_pow ‹_›]
    · simp [truncate, pow2]
  | shiftRight =>
    obtain ⟨hb, hv⟩ := Option.ite_none_left_eq_some.1 h
    cases hv
    simp only [evaluate, if_neg hb]
    split
    · rw [div_pow_of_bits_le (ha rfl) ‹_›]
      split <;> rfl
    · have hshift : a >>> b.toNat = a / 2 ^ b.toNat := by simp [Int.shiftRight_eq_div_pow]
      rw [truncate, ← hshift, wrap128_shiftRight h128]
  | logicalAnd | logicalOr => contradiction

theorem holds_evaluate (ha : wrap128 a = a)
    (h : w.evaluate op a b = .ok v) : w.holds v = true := by
  unfold evaluate at h
  cases op with
  | add | subtract | multiply | divide =>
    cases h
    exact holds_of_wrap128 (wrap128_wrap128 _)
  | modulus =>
    cases h
    exact holds_of_wrap128 (wrap128_tmod ha b)
  | bitwiseAnd | bitwiseOr | bitwiseXor =>
    cases h
    refine holds_of_wrap128 ?_
    rw [bitwise, wrap128_eq_toInt, BitVec.ofInt_toInt]
  | shiftLeft =>
    simp only at h
    split at h
    · contradiction
    · split at h <;> obtain rfl := Except.ok.inj h
      · exact holds_of_wrap128 rfl
      · exact holds_of_wrap128 (wrap128_wrap128 _)
  | shiftRight =>
    simp only at h
    split at h
    · contradiction
    · split at h <;> obtain rfl := Except.ok.inj h
      · refine holds_of_wrap128 ?_
        split <;> rfl
      · exact holds_of_wrap128 (wrap128_shiftRight ha _)
  | logicalAnd | logicalOr => contradiction

/-! ### Identities -/

variable (ha : w.holds a = true)

include ha

theorem wrap_negate : w.wrap (wrap128 (-w.wrap (wrap128 (-a)))) = a := by
  obtain ⟨hw, h128⟩ := holds_iff.1 ha
  cases h : w.bits? with
  | none =>
    obtain rfl := bits?_eq_none h
    have hmod : Int.ModEq (pow2 128) (wrap128 (-a)) (-a) := Int.bmod_emod
    have hneg : Int.ModEq (pow2 128) (-wrap128 (-a)) a := by simpa using hmod.neg
    rw [wrap_untyped, wrap_untyped, wrap128, ← Int.emod_bmod, hneg.eq, Int.emod_bmod]
    exact h128
  | some n =>
    have hmod : Int.ModEq (pow2 n) (w.wrap (-a)) (-a) := wrap_emod h (-a)
    have hneg : Int.ModEq (pow2 n) (-w.wrap (-a)) a := by simpa using hmod.neg
    rw [wrap_wrap128 h, wrap_wrap128 h, wrap_congr h hneg.eq, hw]

theorem wrap_complement : w.wrap (-w.wrap (-a - 1) - 1) = a := by
  obtain ⟨hw, h128⟩ := holds_iff.1 ha
  cases h : w.bits? with
  | none =>
    obtain rfl := bits?_eq_none h
    simp only [wrap_untyped]
    omega
  | some n =>
    have hmod : Int.ModEq (pow2 n) (w.wrap (-a - 1)) (-a - 1) := wrap_emod h (-a - 1)
    have hneg : Int.ModEq (pow2 n) (-w.wrap (-a - 1) - 1) a := by simpa using hmod.neg.sub_right 1
    rw [wrap_congr h hneg.eq, hw]

end IntWidth

theorem Ty.intResult_of_exact {w : IntWidth} {op : BinaryOp} {a b v : Int} (h128 : wrap128 a = a)
    (ha : op.isShift = true → w.holds a = true) (h : op.onInts? a b = some v) :
    intResult op w (.const a) (.const b) = .int w (.const (w.truncate v)) := by
  have heval := IntWidth.evaluate_of_exact h128 ha h
  have hdivides : ¬((op == .divide || op == .modulus) && Level.const b == .const 0) = true := by
    intro hzero
    have hnone : op.onInts? a b = none :=
      BinaryOp.onInts?_eq_none_iff.2 (.inr (.inl (by simpa using hzero)))
    simp [hnone] at h
  rw [intResult, if_neg hdivides]
  split
  · rename_i habsorbed
    -- The other operand does not matter, in the evaluation either.
    have hzero : w.evaluate op a b = .ok 0 := by
      have hwrap : wrap128 0 = 0 := rfl
      simp only [absorbed, Bool.and_eq_true, Bool.or_eq_true, beq_iff_eq, Level.const.injEq]
        at habsorbed
      rcases habsorbed with ⟨rfl | rfl, rfl | rfl⟩ <;>
        simp [IntWidth.evaluate, bitwise, IntWidth.wrap_zero, hwrap]
    rw [Except.ok.inj (heval.symm.trans hzero)]
  · simp only [heval]

end SeaOfNodes
