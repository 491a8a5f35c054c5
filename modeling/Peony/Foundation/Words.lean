import Mathlib.Data.Int.Basic

/-! Signed words cast to narrower words, by the integers they stand for, and the bits
of a number without its lowest one. -/

namespace Int64

variable (value : Int64)

theorem toNat_toUInt64 :
    (value.toUInt64.toNat : Int) = value.toInt % 18446744073709551616 := by
  have balanced : value.toInt =
      (value.toUInt64.toNat : Int).bmod 18446744073709551616 :=
    BitVec.toInt_eq_toNat_bmod value.toBitVec
  have bounded := value.toUInt64.toNat_lt
  rw [balanced, Int.bmod_def]
  split <;> omega

/-! ## The low part of a word -/

theorem toNat_toUInt32 :
    (value.toUInt64.toUInt32.toNat : Int) = value.toInt % 4294967296 := by
  have whole := value.toNat_toUInt64
  rw [UInt64.toNat_toUInt32]
  omega

theorem toNat_toUInt16 :
    (value.toUInt64.toUInt16.toNat : Int) = value.toInt % 65536 := by
  have whole := value.toNat_toUInt64
  rw [UInt64.toNat_toUInt16]
  omega

theorem toNat_toUInt8 :
    (value.toUInt64.toUInt8.toNat : Int) = value.toInt % 256 := by
  have whole := value.toNat_toUInt64
  rw [UInt64.toNat_toUInt8]
  omega

theorem toUInt32_toInt32 : value.toInt32.toUInt32 = value.toUInt64.toUInt32 := by
  rw [← UInt32.toBitVec_inj]
  exact BitVec.signExtend_eq_setWidth_of_le value.toBitVec (by decide)

theorem toUInt16_toInt16 : value.toInt16.toUInt16 = value.toUInt64.toUInt16 := by
  rw [← UInt16.toBitVec_inj]
  exact BitVec.signExtend_eq_setWidth_of_le value.toBitVec (by decide)

theorem toUInt8_toInt8 : value.toInt8.toUInt8 = value.toUInt64.toUInt8 := by
  rw [← UInt8.toBitVec_inj]
  exact BitVec.signExtend_eq_setWidth_of_le value.toBitVec (by decide)

/-! ## Casts that keep the value -/

theorem toInt32_exact_iff :
    value.toInt32.toInt64 = value ↔
      -2147483648 ≤ value.toInt ∧ value.toInt < 2147483648 := by
  have atLeast := value.le_toInt
  have below := value.toInt_lt
  rw [← Int64.toInt_inj, Int32.toInt_toInt64, Int64.toInt_toInt32, Int.bmod_def]
  split <;> omega

theorem toUInt32_exact_iff :
    value.toUInt64.toUInt32.toUInt64 = value.toUInt64 ↔
      0 ≤ value.toInt ∧ value.toInt < 4294967296 := by
  have whole := value.toNat_toUInt64
  have atLeast := value.le_toInt
  have below := value.toInt_lt
  rw [← UInt64.toNat_inj, UInt32.toNat_toUInt64, UInt64.toNat_toUInt32]
  omega

theorem toInt16_exact_iff :
    value.toInt16.toInt64 = value ↔
      -32768 ≤ value.toInt ∧ value.toInt < 32768 := by
  have atLeast := value.le_toInt
  have below := value.toInt_lt
  rw [← Int64.toInt_inj, Int16.toInt_toInt64, Int64.toInt_toInt16, Int.bmod_def]
  split <;> omega

theorem toUInt16_exact_iff :
    value.toUInt64.toUInt16.toUInt64 = value.toUInt64 ↔
      0 ≤ value.toInt ∧ value.toInt < 65536 := by
  have whole := value.toNat_toUInt64
  have atLeast := value.le_toInt
  have below := value.toInt_lt
  rw [← UInt64.toNat_inj, UInt16.toNat_toUInt64, UInt64.toNat_toUInt16]
  omega

theorem toInt8_exact_iff :
    value.toInt8.toInt64 = value ↔
      -128 ≤ value.toInt ∧ value.toInt < 128 := by
  have atLeast := value.le_toInt
  have below := value.toInt_lt
  rw [← Int64.toInt_inj, Int8.toInt_toInt64, Int64.toInt_toInt8, Int.bmod_def]
  split <;> omega

theorem toUInt8_exact_iff :
    value.toUInt64.toUInt8.toUInt64 = value.toUInt64 ↔
      0 ≤ value.toInt ∧ value.toInt < 256 := by
  have whole := value.toNat_toUInt64
  have atLeast := value.le_toInt
  have below := value.toInt_lt
  rw [← UInt64.toNat_inj, UInt8.toNat_toUInt64, UInt64.toNat_toUInt8]
  omega

end Int64

namespace Nat

theorem testBit_and_pred {value low : Nat}
    (clear : ∀ index < low, value.testBit index = false)
    (present : value.testBit low = true) (index : Nat) :
    (value &&& (value - 1)).testBit index =
      (value.testBit index && decide (index ≠ low)) := by
  have noRest : value % 2 ^ low = 0 := by
    apply Nat.eq_of_testBit_eq
    intro index
    rw [Nat.testBit_mod_two_pow, Nat.zero_testBit]
    by_cases below : index < low
    · rw [clear index below, Bool.and_false]
    · rw [decide_eq_false below, Bool.false_and]
  have oddQuotient : value / 2 ^ low % 2 = 1 := by
    rw [Nat.testBit_eq_decide_div_mod_eq, decide_eq_true_eq] at present
    exact present
  obtain ⟨half, isHalf⟩ : ∃ half, value / 2 ^ low = 2 * half + 1 :=
    ⟨value / 2 ^ low / 2, by omega⟩
  have split : value = 2 ^ low * (2 * half + 1) := by
    rw [← isHalf]
    exact (Nat.mul_div_cancel' (Nat.dvd_of_mod_eq_zero noRest)).symm
  have positive : 0 < 2 ^ low := Nat.two_pow_pos low
  have pred : value - 1 = 2 ^ low * (2 * half) + (2 ^ low - 1) := by
    rw [split, Nat.mul_add, Nat.mul_one]
    exact Nat.add_sub_assoc positive _
  have bit : value.testBit index =
      (2 ^ low * (2 * half + 1) + 0).testBit index := by
    rw [Nat.add_zero, ← split]
  rw [Nat.testBit_and, pred, bit, Nat.testBit_two_pow_mul_add _ positive,
    Nat.testBit_two_pow_mul_add _ (Nat.sub_lt positive Nat.one_pos)]
  by_cases below : index < low
  · simp [below]
  · rw [if_neg below, if_neg below]
    cases offset : index - low with
    | zero =>
        have same : index = low := by omega
        simp [same]
    | succ offset =>
        have different : index ≠ low := by omega
        simp [Nat.testBit_succ, different, Nat.mul_add_div]

end Nat
