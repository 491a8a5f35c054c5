import Mathlib.Algebra.Order.Group.Nat
import Mathlib.Order.Lattice

/-! Rounding up to an alignment: in the integers, and with a mask on words of 64
bits, where the sum with the mask can pass the largest word. -/

namespace Alignment

/-! ## In the integers -/

def roundUp (value align : Nat) : Nat := (value + (align - 1)) / align * align

theorem le_roundUp (value : Nat) {align : Nat} (positive : 0 < align) :
    value ≤ roundUp value align := by
  have split := Nat.div_add_mod (value + (align - 1)) align
  have small := Nat.mod_lt (value + (align - 1)) positive
  rw [roundUp, Nat.mul_comm]
  omega

theorem roundUp_le_add (value align : Nat) :
    roundUp value align ≤ value + (align - 1) :=
  Nat.div_mul_le_self _ _

@[simp] theorem roundUp_one (value : Nat) : roundUp value 1 = value := by
  simp [roundUp]

/-- Alignments are powers of two, so that the larger of two is a multiple of the
other one. -/
theorem dvd_of_le {low high : Nat} (lowPower : low.isPowerOfTwo)
    (highPower : high.isPowerOfTwo) (ordered : low ≤ high) : low ∣ high := by
  rcases lowPower with ⟨lowBits, rfl⟩
  rcases highPower with ⟨highBits, rfl⟩
  exact Nat.pow_dvd_pow 2 ((Nat.pow_le_pow_iff_right (by decide)).mp ordered)

theorem isPowerOfTwo_max {first second : Nat}
    (firstPower : first.isPowerOfTwo) (secondPower : second.isPowerOfTwo) :
    (max first second).isPowerOfTwo := by
  rcases max_choice first second with isFirst | isSecond
  · rwa [isFirst]
  · rwa [isSecond]

def roundBits (value mask : Nat) : Nat := value + mask - ((value + mask) &&& mask)

theorem le_roundBits (value mask : Nat) : value ≤ roundBits value mask := by
  have kept : (value + mask) &&& mask ≤ mask := Nat.and_le_right
  rw [roundBits]
  omega

theorem le_roundBits_of_overflow {value mask : Nat} (isValue : value < 2 ^ 64)
    (isMask : mask < 2 ^ 64) (overflow : 2 ^ 64 ≤ value + mask) :
    2 ^ 64 ≤ roundBits value mask := by
  have low : (value + mask) &&& mask = ((value + mask) % 2 ^ 64) &&& mask := by
    have kept : (value + mask) &&& mask < 2 ^ 64 :=
      Nat.lt_of_le_of_lt Nat.and_le_right isMask
    rw [← Nat.mod_eq_of_lt kept, Nat.and_mod_two_pow, Nat.mod_eq_of_lt isMask]
  have part : ((value + mask) % 2 ^ 64) &&& mask ≤ (value + mask) % 2 ^ 64 :=
    Nat.and_le_left
  rw [roundBits]
  omega

/-! ## On words -/

def roundMask (value mask : UInt64) : UInt64 := (value + mask) &&& ~~~ mask

theorem toNat_split (word mask : UInt64) :
    (word &&& mask).toNat + (word &&& ~~~ mask).toNat = word.toNat := by
  have disjoint :
      (word &&& mask).toBitVec &&& (word &&& ~~~ mask).toBitVec = 0#64 := by
    simp only [UInt64.toBitVec_and, UInt64.toBitVec_not]
    ext place
    simp
    grind
  have sum := BitVec.toNat_add_of_and_eq_zero disjoint
  rw [BitVec.add_eq_or_of_and_eq_zero _ _ disjoint] at sum
  rw [← UInt64.toNat_toBitVec, ← UInt64.toNat_toBitVec, ← sum,
    ← UInt64.toNat_toBitVec word]
  congr 1
  simp only [UInt64.toBitVec_and, UInt64.toBitVec_not]
  ext place
  simp
  grind

theorem le_roundMask {value mask : UInt64}
    (fits : value.toNat + mask.toNat < 2 ^ 64) :
    value.toNat ≤ (roundMask value mask).toNat := by
  have split := toNat_split (value + mask) mask
  have kept : ((value + mask) &&& mask).toNat ≤ mask.toNat := by
    rw [UInt64.toNat_and]
    exact Nat.and_le_right
  rw [UInt64.toNat_add, Nat.mod_eq_of_lt fits] at split
  rw [roundMask]
  omega

theorem toNat_roundMask_of_sum {value mask : UInt64}
    (fits : value.toNat + mask.toNat < 2 ^ 64) :
    (roundMask value mask).toNat = roundBits value.toNat mask.toNat := by
  have split := toNat_split (value + mask) mask
  rw [UInt64.toNat_and, UInt64.toNat_add, Nat.mod_eq_of_lt fits] at split
  rw [roundMask, roundBits]
  omega

theorem toNat_clear {mask : UInt64} {bits : Nat}
    (isMask : mask.toNat = 2 ^ bits - 1) (word : UInt64) :
    (word &&& ~~~ mask).toNat = word.toNat / 2 ^ bits * 2 ^ bits := by
  have split := toNat_split word mask
  rw [UInt64.toNat_and, isMask, Nat.and_two_pow_sub_one_eq_mod] at split
  have parts := Nat.div_add_mod word.toNat (2 ^ bits)
  rw [Nat.mul_comm] at parts
  omega

/-- A rounded word is a multiple of the alignment, also when the sum wrapped. -/
theorem dvd_roundMask {mask : UInt64} {bits : Nat}
    (isMask : mask.toNat = 2 ^ bits - 1) (value : UInt64) :
    2 ^ bits ∣ (roundMask value mask).toNat := by
  rw [roundMask, toNat_clear isMask]
  exact Nat.dvd_mul_left _ _

theorem sum_lt_of_roundUp_lt {value bits : Nat} (isWord : 2 ^ bits - 1 < 2 ^ 64)
    (fits : roundUp value (2 ^ bits) < 2 ^ 64) :
    value + (2 ^ bits - 1) < 2 ^ 64 := by
  have shape : bits ≤ 64 := by
    by_contra large
    have bigger : 2 ^ 65 ≤ 2 ^ bits :=
      Nat.pow_le_pow_right (by decide) (by omega)
    omega
  by_contra large
  have multiple : 2 ^ (64 - bits) * 2 ^ bits = 2 ^ 64 := by
    rw [← Nat.pow_add, Nat.sub_add_cancel shape]
  have quotient : 2 ^ (64 - bits) ≤ (value + (2 ^ bits - 1)) / 2 ^ bits :=
    (Nat.le_div_iff_mul_le (Nat.two_pow_pos bits)).mpr (by omega)
  have reached := Nat.mul_le_mul_right (2 ^ bits) quotient
  rw [roundUp] at fits
  omega

theorem toNat_roundMask {value mask : UInt64} {bits : Nat}
    (isMask : mask.toNat = 2 ^ bits - 1)
    (fits : roundUp value.toNat (2 ^ bits) < 2 ^ 64) :
    (roundMask value mask).toNat = roundUp value.toNat (2 ^ bits) := by
  have sum := sum_lt_of_roundUp_lt (isMask ▸ mask.toNat_lt) fits
  rw [roundMask, toNat_clear isMask, UInt64.toNat_add, isMask,
    Nat.mod_eq_of_lt sum, roundUp]

end Alignment
