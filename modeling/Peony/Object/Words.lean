import Mathlib.Algebra.Order.Ring.Nat
import Peony.Cache.Files
import Peony.Layout.Property
import Peony.Object.EhFrame

namespace Peony

/-! Words that are written byte by byte and read back. -/

def leDigits (count number : Nat) : List UInt8 :=
  (List.range count).map fun place => UInt8.ofNat (number / 256 ^ place)

theorem fromLeBytes_leDigits (count number : Nat) :
    fromLeBytes (leDigits count number) = number % 256 ^ count := by
  induction count generalizing number with
  | zero => rw [Nat.pow_zero, Nat.mod_one]; rfl
  | succ count induction =>
      have tail : (List.range count).map
          (fun place => UInt8.ofNat (number / 256 ^ (place + 1))) =
          leDigits count (number / 256) := by
        refine List.map_congr_left fun place _ => ?_
        rw [Nat.pow_succ', Nat.div_div_eq_div_mul]
      have split : leDigits (count + 1) number =
          UInt8.ofNat number :: leDigits count (number / 256) := by
        rw [leDigits, List.range_succ_eq_map, List.map_cons, List.map_map, ← tail,
          Nat.pow_zero, Nat.div_one]
        rfl
      rw [split]
      change (UInt8.ofNat number).toNat + 256 * fromLeBytes (leDigits count (number / 256)) = _
      rw [induction, UInt8.toNat_ofNat', show 256 ^ (count + 1) = 256 * 256 ^ count from Nat.pow_succ']
      exact Nat.mod_mul.symm

theorem le16_eq_leDigits (word : UInt16) : le16 word = leDigits 2 word.toNat := by
  refine List.map_congr_left fun place inRange => ?_
  have bounded : place < 2 := List.mem_range.mp inRange
  rw [← UInt8.toNat_inj, UInt16.toNat_toUInt8, UInt16.toNat_shiftRight,
    UInt16.toNat_ofNat', UInt8.toNat_ofNat', Nat.mod_eq_of_lt (by omega : 8 * place < _),
    Nat.mod_eq_of_lt (by omega : 8 * place < _), Nat.shiftRight_eq_div_pow, Nat.pow_mul]

theorem le32_eq_leDigits (word : UInt32) : le32 word = leDigits 4 word.toNat := by
  refine List.map_congr_left fun place inRange => ?_
  have bounded : place < 4 := List.mem_range.mp inRange
  rw [← UInt8.toNat_inj, UInt32.toNat_toUInt8, UInt32.toNat_shiftRight,
    UInt32.toNat_ofNat', UInt8.toNat_ofNat', Nat.mod_eq_of_lt (by omega : 8 * place < _),
    Nat.mod_eq_of_lt (by omega : 8 * place < _), Nat.shiftRight_eq_div_pow, Nat.pow_mul]

theorem toLeBytes_eq_leDigits (word : UInt64) : toLeBytes word = leDigits 8 word.toNat := by
  refine List.map_congr_left fun place inRange => ?_
  have bounded : place < 8 := List.mem_range.mp inRange
  rw [← UInt8.toNat_inj, UInt64.toNat_toUInt8, UInt64.toNat_shiftRight,
    UInt64.toNat_ofNat', UInt8.toNat_ofNat', Nat.mod_eq_of_lt (by omega : 8 * place < _),
    Nat.mod_eq_of_lt (by omega : 8 * place < _), Nat.shiftRight_eq_div_pow, Nat.pow_mul]

@[simp] theorem fromLeBytes_le16 (word : UInt16) : fromLeBytes (le16 word) = word.toNat := by
  rw [le16_eq_leDigits, fromLeBytes_leDigits]
  exact Nat.mod_eq_of_lt word.toNat_lt

@[simp] theorem fromLeBytes_le32 (word : UInt32) : fromLeBytes (le32 word) = word.toNat := by
  rw [le32_eq_leDigits, fromLeBytes_leDigits]
  exact Nat.mod_eq_of_lt word.toNat_lt

@[simp] theorem fromLeBytes_toLeBytes (word : UInt64) :
    fromLeBytes (toLeBytes word) = word.toNat := by
  rw [toLeBytes_eq_leDigits, fromLeBytes_leDigits]
  exact Nat.mod_eq_of_lt word.toNat_lt

@[simp] theorem fromLeBytes_singleton (byte : UInt8) : fromLeBytes [byte] = byte.toNat := rfl

@[simp] theorem ofNat_readU32_le32 (word : UInt32) (rest : List UInt8) :
    UInt32.ofNat (readU32 (le32 word ++ rest)) = word := by
  rw [readU32, List.take_left' (length_le32 word), fromLeBytes_le32, UInt32.ofNat_toNat]

@[simp] theorem ofNat_fromLeBytes_le16 (word : UInt16) (rest : List UInt8) :
    UInt16.ofNat (fromLeBytes ((le16 word ++ rest).take 2)) = word := by
  rw [List.take_left' (length_le16 word), fromLeBytes_le16, UInt16.ofNat_toNat]

def wordOf (bytes : List UInt8) : UInt64 := UInt64.ofNat (fromLeBytes (bytes.take 8))

theorem length_toLeBytes (word : UInt64) : (toLeBytes word).length = 8 := rfl

@[simp] theorem wordOf_append (word : UInt64) (rest : List UInt8) :
    wordOf (toLeBytes word ++ rest) = word := by
  rw [wordOf, List.take_left' (length_toLeBytes word), fromLeBytes_toLeBytes,
    UInt64.ofNat_toNat]

@[simp] theorem wordOf_toLeBytes (word : UInt64) : wordOf (toLeBytes word) = word := by
  have whole := wordOf_append word []
  rw [List.append_nil] at whole
  exact whole

@[simp] theorem drop_toLeBytes (word : UInt64) (rest : List UInt8) :
    (toLeBytes word ++ rest).drop 8 = rest :=
  List.drop_left' (length_toLeBytes word)

theorem toLeBytes_inj {first second : UInt64} :
    toLeBytes first = toLeBytes second ↔ first = second := by
  constructor
  · intro same
    rw [← wordOf_toLeBytes first, same, wordOf_toLeBytes]
  · exact congrArg toLeBytes

/-! ## Two words in one -/

theorem toUInt32_joined (high low : UInt32) :
    ((high.toUInt64 <<< 32) ||| low.toUInt64).toUInt32 = low := by
  rw [← UInt32.toBitVec_inj]
  ext place inWord
  simp

theorem toUInt32_joined_shift (high low : UInt32) :
    (((high.toUInt64 <<< 32) ||| low.toUInt64) >>> 32).toUInt32 = high := by
  rw [← UInt32.toBitVec_inj]
  ext place inWord
  have inHalf : 32 + place < 64 := by omega
  have inIndex : place < 64 := by omega
  simp [inHalf, inIndex, inWord, ← BitVec.getLsbD_eq_getElem]

end Peony
