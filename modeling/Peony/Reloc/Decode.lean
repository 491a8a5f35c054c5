import Peony.Foundation.Words
import Peony.Object.Words
import Peony.Reloc.InPlace

namespace Peony

/-! A relocated field is read back as the value that was computed for it. -/

/-! ## Reading a field -/

/-- The two ways to read the bytes of a field as a number. -/
inductive Reading where
  | unsigned
  | signed
deriving DecidableEq

def Reading.value (reading : Reading) (bytes : List UInt8) : Int :=
  match reading with
  | unsigned => fromLeBytes bytes
  | signed => (fromLeBytes bytes : Int).bmod (256 ^ bytes.length)

namespace RelocType

/-- How the processor supplement reads the field of a type, where it says so. -/
def supplementReadings : RelocType → List Reading
  | r32 => [.unsigned]
  | r16 | r8 | size32 => [.unsigned, .signed]
  | _ => [.signed]

/-- The readings that the writers of the linker accept a value for by design: a word that
both extensions are accepted for is read by one of them. For relative words of 16 and 8 bits
the writers have none but those of the absolute ones. -/
def acceptedReadings : RelocType → Option (List Reading)
  | r32 | size32 | got32 | r16 | r8 => some [.unsigned, .signed]
  | pc16 | pc8 => Option.none
  | _ => some [.signed]

end RelocType

namespace Field

def value : Field → Int64
  | u64 val => val.toInt64
  | i32 val | u32 val | u16 val | u8 val => val

def readings : Field → List Reading
  | u64 _ | i32 _ => [.signed]
  | u32 _ | u16 _ | u8 _ => [.unsigned, .signed]

def bytes : Field → List UInt8
  | u64 val => toLeBytes val
  | i32 val => le32 val.toInt32.toUInt32
  | u32 val => le32 val.toUInt64.toUInt32
  | u16 val => le16 val.toUInt64.toUInt16
  | u8 val => [val.toUInt64.toUInt8]

@[simp] theorem length_bytes (field : Field) : field.bytes.length = field.width := by
  cases field with
  | u64 val => rw [bytes, toLeBytes, List.length_map, List.length_range]; rfl
  | i32 val => exact length_le32 _
  | u32 val => exact length_le32 _
  | u16 val => exact length_le16 _
  | u8 val => rfl

/-- The values that a field has room for. -/
def Fits : Field → Prop
  | u64 _ => True
  | i32 val => -2147483648 ≤ val.toInt ∧ val.toInt < 2147483648
  | u32 val => -2147483648 ≤ val.toInt ∧ val.toInt < 4294967296
  | u16 val => -32768 ≤ val.toInt ∧ val.toInt < 65536
  | u8 val => -128 ≤ val.toInt ∧ val.toInt < 256

theorem readings_of_type {type : RelocType} {addrs : RelocAddrs} {field : Field}
    (isField : fieldOf type addrs = some field) {readings : List Reading}
    (accepted : type.acceptedReadings = some readings) : field.readings = readings := by
  cases type <;> simp only [fieldOf] at isField <;> first
    | (cases isField; done)
    | (cases accepted; done)
    | (cases isField; cases accepted; rfl)
    | (split at isField <;> cases isField; cases accepted; rfl)

theorem unsigned_value {bytes : List UInt8} {word modulus : Int}
    (low : (fromLeBytes bytes : Int) = word % modulus) (positive : 0 ≤ word)
    (below : word < modulus) : Reading.unsigned.value bytes = word := by
  rw [Reading.value, low]
  exact Int.emod_eq_of_lt positive below

theorem signed_value (half : Nat) {bytes : List UInt8} {word : Int}
    (width : 256 ^ bytes.length = 2 * half)
    (low : (fromLeBytes bytes : Int) = word % (2 * half : Nat))
    (atLeast : -(half : Int) ≤ word) (below : word < half) :
    Reading.signed.value bytes = word := by
  rw [Reading.value, low, width, Int.emod_bmod]
  exact Int.bmod_eq_of_le_mul_two (by push_cast; omega) (by push_cast; omega)

theorem either_value (half : Nat) {bytes : List UInt8} {word : Int}
    (width : 256 ^ bytes.length = 2 * half)
    (low : (fromLeBytes bytes : Int) = word % (2 * half : Nat))
    (atLeast : -(half : Int) ≤ word) (below : word < (2 * half : Nat)) :
    ∃ reading ∈ [Reading.unsigned, Reading.signed], reading.value bytes = word := by
  by_cases positive : 0 ≤ word
  · exact ⟨.unsigned, List.mem_cons_self, unsigned_value low positive below⟩
  · exact ⟨.signed, List.mem_cons_of_mem _ (List.mem_singleton_self _),
      signed_value half width low atLeast (by omega)⟩

theorem decodes {field : Field} (fits : field.Fits) :
    ∃ reading ∈ field.readings, reading.value field.bytes = field.value.toInt := by
  cases field with
  | u64 val =>
      refine ⟨.signed, List.mem_singleton_self _, ?_⟩
      refine signed_value 9223372036854775808 ?_ ?_ val.toInt64.le_toInt
        val.toInt64.toInt_lt
      · rw [length_bytes]
        rfl
      · rw [bytes, fromLeBytes_toLeBytes]
        exact val.toInt64.toNat_toUInt64
  | i32 val =>
      refine ⟨.signed, List.mem_singleton_self _, ?_⟩
      refine signed_value 2147483648 ?_ ?_ fits.1 fits.2
      · rw [length_bytes]
        rfl
      · rw [bytes, fromLeBytes_le32, Int64.toUInt32_toInt32]
        exact val.toNat_toUInt32
  | u32 val =>
      refine either_value 2147483648 ?_ ?_ fits.1 fits.2
      · rw [length_bytes]
        rfl
      · rw [bytes, fromLeBytes_le32]
        exact val.toNat_toUInt32
  | u16 val =>
      refine either_value 32768 ?_ ?_ fits.1 fits.2
      · rw [length_bytes]
        rfl
      · rw [bytes, fromLeBytes_le16]
        exact val.toNat_toUInt16
  | u8 val =>
      refine either_value 128 ?_ ?_ fits.1 fits.2
      · rw [length_bytes]
        rfl
      · rw [bytes, fromLeBytes_singleton]
        exact val.toNat_toUInt8

end Field

/-! ## Writing a field -/

def Field.IsOverflow (field : Field) (object : String) (off : UInt64)
    (fault : RelocFault) : Prop :=
  ∃ rType, fault = .error (.overflow object off field.value rType)

theorem exec_writeField {field : Field} {off : UInt64} (rType : UInt32)
    (object : String) {buf : List UInt8} (inside : off.toNat + field.width ≤ buf.length) :
    (field.Fits ∧ InPlace.exec (Patching.writeField field off rType object) buf =
      (.ok (), Buffer.overwrite buf ⟨off.toNat, field.bytes⟩)) ∨
    (¬ field.Fits ∧ ∃ fault, field.IsOverflow object off fault ∧
      InPlace.exec (Patching.writeField field off rType object) buf =
        (.error fault, buf)) := by
  have copied : InPlace.exec (Patching.copyFromSlice off field.bytes) buf =
      (.ok (), Buffer.overwrite buf ⟨off.toNat, field.bytes⟩) := by
    rw [Patching.copyFromSlice, InPlace.exec_get_bind, if_pos]
    · rfl
    · rw [Field.length_bytes]
      exact inside
  have checked {rejected : Prop} [Decidable rejected] {reported : UInt32}
      (isRejected : rejected ↔ ¬ field.Fits) :
      (field.Fits ∧ InPlace.exec (if rejected then
          throw (.error (.overflow object off field.value reported))
        else Patching.copyFromSlice off field.bytes) buf =
          (.ok (), Buffer.overwrite buf ⟨off.toNat, field.bytes⟩)) ∨
      (¬ field.Fits ∧ ∃ fault, field.IsOverflow object off fault ∧
        InPlace.exec (if rejected then
          throw (.error (.overflow object off field.value reported))
        else Patching.copyFromSlice off field.bytes) buf = (.error fault, buf)) := by
    by_cases fits : field.Fits
    · rw [if_neg fun rejects => isRejected.mp rejects fits]
      exact Or.inl ⟨fits, copied⟩
    · rw [if_pos (isRejected.mpr fits)]
      exact Or.inr ⟨fits, _, ⟨reported, rfl⟩, rfl⟩
  cases field with
  | u64 val => exact Or.inl ⟨trivial, copied⟩
  | i32 val =>
      by_cases exact : val.toInt32.toInt64 = val
      · refine Or.inl ⟨val.toInt32_exact_iff.mp exact, ?_⟩
        rw [← copied, Patching.writeField, Patching.writeI32, checkedI32Bytes,
          if_pos exact]
        rfl
      · refine Or.inr ⟨exact ∘ val.toInt32_exact_iff.mpr, _, ⟨rType, rfl⟩, ?_⟩
        rw [Patching.writeField, Patching.writeI32, checkedI32Bytes, if_neg exact]
        rfl
  | u32 val =>
      refine checked ?_
      rw [ne_eq, ne_eq, Int64.toUInt32_exact_iff, Int64.toInt32_exact_iff, Field.Fits]
      omega
  | u16 val =>
      refine checked ?_
      rw [ne_eq, ne_eq, Int64.toUInt16_exact_iff, Int64.toInt16_exact_iff, Field.Fits]
      omega
  | u8 val =>
      refine checked ?_
      rw [ne_eq, ne_eq, Int64.toUInt8_exact_iff, Int64.toInt8_exact_iff, Field.Fits]
      omega

theorem patchInPlace_of_field {type : RelocType} {addrs : RelocAddrs} {field : Field}
    (isField : fieldOf type addrs = some field) (object : String) :
    patchInPlace type.code addrs object =
      Patching.writeField field addrs.offset type.code object := by
  rw [patchInPlace, RelocType.ofCode_code]
  simp only [isField]

def RelocAddrs.Beside (addrs : RelocAddrs) (field : Field) (place : Nat) : Prop :=
  place < addrs.offset.toNat ∨ addrs.offset.toNat + field.width ≤ place

/-- A relocation of one field that succeeds leaves the computed value to be read in one
of the given ways, if any are given, and nothing else in the buffer is changed. One that
fails reports an overflow and leaves the buffer as it was. -/
def FieldReadsBack (type : RelocType) (readings : Option (List Reading)) : Prop :=
  ∀ (addrs : RelocAddrs) (field : Field), fieldOf type addrs = some field →
    ∀ (object : String) (buf : List UInt8),
      addrs.offset.toNat + field.width ≤ buf.length →
        let (result, after) := InPlace.exec (patchInPlace type.code addrs object) buf
        (result = .ok () →
          (∀ accepted, readings = some accepted → ∃ reading ∈ accepted, reading.value
            ((after.drop addrs.offset.toNat).take field.width) = field.value.toInt) ∧
          after.length = buf.length ∧
          ∀ place, addrs.Beside field place → after[place]? = buf[place]?) ∧
        (∀ fault, result = .error fault →
          field.IsOverflow object addrs.offset fault ∧ after = buf)

/-- Every field is read back in one of the extensions its writer accepts. -/
theorem fieldReadsBack_accepted (type : RelocType) :
    FieldReadsBack type type.acceptedReadings := by
  intro addrs field isField object buf inside
  rw [patchInPlace_of_field isField]
  rcases exec_writeField type.code object inside with
    ⟨fits, done⟩ | ⟨-, fault, overflows, failed⟩
  · rw [done]
    refine ⟨fun _ => ⟨fun readings accepted => ?_, Buffer.length_overwrite _ _,
      fun place beside => ?_⟩,
      (fun fault impossible => by cases impossible)⟩
    · have fieldInside : addrs.offset.toNat + field.bytes.length ≤ buf.length := by
        rw [field.length_bytes]
        exact inside
      have read := Buffer.slice_overwrite
        (show (Buffer.Patch.mk addrs.offset.toNat field.bytes).offset + _ ≤ _ from fieldInside)
      rw [← Field.readings_of_type isField accepted, ← field.length_bytes, read]
      exact Field.decodes fits
    · have notCovered : ¬ (Buffer.Patch.mk addrs.offset.toNat field.bytes).Covers place := by
        rintro ⟨above, below⟩
        rw [field.length_bytes] at below
        rcases beside with before | behind
        · exact absurd above (Nat.not_le.mpr before)
        · exact absurd below (Nat.not_lt.mpr behind)
      rw [Buffer.getElem?_overwrite]
      cases buf[place]? with
      | none => rfl
      | some old => exact congrArg some (Buffer.Patch.at_of_not_covers notCovered old)
  · rw [failed]
    refine ⟨(fun impossible => by cases impossible), fun other isFault => ?_⟩
    cases isFault
    exact ⟨overflows, rfl⟩

/-- Addresses of which all are the given one, or 0 where the field is relative. -/
def soleAddrs (address : UInt64) : RelocAddrs where
  s := address
  a := 0
  p := 0
  g := address
  l := 0
  z := 0
  gotBase := 0
  tls := 0
  tlsSize := 0
  offset := 0
  shared := false
  tlsGd := 0
  tlsIe := 0
  tlsDesc := 0
  tlsLdm := 0
  tlsImported := false

theorem not_fieldReadsBack {type : RelocType} {reading : Reading} {field : Field}
    (address : UInt64) (buf : List UInt8)
    (isField : fieldOf type (soleAddrs address) = some field)
    (inside : field.width ≤ buf.length)
    (succeeds : (InPlace.exec (patchInPlace type.code (soleAddrs address) "a.o") buf).1 =
      .ok ())
    (differs : reading.value ((((InPlace.exec (patchInPlace type.code (soleAddrs address)
      "a.o") buf).2.drop 0).take field.width)) ≠ field.value.toInt) :
    ¬ FieldReadsBack type (some [reading]) := by
  intro readsBack
  rcases ((readsBack (soleAddrs address) field isField "a.o" buf
    (by rw [show (soleAddrs address).offset.toNat = 0 from rfl, Nat.zero_add]
        exact inside)).1 succeeds).1 _ rfl with ⟨other, isOther, read⟩
  rw [List.mem_singleton.mp isOther] at read
  exact differs read

/-- Words are accepted that only the other extension leads back to. -/
theorem not_fieldReadsBack_supplement :
    ¬ FieldReadsBack .r32 (some RelocType.r32.supplementReadings) ∧
      ¬ FieldReadsBack .got32 (some RelocType.got32.supplementReadings) := by
  constructor
  · exact not_fieldReadsBack 0xffffffffffffffff [0, 0, 0, 0] rfl
      (by decide) rfl (by decide)
  · exact not_fieldReadsBack 0xffffffff [0, 0, 0, 0] rfl
      (by decide) rfl (by decide)

end Peony
