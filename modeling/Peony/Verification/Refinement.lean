import Peony.Verification.RelocByte

namespace Peony

/-! The linker writes what its model of the relocated bytes says, wherever the model
finds the bytes inside of the buffer. -/

/-- The record that the linker applies a relocation with. -/
def RelocationByteInputs.addrs (inputs : RelocationByteInputs) : RelocAddrs where
  s := inputs.s
  a := inputs.a
  p := inputs.p
  g := inputs.g
  l := inputs.l
  z := inputs.z
  gotBase := inputs.gotBase
  tls := inputs.tls
  tlsSize := inputs.tlsSize
  offset := inputs.offset
  shared := inputs.shared
  tlsGd := inputs.tlsGd
  tlsIe := inputs.tlsIe
  tlsDesc := inputs.tlsDesc
  tlsLdm := inputs.tlsLdm
  tlsImported := inputs.tlsImported

/-- What the linker does where the model writes or overflows. -/
def Refines (patched : Except RelocFault (List UInt8)) :
    Except RelocationByteError Rewritten → Prop
  | .ok (bytes, _, _) => patched = .ok bytes
  | .error (.overflow _ offset value _ _) =>
      ∃ object rType, patched = .error (.error (.overflow object offset value rType))
  | .error (.bufferTooShort ..) => True

/-! ## The range tests

The model converts to the integers of a width, the linker casts there and back. -/

section Ranges

variable (value : Int64)

theorem trySigned_32_iff :
    trySigned 32 value = true ↔ value.toInt32.toInt64 = value := by
  rw [Int64.toInt32_exact_iff, trySigned, Bool.and_eq_true, decide_eq_true_iff,
    decide_eq_true_iff]
  exact Iff.rfl

theorem tryUnsigned_32_iff :
    tryUnsigned 32 value = true ↔
      value.toUInt64.toUInt32.toUInt64 = value.toUInt64 := by
  rw [Int64.toUInt32_exact_iff, tryUnsigned, Bool.and_eq_true, decide_eq_true_iff,
    decide_eq_true_iff]
  exact Iff.rfl

theorem trySigned_16_iff :
    trySigned 16 value = true ↔ value.toInt16.toInt64 = value := by
  rw [Int64.toInt16_exact_iff, trySigned, Bool.and_eq_true, decide_eq_true_iff,
    decide_eq_true_iff]
  exact Iff.rfl

theorem tryUnsigned_16_iff :
    tryUnsigned 16 value = true ↔
      value.toUInt64.toUInt16.toUInt64 = value.toUInt64 := by
  rw [Int64.toUInt16_exact_iff, tryUnsigned, Bool.and_eq_true, decide_eq_true_iff,
    decide_eq_true_iff]
  exact Iff.rfl

theorem trySigned_8_iff :
    trySigned 8 value = true ↔ value.toInt8.toInt64 = value := by
  rw [Int64.toInt8_exact_iff, trySigned, Bool.and_eq_true, decide_eq_true_iff,
    decide_eq_true_iff]
  exact Iff.rfl

theorem tryUnsigned_8_iff :
    tryUnsigned 8 value = true ↔
      value.toUInt64.toUInt8.toUInt64 = value.toUInt64 := by
  rw [Int64.toUInt8_exact_iff, tryUnsigned, Bool.and_eq_true, decide_eq_true_iff,
    decide_eq_true_iff]
  exact Iff.rfl

end Ranges

namespace Refines

variable {buf : List UInt8} {off : UInt64} {value : Int64} {rType : UInt32}
variable {object : String}

theorem checkedEnd {width : Nat} {next : Nat → Except RelocationByteError Rewritten}
    {patched : Except RelocFault (List UInt8)}
    (inside : off.toNat + width < 18446744073709551616 →
      off.toNat + width ≤ buf.length → Refines patched (next (off.toNat + width))) :
    Refines patched (checkedEnd off width buf.length rType >>= next) := by
  unfold Peony.checkedEnd
  split
  · rename_i unwrapped
    split
    · trivial
    · rename_i notShort
      exact inside unwrapped (Nat.le_of_not_lt notShort)
  · trivial

theorem raw {bytes : List UInt8} :
    Refines (writeBytes buf off bytes) (writeRaw buf off bytes rType) := by
  refine checkedEnd fun _ inside => ?_
  rw [writeBytes, if_pos inside]
  rfl

/-- The bytes of a signed word, or the same overflow. -/
theorem i32Bytes {first : List UInt8 → Except RelocFault (List UInt8)}
    {next : List UInt8 → Except RelocationByteError Rewritten}
    (fits : ∀ bytes : List UInt8, bytes.length = 4 → Refines (first bytes) (next bytes)) :
    Refines (checkedI32Bytes value rType object off >>= first)
      (modelI32Bytes value off rType >>= next) := by
  unfold checkedI32Bytes modelI32Bytes
  by_cases exact : value.toInt32.toInt64 = value
  · rw [if_pos exact, if_pos ((trySigned_32_iff value).mpr exact)]
    exact fits _ (length_le32 _)
  · rw [if_neg exact, if_neg (exact ∘ (trySigned_32_iff value).mp)]
    exact ⟨object, rType, rfl⟩

theorem u64 : Refines (writeU64 buf off value.toUInt64) (modelWriteU64 buf off value rType) :=
  raw

theorem i32 : Refines (writeI32 buf off value rType object off)
    (modelWriteI32 buf off value rType) :=
  i32Bytes fun _ _ => raw

/-- A word that is accepted in both extensions is the same in the two. -/
theorem either {unsigned signed : Bool} {narrow widened rejected : Prop}
    [Decidable rejected] {bytes signedBytes : List UInt8} {width : UInt8}
    {reported : UInt32} (isUnsigned : unsigned = true ↔ widened)
    (isSigned : signed = true ↔ narrow) (isRejected : rejected ↔ ¬ widened ∧ ¬ narrow)
    (same : signedBytes = bytes) :
    Refines
      (if rejected then .error (.error (.overflow object off value reported))
      else writeBytes buf off bytes)
      (if unsigned then writeRaw buf off bytes rType
      else if signed then writeRaw buf off signedBytes rType
      else .error (.overflow rType off value width .unsignedOrSignExtended)) := by
  subst same
  by_cases isWidened : widened
  · rw [if_neg fun neither => (isRejected.mp neither).1 isWidened,
      if_pos (isUnsigned.mpr isWidened)]
    exact raw
  · rw [if_neg (isWidened ∘ isUnsigned.mp)]
    by_cases isNarrow : narrow
    · rw [if_neg fun neither => (isRejected.mp neither).2 isNarrow,
        if_pos (isSigned.mpr isNarrow)]
      exact raw
    · rw [if_pos (isRejected.mpr ⟨isWidened, isNarrow⟩), if_neg (isNarrow ∘ isSigned.mp)]
      exact ⟨object, reported, rfl⟩

theorem u32 : Refines (writeU32 buf off value rType object off)
    (modelWriteU32 buf off value rType) :=
  either (tryUnsigned_32_iff value) (trySigned_32_iff value) Iff.rfl
    (by rw [Int64.toUInt32_toInt32])

theorem u16 : Refines (writeU16 buf off value object off)
    (modelWriteU16 buf off value rType) :=
  either (tryUnsigned_16_iff value) (trySigned_16_iff value) and_comm
    (by rw [Int64.toUInt16_toInt16])

theorem u8 : Refines (writeU8 buf off value object off)
    (modelWriteU8 buf off value rType) :=
  either (tryUnsigned_8_iff value) (trySigned_8_iff value) and_comm
    (by rw [Int64.toUInt8_toInt8])

/-- Inside of the buffer the linker's test of the end, which wraps around, is that of
the model. -/
theorem window (width : UInt64) {next : Nat → Except RelocationByteError Rewritten}
    {patched : Except RelocFault (List UInt8)}
    (inside : off.toNat + width.toNat < 18446744073709551616 →
      off.toNat + width.toNat ≤ buf.length → reaches buf off width = true →
        Refines patched (next (off.toNat + width.toNat))) :
    Refines patched
      (Peony.checkedEnd off width.toNat buf.length rType >>= next) := by
  refine checkedEnd fun unwrapped inBuffer => inside unwrapped inBuffer ?_
  rw [reaches, UInt64.toNat_add, Nat.mod_eq_of_lt unwrapped]
  exact decide_eq_true inBuffer

/-- The linker reads the bytes at the front of an instruction as the model does. -/
theorem prologue {start : UInt64} {bytes : List UInt8}
    {first : Bool → Except RelocFault (List UInt8)}
    {modelled : Except RelocationByteError Rewritten}
    (inside : start.toNat + bytes.length ≤ buf.length)
    (isNext : Refines (first (startsWith buf start bytes)) modelled) :
    Refines (hasPrologue buf start bytes >>= first) modelled := by
  rw [hasPrologue, if_pos inside]
  exact isNext

theorem written {data : List UInt8} {first : List UInt8 → Except RelocFault (List UInt8)}
    {modelled : Except RelocationByteError Rewritten}
    (inside : off.toNat + data.length ≤ buf.length)
    (isNext : Refines (first (Buffer.overwrite buf ⟨off.toNat, data⟩)) modelled) :
    Refines (writeBytes buf off data >>= first) modelled := by
  rw [writeBytes, if_pos inside]
  exact isNext

theorem toNat_add_of_lt {start place : UInt64}
    (unwrapped : start.toNat + place.toNat < 18446744073709551616) :
    (start + place).toNat = start.toNat + place.toNat := by
  rw [UInt64.toNat_add]
  exact Nat.mod_eq_of_lt unwrapped

theorem gd {tail : List UInt8} (three : tail.length = 3) :
    Refines (relaxGd buf off tail value rType object) (do
      let _ ← Peony.checkedEnd (off - 4) 16 buf.length rType
      if startsWith buf (off - 4) [0x66, 0x48, 0x8d] then
        let bytes ← modelI32Bytes value off rType
        let buf := Buffer.overwrite buf
          ⟨(off - 4).toNat, movThreadPointer ++ tail ++ [0, 0, 0, 0]⟩
        return (Buffer.overwrite buf ⟨(off - 4).toNat + 12, bytes⟩, off - 4, 16)
      else return (buf, off - 4, 16)) := by
  refine window 16 fun unwrapped inside isInside => ?_
  have bounded : (off - 4).toNat + 16 < 18446744073709551616 := unwrapped
  have sixteen : (off - 4).toNat + 16 ≤ buf.length := inside
  rw [relaxGd, if_pos isInside]
  refine prologue (by simp only [List.length_cons, List.length_nil]; omega) ?_
  cases startsWith buf (off - 4) [0x66, 0x48, 0x8d] with
  | false => rfl
  | true =>
      refine i32Bytes fun bytes four => written ?_ ?_
      · simp only [movThreadPointer, List.length_append, List.length_cons,
          List.length_nil, three]
        omega
      · have last : (off - 4 + 12).toNat = (off - 4).toNat + 12 :=
          toNat_add_of_lt (Nat.lt_of_le_of_lt (Nat.add_le_add_left (by decide) _) bounded)
        rw [writeBytes, last, if_pos (by rw [four, Buffer.length_overwrite]; omega)]
        rfl

theorem gdIe {inputs : RelocationByteInputs} :
    Refines (relaxGdToIe buf inputs.addrs rType object) (rewriteTlsgdIe buf inputs rType) :=
  gd rfl

theorem gdLe {inputs : RelocationByteInputs} :
    Refines (relaxGdToLe buf inputs.addrs rType object) (rewriteTlsgdLe buf inputs rType) :=
  gd rfl

theorem ld {inputs : RelocationByteInputs} :
    Refines (relaxLdToLe buf inputs.addrs) (rewriteTlsldLe buf inputs rType) := by
  refine window 12 fun _ inside isInside => ?_
  have isReached : reaches buf (inputs.addrs.offset - 3) 12 = true := isInside
  rw [relaxLdToLe, if_pos isReached, writeBytes]
  exact if_pos inside

theorem descCall : Refines (relaxDescCall buf off) (writeRaw buf off [0x66, 0x90] rType) := by
  refine window 2 fun _ inside isInside => ?_
  rw [relaxDescCall, if_pos isInside, writeBytes]
  exact if_pos inside

/-- The offset of a descriptor stands three bytes into its instruction. -/
theorem toNat_desc {start : UInt64}
    (unwrapped : (start - 3).toNat + 7 < 18446744073709551616) :
    start.toNat = (start - 3).toNat + 3 := by
  have three : (start - 3 + 3).toNat = (start - 3).toNat + 3 :=
    toNat_add_of_lt (Nat.lt_trans (Nat.add_lt_add_left (by decide) _) unwrapped)
  rw [UInt64.sub_add_cancel] at three
  exact three

/-- The word of a descriptor is written last. -/
theorem word {place : UInt64} {width : UInt8} (inside : off.toNat + 4 ≤ buf.length) :
    Refines (writeI32 buf off value rType object off)
      (modelI32Bytes value off rType >>= fun bytes =>
        pure (Buffer.overwrite buf ⟨off.toNat, bytes⟩, place, width)) := by
  refine i32Bytes fun bytes four => ?_
  rw [writeBytes, if_pos (by rw [four]; exact inside)]
  rfl

theorem descIe {inputs : RelocationByteInputs} :
    Refines (relaxDescToIe buf inputs.addrs rType object)
      (rewriteTlsdescIe buf inputs rType) := by
  refine window 7 fun unwrapped inside isInside => ?_
  have bounded : (inputs.offset - 3).toNat + 7 < 18446744073709551616 := unwrapped
  have seven : (inputs.offset - 3).toNat + 7 ≤ buf.length := inside
  have field : inputs.offset.toNat = (inputs.offset - 3).toNat + 3 := toNat_desc bounded
  have isReached : reaches buf (inputs.addrs.offset - 3) 7 = true := isInside
  have opcode : (inputs.offset - 3 + 1).toNat = (inputs.offset - 3).toNat + 1 :=
    toNat_add_of_lt (Nat.lt_trans (Nat.add_lt_add_left (by decide) _) bounded)
  rw [relaxDescToIe, if_pos isReached]
  change Refines (hasPrologue buf (inputs.offset - 3) [0x48, 0x8d] >>= _) _
  refine prologue (by simp only [List.length_cons, List.length_nil]; omega) ?_
  cases startsWith buf (inputs.offset - 3) [0x48, 0x8d] with
  | false => rfl
  | true =>
      refine written ?_ ?_
      · change (inputs.offset - 3 + 1).toNat + 1 ≤ buf.length
        omega
      · have kept : inputs.offset.toNat + 4 ≤
            (Buffer.overwrite buf ⟨(inputs.offset - 3 + 1).toNat, [0x8b]⟩).length := by
          rw [Buffer.length_overwrite]
          omega
        rw [← opcode]
        exact word kept

theorem descLe {inputs : RelocationByteInputs} :
    Refines (relaxDescToLe buf inputs.addrs rType object)
      (rewriteTlsdescLe buf inputs rType) := by
  refine window 7 fun unwrapped inside isInside => ?_
  have bounded : (inputs.offset - 3).toNat + 7 < 18446744073709551616 := unwrapped
  have seven : (inputs.offset - 3).toNat + 7 ≤ buf.length := inside
  have field : inputs.offset.toNat = (inputs.offset - 3).toNat + 3 := toNat_desc bounded
  have isReached : reaches buf (inputs.addrs.offset - 3) 7 = true := isInside
  rw [relaxDescToLe, if_pos isReached]
  change Refines (hasPrologue buf (inputs.offset - 3) [0x48, 0x8d] >>= _) _
  refine prologue (by simp only [List.length_cons, List.length_nil]; omega) ?_
  have value : inputs.tpOffset + 4 =
      inputs.tls.toInt64 + inputs.a + 4 - inputs.tlsSize.toInt64 := by
    rw [RelocationByteInputs.tpOffset, RelocationByteInputs.dtpOffset,
      Int64.sub_eq_add_neg, Int64.sub_eq_add_neg]
    ac_rfl
  cases startsWith buf (inputs.offset - 3) [0x48, 0x8d] with
  | false => rfl
  | true =>
      rw [value]
      refine written inside ?_
      have kept : inputs.offset.toNat + 4 ≤ (Buffer.overwrite buf
          ⟨(inputs.offset - 3).toNat, [0x48, 0xc7, 0xc0, 0, 0, 0, 0]⟩).length := by
        rw [Buffer.length_overwrite]
        omega
      exact word kept

end Refines

/-! ## Every type -/

theorem relocationExpression_of_unnamed {rType : UInt32}
    (unnamed : RelocType.ofCode rType = none) (inputs : RelocationByteInputs) :
    relocationExpression rType inputs = .unsupportedNoop := by
  unfold relocationExpression
  split <;> first | rfl | cases unnamed

theorem refines_named (type : RelocType) (inputs : RelocationByteInputs)
    (buf : List UInt8) (object : String) :
    Refines (patchBuf buf type.code inputs.addrs object)
      (applyExpression buf type.code inputs (relocationExpression type.code inputs)) := by
  rw [patchBuf, RelocType.ofCode_code]
  cases type with
  | r64 | pc64 | gotoff64 | size64 | tpoff64 => exact Refines.u64
  | r32 | size32 | got32 => exact Refines.u32
  | r32s | pc32 | plt32 | gotpcrel | gotpcrelx | rexGotpcrelx | gotpc32 | tpoff32 =>
      exact Refines.i32
  | r16 | pc16 => exact Refines.u16
  | r8 | pc8 => exact Refines.u8
  | none | dtpmod64 | tlsdesc => rfl
  | dtpoff32 =>
      rcases inputs with ⟨_, _, _, _, _, _, _, _, _, _, shared, _⟩
      cases shared with
      | false => exact Refines.i32
      | true => exact Refines.i32
  | dtpoff64 =>
      rcases inputs with ⟨_, _, _, _, _, _, _, _, _, _, shared, _⟩
      cases shared with
      | false => exact Refines.u64
      | true => exact Refines.u64
  | gottpoff =>
      rcases inputs with ⟨_, _, _, _, _, _, _, _, _, _, shared, _⟩
      cases shared with
      | false => exact Refines.i32
      | true => exact Refines.i32
  | tlsgd =>
      rcases inputs with ⟨_, _, _, _, _, _, _, _, _, _, shared, _, _, _, _, imported⟩
      cases shared with
      | true => exact Refines.i32
      | false =>
          cases imported with
          | true => exact Refines.gdIe
          | false => exact Refines.gdLe
  | tlsld =>
      rcases inputs with ⟨_, _, _, _, _, _, _, _, _, _, shared, _⟩
      cases shared with
      | true => exact Refines.i32
      | false => exact Refines.ld
  | gotpc32Tlsdesc =>
      rcases inputs with ⟨_, _, _, _, _, _, _, _, _, _, shared, _, _, _, _, imported⟩
      cases shared with
      | true => exact Refines.i32
      | false =>
          cases imported with
          | true => exact Refines.descIe
          | false => exact Refines.descLe
  | tlsdescCall =>
      rcases inputs with ⟨_, _, _, _, _, _, _, _, _, _, shared, _⟩
      cases shared with
      | true => rfl
      | false => exact Refines.descCall

theorem refines_model (rType : UInt32) (inputs : RelocationByteInputs)
    (buf : List UInt8) (object : String) :
    Refines (patchBuf buf rType inputs.addrs object)
      (applyExpression buf rType inputs (relocationExpression rType inputs)) := by
  cases named : RelocType.ofCode rType with
  | some type =>
      rw [← RelocType.code_of_ofCode named]
      exact refines_named type inputs buf object
  | none =>
      rw [relocationExpression_of_unnamed named, patchBuf, named]
      rfl

theorem modelRelocationBytes_eq (rType : UInt32) (inputs : RelocationByteInputs)
    (buf : List UInt8) :
    modelRelocationBytes rType inputs buf =
      (applyExpression buf rType inputs (relocationExpression rType inputs)).map
        fun rewritten => ⟨relocationExpression rType inputs, rewritten.2.1,
          rewritten.2.2, buf, rewritten.1⟩ := by
  unfold modelRelocationBytes
  dsimp only
  cases applyExpression buf rType inputs (relocationExpression rType inputs) <;> rfl

/-- Where the model does not find the buffer too short, the linker applies a
relocation exactly when the model does, with the same bytes, and a value that
overflows in the model overflows in the linker. -/
theorem patchBuf_refines_model (rType : UInt32) (inputs : RelocationByteInputs)
    (buf : List UInt8) (object : String)
    (inside : ∀ type offset width len, modelRelocationBytes rType inputs buf ≠
      .error (.bufferTooShort type offset width len)) :
    (∀ after, patchBuf buf rType inputs.addrs object = .ok after ↔
      ∃ patch, modelRelocationBytes rType inputs buf = .ok patch ∧
        patch.producedBytes = after) ∧
    (∀ type offset value width kind,
      modelRelocationBytes rType inputs buf =
          .error (.overflow type offset value width kind) →
        ∃ reportedObject reportedType, patchBuf buf rType inputs.addrs object =
          .error (.error (.overflow reportedObject offset value reportedType))) := by
  have refined := refines_model rType inputs buf object
  simp only [modelRelocationBytes_eq] at inside ⊢
  cases applied : applyExpression buf rType inputs (relocationExpression rType inputs) with
  | ok rewritten =>
      rw [applied] at refined
      rcases rewritten with ⟨bytes, offset, width⟩
      have patched : patchBuf buf rType inputs.addrs object = .ok bytes := refined
      rw [patched]
      constructor
      · intro after
        constructor
        · intro isAfter
          cases isAfter
          exact ⟨_, rfl, rfl⟩
        · rintro ⟨patch, isPatch, rfl⟩
          cases isPatch
          rfl
      · intro type offset value width kind impossible
        cases impossible
  | error error =>
      rw [applied] at refined inside
      cases error with
      | bufferTooShort type offset width len =>
          exact absurd rfl (inside type offset width len)
      | overflow type offset value width kind =>
          rcases refined with ⟨reportedObject, reportedType, patched⟩
          rw [patched]
          constructor
          · intro after
            constructor
            · intro impossible
              cases impossible
            · rintro ⟨patch, impossible, -⟩
              cases impossible
          · intro otherType otherOffset otherValue otherWidth otherKind isError
            cases isError
            exact ⟨reportedObject, reportedType, rfl⟩

/-- A word that overflows, in the model and in the linker. -/
def overflowingInputs : RelocationByteInputs where
  s := 0x100000000
  a := 0
  p := 0
  g := 0
  l := 0
  z := 0
  gotBase := 0
  tls := 0
  tlsSize := 0
  offset := 0
  shared := false
  tlsGd := 0
  tlsIe := 0
  tlsDesc := 0
  tlsLdm := 0
  tlsImported := false

theorem patchBuf_refines_model_overflow :
    ∃ reportedObject reportedType,
      patchBuf [0, 0, 0, 0] 10 overflowingInputs.addrs "a.o" =
        .error (.error (.overflow reportedObject 0 0x100000000 reportedType)) :=
  (patchBuf_refines_model 10 overflowingInputs [0, 0, 0, 0] "a.o"
    (fun type offset width len impossible => by cases impossible)).2
      10 0 0x100000000 4 .unsignedOrSignExtended rfl

end Peony
