import Peony.Foundation.InPlace
import Peony.Reloc.Patch

namespace Peony

/-! The writers as they work on the bytes of the section themselves, so that a
relocation that fails half way leaves what it has written. -/

/-- A step of `patch_buf` on the bytes of its section. -/
abbrev Patching := InPlace.Program UInt8 RelocFault

namespace Patching

/-! ## Writers -/

def copyFromSlice (off : UInt64) (data : List UInt8) : Patching Unit := do
  let buf ← get
  if off.toNat + data.length ≤ buf.length then InPlace.write ⟨off.toNat, data⟩
  else throw .panic

def writeU64 (off val : UInt64) : Patching Unit := copyFromSlice off (toLeBytes val)

def writeI32 (off : UInt64) (val : Int64) (rType : UInt32) (object : String)
    (relocOff : UInt64) : Patching Unit := do
  let bytes ← InPlace.attempt (checkedI32Bytes val rType object relocOff)
  copyFromSlice off bytes

def writeU32 (off : UInt64) (val : Int64) (rType : UInt32) (object : String)
    (relocOff : UInt64) : Patching Unit :=
  if val.toUInt64.toUInt32.toUInt64 ≠ val.toUInt64 ∧ val.toInt32.toInt64 ≠ val then
    throw (.error (.overflow object relocOff val rType))
  else copyFromSlice off (le32 val.toUInt64.toUInt32)

def writeU16 (off : UInt64) (val : Int64) (object : String) (relocOff : UInt64) :
    Patching Unit :=
  if val.toInt16.toInt64 ≠ val ∧ val.toUInt64.toUInt16.toUInt64 ≠ val.toUInt64 then
    throw (.error (.overflow object relocOff val RelocType.r16.code))
  else copyFromSlice off (le16 val.toUInt64.toUInt16)

def writeU8 (off : UInt64) (val : Int64) (object : String) (relocOff : UInt64) :
    Patching Unit :=
  if val.toInt8.toInt64 ≠ val ∧ val.toUInt64.toUInt8.toUInt64 ≠ val.toUInt64 then
    throw (.error (.overflow object relocOff val RelocType.r8.code))
  else copyFromSlice off [val.toUInt64.toUInt8]

def writeField (field : Field) (off : UInt64) (rType : UInt32) (object : String) :
    Patching Unit :=
  match field with
  | .u64 val => writeU64 off val
  | .i32 val => writeI32 off val rType object off
  | .u32 val => writeU32 off val rType object off
  | .u16 val => writeU16 off val object off
  | .u8 val => writeU8 off val object off

/-! ## Relaxation -/

def hasPrologue (start : UInt64) (bytes : List UInt8) : Patching Bool := do
  let buf ← get
  if start.toNat + bytes.length ≤ buf.length then
    return (buf.drop start.toNat).take bytes.length == bytes
  else throw .panic

def relaxGd (off : UInt64) (tail : List UInt8) (displacement : Int64) (rType : UInt32)
    (object : String) : Patching Unit := do
  let start := off - 4
  let buf ← get
  if reaches buf start 16 then
    if ← hasPrologue start [0x66, 0x48, 0x8d] then
      let bytes ← InPlace.attempt (checkedI32Bytes displacement rType object off)
      copyFromSlice start (movThreadPointer ++ tail ++ [0, 0, 0, 0])
      copyFromSlice (start + 12) bytes

def relaxGdToIe (addrs : RelocAddrs) (rType : UInt32) (object : String) :
    Patching Unit :=
  relaxGd addrs.offset [0x48, 0x03, 0x05]
    (addrs.tlsIe.toInt64 + addrs.a - addrs.p.toInt64 - 8) rType object

def relaxGdToLe (addrs : RelocAddrs) (rType : UInt32) (object : String) :
    Patching Unit :=
  relaxGd addrs.offset [0x48, 0x8d, 0x80]
    (addrs.tls.toInt64 + addrs.a - addrs.tlsSize.toInt64 + 4) rType object

def relaxLdToLe (addrs : RelocAddrs) : Patching Unit := do
  let start := addrs.offset - 3
  let buf ← get
  if reaches buf start 12 then
    copyFromSlice start ([0x66, 0x66, 0x66] ++ movThreadPointer)

/-- The opcode is written before the displacement is checked. -/
def relaxDescToIe (addrs : RelocAddrs) (rType : UInt32) (object : String) :
    Patching Unit := do
  let off := addrs.offset
  let start := off - 3
  let buf ← get
  if reaches buf start 7 then
    if ← hasPrologue start [0x48, 0x8d] then
      copyFromSlice (start + 1) [0x8b]
      writeI32 off (addrs.tlsIe.toInt64 + addrs.a - addrs.p.toInt64) rType object off

def relaxDescToLe (addrs : RelocAddrs) (rType : UInt32) (object : String) :
    Patching Unit := do
  let off := addrs.offset
  let start := off - 3
  let buf ← get
  if reaches buf start 7 then
    if ← hasPrologue start [0x48, 0x8d] then
      copyFromSlice start [0x48, 0xc7, 0xc0, 0, 0, 0, 0]
      writeI32 off (addrs.tls.toInt64 + addrs.a + 4 - addrs.tlsSize.toInt64) rType
        object off

def relaxDescCall (off : UInt64) : Patching Unit := do
  let buf ← get
  if reaches buf off 2 then copyFromSlice off [0x66, 0x90]

end Patching

/-! ## Patching -/

def patchInPlace (rType : UInt32) (addrs : RelocAddrs) (object : String) :
    Patching Unit :=
  match RelocType.ofCode rType with
  | none => pure ()
  | some type =>
      match fieldOf type addrs with
      | some field => Patching.writeField field addrs.offset rType object
      | none =>
          match type with
          | .tlsgd =>
              if addrs.tlsImported then Patching.relaxGdToIe addrs rType object
              else Patching.relaxGdToLe addrs rType object
          | .tlsld => Patching.relaxLdToLe addrs
          | .gotpc32Tlsdesc =>
              if addrs.tlsImported then Patching.relaxDescToIe addrs rType object
              else Patching.relaxDescToLe addrs rType object
          | .tlsdescCall =>
              if addrs.shared then pure () else Patching.relaxDescCall addrs.offset
          | _ => pure ()

/-! ## The buffer of a relocation that succeeds -/

namespace Patching

variable (buf : List UInt8)

theorem outcome_copyFromSlice (off : UInt64) (data : List UInt8) :
    InPlace.outcome (copyFromSlice off data) buf = writeBytes buf off data := by
  unfold copyFromSlice writeBytes
  rw [InPlace.outcome_get_bind]
  split
  · rfl
  · rfl

theorem outcome_writeI32 (off : UInt64) (val : Int64) (rType : UInt32)
    (object : String) (relocOff : UInt64) :
    InPlace.outcome (writeI32 off val rType object relocOff) buf =
      Peony.writeI32 buf off val rType object relocOff := by
  unfold writeI32 Peony.writeI32
  rw [InPlace.outcome_attempt_bind]
  congr 1
  funext bytes
  exact outcome_copyFromSlice buf off bytes

theorem outcome_writeField (field : Field) (off : UInt64) (rType : UInt32)
    (object : String) :
    InPlace.outcome (writeField field off rType object) buf =
      field.write buf off rType object := by
  cases field with
  | u64 val => exact outcome_copyFromSlice buf off _
  | i32 val => exact outcome_writeI32 buf off val rType object off
  | u32 val =>
      simp only [writeField, writeU32, Field.write, Peony.writeU32]
      split
      · rfl
      · exact outcome_copyFromSlice buf off _
  | u16 val =>
      simp only [writeField, writeU16, Field.write, Peony.writeU16]
      split
      · rfl
      · exact outcome_copyFromSlice buf off _
  | u8 val =>
      simp only [writeField, writeU8, Field.write, Peony.writeU8]
      split
      · rfl
      · exact outcome_copyFromSlice buf off _

/-- What follows a test of the bytes in front of it. -/
theorem outcome_hasPrologue (start : UInt64) (bytes : List UInt8)
    (next : Bool → Patching Unit) :
    InPlace.outcome (hasPrologue start bytes >>= next) buf =
      Peony.hasPrologue buf start bytes >>= fun found =>
        InPlace.outcome (next found) buf := by
  by_cases inside : start.toNat + bytes.length ≤ buf.length
  · have found : InPlace.exec (hasPrologue start bytes) buf =
        (.ok ((buf.drop start.toNat).take bytes.length == bytes), buf) := by
      rw [hasPrologue, InPlace.exec_get_bind, if_pos inside]
      rfl
    rw [InPlace.outcome_bind_of_ok buf (congrArg Prod.fst found), found,
      Peony.hasPrologue, if_pos inside]
    rfl
  · have failed : InPlace.exec (hasPrologue start bytes) buf = (.error .panic, buf) := by
      rw [hasPrologue, InPlace.exec_get_bind, if_neg inside]
      rfl
    rw [InPlace.outcome_bind_of_error buf (congrArg Prod.fst failed),
      Peony.hasPrologue, if_neg inside]
    rfl

/-- A sequence that the window does not hold, or that does not start as expected, is
left as it is. -/
theorem outcome_guarded (start len : UInt64) (bytes : List UInt8)
    {first : Patching Unit} {next : Except RelocFault (List UInt8)}
    (same : InPlace.outcome first buf = next) :
    InPlace.outcome (do
      let buf ← get
      if reaches buf start len then
        if ← hasPrologue start bytes then first) buf =
      if reaches buf start len then do
        if ← Peony.hasPrologue buf start bytes then next else .ok buf
      else .ok buf := by
  rw [InPlace.outcome_get_bind]
  by_cases isReached : reaches buf start len = true
  · rw [if_pos isReached, if_pos isReached, outcome_hasPrologue]
    congr 1
    funext found
    cases found with
    | false => rfl
    | true => exact same
  · rw [if_neg isReached, if_neg isReached]
    rfl

theorem outcome_relaxGd (off : UInt64) (tail : List UInt8) (displacement : Int64)
    (rType : UInt32) (object : String) :
    InPlace.outcome (relaxGd off tail displacement rType object) buf =
      Peony.relaxGd buf off tail displacement rType object := by
  refine outcome_guarded buf (off - 4) 16 _ ?_
  rw [InPlace.outcome_attempt_bind]
  congr 1
  funext bytes
  rw [InPlace.outcome_bind, outcome_copyFromSlice]
  congr 1
  funext after
  exact outcome_copyFromSlice after _ bytes

theorem outcome_relaxLdToLe (addrs : RelocAddrs) :
    InPlace.outcome (relaxLdToLe addrs) buf = Peony.relaxLdToLe buf addrs := by
  unfold relaxLdToLe Peony.relaxLdToLe
  dsimp only
  rw [InPlace.outcome_get_bind]
  split
  · exact outcome_copyFromSlice buf _ _
  · rfl

/-- Two writes, the second of which checks its value. -/
theorem outcome_write_then (place off : UInt64) (data : List UInt8) (val : Int64)
    (rType : UInt32) (object : String) :
    InPlace.outcome (do
        copyFromSlice place data
        writeI32 off val rType object off) buf = (do
        let buf ← writeBytes buf place data
        Peony.writeI32 buf off val rType object off) := by
  rw [InPlace.outcome_bind, outcome_copyFromSlice]
  congr 1
  funext after
  exact outcome_writeI32 after off val rType object off

theorem outcome_relaxDescToIe (addrs : RelocAddrs) (rType : UInt32) (object : String) :
    InPlace.outcome (relaxDescToIe addrs rType object) buf =
      Peony.relaxDescToIe buf addrs rType object :=
  outcome_guarded buf (addrs.offset - 3) 7 _ (outcome_write_then buf _ _ _ _ _ _)

theorem outcome_relaxDescToLe (addrs : RelocAddrs) (rType : UInt32) (object : String) :
    InPlace.outcome (relaxDescToLe addrs rType object) buf =
      Peony.relaxDescToLe buf addrs rType object :=
  outcome_guarded buf (addrs.offset - 3) 7 _ (outcome_write_then buf _ _ _ _ _ _)

theorem outcome_relaxDescCall (off : UInt64) :
    InPlace.outcome (relaxDescCall off) buf = Peony.relaxDescCall buf off := by
  unfold relaxDescCall Peony.relaxDescCall
  rw [InPlace.outcome_get_bind]
  split
  · exact outcome_copyFromSlice buf _ _
  · rfl

end Patching

/-- A relocation that succeeds leaves the buffer that the pure description gives. -/
theorem outcome_patchInPlace (buf : List UInt8) (rType : UInt32) (addrs : RelocAddrs)
    (object : String) :
    InPlace.outcome (patchInPlace rType addrs object) buf =
      patchBuf buf rType addrs object := by
  unfold patchInPlace patchBuf
  cases RelocType.ofCode rType with
  | none => rfl
  | some type =>
      cases isField : fieldOf type addrs with
      | some field =>
          simp only [isField]
          exact Patching.outcome_writeField buf field addrs.offset rType object
      | none =>
          simp only [isField]
          cases type with
          | tlsgd =>
              cases addrs.tlsImported with
              | true => exact Patching.outcome_relaxGd buf _ _ _ rType object
              | false => exact Patching.outcome_relaxGd buf _ _ _ rType object
          | tlsld => exact Patching.outcome_relaxLdToLe buf addrs
          | gotpc32Tlsdesc =>
              cases addrs.tlsImported with
              | true => exact Patching.outcome_relaxDescToIe buf addrs rType object
              | false => exact Patching.outcome_relaxDescToLe buf addrs rType object
          | tlsdescCall =>
              cases addrs.shared with
              | true => rfl
              | false => exact Patching.outcome_relaxDescCall buf addrs.offset
          | _ => rfl

end Peony
