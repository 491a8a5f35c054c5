import Peony.Cache.Files
import Peony.Layout.Property
import Peony.Reloc.Types

namespace Peony

/-! The patching of the bytes of one section by one relocation whose addresses
are known. -/

inductive RelocError where
  | undefinedSymbol (name : Name) (object : String)
  | overflow (object : String) (offset : UInt64) (value : Int64) (rType : UInt32)
deriving DecidableEq

/-- What ends the relocation of a section: an error, or an index outside of a
slice. -/
inductive RelocFault where
  | error (error : RelocError)
  | panic
deriving DecidableEq

/-! ## Writers -/

/-- Copy bytes over a slice of the buffer. -/
def writeBytes (buf : List UInt8) (off : UInt64) (data : List UInt8) :
    Except RelocFault (List UInt8) :=
  if off.toNat + data.length ≤ buf.length then
    .ok (Buffer.overwrite buf ⟨off.toNat, data⟩)
  else .error .panic

def checkedI32Bytes (val : Int64) (rType : UInt32) (object : String)
    (relocOff : UInt64) : Except RelocFault (List UInt8) :=
  if val.toInt32.toInt64 = val then .ok (le32 val.toInt32.toUInt32)
  else .error (.error (.overflow object relocOff val rType))

def writeU64 (buf : List UInt8) (off val : UInt64) :
    Except RelocFault (List UInt8) :=
  writeBytes buf off (toLeBytes val)

def writeI32 (buf : List UInt8) (off : UInt64) (val : Int64) (rType : UInt32)
    (object : String) (relocOff : UInt64) : Except RelocFault (List UInt8) := do
  let bytes ← checkedI32Bytes val rType object relocOff
  writeBytes buf off bytes

/-- Both the zero-extended and the sign-extended words are accepted. -/
def writeU32 (buf : List UInt8) (off : UInt64) (val : Int64) (rType : UInt32)
    (object : String) (relocOff : UInt64) : Except RelocFault (List UInt8) :=
  if val.toUInt64.toUInt32.toUInt64 ≠ val.toUInt64 ∧ val.toInt32.toInt64 ≠ val then
    .error (.error (.overflow object relocOff val rType))
  else writeBytes buf off (le32 val.toUInt64.toUInt32)

def writeU16 (buf : List UInt8) (off : UInt64) (val : Int64) (object : String)
    (relocOff : UInt64) : Except RelocFault (List UInt8) :=
  if val.toInt16.toInt64 ≠ val ∧ val.toUInt64.toUInt16.toUInt64 ≠ val.toUInt64 then
    .error (.error (.overflow object relocOff val RelocType.r16.code))
  else writeBytes buf off (le16 val.toUInt64.toUInt16)

def writeU8 (buf : List UInt8) (off : UInt64) (val : Int64) (object : String)
    (relocOff : UInt64) : Except RelocFault (List UInt8) :=
  if val.toInt8.toInt64 ≠ val ∧ val.toUInt64.toUInt8.toUInt64 ≠ val.toUInt64 then
    .error (.error (.overflow object relocOff val RelocType.r8.code))
  else writeBytes buf off [val.toUInt64.toUInt8]

/-! ## Addresses -/

/-- The addresses a relocation value is computed from, under the letters of the
processor supplement. -/
structure RelocAddrs where
  s : UInt64
  a : Int64
  p : UInt64
  g : UInt64
  l : UInt64
  z : UInt64
  gotBase : UInt64
  tls : UInt64
  tlsSize : UInt64
  offset : UInt64
  shared : Bool
  tlsGd : UInt64
  tlsIe : UInt64
  tlsDesc : UInt64
  tlsLdm : UInt64
  tlsImported : Bool
deriving DecidableEq

/-- The one field a relocation writes, by its width and its overflow check. -/
inductive Field where
  | u64 (val : UInt64)
  | i32 (val : Int64)
  | u32 (val : Int64)
  | u16 (val : Int64)
  | u8 (val : Int64)
deriving DecidableEq

namespace Field

def width : Field → Nat
  | u64 _ => 8
  | i32 _ | u32 _ => 4
  | u16 _ => 2
  | u8 _ => 1

def write (field : Field) (buf : List UInt8) (off : UInt64) (rType : UInt32)
    (object : String) : Except RelocFault (List UInt8) :=
  match field with
  | u64 val => writeU64 buf off val
  | i32 val => writeI32 buf off val rType object off
  | u32 val => writeU32 buf off val rType object off
  | u16 val => writeU16 buf off val object off
  | u8 val => writeU8 buf off val object off

end Field

/-- The field of the types that write a single one. The types whose instruction
sequence is rewritten have none, and neither have those without a case. -/
def fieldOf (type : RelocType) (addrs : RelocAddrs) : Option Field :=
  let s := addrs.s.toInt64
  let p := addrs.p.toInt64
  let a := addrs.a
  let tls := addrs.tls.toInt64
  let tlsSize := addrs.tlsSize.toInt64
  match type with
  | .r64 => some (.u64 (s + a).toUInt64)
  | .pc64 => some (.u64 (s + a - p).toUInt64)
  | .gotoff64 => some (.u64 (s + a - addrs.gotBase.toInt64).toUInt64)
  | .size64 => some (.u64 (addrs.z.toInt64 + a).toUInt64)
  | .r32 => some (.u32 (s + a))
  | .r32s => some (.i32 (s + a))
  | .pc32 => some (.i32 (s + a - p))
  | .size32 => some (.u32 (addrs.z.toInt64 + a))
  | .plt32 =>
      some (.i32 ((if addrs.l ≠ 0 then addrs.l.toInt64 else s) + a - p))
  | .gotpcrel | .gotpcrelx | .rexGotpcrelx =>
      some (.i32 (addrs.g.toInt64 + a - p))
  | .got32 => some (.u32 (addrs.g.toInt64 - addrs.gotBase.toInt64 + a))
  | .gotpc32 => some (.i32 (addrs.gotBase.toInt64 + a - p))
  | .tpoff32 => some (.i32 (tls + a - tlsSize))
  | .tpoff64 => some (.u64 (tls + a - tlsSize).toUInt64)
  | .dtpoff32 =>
      some (.i32 (if addrs.shared then tls + a else tls + a - tlsSize))
  | .dtpoff64 =>
      some (.u64 (if addrs.shared then tls + a else tls + a - tlsSize).toUInt64)
  | .tlsgd =>
      if addrs.shared then some (.i32 (addrs.tlsGd.toInt64 + a - p)) else none
  | .tlsld =>
      if addrs.shared then some (.i32 (addrs.tlsLdm.toInt64 + a - p)) else none
  | .gottpoff => some (.i32 (addrs.tlsIe.toInt64 + a - p))
  | .gotpc32Tlsdesc =>
      if addrs.shared then some (.i32 (addrs.tlsDesc.toInt64 + a - p)) else none
  | .r16 => some (.u16 (s + a))
  | .pc16 => some (.u16 (s + a - p))
  | .r8 => some (.u8 (s + a))
  | .pc8 => some (.u8 (s + a - p))
  | .none | .dtpmod64 | .tlsdescCall | .tlsdesc => none

/-! ## Relaxation -/

def reaches (buf : List UInt8) (start len : UInt64) : Bool :=
  (start + len).toNat ≤ buf.length

/-- Compare the bytes at `start`. A start outside of the buffer can pass the
wrapping test above it, and then the first byte that is read is out of bounds. -/
def hasPrologue (buf : List UInt8) (start : UInt64) (bytes : List UInt8) :
    Except RelocFault Bool :=
  if start.toNat + bytes.length ≤ buf.length then
    .ok ((buf.drop start.toNat).take bytes.length == bytes)
  else .error .panic

def movThreadPointer : List UInt8 :=
  [0x64, 0x48, 0x8b, 0x04, 0x25, 0x00, 0x00, 0x00, 0x00]

/-- Rewrite a General-Dynamic sequence, which starts four bytes before the
relocation, to the thread pointer plus what the last seven bytes add to it. -/
def relaxGd (buf : List UInt8) (off : UInt64) (tail : List UInt8)
    (displacement : Int64) (rType : UInt32) (object : String) :
    Except RelocFault (List UInt8) :=
  let start := off - 4
  if reaches buf start 16 then do
    if ← hasPrologue buf start [0x66, 0x48, 0x8d] then
      let bytes ← checkedI32Bytes displacement rType object off
      let buf ← writeBytes buf start (movThreadPointer ++ tail ++ [0, 0, 0, 0])
      writeBytes buf (start + 12) bytes
    else .ok buf
  else .ok buf

def relaxGdToIe (buf : List UInt8) (addrs : RelocAddrs) (rType : UInt32)
    (object : String) : Except RelocFault (List UInt8) :=
  relaxGd buf addrs.offset [0x48, 0x03, 0x05]
    (addrs.tlsIe.toInt64 + addrs.a - addrs.p.toInt64 - 8) rType object

def relaxGdToLe (buf : List UInt8) (addrs : RelocAddrs) (rType : UInt32)
    (object : String) : Except RelocFault (List UInt8) :=
  relaxGd buf addrs.offset [0x48, 0x8d, 0x80]
    (addrs.tls.toInt64 + addrs.a - addrs.tlsSize.toInt64 + 4) rType object

/-- Rewrite a Local-Dynamic sequence, which starts three bytes before the
relocation. -/
def relaxLdToLe (buf : List UInt8) (addrs : RelocAddrs) :
    Except RelocFault (List UInt8) :=
  let start := addrs.offset - 3
  if reaches buf start 12 then
    writeBytes buf start ([0x66, 0x66, 0x66] ++ movThreadPointer)
  else .ok buf

def relaxDescToIe (buf : List UInt8) (addrs : RelocAddrs) (rType : UInt32)
    (object : String) : Except RelocFault (List UInt8) :=
  let off := addrs.offset
  let start := off - 3
  if reaches buf start 7 then do
    if ← hasPrologue buf start [0x48, 0x8d] then
      let buf ← writeBytes buf (start + 1) [0x8b]
      writeI32 buf off (addrs.tlsIe.toInt64 + addrs.a - addrs.p.toInt64) rType
        object off
    else .ok buf
  else .ok buf

def relaxDescToLe (buf : List UInt8) (addrs : RelocAddrs) (rType : UInt32)
    (object : String) : Except RelocFault (List UInt8) :=
  let off := addrs.offset
  let start := off - 3
  if reaches buf start 7 then do
    if ← hasPrologue buf start [0x48, 0x8d] then
      let buf ← writeBytes buf start [0x48, 0xc7, 0xc0, 0, 0, 0, 0]
      writeI32 buf off (addrs.tls.toInt64 + addrs.a + 4 - addrs.tlsSize.toInt64)
        rType object off
    else .ok buf
  else .ok buf

/-- The call of a descriptor becomes a two-byte no-operation. -/
def relaxDescCall (buf : List UInt8) (off : UInt64) :
    Except RelocFault (List UInt8) :=
  if reaches buf off 2 then writeBytes buf off [0x66, 0x90] else .ok buf

/-! ## Patching -/

/-- Apply one relocation to the bytes of its section. A type without a case is
passed over. -/
def patchBuf (buf : List UInt8) (rType : UInt32) (addrs : RelocAddrs)
    (object : String) : Except RelocFault (List UInt8) :=
  match RelocType.ofCode rType with
  | none => .ok buf
  | some type =>
      match fieldOf type addrs with
      | some field => field.write buf addrs.offset rType object
      | none =>
          match type with
          | .tlsgd =>
              if addrs.tlsImported then relaxGdToIe buf addrs rType object
              else relaxGdToLe buf addrs rType object
          | .tlsld => relaxLdToLe buf addrs
          | .gotpc32Tlsdesc =>
              if addrs.tlsImported then relaxDescToIe buf addrs rType object
              else relaxDescToLe buf addrs rType object
          | .tlsdescCall =>
              if addrs.shared then .ok buf else relaxDescCall buf addrs.offset
          | _ => .ok buf

/-! ## What patching can do

Within its footprint a relocation never indexes outside of its section, and it
leaves the length of the section as it is. -/

structure Contained (length : Nat) (outcome : Except RelocFault (List UInt8)) :
    Prop where
  noPanic : outcome ≠ .error .panic
  kept : ∀ after, outcome = .ok after → after.length = length

namespace Contained

theorem ok {buf : List UInt8} : Contained buf.length (.ok buf) :=
  ⟨(by intro impossible; cases impossible), fun after equal => by cases equal; rfl⟩

theorem error {length : Nat} {error : RelocError} :
    Contained length (.error (.error error)) :=
  ⟨(by intro impossible; cases impossible), fun after equal => by cases equal⟩

theorem bind {length : Nat} {first : Except RelocFault (List UInt8)}
    {next : List UInt8 → Except RelocFault (List UInt8)}
    (isFirst : Contained length first)
    (isNext : ∀ buf, buf.length = length → Contained length (next buf)) :
    Contained length (first >>= next) := by
  cases outcome : first with
  | error fault =>
      rw [outcome] at isFirst
      refine ⟨fun panics => isFirst.noPanic ?_, fun after equal => by cases equal⟩
      cases panics
      rfl
  | ok buf => exact isNext buf (isFirst.kept buf outcome)

theorem writeBytes {buf : List UInt8} {off : UInt64} {data : List UInt8}
    (inside : off.toNat + data.length ≤ buf.length) :
    Contained buf.length (writeBytes buf off data) := by
  rw [Peony.writeBytes, if_pos inside]
  refine ⟨(by intro impossible; cases impossible), fun after equal => ?_⟩
  cases equal
  exact Buffer.length_overwrite _ _

theorem checkedI32Bytes {length : Nat} {val : Int64} {rType : UInt32}
    {object : String} {relocOff : UInt64}
    {next : List UInt8 → Except RelocFault (List UInt8)}
    (isNext : ∀ bytes, bytes.length = 4 → Contained length (next bytes)) :
    Contained length (checkedI32Bytes val rType object relocOff >>= next) := by
  rw [Peony.checkedI32Bytes]
  split
  · exact isNext _ (length_le32 _)
  · exact error

theorem writeI32 {buf : List UInt8} {off : UInt64} {val : Int64} {rType : UInt32}
    {object : String} {relocOff : UInt64} (inside : off.toNat + 4 ≤ buf.length) :
    Contained buf.length (writeI32 buf off val rType object relocOff) := by
  refine checkedI32Bytes fun bytes four => writeBytes ?_
  rw [four]
  exact inside

theorem field {field : Field} {buf : List UInt8} {off : UInt64} {rType : UInt32}
    {object : String} (inside : off.toNat + field.width ≤ buf.length) :
    Contained buf.length (field.write buf off rType object) := by
  cases field with
  | u64 val =>
      refine writeBytes ?_
      rw [toLeBytes, List.length_map, List.length_range]
      exact inside
  | i32 val => exact writeI32 inside
  | u32 val =>
      simp only [Field.write, writeU32]
      split
      · exact error
      · exact writeBytes (by rw [length_le32]; exact inside)
  | u16 val =>
      simp only [Field.write, writeU16]
      split
      · exact error
      · exact writeBytes (by rw [length_le16]; exact inside)
  | u8 val =>
      simp only [Field.write, writeU8]
      split
      · exact error
      · exact writeBytes inside

theorem hasPrologue {buf : List UInt8} {start : UInt64} {bytes : List UInt8}
    {length : Nat} {next : Bool → Except RelocFault (List UInt8)}
    (inside : start.toNat + bytes.length ≤ buf.length)
    (isNext : ∀ found, Contained length (next found)) :
    Contained length (hasPrologue buf start bytes >>= next) := by
  rw [Peony.hasPrologue, if_pos inside]
  exact isNext _

end Contained

section Relaxation

variable {buf : List UInt8} {off : UInt64} {rType : UInt32} {object : String}

theorem toNat_offset_sub {prefixLen : UInt64} (isPrefix : prefixLen.toNat ≤ off.toNat) :
    (off - prefixLen).toNat = off.toNat - prefixLen.toNat :=
  UInt64.toNat_sub_of_le _ _ (UInt64.le_iff_toNat_le.mpr isPrefix)

theorem relaxGd_contained {tail : List UInt8} (three : tail.length = 3)
    {displacement : Int64} (isPrefix : 4 ≤ off.toNat)
    (inside : off.toNat - 4 + 16 ≤ buf.length) :
    Contained buf.length (relaxGd buf off tail displacement rType object) := by
  have start : (off - 4).toNat = off.toNat - 4 := toNat_offset_sub isPrefix
  rw [relaxGd]
  split
  · refine Contained.hasPrologue ?_ fun found => ?_
    · simp only [List.length_cons, List.length_nil]
      omega
    · cases found with
      | false => exact Contained.ok
      | true =>
          refine Contained.checkedI32Bytes fun bytes four => ?_
          refine Contained.bind (Contained.writeBytes ?_) fun after kept => ?_
          · simp only [movThreadPointer, List.length_append, List.length_cons,
              List.length_nil, three]
            omega
          · rw [← kept]
            refine Contained.writeBytes ?_
            have last : (off - 4 + 12).toNat ≤ (off - 4).toNat + 12 := by
              rw [UInt64.toNat_add]
              exact Nat.mod_le _ _
            omega
  · exact Contained.ok

theorem relaxLdToLe_contained {addrs : RelocAddrs} (isPrefix : 3 ≤ addrs.offset.toNat)
    (inside : addrs.offset.toNat - 3 + 12 ≤ buf.length) :
    Contained buf.length (relaxLdToLe buf addrs) := by
  have start : (addrs.offset - 3).toNat = addrs.offset.toNat - 3 :=
    toNat_offset_sub isPrefix
  rw [relaxLdToLe]
  split
  · refine Contained.writeBytes ?_
    simp only [movThreadPointer, List.length_append, List.length_cons,
      List.length_nil]
    omega
  · exact Contained.ok

theorem relaxDescToIe_contained {addrs : RelocAddrs}
    (isPrefix : 3 ≤ addrs.offset.toNat)
    (inside : addrs.offset.toNat - 3 + 7 ≤ buf.length) :
    Contained buf.length (relaxDescToIe buf addrs rType object) := by
  have start : (addrs.offset - 3).toNat = addrs.offset.toNat - 3 :=
    toNat_offset_sub isPrefix
  have opcode : (addrs.offset - 3 + 1).toNat ≤ (addrs.offset - 3).toNat + 1 := by
    rw [UInt64.toNat_add]
    exact Nat.mod_le _ _
  rw [relaxDescToIe]
  split
  · refine Contained.hasPrologue ?_ fun found => ?_
    · simp only [List.length_cons, List.length_nil]
      omega
    · cases found with
      | false => exact Contained.ok
      | true =>
          refine Contained.bind (Contained.writeBytes ?_) fun after kept => ?_
          · simp only [List.length_cons, List.length_nil]
            omega
          · rw [← kept]
            exact Contained.writeI32 (by omega)
  · exact Contained.ok

theorem relaxDescToLe_contained {addrs : RelocAddrs}
    (isPrefix : 3 ≤ addrs.offset.toNat)
    (inside : addrs.offset.toNat - 3 + 7 ≤ buf.length) :
    Contained buf.length (relaxDescToLe buf addrs rType object) := by
  have start : (addrs.offset - 3).toNat = addrs.offset.toNat - 3 :=
    toNat_offset_sub isPrefix
  rw [relaxDescToLe]
  split
  · refine Contained.hasPrologue ?_ fun found => ?_
    · simp only [List.length_cons, List.length_nil]
      omega
    · cases found with
      | false => exact Contained.ok
      | true =>
          refine Contained.bind (Contained.writeBytes ?_) fun after kept => ?_
          · simp only [List.length_cons, List.length_nil]
            omega
          · rw [← kept]
            exact Contained.writeI32 (by omega)
  · exact Contained.ok

theorem relaxDescCall_contained (inside : off.toNat + 2 ≤ buf.length) :
    Contained buf.length (relaxDescCall buf off) := by
  rw [relaxDescCall]
  split
  · exact Contained.writeBytes inside
  · exact Contained.ok

end Relaxation

end Peony
