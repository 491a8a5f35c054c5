import Peony.Foundation.Words
import Peony.Reloc.Patch

namespace Peony

/-! The linker's model of the bytes that a relocation produces, which is written
without the linker's own writers. -/

inductive RelocationByteWidthKind where
  | signed
  | unsignedOrSignExtended
deriving DecidableEq

inductive RelocationByteError where
  | overflow (relocationType : UInt32) (offset : UInt64) (value : Int64)
      (width : UInt8) (kind : RelocationByteWidthKind)
  | bufferTooShort (relocationType : UInt32) (offset : UInt64) (width : Nat)
      (bufferLen : Nat)
deriving DecidableEq

structure RelocationByteInputs where
  s : UInt64
  a : Int64
  p : UInt64
  g : UInt64
  l : UInt64
  z : UInt64
  gotBase : UInt64
  tls : UInt64
  tlsSize : UInt64
  offset : UInt64
  shared : Bool
  tlsGd : UInt64
  tlsIe : UInt64
  tlsDesc : UInt64
  tlsLdm : UInt64
  tlsImported : Bool
deriving DecidableEq

inductive RelocationExpression where
  | abs64 | pc64 | gotOff64 | size64 | abs32 | abs32Signed | pc32 | size32 | plt32
  | gotPcRel | gotPcRelx | rexGotPcRelx | got32 | gotPc32 | tpOff32 | tpOff64
  | dtpoff32Shared | dtpoff32LocalExec | dtpoff64Shared | dtpoff64LocalExec
  | tlsGdShared | tlsGdInitialExec | tlsGdLocalExec | tlsLdShared | tlsLdLocalExec
  | gotTpOffShared | gotTpOffExecutable | tlsDescGotPcShared
  | tlsDescGotPcInitialExec | tlsDescGotPcLocalExec | tlsDescCallShared
  | tlsDescCallLocalExec | abs16 | pc16 | abs8 | pc8 | unsupportedNoop
deriving DecidableEq

structure RelocationBytePatch where
  expression : RelocationExpression
  outputOffset : UInt64
  width : UInt8
  originalBytes : List UInt8
  producedBytes : List UInt8
deriving DecidableEq

/-- The bytes after a write, the offset of the write and its width. -/
abbrev Rewritten := List UInt8 × UInt64 × UInt8

namespace RelocationByteInputs

def dtpOffset (inputs : RelocationByteInputs) : Int64 :=
  inputs.tls.toInt64 + inputs.a

def tpOffset (inputs : RelocationByteInputs) : Int64 :=
  inputs.dtpOffset - inputs.tlsSize.toInt64

end RelocationByteInputs

/-! ## Writing -/

/-- The end of a write that stays inside of the buffer. -/
def checkedEnd (off : UInt64) (width len : Nat) (relocationType : UInt32) :
    Except RelocationByteError Nat :=
  if off.toNat + width < 18446744073709551616 then
    if len < off.toNat + width then
      .error (.bufferTooShort relocationType off width len)
    else .ok (off.toNat + width)
  else .error (.bufferTooShort relocationType off width len)

def writeRaw (buf : List UInt8) (off : UInt64) (bytes : List UInt8)
    (relocationType : UInt32) : Except RelocationByteError Rewritten := do
  let _ ← checkedEnd off bytes.length buf.length relocationType
  return (Buffer.overwrite buf ⟨off.toNat, bytes⟩, off,
    if bytes.length ≤ 255 then UInt8.ofNat bytes.length else 255)

/-- The conversion to an unsigned word of so many bits, where the value has one. -/
def tryUnsigned (bits : Nat) (value : Int64) : Bool :=
  0 ≤ value.toInt && value.toInt < 2 ^ bits

def trySigned (bits : Nat) (value : Int64) : Bool :=
  -2 ^ (bits - 1) ≤ value.toInt && value.toInt < 2 ^ (bits - 1)

def modelI32Bytes (value : Int64) (off : UInt64) (relocationType : UInt32) :
    Except RelocationByteError (List UInt8) :=
  if trySigned 32 value then .ok (le32 value.toInt32.toUInt32)
  else .error (.overflow relocationType off value 4 .signed)

def modelWriteU64 (buf : List UInt8) (off : UInt64) (value : Int64)
    (relocationType : UInt32) : Except RelocationByteError Rewritten :=
  writeRaw buf off (toLeBytes value.toUInt64) relocationType

def modelWriteI32 (buf : List UInt8) (off : UInt64) (value : Int64)
    (relocationType : UInt32) : Except RelocationByteError Rewritten := do
  let bytes ← modelI32Bytes value off relocationType
  writeRaw buf off bytes relocationType

def modelWriteU32 (buf : List UInt8) (off : UInt64) (value : Int64)
    (relocationType : UInt32) : Except RelocationByteError Rewritten :=
  if tryUnsigned 32 value then
    writeRaw buf off (le32 value.toUInt64.toUInt32) relocationType
  else if trySigned 32 value then
    writeRaw buf off (le32 value.toInt32.toUInt32) relocationType
  else .error (.overflow relocationType off value 4 .unsignedOrSignExtended)

def modelWriteU16 (buf : List UInt8) (off : UInt64) (value : Int64)
    (relocationType : UInt32) : Except RelocationByteError Rewritten :=
  if tryUnsigned 16 value then
    writeRaw buf off (le16 value.toUInt64.toUInt16) relocationType
  else if trySigned 16 value then
    writeRaw buf off (le16 value.toInt16.toUInt16) relocationType
  else .error (.overflow relocationType off value 2 .unsignedOrSignExtended)

def modelWriteU8 (buf : List UInt8) (off : UInt64) (value : Int64)
    (relocationType : UInt32) : Except RelocationByteError Rewritten :=
  if tryUnsigned 8 value then
    writeRaw buf off [value.toUInt64.toUInt8] relocationType
  else if trySigned 8 value then
    writeRaw buf off [value.toInt8.toUInt8] relocationType
  else .error (.overflow relocationType off value 1 .unsignedOrSignExtended)

/-! ## Rewriting instructions -/

section Rewriting

variable (buf : List UInt8) (inputs : RelocationByteInputs) (relocationType : UInt32)

def startsWith (start : UInt64) (bytes : List UInt8) : Bool :=
  (buf.drop start.toNat).take bytes.length == bytes

def rewriteTlsgdIe : Except RelocationByteError Rewritten := do
  let start := inputs.offset - 4
  let _ ← checkedEnd start 16 buf.length relocationType
  if startsWith buf start [0x66, 0x48, 0x8d] then
    let disp := inputs.tlsIe.toInt64 + inputs.a - inputs.p.toInt64 - 8
    let bytes ← modelI32Bytes disp inputs.offset relocationType
    let buf := Buffer.overwrite buf ⟨start.toNat,
      [0x64, 0x48, 0x8b, 0x04, 0x25, 0, 0, 0, 0, 0x48, 0x03, 0x05, 0, 0, 0, 0]⟩
    return (Buffer.overwrite buf ⟨start.toNat + 12, bytes⟩, start, 16)
  else return (buf, start, 16)

def rewriteTlsgdLe : Except RelocationByteError Rewritten := do
  let start := inputs.offset - 4
  let _ ← checkedEnd start 16 buf.length relocationType
  if startsWith buf start [0x66, 0x48, 0x8d] then
    let bytes ← modelI32Bytes (inputs.tpOffset + 4) inputs.offset relocationType
    let buf := Buffer.overwrite buf ⟨start.toNat,
      [0x64, 0x48, 0x8b, 0x04, 0x25, 0, 0, 0, 0, 0x48, 0x8d, 0x80, 0, 0, 0, 0]⟩
    return (Buffer.overwrite buf ⟨start.toNat + 12, bytes⟩, start, 16)
  else return (buf, start, 16)

def rewriteTlsldLe : Except RelocationByteError Rewritten := do
  let start := inputs.offset - 3
  let _ ← checkedEnd start 12 buf.length relocationType
  return (Buffer.overwrite buf ⟨start.toNat,
    [0x66, 0x66, 0x66, 0x64, 0x48, 0x8b, 0x04, 0x25, 0, 0, 0, 0]⟩, start, 12)

def rewriteTlsdescIe : Except RelocationByteError Rewritten := do
  let start := inputs.offset - 3
  let _ ← checkedEnd start 7 buf.length relocationType
  if startsWith buf start [0x48, 0x8d] then
    let disp := inputs.tlsIe.toInt64 + inputs.a - inputs.p.toInt64
    let bytes ← modelI32Bytes disp inputs.offset relocationType
    let buf := Buffer.overwrite buf ⟨start.toNat + 1, [0x8b]⟩
    return (Buffer.overwrite buf ⟨inputs.offset.toNat, bytes⟩, start, 7)
  else return (buf, start, 7)

def rewriteTlsdescLe : Except RelocationByteError Rewritten := do
  let start := inputs.offset - 3
  let _ ← checkedEnd start 7 buf.length relocationType
  if startsWith buf start [0x48, 0x8d] then
    let bytes ← modelI32Bytes (inputs.tpOffset + 4) inputs.offset relocationType
    let buf := Buffer.overwrite buf ⟨start.toNat, [0x48, 0xc7, 0xc0, 0, 0, 0, 0]⟩
    return (Buffer.overwrite buf ⟨inputs.offset.toNat, bytes⟩, start, 7)
  else return (buf, start, 7)

end Rewriting

/-! ## The expression of a type -/

def relocationExpression (relocationType : UInt32) (inputs : RelocationByteInputs) :
    RelocationExpression :=
  match relocationType with
  | 1 => .abs64
  | 24 => .pc64
  | 25 => .gotOff64
  | 33 => .size64
  | 10 => .abs32
  | 11 => .abs32Signed
  | 2 => .pc32
  | 32 => .size32
  | 4 => .plt32
  | 9 => .gotPcRel
  | 41 => .gotPcRelx
  | 42 => .rexGotPcRelx
  | 3 => .got32
  | 26 => .gotPc32
  | 23 => .tpOff32
  | 18 => .tpOff64
  | 21 => if inputs.shared then .dtpoff32Shared else .dtpoff32LocalExec
  | 17 => if inputs.shared then .dtpoff64Shared else .dtpoff64LocalExec
  | 19 =>
      if inputs.shared then .tlsGdShared
      else if inputs.tlsImported then .tlsGdInitialExec
      else .tlsGdLocalExec
  | 20 => if inputs.shared then .tlsLdShared else .tlsLdLocalExec
  | 22 => if inputs.shared then .gotTpOffShared else .gotTpOffExecutable
  | 34 =>
      if inputs.shared then .tlsDescGotPcShared
      else if inputs.tlsImported then .tlsDescGotPcInitialExec
      else .tlsDescGotPcLocalExec
  | 35 => if inputs.shared then .tlsDescCallShared else .tlsDescCallLocalExec
  | 12 => .abs16
  | 13 => .pc16
  | 14 => .abs8
  | 15 => .pc8
  | _ => .unsupportedNoop

def applyExpression (buf : List UInt8) (relocationType : UInt32)
    (inputs : RelocationByteInputs) (expression : RelocationExpression) :
    Except RelocationByteError Rewritten :=
  let off := inputs.offset
  let s := inputs.s.toInt64
  let p := inputs.p.toInt64
  let a := inputs.a
  match expression with
  | .abs64 => modelWriteU64 buf off (s + a) relocationType
  | .pc64 => modelWriteU64 buf off (s + a - p) relocationType
  | .gotOff64 => modelWriteU64 buf off (s + a - inputs.gotBase.toInt64) relocationType
  | .size64 => modelWriteU64 buf off (inputs.z.toInt64 + a) relocationType
  | .abs32 => modelWriteU32 buf off (s + a) relocationType
  | .abs32Signed => modelWriteI32 buf off (s + a) relocationType
  | .pc32 => modelWriteI32 buf off (s + a - p) relocationType
  | .size32 => modelWriteU32 buf off (inputs.z.toInt64 + a) relocationType
  | .plt32 =>
      let target := if inputs.l ≠ 0 then inputs.l.toInt64 else s
      modelWriteI32 buf off (target + a - p) relocationType
  | .gotPcRel | .gotPcRelx | .rexGotPcRelx =>
      modelWriteI32 buf off (inputs.g.toInt64 + a - p) relocationType
  | .got32 =>
      modelWriteU32 buf off (inputs.g.toInt64 - inputs.gotBase.toInt64 + a)
        relocationType
  | .gotPc32 => modelWriteI32 buf off (inputs.gotBase.toInt64 + a - p) relocationType
  | .tpOff32 => modelWriteI32 buf off inputs.tpOffset relocationType
  | .tpOff64 => modelWriteU64 buf off inputs.tpOffset relocationType
  | .dtpoff32Shared => modelWriteI32 buf off inputs.dtpOffset relocationType
  | .dtpoff32LocalExec => modelWriteI32 buf off inputs.tpOffset relocationType
  | .dtpoff64Shared => modelWriteU64 buf off inputs.dtpOffset relocationType
  | .dtpoff64LocalExec => modelWriteU64 buf off inputs.tpOffset relocationType
  | .tlsGdShared => modelWriteI32 buf off (inputs.tlsGd.toInt64 + a - p) relocationType
  | .tlsGdInitialExec => rewriteTlsgdIe buf inputs relocationType
  | .tlsGdLocalExec => rewriteTlsgdLe buf inputs relocationType
  | .tlsLdShared =>
      modelWriteI32 buf off (inputs.tlsLdm.toInt64 + a - p) relocationType
  | .tlsLdLocalExec => rewriteTlsldLe buf inputs relocationType
  | .gotTpOffShared | .gotTpOffExecutable =>
      modelWriteI32 buf off (inputs.tlsIe.toInt64 + a - p) relocationType
  | .tlsDescGotPcShared =>
      modelWriteI32 buf off (inputs.tlsDesc.toInt64 + a - p) relocationType
  | .tlsDescGotPcInitialExec => rewriteTlsdescIe buf inputs relocationType
  | .tlsDescGotPcLocalExec => rewriteTlsdescLe buf inputs relocationType
  | .tlsDescCallShared | .unsupportedNoop => .ok (buf, off, 0)
  | .tlsDescCallLocalExec => writeRaw buf off [0x66, 0x90] relocationType
  | .abs16 => modelWriteU16 buf off (s + a) relocationType
  | .pc16 => modelWriteU16 buf off (s + a - p) relocationType
  | .abs8 => modelWriteU8 buf off (s + a) relocationType
  | .pc8 => modelWriteU8 buf off (s + a - p) relocationType

def modelRelocationBytes (relocationType : UInt32) (inputs : RelocationByteInputs)
    (originalBytes : List UInt8) : Except RelocationByteError RelocationBytePatch := do
  let expression := relocationExpression relocationType inputs
  let (producedBytes, writeOffset, width) ←
    applyExpression originalBytes relocationType inputs expression
  return ⟨expression, writeOffset, width, originalBytes, producedBytes⟩

end Peony
