import Peony.Layout.Compute
import Peony.Layout.StringTable

namespace Peony

/-! The headers of the file and `.symtab`, as they are written into the mapped file. -/

def shnLoreserve : UInt16 := 0xff00

def shnXindex : UInt16 := 0xffff

def stvDefault : UInt8 := 0

/-! ## Headers -/

/-- The number of sections in the file header; 0 when the null section holds it. -/
def eShnum (layout : Layout) : UInt16 :=
  if shnLoreserve.toUInt64 ≤ layout.shnum then 0 else layout.shnum.toUInt16

def eShstrndx (layout : Layout) : UInt16 :=
  if shnLoreserve.toUInt64 ≤ layout.shstrndx then shnXindex else layout.shstrndx.toUInt16

def fileHeader (layout : Layout) : List UInt8 :=
  le16 layout.eType ++ le16 62 ++ le32 1 ++ toLeBytes layout.entry ++
    toLeBytes layout.phoff ++ toLeBytes layout.shoff ++ le32 0 ++
    le16 ehdrSize.toUInt16 ++ le16 phdrSize.toUInt16 ++ le16 layout.phnum.toUInt16 ++
    le16 shdrSize.toUInt16 ++ le16 (eShnum layout) ++ le16 (eShstrndx layout)

namespace ProgramHeader

def bytes (header : ProgramHeader) : List UInt8 :=
  le32 header.pType ++ le32 header.pFlags ++ toLeBytes header.pOffset ++
    toLeBytes header.pVaddr ++ toLeBytes header.pPaddr ++ toLeBytes header.pFilesz ++
    toLeBytes header.pMemsz ++ toLeBytes header.pAlign

end ProgramHeader

/-- The program headers, from `phoff` on. -/
def segmentPatches (layout : Layout) : List (Buffer.Patch UInt8) :=
  layout.segments.zipIdx.map fun (header, place) =>
    ⟨layout.phoff.toNat + place * phdrSize.toNat, header.bytes⟩

/-- The bytes 8 to 16 of the file stay as they are. -/
def writeHeaders (layout : Layout) (buf : List UInt8) : List UInt8 :=
  Buffer.applyAll buf
    (⟨0, [0x7f, 0x45, 0x4c, 0x46, 2, 1, 1, 0]⟩ :: ⟨16, fileHeader layout⟩ ::
      segmentPatches layout)

namespace OutputSection

def headerBytes (s : OutputSection) : List UInt8 :=
  le32 s.shName ++ le32 s.shType ++ toLeBytes s.shFlags ++ toLeBytes s.shAddr ++
    toLeBytes s.shOffset ++ toLeBytes s.shSize ++ le32 s.shLink ++ le32 s.shInfo ++
    toLeBytes s.shAddralign ++ toLeBytes s.shEntsize

end OutputSection

/-- What the null section holds for the file header: the number of sections in its
size, and that of the section names in its link. -/
def nullPatches (layout : Layout) : List (Buffer.Patch UInt8) :=
  (if shnLoreserve.toUInt64 ≤ layout.shnum then
    [⟨layout.shoff.toNat + 32, toLeBytes layout.shnum⟩] else []) ++
  if shnLoreserve.toUInt64 ≤ layout.shstrndx then
    [⟨layout.shoff.toNat + 40, le32 layout.shstrndx.toUInt32⟩] else []

/-- The headers of the sections, each at its number, up to one that does not fit. -/
def writeNumbered (shoff : UInt64) : List OutputSection → List UInt8 → List UInt8
  | [], buf => buf
  | s :: rest, buf =>
      let off := shoff.toNat + s.shndx.toNat * shdrSize.toNat
      if buf.length < off + 64 then buf
      else writeNumbered shoff rest (Buffer.overwrite buf ⟨off, s.headerBytes⟩)

def writeSectionHeaders (layout : Layout) (buf : List UInt8) : List UInt8 :=
  let escaped :=
    if layout.shoff.toNat + 64 ≤ buf.length then Buffer.applyAll buf (nullPatches layout)
    else buf
  writeNumbered layout.shoff layout.outputSections escaped

/-! ## `.symtab` -/

def zeroSection (buf : List UInt8) (off size : UInt64) : List UInt8 :=
  if off.toNat + size.toNat ≤ buf.length then
    Buffer.overwrite buf ⟨off.toNat, List.replicate size.toNat 0⟩
  else buf

/-- The entry of a planned symbol. The value and the size of one that has none yet are
those of its name. -/
def symtabRecord (symbols : SymbolTable) (entry : SymEntry) : DynSym :=
  let res := symbols.lookup entry.name
  let placed := entry.known.getD
    ((res.map SymbolResolution.virtualAddress).getD 0,
      (res.map SymbolResolution.size).getD 0)
  { nameOff := entry.nameOff
    info := entry.info
    other := stvDefault
    shndx := if shnReservedHi ≤ entry.shndx then shnXindex else entry.shndx.toUInt16
    value := placed.1
    size := placed.2 }

/-- The entries from a place on, up to one that does not fit. -/
def writeSymtab (symbols : SymbolTable) (base : UInt64) :
    Nat → List SymEntry → List UInt8 → List UInt8
  | _, [], buf => buf
  | place, entry :: rest, buf =>
      let off := (base + UInt64.ofNat (place + 1) * symSize).toNat
      if buf.length < off + 24 then buf
      else
        writeSymtab symbols base (place + 1) rest
          (Buffer.overwrite buf ⟨off, (symtabRecord symbols entry).bytes⟩)

def writeSymtabSection (symbols : SymbolTable) (layout : Layout) (s : OutputSection)
    (buf : List UInt8) : List UInt8 :=
  writeSymtab symbols s.shOffset 0 layout.symtab (zeroSection buf s.shOffset s.shSize)

/-! ## What is written -/

@[simp] theorem length_headerBytes (s : OutputSection) : s.headerBytes.length = 64 := by
  simp only [OutputSection.headerBytes, List.length_append, length_le32, length_toLeBytes]

@[simp] theorem length_fileHeader (layout : Layout) : (fileHeader layout).length = 48 := by
  simp only [fileHeader, List.length_append, length_le16, length_le32, length_toLeBytes]

/-- The headers leave what lies in front of the first number. -/
theorem window_writeNumbered {shoff : UInt64} {sections : List OutputSection}
    {start len : Nat} (numbered : ∀ s ∈ sections, s.shndx ≠ 0)
    (before : start + len ≤ shoff.toNat + 64) (buf : List UInt8) :
    ((writeNumbered shoff sections buf).drop start).take len =
      (buf.drop start).take len := by
  induction sections generalizing buf with
  | nil => rfl
  | cons s rest induction =>
      have positive : 0 < s.shndx.toNat := by
        have notZero := numbered s List.mem_cons_self
        rw [ne_eq, ← UInt32.toNat_inj] at notZero
        exact Nat.pos_of_ne_zero notZero
      rw [writeNumbered]
      split
      · rfl
      · rw [induction (fun other present => numbered other (List.mem_cons_of_mem _ present)),
          Buffer.window_overwrite_apart _ (.inl ?_)]
        rw [show shdrSize.toNat = 64 from rfl]
        dsimp only
        omega

@[simp] theorem length_writeHeaders (layout : Layout) (buf : List UInt8) :
    (writeHeaders layout buf).length = buf.length :=
  Buffer.length_applyAll _ _

@[simp] theorem length_zeroSection (buf : List UInt8) (off size : UInt64) :
    (zeroSection buf off size).length = buf.length := by
  rw [zeroSection]
  split
  · exact Buffer.length_overwrite _ _
  · rfl

section Symtab

variable {symbols : SymbolTable} {base : UInt64}

theorem entryOffset_toNat {place : Nat} (fits : base.toNat + 24 * (place + 1) < 2 ^ 64) :
    (base + UInt64.ofNat (place + 1) * symSize).toNat = base.toNat + 24 * (place + 1) := by
  rw [UInt64.toNat_add, UInt64.toNat_mul, UInt64.toNat_ofNat', show symSize.toNat = 24 from rfl]
  omega

theorem window_writeSymtab {place start len : Nat} {entries : List SymEntry}
    (fits : base.toNat + 24 * (place + entries.length + 1) < 2 ^ 64)
    (before : start + len ≤ base.toNat + 24 * (place + 1)) (buf : List UInt8) :
    ((writeSymtab symbols base place entries buf).drop start).take len =
      (buf.drop start).take len := by
  induction entries generalizing place buf with
  | nil => rfl
  | cons entry rest induction =>
      rw [List.length_cons] at fits
      rw [writeSymtab, entryOffset_toNat (by omega)]
      split
      · rfl
      · rw [induction (by omega) (by omega), Buffer.window_overwrite_apart _ (.inl before)]

theorem slice_writeSymtab {place : Nat} {entries : List SymEntry} {buf : List UInt8}
    (fits : base.toNat + 24 * (place + entries.length + 1) < 2 ^ 64)
    (room : base.toNat + 24 * (place + entries.length + 1) ≤ buf.length) {index : Nat}
    {entry : SymEntry} (found : entries[index]? = some entry) :
    ((writeSymtab symbols base place entries buf).drop
        (base.toNat + 24 * (place + index + 1))).take 24 =
      (symtabRecord symbols entry).bytes := by
  induction entries generalizing place buf index with
  | nil => exact nomatch found
  | cons first rest induction =>
      rw [List.length_cons] at fits room
      rw [writeSymtab, entryOffset_toNat (by omega)]
      rw [if_neg (by omega)]
      cases index with
      | zero =>
          rw [List.getElem?_cons_zero, Option.some.injEq] at found
          subst found
          have own := @Buffer.slice_overwrite _ buf
            ⟨base.toNat + 24 * (place + 1), (symtabRecord symbols first).bytes⟩ (by
              change base.toNat + 24 * (place + 1) + 24 ≤ buf.length
              omega)
          rw [Nat.add_zero, window_writeSymtab (by omega) (by omega)]
          exact own
      | succ index =>
          have next := @induction (place + 1) (Buffer.overwrite buf
            ⟨base.toNat + 24 * (place + 1), (symtabRecord symbols first).bytes⟩)
            (by omega) (by rw [Buffer.length_overwrite]; omega) index found
          rw [Nat.add_right_comm place 1 index] at next
          exact next

end Symtab

end Peony
