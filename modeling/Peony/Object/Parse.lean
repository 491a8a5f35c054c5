import Peony.Object.EhFrame
import Peony.Object.Elf
import Peony.Object.Parsed

namespace Peony

/-! How an object is made from what the ELF reader returns of a file. The reader is a
parameter: it returns the fields of the headers as they are in the file. -/

/-! ## What can stop a parse -/

/-- What ends the program: a sum that is too large, an assertion that does not hold, and
a slice beyond its buffer. -/
inductive Fault where
  | overflow
  | assertionFailed
  | outOfRange
deriving DecidableEq

/-- A parse returns an error of the reader, or the program ends. -/
inductive ParseStop (ElfError : Type) where
  | parse (path : String) (source : ElfError)
  | fault (fault : Fault)
deriving DecidableEq

section

variable {ElfError : Type}

def addU32 (first second : UInt32) : Except (ParseStop ElfError) UInt32 :=
  if first.toNat + second.toNat < 2 ^ 32 then .ok (first + second) else .error (.fault .overflow)

def addU64 (first second : UInt64) : Except (ParseStop ElfError) UInt64 :=
  if first.toNat + second.toNat < 2 ^ 64 then .ok (first + second) else .error (.fault .overflow)

def addUsize (first second : Nat) : Except (ParseStop ElfError) Nat :=
  if first + second < 2 ^ 64 then .ok (first + second) else .error (.fault .overflow)

def assertThat (holds : Prop) [Decidable holds] : Except (ParseStop ElfError) Unit :=
  if holds then .ok () else .error (.fault .assertionFailed)

def sliceData (data : List UInt8) (start stop : Nat) : Except (ParseStop ElfError) (List UInt8) :=
  if start ≤ stop ∧ stop ≤ data.length then .ok ((data.take stop).drop start)
  else .error (.fault .outOfRange)

/-! ## What the reader returns -/

structure ElfReloc where
  offset : UInt64
  /-- The symbol of the target, if it is one. -/
  symbol : Option Nat
  /-- The type, if the flags are those of ELF. -/
  rType : Option UInt32
  addend : Int64
deriving DecidableEq

structure ElfSection (ElfError : Type) where
  index : Nat
  shType : UInt32
  shInfo : UInt32
  nameBytes : Option Name
  shFlags : Option UInt64
  /-- The offset and the size of the bytes in the file, if the type has any. -/
  fileRange : Option (UInt64 × UInt64)
  /-- Whether the range of the compressed bytes has a format, if there is one. -/
  hasCompression : Option Bool
  uncompressedData : Except ElfError (List UInt8)
  data : Option (List UInt8)
  relocations : List ElfReloc
  align : UInt64
  size : UInt64

structure ElfSymbol where
  index : Nat
  nameBytes : Option Name
  inCompilation : Bool
  isWeak : Bool
  isUndefined : Bool
  isCommon : Bool
  /-- The type and the visibility of the entry in the symbol table. -/
  raw : Option (UInt8 × UInt8)
  sectionIndex : Option Nat
  address : UInt64
  size : UInt64
deriving DecidableEq

structure ElfFile (ElfError : Type) where
  sections : List (ElfSection ElfError)
  symbols : List ElfSymbol
  /-- The lower bounds that the iterators give for their lengths. -/
  sectionCount : Nat
  symbolCount : Nat
  /-- The name of a symbol, if there is one with the index. -/
  symbolName : Nat → Option Name

/-! ## Sections -/

def isDebugSectionName (name : Name) : Bool :=
  name == nameOf ".debug" || (nameOf ".debug_").isPrefixOf name ||
    (nameOf ".zdebug_").isPrefixOf name || (nameOf ".gnu.debuglto_").isPrefixOf name

def normalizeDebugSectionName (name : Name) : Name :=
  if (nameOf ".zdebug_").isPrefixOf name then
    nameOf ".debug_" ++ name.drop (nameOf ".zdebug_").length
  else name

def classifySection (name : Name) (flags : UInt64) : SectionKind :=
  if flags &&& shfTls != 0 then
    if (nameOf ".tbss").isPrefixOf name then .tbss else .tdata
  else if flags &&& 0x10 != 0 then
    if flags &&& 0x20 != 0 then .mergeString else .mergeConst
  else if (nameOf ".text").isPrefixOf name then .text
  else if (nameOf ".rodata").isPrefixOf name then .readOnly
  else if (nameOf ".data").isPrefixOf name then .data
  else if (nameOf ".bss").isPrefixOf name then .bss
  else if isDebugSectionName name then .debug
  else if name == nameOf ".eh_frame" then .ehFrame
  else if (nameOf ".init_array").isPrefixOf name || (nameOf ".fini_array").isPrefixOf name then
    .initArray
  else .other

def collectRelocs (sec : ElfSection ElfError) : List InputReloc :=
  sec.relocations.filterMap fun reloc =>
    match reloc.symbol, reloc.rType with
    | some symbol, some rType => some ⟨reloc.offset, rType, symbol, reloc.addend⟩
    | _, _ => none

/-! ## Records of `.eh_frame` -/

/-- The 32-bit number at a position. -/
def readU32At (data : List UInt8) (pos : Nat) : Except (ParseStop ElfError) Nat := do
  let stop ← addUsize pos 4
  let bytes ← sliceData data pos stop
  return readU32 bytes

/-- The loop of `scan_eh_frame`, from a position on. Each record takes a byte or more. -/
def scanRecords (data : List UInt8) :
    Nat → Nat → EhFrameScan → Except (ParseStop ElfError) EhFrameScan
  | 0, pos, scan => return { scan with leftover := data.length - pos }
  | fuel + 1, pos, scan => do
      let start ← addUsize pos 4
      if data.length < start then return { scan with leftover := data.length - pos }
      let len ← readU32At data pos
      if len = 0 then scanRecords data fuel start { scan with terms := scan.terms + 1 }
      else if len = 0xffffffff then return { scan with leftover := data.length - pos }
      else
        let afterPtr ← addUsize start 4
        if data.length < afterPtr then return { scan with leftover := data.length - pos }
        let next ← addUsize start len
        if data.length < next then return { scan with leftover := data.length - pos }
        let ciePtr ← readU32At data start
        scanRecords data fuel next
          (if ciePtr = 0 then { scan with cies := scan.cies + 1 }
          else { scan with fdes := scan.fdes + 1 })

def endsWithTerminator (data : List UInt8) : Nat → Nat → Except (ParseStop ElfError) Bool
  | 0, _ => return false
  | fuel + 1, pos => do
      let start ← addUsize pos 4
      if data.length < start then return false
      let len ← readU32At data pos
      if len = 0 then return start = data.length
      else if len = 0xffffffff then return false
      else
        let next ← addUsize start len
        if data.length < next then return false
        endsWithTerminator data fuel next

def endsWithEhTerminator (data : List UInt8) : Except (ParseStop ElfError) Bool :=
  endsWithTerminator data data.length 0

/-! ## One section -/

/-- The handle of a section, with the length of its bytes if they were decompressed. The
decompressed bytes go to the end of the sink. -/
def sectionHandle (backing : DataSrc) (ownedBase : UInt32) (baseOff : UInt64) (path : String)
    (sink : List (List UInt8)) (isCompressed : Bool) (sec : ElfSection ElfError) :
    Except (ParseStop ElfError) (SectionData × Option UInt64 × List (List UInt8)) :=
  let range := sec.fileRange.getD (0, 0)
  if isCompressed then do
    let bytes ← sec.uncompressedData.mapError (ParseStop.parse path)
    assertThat (bytes.length ≤ 2 ^ 32 - 1)
    let oid ← addU32 ownedBase (UInt32.ofNat sink.length)
    return (⟨.owned oid, 0, UInt32.ofNat bytes.length⟩, some (UInt64.ofNat bytes.length),
      sink ++ [bytes])
  else if sec.shType = shtNobits ∨ range.2 = 0 then
    return (SectionData.empty, none, sink)
  else do
    let absOff ← addU64 baseOff range.1
    let stop ← addU64 absOff range.2
    assertThat (stop.toNat ≤ 2 ^ 32 - 1)
    return (⟨backing, absOff.toUInt32, range.2.toUInt32⟩, none, sink)

def withoutTerminator (data : List UInt8) (range : UInt64 × UInt64) (handle : SectionData)
    (size : UInt64) : Except (ParseStop ElfError) (SectionData × UInt64) := do
  let stop ← addU64 range.1 range.2
  let rawData ← sliceData data range.1.toNat stop.toNat
  let _ ← scanRecords rawData rawData.length 0 {}
  let endsWithTerminator ← endsWithEhTerminator rawData
  if endsWithTerminator then
    return ({ handle with len := if handle.len < 4 then 0 else handle.len - 4 },
      if size < 4 then 0 else size - 4)
  else return (handle, size)

def parseSection (backing : DataSrc) (ownedBase : UInt32) (baseOff : UInt64) (path : String)
    (data : List UInt8) (sink : List (List UInt8)) (sec : ElfSection ElfError) :
    Except (ParseStop ElfError) (InputSection × List (List UInt8)) := do
  let inputName := sec.nameBytes.getD []
  let isDebug := isDebugSectionName inputName
  let name := normalizeDebugSectionName inputName
  let shFlags := sec.shFlags.getD 0
  let kind := classifySection name shFlags
  let range := sec.fileRange.getD (0, 0)
  let isCompressed := isDebug && sec.hasCompression == some true
  let (handle, ownedLen, sink) ←
    sectionHandle backing ownedBase baseOff path sink isCompressed sec
  let size := if isDebug then ownedLen.getD range.2 else sec.size
  let (handle, size) ←
    (if kind = .ehFrame then withoutTerminator data range handle size else .ok (handle, size))
  return (⟨sec.index, name, kind, sec.shType, handle, sec.align, size, shFlags,
    collectRelocs sec⟩, sink)

def parseSections (backing : DataSrc) (ownedBase : UInt32) (baseOff : UInt64) (path : String)
    (data : List UInt8) :
    List (List UInt8) → List (ElfSection ElfError) →
      Except (ParseStop ElfError) (List InputSection × List (List UInt8))
  | sink, [] => return ([], sink)
  | sink, sec :: rest => do
      let (first, sink) ← parseSection backing ownedBase baseOff path data sink sec
      let (others, sink) ← parseSections backing ownedBase baseOff path data sink rest
      return (first :: others, sink)

/-! ## Symbols and groups -/

def parseSymbol (sym : ElfSymbol) : InputSymbol :=
  let raw := sym.raw.getD (sttNotype, 0)
  { index := sym.index
    name := sym.nameBytes.getD []
    binding := if sym.inCompilation then .local else if sym.isWeak then .weak else .global
    isUndefined := sym.isUndefined
    isCommon := sym.isCommon
    isIfunc := raw.1 == sttGnuIfunc
    stType := raw.1
    visibility := raw.2
    sectionIndex := sym.sectionIndex
    value := sym.address
    size := sym.size }

/-- The numbers that whole groups of four bytes spell. -/
def u32Chunks : Nat → List UInt8 → List Nat
  | 0, _ => []
  | count + 1, bytes => readU32 bytes :: u32Chunks count (bytes.drop 4)

def parseComdatGroups (elf : ElfFile ElfError) : List ComdatGroup :=
  elf.sections.filterMap fun sec =>
    if sec.shType ≠ 17 then none
    else
      match sec.data with
      | none => none
      | some data =>
          if data.length < 4 ∨ readU32 data &&& 1 = 0 then none
          else
            some ⟨(elf.symbolName sec.shInfo.toNat).getD [],
              u32Chunks ((data.length - 4) / 4) (data.drop 4)⟩

/-! ## Objects -/

def parseBacked (parseElf : List UInt8 → Except ElfError (ElfFile ElfError))
    (backing : DataSrc) (ownedBase : UInt32) (baseOff : UInt64) (sink : List (List UInt8))
    (path : String) (data : List UInt8) :
    Except (ParseStop ElfError) (InputObject × List (List UInt8)) := do
  let elf ← (parseElf data).mapError (ParseStop.parse path)
  let (sections, sink) ← parseSections backing ownedBase baseOff path data sink elf.sections
  return (InputObject.assemble path elf.sectionCount elf.symbolCount sections
    (elf.symbols.map parseSymbol) (parseComdatGroups elf), sink)

end

end Peony
