import Peony.Emit.Dispatch
import Peony.Emit.Sections
import Peony.Object.EhFrame

namespace Peony

/-! The writes of an emission to the mapped output, in the order in which they are made. -/

/-- Write the data, if it ends within the map. Where the sum wraps the slice panics, and
nothing is written either. -/
def checkedWrite (bufLen : Nat) (off : UInt64) (data : List UInt8) :
    List (Buffer.Patch UInt8) :=
  if off.toNat + data.length ≤ bufLen then [⟨off.toNat, data⟩] else []

def zeroWrites (bufLen : Nat) (off size : UInt64) : List (Buffer.Patch UInt8) :=
  checkedWrite bufLen off (List.replicate size.toNat 0)

def Layout.firstOf (layout : Layout) (source : SecSource) : Option OutputSection :=
  layout.outputSections.find? fun s => s.source == source

/-! ## Headers -/

def headerWrites (layout : Layout) : List (Buffer.Patch UInt8) :=
  ⟨0, [0x7f, 0x45, 0x4c, 0x46, 2, 1, 1, 0]⟩ :: ⟨16, fileHeader layout⟩ ::
    segmentPatches layout

def numberedWrites (bufLen : Nat) (shoff : UInt64) :
    List OutputSection → List (Buffer.Patch UInt8)
  | [] => []
  | s :: rest =>
      let off := shoff.toNat + s.shndx.toNat * shdrSize.toNat
      if bufLen < off + 64 then []
      else ⟨off, s.headerBytes⟩ :: numberedWrites bufLen shoff rest

def sectionHeaderWrites (bufLen : Nat) (layout : Layout) : List (Buffer.Patch UInt8) :=
  (if layout.shoff.toNat + 64 ≤ bufLen then nullPatches layout else []) ++
    numberedWrites bufLen layout.shoff layout.outputSections

/-! ## Gaps -/

/-- Where each gap of an output section begins and how long it is, from a cursor on. -/
def gapsFrom (base stop : UInt64) : UInt64 → List SectionContribution →
    List (UInt64 × UInt64)
  | cursor, [] => if cursor < stop then [(cursor, stop - cursor)] else []
  | cursor, contribution :: rest =>
      let start := saturatingAdd base contribution.offset
      (if cursor < start then [(cursor, start - cursor)] else []) ++
        gapsFrom base stop (max cursor (saturatingAdd start contribution.size)) rest

def OutputSection.inputGaps (s : OutputSection) : List (UInt64 × UInt64) :=
  gapsFrom s.shOffset (saturatingAdd s.shOffset s.shSize) s.shOffset s.contributions

def zeroInputGaps (bufLen : Nat) (s : OutputSection) : List (Buffer.Patch UInt8) :=
  s.inputGaps.flatMap fun gap => zeroWrites bufLen gap.1 gap.2

/-! ## Synthetic sections -/

def slotAddress (symbols : SymbolTable) (id : SymbolId) : UInt64 :=
  (((symbols.nameById id).bind symbols.lookup).map
    SymbolResolution.virtualAddress).getD 0

/-- The sum of an offset wraps. -/
def gotSlotWrites (symbols : SymbolTable) (bufLen : Nat) (slots : List SymbolId)
    (base : UInt64) : List (Buffer.Patch UInt8) :=
  slots.zipIdx.flatMap fun slot =>
    checkedWrite bufLen (base + UInt64.ofNat slot.2 * 8)
      (toLeBytes (slotAddress symbols slot.1))

/-- The entries of `.symtab` from a place on, up to one that does not fit. -/
def symtabWrites (symbols : SymbolTable) (bufLen : Nat) (base : UInt64) :
    Nat → List SymEntry → List (Buffer.Patch UInt8)
  | _, [] => []
  | place, entry :: rest =>
      let off := (base + UInt64.ofNat (place + 1) * symSize).toNat
      if bufLen < off + 24 then []
      else ⟨off, (symtabRecord symbols entry).bytes⟩ ::
        symtabWrites symbols bufLen base (place + 1) rest

/-- The note before the image is hashed: its descriptor is 0. -/
def buildIdNote : List UInt8 :=
  le32 4 ++ le32 16 ++ le32 3 ++ nameOf "GNU\x00" ++ List.replicate 16 0

/-- The bytes of a section that the layout has built as a whole. -/
def Layout.contentsOf (layout : Layout) : SecSource → List UInt8
  | .symTabShndx => layout.symtabShndx
  | .strTab => layout.strtab
  | .shStrTab => layout.shstrtab
  | .noteGnuProperty => layout.gnuPropertyNote
  | .interp => layout.dynBlobs.interp
  | .hash => layout.dynBlobs.hash
  | .dynSym => layout.dynBlobs.dynsym
  | .dynStr => layout.dynBlobs.dynstr
  | .relaDyn => layout.dynBlobs.relaDyn
  | .gnuVersion => layout.dynBlobs.gnuVersion
  | .gnuVersionR => layout.dynBlobs.gnuVersionR
  | .gnuHash => layout.dynBlobs.gnuHash
  | .dynamic => layout.dynBlobs.dynamic
  | .plt => layout.dynBlobs.plt
  | .gotPlt => layout.dynBlobs.gotPlt
  | .relaPlt => layout.dynBlobs.relaPlt
  | .relaEmit index => layout.emitRelocs[index]?.getD []
  | .input | .bss | .got | .symTab | .noteBuildId | .ehFrameHdr => []

/-- What is written to a section that has been cleared. -/
def contentWrites (symbols : SymbolTable) (layout : Layout) (bufLen : Nat)
    (s : OutputSection) : List (Buffer.Patch UInt8) :=
  match s.source with
  | .got => gotSlotWrites symbols bufLen layout.gotSlots s.shOffset
  | .symTab => symtabWrites symbols bufLen s.shOffset 0 layout.symtab
  | .noteBuildId => checkedWrite bufLen s.shOffset buildIdNote
  -- the table is written once the frames are relocated
  | .ehFrameHdr => []
  | source => checkedWrite bufLen s.shOffset (layout.contentsOf source)

def syntheticSectionIsWritten (layout : Layout) (s : OutputSection) : Bool :=
  match s.source with
  | .input | .bss => false
  | .relaEmit index => layout.emitRelocs[index]?.isSome
  | _ => true

def sectionWrites (symbols : SymbolTable) (layout : Layout) (filter : SectionWriteFilter)
    (bufLen : Nat) (s : OutputSection) : List (Buffer.Patch UInt8) :=
  if s.source = .input then
    if filter.zeroesGaps s.name then zeroInputGaps bufLen s else []
  else if syntheticSectionIsWritten layout s then
    zeroWrites bufLen s.shOffset s.shSize ++ contentWrites symbols layout bufLen s
  else []

/-! ## Input sections -/

def DispatchCtx.itemWrites (ctx : DispatchCtx) (bufLen : Nat)
    (item : WorkItem × Option WorkRange) :
    Except RelocFault (List (Buffer.Patch UInt8)) :=
  match item.2 with
  | none => .ok []
  | some accepted =>
      let dataLen := item.1.isec.data.len.toNat
      let stop := item.1.fileOff.toNat + dataLen
      if dataLen = 0 ∨ 2 ^ 64 ≤ stop ∨ bufLen < stop ∨
          ¬ accepted.contains item.1.fileOff.toNat stop then .ok []
      else (ctx.sectionBytes item.1).map fun secBuf => [⟨item.1.fileOff.toNat, secBuf⟩]

inductive EmitFault where
  | workRange (error : WorkRangeError)
  | reloc (fault : RelocFault)
deriving DecidableEq

def copyInputSections (arena : InputArena) (objects : List InputObject)
    (symbols : SymbolTable) (layout : Layout) (filter : SectionWriteFilter) (bufLen : Nat) :
    Except EmitFault (List (Buffer.Patch UInt8)) := do
  let ctx : DispatchCtx := {
    arena := arena
    reloc := {
      symbols := symbols
      layout := layout
      shared := layout.shared
      symIndex := some (SymIndex.build objects symbols) } }
  let items := collectInputWorkItems layout objects filter
  let ranges ← (validateWorkItemRanges items bufLen).mapError .workRange
  let writes ← ((items.zip ranges).mapM (ctx.itemWrites bufLen)).mapError .reloc
  return writes.flatten

def writeSectionData (arena : InputArena) (objects : List InputObject)
    (symbols : SymbolTable) (layout : Layout) (filter : SectionWriteFilter) (bufLen : Nat) :
    Except EmitFault (List (Buffer.Patch UInt8)) := do
  let copied ← copyInputSections arena objects symbols layout filter bufLen
  return (if filter.isMinimal then []
    else layout.outputSections.flatMap (sectionWrites symbols layout filter bufLen)) ++ copied

/-! ## Slots of thread-local storage -/

/-- The sums wrap. -/
def tlsSlotWrites (bufLen : Nat) (got : OutputSection) (slot : UInt64 × UInt64) :
    List (Buffer.Patch UInt8) :=
  if slot.1 < got.shAddr ∨ got.shAddr + got.shSize < slot.1 + 8 then []
  else checkedWrite bufLen (got.shOffset + (slot.1 - got.shAddr)) (toLeBytes slot.2)

def writeTlsGot (bufLen : Nat) (layout : Layout) : List (Buffer.Patch UInt8) :=
  match layout.firstOf .got with
  | none => []
  | some got => layout.tlsGotWrites.flatMap (tlsSlotWrites bufLen got)

/-! ## `.eh_frame_hdr` -/

/-- The first address that each frame description covers and its own address, by the
first ones. -/
def frameEntries (ehVa : UInt64) (fdes : List Fde) : List (Int64 × Int64) :=
  (fdes.map fun fde =>
    ((ehVa + UInt64.ofNat fde.pcBeginOff).toInt64 + fde.rel,
      (ehVa + UInt64.ofNat fde.pos).toInt64)).insertionSort
    fun first second => first.1.toInt ≤ second.1.toInt

/-- The four bytes of an address as the table has it. -/
def relativeWord (va base : Int64) : List UInt8 := le32 (va - base).toInt32.toUInt32

def frameTable (ehVa hdrVa : UInt64) (entries : List (Int64 × Int64)) : List UInt8 :=
  [1, 0x1b, 0x03, 0x3b] ++ relativeWord ehVa.toInt64 (hdrVa + 4).toInt64 ++
    le32 (UInt32.ofNat entries.length) ++
    entries.flatMap fun entry =>
      relativeWord entry.1 hdrVa.toInt64 ++ relativeWord entry.2 hdrVa.toInt64

def Layout.ehFrame (layout : Layout) : Option OutputSection :=
  layout.outputSections.find? fun s => s.name == nameOf ".eh_frame"

def framesIn (image : List UInt8) (eh : OutputSection) : List Fde :=
  iterFdes ((image.drop eh.shOffset.toNat).take eh.shSize.toNat)

def writeEhFrameHdr (image : List UInt8) (layout : Layout) : List (Buffer.Patch UInt8) :=
  match layout.firstOf .ehFrameHdr, layout.ehFrame with
  | some hdr, some eh =>
      if image.length < eh.shOffset.toNat + eh.shSize.toNat then []
      else
        let entries := frameEntries eh.shAddr (framesIn image eh)
        checkedWrite image.length hdr.shOffset
          ((frameTable eh.shAddr hdr.shAddr entries).take hdr.shSize.toNat)
  | _, _ => []

/-! ## Build id -/

def buildIdBlock : Nat := 256 * 1024

def hashOffset : UInt64 := 0xcbf29ce484222325

def hashPrime : UInt64 := 0x00000100000001b3

def hashSeed : UInt64 := 0x9e3779b97f4a7c15

def hashByte (state : UInt64 × UInt64) (byte : UInt8) : UInt64 × UInt64 :=
  ((state.1 ^^^ byte.toUInt64) * hashPrime,
    (state.2 + byte.toUInt64) * hashPrime ^^^ state.2 >>> 29)

def hashBlock (index : Nat) (block : List UInt8) : UInt64 × UInt64 :=
  block.foldl hashByte
    (hashOffset ^^^ UInt64.ofNat index * hashPrime, hashSeed ^^^ UInt64.ofNat index)

def foldBlock (state block : UInt64 × UInt64) : UInt64 × UInt64 :=
  ((state.1 ^^^ block.1) * hashPrime,
    (state.2 + block.2) * hashPrime ^^^ state.2 >>> 29)

/-- The blocks of the image are hashed apart and joined in their order. -/
def buildIdHash (image : List UInt8) : List UInt8 :=
  let blocks := (List.range ((image.length + buildIdBlock - 1) / buildIdBlock)).map
    fun index => hashBlock index ((image.drop (index * buildIdBlock)).take buildIdBlock)
  let folded := blocks.foldl foldBlock (hashOffset, hashSeed)
  toLeBytes folded.1 ++ toLeBytes folded.2

/-- Clear the descriptor and fill it with the hash of the image. The sum of its offset
wraps. -/
def finalizeBuildId (image : List UInt8) (layout : Layout) : List (Buffer.Patch UInt8) :=
  match layout.firstOf .noteBuildId with
  | none => []
  | some note =>
      let cleared := zeroWrites image.length (note.shOffset + 16) 16
      cleared ++ checkedWrite image.length (note.shOffset + 16)
        (buildIdHash (Buffer.applyAll image cleared))

/-! ## The emission -/

/-- What is written before the image is read: headers, sections and slots. -/
def dataWrites (arena : InputArena) (objects : List InputObject) (symbols : SymbolTable)
    (layout : Layout) (filter : SectionWriteFilter) (bufLen : Nat) :
    Except EmitFault (List (Buffer.Patch UInt8)) := do
  let sections ← writeSectionData arena objects symbols layout filter bufLen
  return (if filter.isMinimal then [] else headerWrites layout) ++ sections ++
    if filter.isMinimal then [] else writeTlsGot bufLen layout

/-- What is written from the image: the table of the frame descriptions, the section
headers and the build id. -/
def imageWrites (layout : Layout) (filter : SectionWriteFilter) (image : List UInt8) :
    List (Buffer.Patch UInt8) :=
  let table := writeEhFrameHdr image layout
  let numbered := if filter.isMinimal then [] else sectionHeaderWrites image.length layout
  table ++ numbered ++ finalizeBuildId (Buffer.applyAll image (table ++ numbered)) layout

/-- All writes to a map that holds the bytes. -/
def emitWrites (arena : InputArena) (objects : List InputObject) (symbols : SymbolTable)
    (layout : Layout) (filter : SectionWriteFilter) (opened : List UInt8) :
    Except EmitFault (List (Buffer.Patch UInt8)) := do
  let data ← dataWrites arena objects symbols layout filter opened.length
  return data ++ imageWrites layout filter (Buffer.applyAll opened data)

/-! ## The writes are those of the single steps -/

theorem applyAll_zeroWrites (buf : List UInt8) (off size : UInt64) :
    Buffer.applyAll buf (zeroWrites buf.length off size) = zeroSection buf off size := by
  rw [zeroWrites, checkedWrite, zeroSection, List.length_replicate]
  split
  · rfl
  · rfl

theorem applyAll_numberedWrites (shoff : UInt64) (sections : List OutputSection)
    (buf : List UInt8) :
    Buffer.applyAll buf (numberedWrites buf.length shoff sections) =
      writeNumbered shoff sections buf := by
  induction sections generalizing buf with
  | nil => rfl
  | cons s rest induction =>
      rw [numberedWrites, writeNumbered]
      split
      · rfl
      · rw [Buffer.applyAll_cons, ← induction, Buffer.length_overwrite]

theorem applyAll_sectionHeaderWrites (layout : Layout) (buf : List UInt8) :
    Buffer.applyAll buf (sectionHeaderWrites buf.length layout) =
      writeSectionHeaders layout buf := by
  rw [sectionHeaderWrites, Buffer.applyAll_append, writeSectionHeaders]
  split
  · rw [← applyAll_numberedWrites, Buffer.length_applyAll]
  · exact applyAll_numberedWrites _ _ _

theorem applyAll_symtabWrites (symbols : SymbolTable) (base : UInt64) (place : Nat)
    (entries : List SymEntry) (buf : List UInt8) :
    Buffer.applyAll buf (symtabWrites symbols buf.length base place entries) =
      writeSymtab symbols base place entries buf := by
  induction entries generalizing place buf with
  | nil => rfl
  | cons entry rest induction =>
      rw [symtabWrites, writeSymtab]
      split
      · rfl
      · rw [Buffer.applyAll_cons, ← induction, Buffer.length_overwrite]

theorem DispatchCtx.processAccepted_itemWrites (ctx : DispatchCtx)
    (item : WorkItem × Option WorkRange) (output : List UInt8) :
    ctx.processAccepted item output =
      (ctx.itemWrites output.length item).map (Buffer.applyAll output) := by
  rw [processAccepted, itemWrites]
  cases item.2 with
  | none => rfl
  | some accepted =>
      dsimp only
      rw [processItem]
      split
      · rfl
      · cases ctx.sectionBytes item.1 with
        | error fault => rfl
        | ok secBuf => rfl

end Peony
