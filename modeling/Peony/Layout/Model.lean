import Peony.Object.Elf
import Peony.Foundation.Overwrite
import Peony.Symbols.Table

namespace Peony

/-! The layout of an output file, and what is written back into the symbol table
and the dynamic blobs once the addresses are known. -/

/-! ## The layout -/

structure SectionContribution where
  objectId : Nat
  sectionIndex : Nat
  sectionPos : Nat
  offset : UInt64
  size : UInt64
deriving DecidableEq, Repr

/-- How the bytes of an output section are produced. -/
inductive SecSource where
  | input | bss | got | symTab | symTabShndx | strTab | shStrTab
  | noteBuildId | noteGnuProperty | interp | hash | dynSym | dynStr | relaDyn
  | dynamic | plt | gotPlt | relaPlt | gnuVersion | gnuVersionR | ehFrameHdr
  | gnuHash
  | relaEmit (index : Nat)
deriving DecidableEq, Repr

structure OutputSection where
  name : Name
  kind : SectionKind
  shType : UInt32
  shFlags : UInt64
  shAddr : UInt64
  shOffset : UInt64
  shSize : UInt64
  shLink : UInt32
  shInfo : UInt32
  shAddralign : UInt64
  shEntsize : UInt64
  /-- Offset of the name in `.shstrtab`. -/
  shName : UInt32
  /-- Index into the section header table. -/
  shndx : UInt32
  contributions : List SectionContribution
  source : SecSource
deriving DecidableEq, Repr

/-- Whether the section has bytes in the file that are loaded. -/
def OutputSection.isPatchable (sec : OutputSection) : Bool :=
  !(sec.shType == shtNobits || sec.shFlags &&& shfAlloc == 0)

structure ProgramHeader where
  pType : UInt32
  pFlags : UInt32
  pOffset : UInt64
  pVaddr : UInt64
  pPaddr : UInt64
  pFilesz : UInt64
  pMemsz : UInt64
  pAlign : UInt64
deriving DecidableEq, Repr

structure SymEntry where
  name : Name
  nameOff : UInt32
  shndx : UInt32
  info : UInt8
  /-- Value and size when they are known; otherwise the name is looked up. -/
  known : Option (UInt64 × UInt64)
deriving DecidableEq, Repr

/-- The bytes of the dynamic-linking sections. -/
structure DynBlobs where
  interp : List UInt8 := []
  hash : List UInt8 := []
  dynsym : List UInt8 := []
  dynstr : List UInt8 := []
  relaDyn : List UInt8 := []
  dynamic : List UInt8 := []
  plt : List UInt8 := []
  gotPlt : List UInt8 := []
  relaPlt : List UInt8 := []
  gnuVersion : List UInt8 := []
  gnuVersionR : List UInt8 := []
  verneedNum : UInt64 := 0
  relaGlobDat : List UInt8 := []
  relaCopy : List UInt8 := []
  /-- The bytes planned for `.eh_frame_hdr`. -/
  ehFrameHdr : List UInt8 := []
  gnuHash : List UInt8 := []
deriving DecidableEq, Repr

inductive TlsRef where
  | «local» (objectId symbolPos : Nat)
  | global (id : SymbolId)
deriving DecidableEq, Repr

structure Layout where
  outputSections : List OutputSection := []
  /-- Address of the placement of an input section, by object and section. -/
  addresses : List ((Nat × Nat) × UInt64) := []
  segments : List ProgramHeader := []
  entry : UInt64 := 0
  eType : UInt16 := 0
  phoff : UInt64 := 0
  phnum : UInt64 := 0
  shoff : UInt64 := 0
  shnum : UInt64 := 0
  shstrndx : UInt64 := 0
  fileSize : Nat := 0
  gotSlots : List SymbolId := []
  gotBase : UInt64 := 0
  strtab : List UInt8 := []
  shstrtab : List UInt8 := []
  symtab : List SymEntry := []
  symtabShndx : List UInt8 := []
  imageBase : UInt64 := 0
  bssStart : UInt64 := 0
  edata : UInt64 := 0
  imageEnd : UInt64 := 0
  common : List (SymbolId × UInt64) := []
  copyRelocs : List (SymbolId × UInt64) := []
  dynBlobs : DynBlobs := {}
  pltSlots : List SymbolId := []
  pltBase : UInt64 := 0
  /-- The IRELATIVE entries of `.rela.plt`: the offset of the addend and the
  function whose resolver it names. -/
  ifuncPltPatches : List (Nat × SymbolId) := []
  tlsSize : UInt64 := 0
  /-- Offset within the TLS block, by object and section. -/
  tlsOffsets : List ((Nat × Nat) × UInt64) := []
  tlsGdAddr : List (TlsRef × UInt64) := []
  tlsIeAddr : List (TlsRef × UInt64) := []
  tlsDescAddr : List (TlsRef × UInt64) := []
  tlsLdmAddr : Option UInt64 := none
  shared : Bool := false
  /-- Addresses in the TLS part of `.got` and what is written there. -/
  tlsGotWrites : List (UInt64 × UInt64) := []
  emitRelocs : List (List UInt8) := []
  gnuPropertyNote : List UInt8 := []
deriving DecidableEq, Repr

def Layout.tlsOffset (layout : Layout) (objectId sectionIndex : Nat) :
    Option UInt64 :=
  layout.tlsOffsets.lookup (objectId, sectionIndex)

def Layout.addressOf (layout : Layout) (objectId sectionIndex : Nat) :
    Option UInt64 :=
  layout.addresses.lookup (objectId, sectionIndex)

/-! ## Symbol finalization -/

namespace SymbolTable

/-- Rewrite the entry of one name when there is one. -/
def modify (table : SymbolTable) (name : Name)
    (change : SymbolResolution → SymbolResolution) : SymbolTable :=
  match table.lookup name with
  | some entry => table.put name (change entry)
  | none => table

/-- Rewrite every entry. -/
def modifyAll (table : SymbolTable)
    (change : SymbolResolution → SymbolResolution) : SymbolTable :=
  table.resolutions.keys.foldl (fun table name => table.modify name change) table

/-- Rewrite the entries of the symbols named by their ids, each with its value. -/
def modifyById (table : SymbolTable) (updates : List (SymbolId × UInt64))
    (change : UInt64 → SymbolResolution → SymbolResolution) : SymbolTable :=
  updates.foldl
    (fun table update =>
      match table.nameById update.1 with
      | some name => table.modify name (change update.2)
      | none => table)
    table

end SymbolTable

def slotAddresses (base size : UInt64) (slots : List SymbolId) :
    List (SymbolId × UInt64) :=
  slots.zipIdx.map fun slot => (slot.1, base + UInt64.ofNat slot.2 * size)

/-- The address of a defined symbol that is not a tentative definition. -/
def placedAddress (layout : Layout) (entry : SymbolResolution) :
    SymbolResolution :=
  match entry.definedIn, entry.common with
  | some objectId, none =>
      match entry.sectionIndex with
      | some sectionIndex =>
          match layout.addressOf objectId.toNat sectionIndex with
          | some address =>
              { entry with virtualAddress := address + entry.value }
          | none => entry
      | none => { entry with virtualAddress := entry.value }
  | _, _ => entry

def finalizeSymbols (symbols : SymbolTable) (layout : Layout) : SymbolTable :=
  let placed := symbols.modifyAll (placedAddress layout)
  let commons := placed.modifyById layout.common fun address entry =>
    { entry with virtualAddress := address }
  let copies := commons.modifyById layout.copyRelocs fun address entry =>
    { entry with virtualAddress := address }
  let got := copies.modifyById (slotAddresses layout.gotBase 8 layout.gotSlots)
    fun address entry => { entry with gotAddress := address }
  got.modifyById (slotAddresses layout.pltBase 16 layout.pltSlots)
    fun address entry => { entry with pltAddress := address }

/-! ## IRELATIVE addends -/

def toAddend (address : UInt64) : List UInt8 :=
  (List.range 8).map fun place =>
    (address >>> UInt64.ofNat (8 * place)).toUInt8

def resolverAddress (symbols : SymbolTable) (id : SymbolId) : UInt64 :=
  (((symbols.nameById id).bind symbols.lookup).map
    SymbolResolution.virtualAddress).getD 0

/-- The write of one addend; one that does not lie within the blob is skipped. -/
def addendPatch (symbols : SymbolTable) (size : Nat) (patch : Nat × SymbolId) :
    Option (Buffer.Patch UInt8) :=
  if patch.1 + 8 ≤ size then
    some ⟨patch.1, toAddend (resolverAddress symbols patch.2)⟩
  else none

/-- Fill the IRELATIVE addends of `.rela.plt` with the resolver addresses. -/
def patchIfuncPltRelocs (layout : Layout) (symbols : SymbolTable) : Layout :=
  { layout with
    dynBlobs := { layout.dynBlobs with
      relaPlt := Buffer.applyAll layout.dynBlobs.relaPlt
        (layout.ifuncPltPatches.filterMap
          (addendPatch symbols layout.dynBlobs.relaPlt.length)) } }

end Peony
