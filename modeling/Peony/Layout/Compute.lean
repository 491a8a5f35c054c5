import Peony.Layout.Finalize

namespace Peony

/-! The program headers, and the layout as a whole. -/

/-! ## Program headers -/

def ptLoad : UInt32 := 1

def ptDynamic : UInt32 := 2

def ptInterp : UInt32 := 3

def ptNote : UInt32 := 4

def ptPhdr : UInt32 := 6

def ptTls : UInt32 := 7

def ptGnuEhFrame : UInt32 := 0x6474e550

def ptGnuStack : UInt32 := 0x6474e551

def ptGnuRelro : UInt32 := 0x6474e552

def ptGnuProperty : UInt32 := 0x6474e553

def pfX : UInt32 := 1

def pfW : UInt32 := 2

def pfR : UInt32 := 4

def segment (pType pFlags : UInt32) (offset vaddr filesz memsz align : UInt64) :
    ProgramHeader where
  pType := pType
  pFlags := pFlags
  pOffset := offset
  pVaddr := vaddr
  pPaddr := vaddr
  pFilesz := filesz
  pMemsz := memsz
  pAlign := align

def sectionSegment (pType pFlags : UInt32) (align : UInt64)
    (s : OutputSection) : ProgramHeader :=
  segment pType pFlags s.shOffset s.shAddr s.shSize s.shSize align

def loadSegments (base page : UInt64) (placed : Placed) : List ProgramHeader :=
  [segment ptLoad pfR 0 base (placed.roEnd - base) (placed.roEnd - base) page] ++
    (match placed.rx with
      | some (first, last) =>
          [segment ptLoad (pfR ||| pfX) (first - base) first (last - first)
            (last - first) page]
      | none => []) ++
    (match placed.rw with
      | some (first, fileEnd, memEnd) =>
          [segment ptLoad (pfR ||| pfW) (first - base) first (fileEnd - first)
            (memEnd - first) page]
      | none => [])

/-- The run of adjacent read-only sections so far: its start, its end and the
file offset of its start. -/
def extendRelro : Option (UInt64 × UInt64 × UInt64) → List OutputSection →
    Option (UInt64 × UInt64 × UInt64)
  | span, [] => span
  | none, s :: rest =>
      if isRelro s.name then
        extendRelro (some (s.shAddr, s.shAddr + s.shSize, s.shOffset)) rest
      else extendRelro none rest
  | some (lo, hi, off), s :: rest =>
      if isRelro s.name && hi == s.shAddr then
        extendRelro (some (lo, s.shAddr + s.shSize, off)) rest
      else some (lo, hi, off)

def relroSpan (sections : List OutputSection) :
    Option (UInt64 × UInt64 × UInt64) :=
  extendRelro none
    (sortBy (fun a b => compare a.shAddr.toNat b.shAddr.toNat)
      (sections.filter fun s =>
        s.shFlags &&& shfAlloc != 0 && s.shFlags &&& shfWrite != 0))

def relroSegment (sections : List OutputSection) : ProgramHeader :=
  match relroSpan sections with
  | some (lo, hi, off) =>
      segment ptGnuRelro pfR off lo (hi - lo) (hi - lo) 1
  | none => segment ptGnuRelro pfR 0 0 0 0 1

def tlsSegment (block : TlsBlock) : ProgramHeader :=
  let first := block.first.getD (0, 0)
  segment ptTls pfR first.2 first.1 block.filesz block.size block.align

def ofSource (sections : List OutputSection) (source : SecSource) :
    Option OutputSection :=
  sections.find? fun s => s.source == source

namespace LayoutInput

variable (input : LayoutInput)

/-- All program headers. The interpreter comes in front of the build id, and both
right behind the table of the headers itself. -/
def segments (phnum : UInt64) (hasGnuProperty : Bool) (placed : Placed)
    (sections : List OutputSection) (block : TlsBlock) : List ProgramHeader :=
  let some? (found : Option OutputSection) (make : OutputSection → ProgramHeader) :=
    (found.map make).toList
  let dynamic := input.dynamic.isSome
  [segment ptPhdr pfR ehdrSize (input.base + ehdrSize) (phnum * phdrSize)
    (phnum * phdrSize) 8] ++
    (if dynamic then
      some? (ofSource sections .interp) (sectionSegment ptInterp pfR 1)
    else []) ++
    (if input.config.buildId then
      some? (ofSource sections .noteBuildId) (sectionSegment ptNote pfR 4)
    else []) ++
    loadSegments input.base input.page placed ++
    (if hasGnuProperty then
      some? (sections.find? fun s => s.name == propertyName) fun s =>
        sectionSegment ptGnuProperty pfR (max s.shAddralign 1) s
    else []) ++
    (if dynamic then
      some? (ofSource sections .dynamic)
        (sectionSegment ptDynamic (pfR ||| pfW) 8)
    else []) ++
    (if block.size > 0 then [tlsSegment block] else []) ++
    some? (ofSource sections .ehFrameHdr) (sectionSegment ptGnuEhFrame pfR 4) ++
    (if dynamic then [relroSegment sections] else []) ++
    [segment ptGnuStack (pfR ||| pfW) 0 0 0 0 0]

end LayoutInput

/-! ## The ends of the image -/

/-- The addresses that linker-defined symbols take. -/
structure ImageEnds where
  imageEnd : UInt64
  edata : UInt64
  bssLo : Option UInt64 := none
deriving DecidableEq, Repr

def ImageEnds.add (ends : ImageEnds) (s : OutputSection) : ImageEnds :=
  if s.shFlags &&& shfAlloc == 0 then ends
  else
    let sEnd := s.shAddr + s.shSize
    { imageEnd := max ends.imageEnd sEnd
      edata := if s.shType = shtNobits then ends.edata else max ends.edata sEnd
      bssLo :=
        if s.shType = shtNobits then
          some (match ends.bssLo with
            | some lo => min lo s.shAddr
            | none => s.shAddr)
        else ends.bssLo }

def imageEnds (base : UInt64) (sections : List OutputSection) : ImageEnds :=
  sections.foldl ImageEnds.add { imageEnd := base, edata := base }

/-! ## The layout -/

namespace LayoutInput

variable (input : LayoutInput)

def etExec : UInt16 := 2

def etDyn : UInt16 := 3

def shstrndx (sections : List OutputSection) : UInt64 :=
  (shndxOfSource sections .shStrTab).toUInt64

/-- What is placed, with the places of the folded sections. -/
def placement (ordered : Builders) : Placement :=
  input.aliasFolds (input.placeAll ordered).placement

def symtabPlan (ordered : Builders) : SymtabPlan :=
  if input.config.strip then { strtab := [] }
  else input.buildSymtabPlan (input.placement ordered)

def fileCursor (ordered : Builders) : FileCursor :=
  input.layOutMeta (input.symtabPlan ordered) (input.placement ordered)
    ((input.placeAll ordered).fileContentEnd input.base)

def fileEnd (pre : DynPrebuild) (ordered : Builders) : FileEnd :=
  input.finishFile pre (input.fileCursor ordered)

/-- The layout, given what is placed and the entry point. -/
def assemble (pre : DynPrebuild) (ordered : Builders) (entry : UInt64) : Layout :=
  let placed := input.placeAll ordered
  let placement := input.placement ordered
  let plan := input.symtabPlan ordered
  let file := input.fileEnd pre ordered
  let gotBase := vaOf file.sections .got
  let tlsGot := layOutTlsGot input.tls (gotBase + input.scalarGotBytes)
  let block := tlsBlock file.sections
  let copies := rebase (commonBase file.sections) input.copySpace.offsets
  let ends := imageEnds input.base file.sections
  let phnum := input.phnum ordered
  { outputSections := file.sections
    addresses := file.addresses
    segments := input.segments phnum
      (ordered.ro.any fun b => b.name == propertyName) placed file.sections block
    entry := entry
    eType := if input.config.pie || input.config.shared then etDyn else etExec
    phoff := ehdrSize
    phnum := phnum
    shoff := file.shoff
    shnum := UInt64.ofNat (file.sections.length + 1)
    shstrndx := shstrndx file.sections
    fileSize := file.fileSize.toNat
    gotSlots := input.gotSyms
    gotBase := gotBase
    strtab := plan.strtab
    shstrtab := file.shstrtab
    symtab := plan.entries
    symtabShndx := buildSymtabShndx plan.entries
    imageBase := input.base
    bssStart := ends.bssLo.getD ends.edata
    edata := ends.edata
    imageEnd := ends.imageEnd
    common := rebase (commonBase file.sections) input.commonSpace.offsets
    copyRelocs := copies
    dynBlobs := input.finishBlobs pre placement file gotBase copies
    pltSlots := input.pltSyms
    pltBase := if input.dynamic.isSome then vaOf file.sections .plt else 0
    ifuncPltPatches :=
      if input.dynamic.isSome then input.ifuncPltPatches else []
    tlsSize := block.size
    tlsOffsets := block.offsets
    tlsGdAddr := tlsGot.gd
    tlsIeAddr := tlsGot.ie
    tlsDescAddr := tlsGot.desc
    tlsLdmAddr := tlsGot.ldm
    shared := input.config.shared
    emitRelocs := file.emitRelocs
    gnuPropertyNote := input.gnuPropertyNote }

def computeLayoutIcf : Except LayoutError Layout := do
  let pre ← input.prebuildDynamic
  let grouped ← input.groupInputs
  let ordered := input.orderedBuilders pre grouped
  let entry ← input.entryAddress (input.fileCursor ordered).addresses
  let layout := input.assemble pre ordered entry
  if UInt64.ofNat layout.segments.length = layout.phnum then return layout
  else
    throw (.phdrCountMismatch layout.phnum
      (UInt64.ofNat layout.segments.length))

end LayoutInput

/-! ## A layout that is computed -/

namespace LayoutInput

/-- The output sections in the order of their permissions. -/
def ordered (input : LayoutInput) (pre : DynPrebuild) : Builders :=
  input.orderedBuilders pre input.groups

variable {input : LayoutInput}

theorem exists_layout {input : LayoutInput}
    (isOk : input.computeLayoutIcf.isOk = true) :
    ∃ layout, input.computeLayoutIcf = .ok layout := by
  cases computed : input.computeLayoutIcf with
  | ok layout => exact ⟨layout, rfl⟩
  | error failure =>
      rw [computed] at isOk
      exact nomatch isOk

structure Computed (input : LayoutInput) (layout : Layout) where
  pre : DynPrebuild
  entry : UInt64
  prebuilt : input.prebuildDynamic = .ok pre
  aligned : ∀ member ∈ input.contributors, member.align.toNat.isPowerOfTwo
  entered : input.entryAddress
    (input.fileCursor (input.ordered pre)).addresses = .ok entry
  counted : UInt64.ofNat layout.segments.length = layout.phnum
  assembled : layout = input.assemble pre (input.ordered pre) entry

theorem computed_of_ok {layout : Layout}
    (succeeded : input.computeLayoutIcf = .ok layout) :
    Nonempty (Computed input layout) := by
  unfold computeLayoutIcf at succeeded
  cases prebuilt : input.prebuildDynamic with
  | error failure => rw [prebuilt] at succeeded; exact nomatch succeeded
  | ok pre =>
      rw [prebuilt] at succeeded
      cases grouped : input.groupInputs with
      | error failure => rw [grouped] at succeeded; exact nomatch succeeded
      | ok builders =>
          rw [grouped] at succeeded
          rcases groupInputs_eq_ok.mp grouped with ⟨aligned, rfl⟩
          change (input.entryAddress
            (input.fileCursor (input.ordered pre)).addresses >>=
              fun entry => _) = _ at succeeded
          cases entered : input.entryAddress
              (input.fileCursor (input.ordered pre)).addresses with
          | error failure =>
              rw [entered] at succeeded
              exact nomatch succeeded
          | ok entry =>
              rw [entered] at succeeded
              change (if _ then Except.ok _ else Except.error _) = _ at succeeded
              split at succeeded
              · rename_i counted
                rw [Except.ok.injEq] at succeeded
                subst succeeded
                exact ⟨⟨pre, entry, prebuilt, aligned, entered, counted, rfl⟩⟩
              · exact nomatch succeeded

end LayoutInput

end Peony
