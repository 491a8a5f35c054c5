import Peony.Layout.Place

namespace Peony

/-! The sections of the file that are not loaded, the section headers and the
size of the file. -/

/-! ## The symbol table -/

structure SymtabPlan where
  entries : List SymEntry := []
  strtab : List UInt8 := [0]
  numLocals : Nat := 0
deriving DecidableEq, Repr

/-- Where the static TLS block begins: `.tdata` if there is one. -/
def tlsBaseVa (sections : List OutputSection) : Option UInt64 :=
  let rank (s : OutputSection) :=
    if s.kind = .tdata then 0 else if s.kind = .tbss then 1 else 2
  ((sortBy
    (fun a b => (compare (rank a) (rank b)).then
      (compare a.shAddr.toNat b.shAddr.toNat))
    (sections.filter fun s => s.shFlags &&& shfTls != 0)).head?).map
      OutputSection.shAddr

def saturatingSub (a b : UInt64) : UInt64 := if a < b then 0 else a - b

/-- Whether the section at a position of an object is a TLS section. The symbols
name sections by raw index. -/
def tlsAtPosition (objects : List InputObject) (objId pos : Nat) : Bool :=
  (objects[objId]? >>= fun obj => obj.sections[pos]?).any fun sec =>
    sec.flags &&& shfTls != 0

def tlsValue (base : Option UInt64) (secVa value : UInt64) : UInt64 :=
  saturatingSub secVa (base.getD secVa) + value

def SymtabPlan.push (plan : SymtabPlan) (name : Name) (shndx : UInt32)
    (info : UInt8) (known : Option (UInt64 × UInt64)) : SymtabPlan :=
  { plan with
    entries := plan.entries ++
      [⟨name, UInt32.ofNat plan.strtab.length, shndx, info, known⟩]
    strtab := pushString plan.strtab name }

def shndxOf (out : Nat) : UInt32 := UInt32.ofNat (out + 1)

namespace LayoutInput

variable (input : LayoutInput) (placed : Placement)

def addLocal (plan : SymtabPlan) (entry : Nat × InputSymbol) : SymtabPlan :=
  let (objId, sym) := entry
  if sym.binding != .local || sym.isUndefined || sym.isCommon ||
      sym.name.isEmpty then plan
  else
    match sym.sectionIndex with
    | none => plan
    | some si =>
        match placed.secToOut.lookup (objId, si),
            placed.addresses.lookup (objId, si) with
        | some out, some secVa =>
            let isTls := tlsAtPosition input.objects objId si
            plan.push sym.name (shndxOf out)
              (stInfo stbLocal (if isTls then sttTls else sym.stType))
              (some
                (if isTls then
                  tlsValue (tlsBaseVa placed.sections) secVa sym.value
                else secVa + sym.value, sym.size))
        | _, _ => plan

/-- The section number of a global symbol, when it is to be listed. -/
def globalShndx (res : SymbolResolution) : Option UInt32 :=
  match res.sectionIndex, res.definedIn with
  | none, _ => some shnAbs.toUInt32
  | some si, some objId =>
      (placed.secToOut.lookup (objId.toNat, si)).map shndxOf
  -- What has a section has the object of the section.
  | some _, none => none

def addGlobal (plan : SymtabPlan) (entry : Name × SymbolResolution) :
    SymtabPlan :=
  let (name, res) := entry
  match globalShndx placed res with
  | none => plan
  | some shndx =>
      let bind := if res.binding = .weak then stbWeak else stbGlobal
      match res.sectionIndex, res.definedIn with
      | some si, some objId =>
          if tlsAtPosition input.objects objId.toNat si then
            plan.push name shndx (stInfo bind sttTls)
              ((placed.addresses.lookup (objId.toNat, si)).map fun secVa =>
                (tlsValue (tlsBaseVa placed.sections) secVa res.value, res.size))
          else plan.push name shndx (stInfo bind res.stType) none
      | _, _ => plan.push name shndx (stInfo bind res.stType) none

def definedGlobals : List (Name × SymbolResolution) :=
  sortBy (fun a b => compare a.1 b.1)
    ((input.symbols.resolutions.entries.filter fun entry =>
      entry.2.isDefined).map fun entry => (entry.1, entry.2))

/-- `.symtab` and `.strtab`: the local symbols, then the defined global ones. -/
def buildSymtabPlan : SymtabPlan :=
  let locals := (input.objects.zipIdx.flatMap fun numbered =>
    numbered.1.symbols.map fun sym => (numbered.2, sym)).foldl
      (input.addLocal placed) {}
  input.definedGlobals.foldl (input.addGlobal placed)
    { locals with numLocals := locals.entries.length }

end LayoutInput

def shnReservedHi : UInt32 := 0x10000

/-- The table of section numbers that do not fit a symbol table entry. -/
def buildSymtabShndx (symtab : List SymEntry) : List UInt8 :=
  if symtab.any fun entry => shnReservedHi ≤ entry.shndx then
    le32 0 ++ symtab.flatMap fun entry =>
      le32 (if shnReservedHi ≤ entry.shndx then entry.shndx else 0)
  else []

/-! ## File-only sections -/

/-- The current file offset, the sections so far, and what they add to the
layout. -/
structure FileCursor where
  foff : UInt64
  sections : List OutputSection
  addresses : List (SectionKey × UInt64)
  emitRelocs : List (List UInt8) := []
deriving DecidableEq, Repr

def fileSection (name : Name) (shType : UInt32) (offset size : UInt64)
    (shInfo : UInt32) (align entsize : UInt64) (source : SecSource)
    (contributions : List SectionContribution) : OutputSection where
  name := name
  kind := .other
  shType := shType
  shFlags := 0
  shAddr := 0
  shOffset := offset
  shSize := size
  shLink := 0
  shInfo := shInfo
  shAddralign := align
  shEntsize := entsize
  shName := 0
  shndx := 0
  contributions := contributions
  source := source

namespace FileCursor

/-- Append a section of the given size at the offset rounded up. -/
def push (cursor : FileCursor) (align size : UInt64)
    (sectionAt : UInt64 → OutputSection) : FileCursor :=
  let offset := alignUp cursor.foff align
  { cursor with
    foff := offset + size
    sections := cursor.sections ++ [sectionAt offset] }

end FileCursor

def FileCursor.pushSymtab (cursor : FileCursor) (plan : SymtabPlan) :
    FileCursor :=
  let symtabSize := UInt64.ofNat (plan.entries.length + 1) * symSize
  let strtabSize := UInt64.ofNat plan.strtab.length
  let symtabOff := cursor.foff
  let strtabOff := symtabOff + symtabSize
  let written := { cursor with
    foff := strtabOff + strtabSize
    sections := cursor.sections ++
      [ fileSection (nameOf ".symtab") shtSymtab symtabOff symtabSize
          (UInt32.ofNat (plan.numLocals + 1)) 8 symSize .symTab [],
        fileSection (nameOf ".strtab") shtStrtab strtabOff strtabSize 0 1 0
          .strTab [] ] }
  let shndx := buildSymtabShndx plan.entries
  if shndx.isEmpty then written
  else
    written.push 4 (UInt64.ofNat shndx.length) fun offset =>
      fileSection (nameOf ".symtab_shndx") shtSymtabShndx offset
        (UInt64.ofNat shndx.length) 0 4 4 .symTabShndx []

namespace LayoutInput

variable (input : LayoutInput)

/-! ## Emitted relocations -/

def symtabIndex (plan : SymtabPlan) (name : Name) : UInt32 :=
  if name.isEmpty then 0
  else
    match plan.entries.findIdx? fun entry => entry.name == name with
    | some place => UInt32.ofNat (place + 1)
    | none => 0

def relaRecord (plan : SymtabPlan) (obj : InputObject) (offset : UInt64)
    (reloc : InputReloc) : List UInt8 :=
  let symIdx := ((obj.symbolByIndex reloc.symbol).map fun sym =>
    symtabIndex plan sym.name).getD 0
  toLeBytes (offset + reloc.offset) ++
    toLeBytes ((symIdx.toUInt64 <<< 32) ||| reloc.rType.toUInt64) ++
    toLeBytes reloc.addend.toUInt64

def contributionSection (c : SectionContribution) :
    Option (InputObject × InputSection) := do
  let obj ← input.objects[c.objectId]?
  let sec ← obj.sections[c.sectionPos]?
  return (obj, sec)

def relaBytes (plan : SymtabPlan) (target : OutputSection) : List UInt8 :=
  target.contributions.flatMap fun c =>
    match input.contributionSection c with
    | some (obj, sec) =>
        sec.relocs.flatMap (relaRecord plan obj c.offset)
    | none => []

def pushRela (plan : SymtabPlan) (cursor : FileCursor)
    (numbered : OutputSection × Nat) : FileCursor :=
  let (target, place) := numbered
  if target.source != .input || target.shFlags &&& shfAlloc == 0 then cursor
  else
    let rela := input.relaBytes plan target
    if rela.isEmpty then cursor
    else
      let size := UInt64.ofNat rela.length
      let pushed := cursor.push 8 size fun offset =>
        fileSection (nameOf ".rela" ++ target.name) shtRela offset size
          (UInt32.ofNat (place + 1)) 8 relaSize
          (.relaEmit cursor.emitRelocs.length) []
      { pushed with emitRelocs := pushed.emitRelocs ++ [rela] }

def pushRelas (plan : SymtabPlan) (cursor : FileCursor) : FileCursor :=
  cursor.sections.zipIdx.foldl (input.pushRela plan) cursor

/-! ## Sections that are passed through -/

def shouldPassthroughNonAlloc (stripDebug : Bool) (sec : InputSection) : Bool :=
  if sec.isAlloc || sec.data.len == 0 then false
  else if sec.name == nameOf ".rustc" || sec.name == nameOf ".comment" ||
      sec.name == nameOf ".gnu_debugaltlink" then true
  else if stripDebug then false
  else
    sec.kind == .debug || sec.name == nameOf ".debug" ||
      (nameOf ".debug_").isPrefixOf sec.name ||
      (nameOf ".zdebug_").isPrefixOf sec.name ||
      (nameOf ".gnu.debuglto_").isPrefixOf sec.name

/-- The names that are passed through, in the order of their first sections. -/
def passthroughNames : List Name :=
  pushNew []
    (((inputSections input.objects).filter fun member =>
      shouldPassthroughNonAlloc input.config.stripDebug member.sec).map
        fun member => member.sec.name)

/-- The contents of one such section so far. -/
structure Passthrough where
  contributions : List SectionContribution := []
  off : UInt64 := 0
  maxAlign : UInt64 := 1
deriving DecidableEq, Repr

def Passthrough.add (passed : Passthrough) (member : Contributor) :
    Passthrough :=
  let align := max member.sec.align 1
  let off := alignUp passed.off align
  let size := member.sec.data.len.toUInt64
  { contributions := passed.contributions ++ [{
      objectId := member.objId
      sectionIndex := member.sec.index
      sectionPos := member.pos
      offset := off
      size := size }]
    off := off + size
    maxAlign := max passed.maxAlign align }

/-- All sections of the name that have data. -/
def passthroughMembers (name : Name) : List Contributor :=
  (inputSections input.objects).filter fun member =>
    member.sec.name == name && member.sec.data.len != 0

def passthrough (name : Name) : Passthrough :=
  (input.passthroughMembers name).foldl Passthrough.add {}

def pushPassthrough (cursor : FileCursor) (name : Name) : FileCursor :=
  let passed := input.passthrough name
  if passed.contributions.isEmpty then cursor
  else
    let pushed := cursor.push passed.maxAlign passed.off fun offset =>
      fileSection (encodeUtf8 (fromUtf8Lossy name)) shtProgbits offset
        passed.off 0 passed.maxAlign 0 .input passed.contributions
    { pushed with
      addresses := passed.contributions.foldl
        (fun addresses c => (c.key, c.offset) :: addresses) pushed.addresses }

/-- The file-only sections in their order, `.shstrtab` last, without the links
between the headers. -/
def placeMeta (plan : SymtabPlan) (cursor : FileCursor) : FileCursor :=
  let symtabs :=
    if input.config.strip then cursor else cursor.pushSymtab plan
  let relas :=
    if input.config.emitRelocs && !input.config.strip then
      input.pushRelas plan symtabs
    else symtabs
  input.passthroughNames.foldl input.pushPassthrough relas

/-! ## Section headers -/

def shndxOfSource (sections : List OutputSection) (source : SecSource) : UInt32 :=
  match sections.findIdx? fun s => s.source == source with
  | some place => shndxOf place
  | none => 0

def linkStatic (sections : List OutputSection) (s : OutputSection) :
    OutputSection :=
  match s.source with
  | .symTab => { s with shLink := shndxOfSource sections .strTab }
  | .symTabShndx | .relaEmit _ =>
      { s with shLink := shndxOfSource sections .symTab }
  | _ => s

def linkDynamic (sections : List OutputSection) (verneedNum : UInt64)
    (s : OutputSection) : OutputSection :=
  match s.source with
  | .dynSym =>
      { s with shLink := shndxOfSource sections .dynStr, shInfo := 1 }
  | .hash | .gnuHash | .relaDyn | .relaPlt | .gnuVersion =>
      { s with shLink := shndxOfSource sections .dynSym }
  | .dynamic => { s with shLink := shndxOfSource sections .dynStr }
  | .gnuVersionR =>
      { s with
        shLink := shndxOfSource sections .dynStr
        shInfo := verneedNum.toUInt32 }
  | _ => s

def linkSections (pre : DynPrebuild) (sections : List OutputSection) :
    List OutputSection :=
  sections.zipIdx.map fun (s, place) =>
    let s := linkStatic sections { s with shndx := shndxOf place }
    if input.dynamic.isSome then
      linkDynamic sections pre.blobs.verneedNum s
    else s

def nameSections (shstrtab : List UInt8) :
    List OutputSection → List OutputSection × List UInt8
  | [] => ([], shstrtab)
  | s :: rest =>
      let named := nameSections (pushString shstrtab s.name) rest
      ({ s with shName := UInt32.ofNat shstrtab.length } :: named.1, named.2)

structure FileEnd where
  sections : List OutputSection
  addresses : List (SectionKey × UInt64)
  emitRelocs : List (List UInt8)
  shstrtab : List UInt8
  shoff : UInt64
  fileSize : UInt64
deriving DecidableEq, Repr

def finishFile (pre : DynPrebuild) (cursor : FileCursor) : FileEnd :=
  let shstrtabOff := alignUp cursor.foff 1
  let listed := cursor.sections ++
    [fileSection (nameOf ".shstrtab") shtStrtab shstrtabOff 0 0 1 0 .shStrTab []]
  let named := nameSections [0] (input.linkSections pre listed)
  let size := UInt64.ofNat named.2.length
  let sections := named.1.map fun s =>
    if s.source = .shStrTab then { s with shSize := size } else s
  let shoff := alignUp (shstrtabOff + size) 8
  { sections := sections
    addresses := cursor.addresses
    emitRelocs := cursor.emitRelocs
    shstrtab := named.2
    shoff := shoff
    fileSize := shoff + UInt64.ofNat (sections.length + 1) * shdrSize }

/-- The sections that follow what is loaded. -/
def layOutMeta (plan : SymtabPlan) (placement : Placement)
    (fileContentEnd : UInt64) : FileCursor :=
  input.placeMeta plan {
    foff := alignUp fileContentEnd 8
    sections := placement.sections
    addresses := placement.addresses }

end LayoutInput

end Peony
