import Peony.Driver.Inputs
import Peony.Driver.Provided
import Peony.Gc.Kept
import Peony.Layout.Compute
import Peony.Reloc.Dynamic

namespace Peony

/-! What the driver does between resolution and emission: the scan, the demands of
the dynamic sections, the layout, and the addresses and dynamic relocations that
follow from it. -/

/-! ## A link -/

/-- What a link is computed from once its inputs are resolved. `args` are the
arguments with what the linker scripts say. -/
structure Link where
  args : Args
  baseAddress : UInt64
  script : ScriptLayout := ScriptLayout.empty
  versionScript : Option VersionScript := none
  arena : InputArena
  objects : List InputObject
  symbols : SymbolTable
  needed : List Name := []
  live : SectionFilter := .all
  foldMap : Option (AList fun _ : SectionKey => SectionKey) := none

namespace Link

variable (link : Link)

def etDyn : Bool := link.args.pie || link.args.shared

/-! ## The scan -/

def numbered : SymbolTable := assignWeakGotIds link.objects link.symbols

def scan : RelocScanResult :=
  scanRelocations link.objects link.numbered link.args.shared

def gotSyms : List SymbolId := link.scan.gotSymbols

def pltSyms : List SymbolId := link.scan.pltSymbols

def tlsGot : TlsGotInfo := link.scan.tlsGot

def copyRelocs : List SymbolId :=
  if link.args.shared then [] else copyRelocSymbols link.objects link.numbered

/-- The table once copied imports are marked. -/
def copied : SymbolTable :=
  (link.copyRelocs.filterMap link.numbered.nameById).foldl
    SymbolTable.markCopyReloc link.numbered

/-! ## Imports and demands -/

def imports : List Name :=
  sortBy compare ((link.copied.resolutions.entries.filter fun entry =>
    entry.2.isImport).map fun entry => entry.1)

def importVersions : List (Option Name) :=
  link.imports.map fun name =>
    (link.copied.lookup name).bind SymbolResolution.version

def importSonames : List (Option Name) :=
  link.imports.map fun name =>
    ((link.copied.lookup name).bind SymbolResolution.soname).map nameOf

/-- The table once the imports know their indices in `.dynsym`. -/
def indexed : SymbolTable :=
  link.imports.zipIdx.foldl
    (fun symbols entry => symbols.modify entry.1 fun res =>
      { res with dynsymIndex := UInt32.ofNat (entry.2 + 1) })
    link.copied

def dynamicCounts : DynamicRelocCounts :=
  if link.etDyn || link.args.shared then
    countDynamicRelocs link.objects link.indexed link.gotSyms link.tlsGot
      link.args.shared
  else if !link.imports.isEmpty then
    { tls := countTlsRelocs link.indexed link.tlsGot link.args.shared }
  else {}

def exports : List ExportSym := exportsOf link.args link.versionScript link.indexed

def soname : Option Name :=
  if link.args.shared then
    some (match link.args.soname with
      | some soname => encodeUtf8 soname
      | none =>
          let name := fileName link.args.output
          if name.isEmpty then nameOf "a.out" else encodeUtf8 (fromUtf8Lossy name))
  else none

def rpath : Option Name :=
  if link.args.rpaths.isEmpty then none
  else some (encodeUtf8 ((link.args.rpaths.intersperse [':']).flatten))

def interp : Option (List UInt8) :=
  link.args.dynamicLinker.map fun path =>
    let bytes := encodeUtf8 path
    if bytes.getLast? = some 0 then bytes else bytes ++ [0]

def dynamicNeeded : Bool :=
  !link.imports.isEmpty || !link.needed.isEmpty || link.etDyn ||
    link.args.exportRequested || link.rpath.isSome || link.interp.isSome

def dynamicInfo : DynamicInfo where
  imports := link.imports
  importVersions := link.importVersions
  importSonames := link.importSonames
  needed := link.needed
  interp := link.interp
  rpath := link.rpath
  enableNewDtags := link.args.enableNewDtags
  hashStyle := link.args.hashStyle
  pie := link.args.pie
  nRelative := link.dynamicCounts.relativeTotal
  nIrelative := link.dynamicCounts.irelative
  shared := link.args.shared
  soname := link.soname
  exports := link.exports
  nTlsReloc := link.dynamicCounts.tls
  copyRelocs := link.copyRelocs
  nSymbolicData := link.dynamicCounts.symbolicData

def dynamic : Option DynamicInfo :=
  if link.dynamicNeeded then some link.dynamicInfo else none

/-! ## The layout -/

def predefined : SymbolTable := (predefineLinkerSymbols link.indexed).1

def provided : List ProvidedSymbol := (predefineLinkerSymbols link.indexed).2

/-- The table that is laid out, unless a definition on the command line is
invalid. -/
def defined : Option SymbolTable := applyDefsym link.predefined link.args.defsym

def config : LayoutConfig where
  baseAddress := link.baseAddress
  entrySymbol := encodeUtf8 link.args.entry
  buildId := link.args.buildId
  strip := link.args.stripAll
  stripDebug := link.args.stripDebug || link.args.stripAll
  pie := link.args.pie
  shared := link.args.shared
  emitRelocs := link.args.emitRelocs && !link.args.stripAll
  script := if link.script.outputSections.isEmpty then none else some link.script

def layoutInput (symbols : SymbolTable) : LayoutInput where
  arena := link.arena
  objects := link.objects
  symbols := symbols
  gotSyms := link.gotSyms
  pltSyms := link.pltSyms
  live := link.live
  dynamic := link.dynamic
  config := link.config
  tls := link.tlsGot
  foldMap := link.foldMap

end Link

/-! ## Dynamic relocations -/

namespace Layout

def relaDynSectionSize (layout : Layout) : UInt64 :=
  ((layout.outputSections.find? fun s => s.source == .relaDyn).map
    OutputSection.shSize).getD 0

/-- Rewrite the first section that satisfies a condition. -/
def mapFirst (chosen : OutputSection → Bool) (change : OutputSection → OutputSection) :
    List OutputSection → List OutputSection
  | [] => []
  | s :: rest => if chosen s then change s :: rest else s :: mapFirst chosen change rest

def setRelaDynSize (layout : Layout) (size : UInt64) : Layout :=
  { layout with
    outputSections :=
      mapFirst (fun s => s.source == .relaDyn) (fun s => { s with shSize := size })
        layout.outputSections }

/-- Write the value of the first entry with a tag, up to the entry that ends the
table. -/
def patchTag (tag : UInt64) (value : UInt64) : Nat → List UInt8 → List UInt8
  | 0, bytes => bytes
  | fuel + 1, bytes =>
      if bytes.length < 16 then bytes
      else if bytes.take 8 = toLeBytes tag then
        bytes.take 8 ++ toLeBytes value ++ bytes.drop 16
      else if bytes.take 8 = toLeBytes 0 then bytes
      else bytes.take 16 ++ patchTag tag value fuel (bytes.drop 16)

def patchDtTag (layout : Layout) (tag value : UInt64) : Layout :=
  { layout with
    dynBlobs := { layout.dynBlobs with
      dynamic := patchTag tag value layout.dynBlobs.dynamic.length
        layout.dynBlobs.dynamic } }

def rX8664Relative : UInt32 := 8

def rX866464 : UInt32 := 1

def relaDynEntry (site : UInt64) (index rType : UInt32) (addend : UInt64) :
    List UInt8 :=
  toLeBytes site ++ toLeBytes ((index.toUInt64 <<< 32) ||| rType.toUInt64) ++
    toLeBytes addend

/-- How many of the entries fit before the suffix. -/
def takeFitting (room used : Nat) (entries : List (List UInt8)) : List (List UInt8) :=
  entries.take ((room - used) / 24)

/-- What is put together behind one another, each class as far as it fits. -/
structure RelaDyn where
  relative : List (List UInt8)
  irelative : List (List UInt8)
  tls : List (List UInt8)
  symbolic : List (List UInt8)
deriving DecidableEq

namespace RelaDyn

def entries (table : RelaDyn) : List (List UInt8) :=
  table.relative ++ table.irelative ++ table.tls ++ table.symbolic

end RelaDyn

/-- All collected entries, none of which is dropped. -/
def wantedRelaDyn (relocs : DynamicRelocs) (tls : List TlsDynReloc) : RelaDyn where
  relative := relocs.relative.map fun entry =>
    relaDynEntry entry.1 0 rX8664Relative entry.2
  irelative := relocs.irelative.map fun entry =>
    relaDynEntry entry.1 0 rX8664Irelative entry.2
  tls := tls.map fun reloc =>
    relaDynEntry reloc.site reloc.dynsymIndex reloc.rType reloc.addend.toUInt64
  symbolic := relocs.symbolic.map fun entry =>
    relaDynEntry entry.1 entry.2.1 rX866464 entry.2.2.toUInt64

def writtenRelaDyn (room : Nat) (wanted : RelaDyn) : RelaDyn :=
  let relative := takeFitting room 0 wanted.relative
  let irelative := takeFitting room (24 * relative.length) wanted.irelative
  let tls := takeFitting room (24 * (relative.length + irelative.length)) wanted.tls
  let symbolic := takeFitting room
    (24 * (relative.length + irelative.length + tls.length)) wanted.symbolic
  ⟨relative, irelative, tls, symbolic⟩

/-- Put `.rela.dyn` together. The imports and the copies come last and always have
their place. -/
def appendAllDynamicRelocs (layout : Layout) (relocs : DynamicRelocs)
    (tls : List TlsDynReloc) : Layout :=
  let suffix := layout.dynBlobs.relaGlobDat ++ layout.dynBlobs.relaCopy
  let written := writtenRelaDyn
    (layout.relaDynSectionSize - UInt64.ofNat suffix.length).toNat
    (wantedRelaDyn relocs tls)
  let bytes := written.entries.flatten ++ suffix
  let size := UInt64.ofNat bytes.length
  let blobs := { layout.dynBlobs with
    relaGlobDat := [], relaCopy := [], relaDyn := bytes }
  let counted := { layout with dynBlobs := blobs }.patchDtTag 0x6ffffff9
    (UInt64.ofNat written.relative.length)
  (counted.patchDtTag 8 size).setRelaDynSize size

end Layout

/-! ## After the layout -/

inductive LinkError where
  | defsym
  | layout (error : LayoutError)
  /-- A strong reference that nothing defines. -/
  | undefined
  | required (names : List Text)
deriving DecidableEq

structure Linked where
  symbols : SymbolTable
  layout : Layout

/-- Whether no strong reference is left undefined. -/
def allDefined (symbols : SymbolTable) : Bool :=
  symbols.resolutions.entries.all fun entry =>
    entry.1 == Scan.tlsGetAddr || entry.2.isDefined || entry.2.binding == .weak

def missingRequired (symbols : SymbolTable) (required : List Text) : List Text :=
  required.filter fun name =>
    !(symbols.lookup (encodeUtf8 name)).any SymbolResolution.isDefined

namespace Link

variable (link : Link)

def finalized (symbols : SymbolTable) (layout : Layout) : SymbolTable :=
  finalizeSymbols (setLinkerAddresses symbols layout link.provided) layout

def collected (symbols : SymbolTable) (layout : Layout) : DynamicRelocs :=
  if link.etDyn then collectDataAndSymbolicRelocs link.objects symbols layout else {}

def tlsContents (symbols : SymbolTable) (layout : Layout) : TlsGotContents :=
  collectTlsGot link.objects symbols layout link.tlsGot link.args.shared

def withDynamicRelocs (symbols : SymbolTable) (layout : Layout) : Layout :=
  if link.dynamic.isSome then
    let contents := link.tlsContents symbols layout
    { layout with tlsGotWrites := contents.staticWrites }.appendAllDynamicRelocs
      (link.collected symbols layout) contents.relocs
  else layout

def checked (linked : Linked) : Except LinkError Linked :=
  if (!link.args.shared || link.args.noUndefined) && !allDefined linked.symbols then
    .error .undefined
  else
    match missingRequired linked.symbols link.args.requireDefined with
    | [] => .ok linked
    | names => .error (.required names)

theorem eq_of_checked {linked checked : Linked} (isOk : link.checked linked = .ok checked) :
    checked = linked := by
  rw [Link.checked] at isOk
  split at isOk
  · cases isOk
  · split at isOk
    · cases isOk
      rfl
    · cases isOk

/-- The link up to its emission, with a layout that is computed anew. -/
def run : Except LinkError Linked :=
  match link.defined with
  | none => .error .defsym
  | some table =>
      match (link.layoutInput table).computeLayoutIcf with
      | .error error => .error (.layout error)
      | .ok layout =>
          let symbols := link.finalized table layout
          link.checked
            ⟨symbols, link.withDynamicRelocs symbols (patchIfuncPltRelocs layout symbols)⟩

def reuse (cached : Layout) : Except LinkError Linked :=
  match link.defined with
  | none => .error .defsym
  | some table =>
      let symbols := link.finalized table cached
      link.checked ⟨symbols, patchIfuncPltRelocs cached symbols⟩

end Link

end Peony
