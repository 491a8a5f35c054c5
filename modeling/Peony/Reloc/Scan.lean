import Peony.Layout.Config
import Peony.Reloc.Types
import Peony.Symbols.Updates

namespace Peony

/-! The scan of the relocations before the layout: which slots they require, and
which imported data needs a copy. -/

/-! ## Ids of weak references -/

/-- Whether a GOT reference to a weak symbol needs an id for its slot. -/
def isWeakUndef (symbols : SymbolTable) (name : Name) : Bool :=
  (symbols.lookup name).any fun res => !res.isDefined && !res.isImport

def assignWeakGotId (obj : InputObject) (symbols : SymbolTable) (reloc : InputReloc) :
    SymbolTable :=
  if needsGot reloc.rType then
    match obj.symbolByIndex reloc.symbol with
    | some sym =>
        if sym.binding = .weak ∧ isWeakUndef symbols sym.name then
          symbols.ensureId sym.name
        else symbols
    | none => symbols
  else symbols

def assignWeakGotIds (objects : List InputObject) (symbols : SymbolTable) :
    SymbolTable :=
  objects.foldl
    (fun symbols obj =>
      (obj.sections.flatMap InputSection.relocs).foldl (assignWeakGotId obj) symbols)
    symbols

/-! ## Slots -/

namespace Scan

variable (symbols : SymbolTable) (shared : Bool)

/-- The key of a thread-local reference. Locals are keyed by their object. -/
def tlsRef (objId symPos : Nat) (sym : InputSymbol) : TlsRef :=
  if sym.binding = .local then .local objId symPos
  else
    match symbols.lookup sym.name with
    | some res => .global res.id
    | none => .local objId symPos

/-- Whether an access that an executable relaxes still needs a slot, since a
library defines the symbol. -/
def relaxesToInitialExec (reloc : InputReloc) (sym : InputSymbol) : Bool :=
  !shared &&
    (reloc.rType == RelocType.tlsgd.code ||
      reloc.rType == RelocType.gotpc32Tlsdesc.code) &&
    sym.binding != .local &&
    (symbols.lookup sym.name).any SymbolResolution.isImport

def tlsGetAddr : Name := nameOf "__tls_get_addr"

/-- The slot of a reference that is not a thread-local one. -/
def plainSlot (reloc : InputReloc) (sym : InputSymbol) : Option SyntheticSlot := do
  let res ← symbols.lookup sym.name
  if needsGot reloc.rType &&
      (res.isDefined || res.isImport || res.binding == .weak) then
    some (.got res.id)
  else if reloc.rType = RelocType.plt32.code then
    let importPlt := res.isImport && (shared || sym.name != tlsGetAddr)
    let ifuncPlt := res.isIfunc && res.isDefined && !res.isImport
    if importPlt || ifuncPlt then some (.plt res.id) else none
  else none

def symSlot (objId symPos : Nat) (reloc : InputReloc) (sym : InputSymbol) :
    Option SyntheticSlot :=
  if reloc.rType = RelocType.gottpoff.code then
    some (.tlsIe (tlsRef symbols objId symPos sym))
  else if relaxesToInitialExec symbols shared reloc sym then
    some (.tlsIe (tlsRef symbols objId symPos sym))
  else if shared && reloc.rType == RelocType.tlsgd.code then
    some (.tlsGd (tlsRef symbols objId symPos sym))
  else if shared && reloc.rType == RelocType.tlsld.code then some .tlsLdm
  else if shared && reloc.rType == RelocType.gotpc32Tlsdesc.code then
    some (.tlsDesc (tlsRef symbols objId symPos sym))
  else plainSlot symbols shared reloc sym

def relocSlot (objId : Nat) (obj : InputObject) (reloc : InputReloc) :
    Option SyntheticSlot := do
  let symPos ← obj.symbolPos reloc.symbol
  let sym ← obj.symbols[symPos]?
  symSlot symbols shared objId symPos reloc sym

def scanObject (objId : Nat) (obj : InputObject) : List SyntheticSlot :=
  (obj.sections.flatMap InputSection.relocs).filterMap
    (relocSlot symbols shared objId obj)

end Scan

def scanRelocations (objects : List InputObject) (symbols : SymbolTable)
    (shared : Bool) : RelocScanResult :=
  (objects.zipIdx.flatMap fun obj =>
    Scan.scanObject symbols shared obj.2 obj.1).foldl RelocScanResult.add {}

/-- The slots that thread-local references need in `.got`. -/
def RelocScanResult.tlsGot (scan : RelocScanResult) : TlsGotInfo where
  gd := scan.tlsGdRefs
  ie := scan.tlsIeRefs
  desc := scan.tlsDescRefs
  ldm := scan.needsTlsLdm

/-! ## Copies -/

namespace Copy

/-- Vtables, their tables and the names of types keep one address. -/
def keepsIdentity (name : Name) : Bool :=
  (nameOf "_ZTV").isPrefixOf name || (nameOf "_ZTT").isPrefixOf name ||
    (nameOf "_ZTS").isPrefixOf name

/-- Whether an import can be copied into the executable. -/
def isCopyable (res : SymbolResolution) : Bool :=
  res.isImport &&
    !(res.visibility == stvHidden || res.visibility == stvProtected) &&
    !(res.stType == sttFunc || res.stType == sttGnuIfunc || res.stType == sttTls) &&
    !(res.size == 0 && res.stType != sttObject)

/-- Only sections that the loader cannot relocate need copies. -/
def isReadOnly (sec : InputSection) : Bool :=
  sec.flags &&& shfAlloc != 0 && sec.flags &&& shfWrite == 0

def relocCopy (symbols : SymbolTable) (obj : InputObject) (reloc : InputReloc) :
    Option (SymbolId × Name) :=
  if mayNeedCopyReloc reloc.rType then do
    let sym ← obj.symbolByIndex reloc.symbol
    if sym.binding = .local ∨ keepsIdentity sym.name then none
    else
      let res ← symbols.lookup sym.name
      if isCopyable res then some (res.id, sym.name) else none
  else none

def collectObject (symbols : SymbolTable) (obj : InputObject) :
    List (SymbolId × Name) :=
  ((obj.sections.filter isReadOnly).flatMap InputSection.relocs).filterMap
    (relocCopy symbols obj)

def firstNames (found : List (SymbolId × Name)) : List (SymbolId × Name) :=
  found.foldl
    (fun names entry =>
      if (names.lookup entry.1).isSome then names else names ++ [entry]) []

end Copy

/-- The imports that are copied, by name. -/
def copyRelocSymbols (objects : List InputObject) (symbols : SymbolTable) :
    List SymbolId :=
  (sortBy (fun first second => compare first.2 second.2)
    (Copy.firstNames (objects.flatMap (Copy.collectObject symbols)))).map Prod.fst

end Peony
