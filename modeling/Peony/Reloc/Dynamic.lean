import Peony.Reloc.Scan

namespace Peony

/-! The entries of `.rela.dyn`: how many are reserved before the layout, and which
are collected after it. -/

/-! ## Counting -/

/-- How many entries of each class a link reserves. -/
structure DynamicRelocCounts where
  relativeTotal : Nat := 0
  irelative : Nat := 0
  symbolicData : Nat := 0
  tls : Nat := 0
deriving DecidableEq, Repr

namespace DynamicRelocCounts

def add (first second : DynamicRelocCounts) : DynamicRelocCounts where
  relativeTotal := first.relativeTotal + second.relativeTotal
  irelative := first.irelative + second.irelative
  symbolicData := first.symbolicData + second.symbolicData
  tls := first.tls + second.tls

instance : Add DynamicRelocCounts := ⟨add⟩

end DynamicRelocCounts

/-- What an absolute 64-bit reference to a symbol is counted as. -/
def countSym (symbols : SymbolTable) (sym : InputSymbol) : DynamicRelocCounts :=
  if sym.binding = .local then
    if sym.sectionIndex.isSome then
      { relativeTotal := 1, irelative := if sym.isIfunc then 1 else 0 }
    else {}
  else
    match symbols.lookup sym.name with
    | none => {}
    | some res =>
        if res.isImport && !res.copyReloc then { symbolicData := 1 }
        else if res.isDefined then
          { relativeTotal := 1
            irelative := if !res.isImport && res.isIfunc then 1 else 0 }
        else {}

def countReloc (symbols : SymbolTable) (obj : InputObject) (reloc : InputReloc) :
    DynamicRelocCounts :=
  if reloc.rType ≠ RelocType.r64.code then {}
  else
    match obj.symbolByIndex reloc.symbol with
    | some sym => countSym symbols sym
    | none => {}

def countObject (symbols : SymbolTable) (obj : InputObject) : DynamicRelocCounts :=
  ((obj.sections.filter InputSection.isAlloc).flatMap InputSection.relocs).foldl
    (fun counts reloc => counts + countReloc symbols obj reloc) {}

def SymbolTable.byId (symbols : SymbolTable) (id : SymbolId) :
    Option SymbolResolution :=
  (symbols.nameById id).bind symbols.lookup

/-- A GOT slot that holds an address of the image. -/
def countSlot (symbols : SymbolTable) (id : SymbolId) : DynamicRelocCounts :=
  match symbols.byId id with
  | none => {}
  | some res =>
      if (!res.isImport || res.copyReloc) && res.isDefined then
        { relativeTotal := 1
          irelative := if !res.isImport && res.isIfunc then 1 else 0 }
      else {}

def countsImported (symbols : SymbolTable) : TlsRef → Bool
  | .local _ _ => false
  | .global id => ((symbols.byId id).map fun res => res.definedIn.isNone).getD true

def countTlsRelocs (symbols : SymbolTable) (tls : TlsGotInfo) (shared : Bool) : Nat :=
  if !shared then tls.ie.length
  else
    (tls.gd.map fun ref => if countsImported symbols ref then 2 else 1).sum +
      tls.desc.length + tls.ie.length + (if tls.ldm then 1 else 0)

def countDynamicRelocs (objects : List InputObject) (symbols : SymbolTable)
    (gotSyms : List SymbolId) (tls : TlsGotInfo) (shared : Bool) :
    DynamicRelocCounts :=
  let inputs := objects.foldl
    (fun counts obj => counts + countObject symbols obj) {}
  let counts := gotSyms.foldl (fun counts id => counts + countSlot symbols id) inputs
  { counts with tls := countTlsRelocs symbols tls shared }

/-! ## Collecting -/

inductive DynamicSite where
  | relative (site value : UInt64)
  | irelative (site resolver : UInt64)
  | symbolic (site : UInt64) (dynsymIndex : UInt32) (addend : Int64)
deriving DecidableEq

namespace DynamicSite

def relative? : DynamicSite → Option (UInt64 × UInt64)
  | relative site value => some (site, value)
  | _ => none

def irelative? : DynamicSite → Option (UInt64 × UInt64)
  | irelative site resolver => some (site, resolver)
  | _ => none

def symbolic? : DynamicSite → Option (UInt64 × UInt32 × Int64)
  | symbolic site dynsymIndex addend => some (site, dynsymIndex, addend)
  | _ => none

end DynamicSite

/-- The entry for an absolute 64-bit reference to a symbol. -/
def symSite (symbols : SymbolTable) (layout : Layout) (objId : Nat) (site : UInt64)
    (addend : Int64) (sym : InputSymbol) : Option DynamicSite :=
  if sym.binding = .local then
    (sym.sectionIndex.bind (layout.addressOf objId)).map fun va =>
      if sym.isIfunc then .irelative site (va + sym.value)
      else .relative site (va + sym.value + addend.toUInt64)
  else
    match symbols.lookup sym.name with
    | none => none
    | some res =>
        if res.isDefined && (!res.isImport || res.copyReloc) then
          if res.isIfunc then some (.irelative site res.virtualAddress)
          else some (.relative site (res.virtualAddress + addend.toUInt64))
        else if res.isImport && !res.copyReloc && res.dynsymIndex != 0 then
          some (.symbolic site res.dynsymIndex addend)
        else none

def relocSite (symbols : SymbolTable) (layout : Layout) (objId : Nat)
    (obj : InputObject) (siteVa : UInt64) (reloc : InputReloc) : Option DynamicSite :=
  if reloc.rType ≠ RelocType.r64.code then none
  else
    (obj.symbolByIndex reloc.symbol).bind
      (symSite symbols layout objId (siteVa + reloc.offset) reloc.addend)

/-- The entries of one section; one that has no place has none. -/
def sectionSites (symbols : SymbolTable) (layout : Layout) (objId : Nat)
    (obj : InputObject) (sec : InputSection) : List DynamicSite :=
  match layout.addressOf objId sec.index with
  | none => []
  | some siteVa => sec.relocs.filterMap (relocSite symbols layout objId obj siteVa)

/-- The entry of a GOT slot that holds an address of the image. -/
def slotSite (symbols : SymbolTable) (layout : Layout) (place : Nat) (id : SymbolId) :
    Option DynamicSite :=
  match symbols.byId id with
  | none => none
  | some res =>
      if (res.isImport && !res.copyReloc) || !res.isDefined then none
      else
        let site := layout.gotBase + UInt64.ofNat place * 8
        if res.isIfunc then some (.irelative site res.virtualAddress)
        else some (.relative site res.virtualAddress)

def inputSites (objects : List InputObject) (symbols : SymbolTable) (layout : Layout) :
    List DynamicSite :=
  objects.zipIdx.flatMap fun obj =>
    (obj.1.sections.filter InputSection.isAlloc).flatMap
      (sectionSites symbols layout obj.2 obj.1)

def gotSites (symbols : SymbolTable) (layout : Layout) : List DynamicSite :=
  layout.gotSlots.zipIdx.filterMap fun slot => slotSite symbols layout slot.2 slot.1

def comparePair (first second : UInt64 × UInt64) : Ordering :=
  (compare first.1.toNat second.1.toNat).then (compare first.2.toNat second.2.toNat)

def compareSymbolic (first second : UInt64 × UInt32 × Int64) : Ordering :=
  ((compare first.1.toNat second.1.toNat).then
    (compare first.2.1.toNat second.2.1.toNat)).then
      (compare first.2.2.toInt second.2.2.toInt)

/-- The entries of each class, in the order of their places. -/
structure DynamicRelocs where
  relative : List (UInt64 × UInt64) := []
  irelative : List (UInt64 × UInt64) := []
  symbolic : List (UInt64 × UInt32 × Int64) := []
deriving DecidableEq

def collectDataAndSymbolicRelocs (objects : List InputObject) (symbols : SymbolTable)
    (layout : Layout) : DynamicRelocs :=
  let sites := inputSites objects symbols layout ++ gotSites symbols layout
  { relative := sortBy comparePair (sites.filterMap DynamicSite.relative?)
    irelative := sortBy comparePair (sites.filterMap DynamicSite.irelative?)
    symbolic := sortBy compareSymbolic (sites.filterMap DynamicSite.symbolic?) }

/-! ## Thread-local slots -/

/-- An entry for a thread-local slot. -/
structure TlsDynReloc where
  site : UInt64
  rType : UInt32
  dynsymIndex : UInt32
  addend : Int64
deriving DecidableEq

/-- The entries of the thread-local slots, and what is written into them. -/
structure TlsGotContents where
  relocs : List TlsDynReloc := []
  staticWrites : List (UInt64 × UInt64) := []
deriving DecidableEq

def TlsGotContents.append (first second : TlsGotContents) : TlsGotContents where
  relocs := first.relocs ++ second.relocs
  staticWrites := first.staticWrites ++ second.staticWrites

instance : Append TlsGotContents := ⟨TlsGotContents.append⟩

namespace TlsRef

/-- The offset in the TLS block of what is referenced, and whether a library
defines it. -/
def offset (ref : TlsRef) (objects : List InputObject) (symbols : SymbolTable)
    (layout : Layout) : Option (UInt64 × Bool) :=
  match ref with
  | .local objId symPos => do
      let obj ← objects[objId]?
      let sym ← obj.symbols[symPos]?
      let si ← sym.sectionIndex
      let base ← layout.tlsOffset objId si
      return (base + sym.value, false)
  | .global id => do
      let res ← symbols.byId id
      match res.definedIn, res.sectionIndex with
      | some defined, some si =>
          let base ← layout.tlsOffset defined.toNat si
          return (base + res.value, false)
      | _, _ => return (0, true)

def dynsymIndex (ref : TlsRef) (symbols : SymbolTable) : UInt32 :=
  match ref with
  | .local _ _ => 0
  | .global id => ((symbols.byId id).map SymbolResolution.dynsymIndex).getD 0

end TlsRef

section TlsGot

variable (objects : List InputObject) (symbols : SymbolTable) (layout : Layout)

def resolvedOffset (ref : TlsRef) : UInt64 × Bool :=
  (ref.offset objects symbols layout).getD (0, true)

/-- A general-dynamic pair: the module and the offset in its block. -/
def gdContents (ref : TlsRef) : TlsGotContents :=
  match layout.tlsGdAddr.lookup ref with
  | none => {}
  | some pair =>
      let resolved := resolvedOffset objects symbols layout ref
      if resolved.2 then
        let index := ref.dynsymIndex symbols
        { relocs := [⟨pair, RelocType.dtpmod64.code, index, 0⟩,
            ⟨pair + 8, RelocType.dtpoff64.code, index, 0⟩] }
      else
        { relocs := [⟨pair, RelocType.dtpmod64.code, 0, 0⟩]
          staticWrites := [(pair + 8, resolved.1)] }

/-- A descriptor is filled by one entry. -/
def descContents (ref : TlsRef) : TlsGotContents :=
  match layout.tlsDescAddr.lookup ref with
  | none => {}
  | some pair =>
      let resolved := resolvedOffset objects symbols layout ref
      { relocs := [⟨pair, RelocType.tlsdesc.code,
          if resolved.2 then ref.dynsymIndex symbols else 0,
          if resolved.2 then 0 else resolved.1.toInt64⟩] }

def ldmContents : TlsGotContents :=
  match layout.tlsLdmAddr with
  | none => {}
  | some pair =>
      { relocs := [⟨pair, RelocType.dtpmod64.code, 0, 0⟩]
        staticWrites := [(pair + 8, 0)] }

/-- An initial-exec slot: the offset from the thread pointer, which is the end of
the block in an executable. -/
def ieContents (shared : Bool) (ref : TlsRef) : TlsGotContents :=
  match layout.tlsIeAddr.lookup ref with
  | none => {}
  | some slot =>
      let resolved := resolvedOffset objects symbols layout ref
      if resolved.2 then
        { relocs :=
            [⟨slot, RelocType.tpoff64.code, ref.dynsymIndex symbols, 0⟩] }
      else if shared then
        { relocs := [⟨slot, RelocType.tpoff64.code, 0, resolved.1.toInt64⟩] }
      else { staticWrites := [(slot, resolved.1 - layout.tlsSize)] }

/-- What the thread-local part of `.got` holds. -/
def collectTlsGot (tls : TlsGotInfo) (shared : Bool) : TlsGotContents :=
  let all (contents : TlsRef → TlsGotContents) (refs : List TlsRef) :=
    refs.foldl (fun found ref => found ++ contents ref) {}
  (if shared then
    all (gdContents objects symbols layout) tls.gd ++
      all (descContents objects symbols layout) tls.desc ++ ldmContents layout
  else {}) ++ all (ieContents objects symbols layout shared) tls.ie

end TlsGot

end Peony
