import Peony.Cache.Files
import Peony.Layout.Enumeration

namespace Peony

/-! The hash of everything that fixes a layout, by which a cached one is reused. -/

def fnvU64 (hash value : UInt64) : UInt64 := fnvBytes hash (toLeBytes value)

def fnvBool (hash : UInt64) (flag : Bool) : UInt64 := fnvByte hash (if flag then 1 else 0)

def fnvNat (hash : UInt64) (value : Nat) : UInt64 := fnvU64 hash (UInt64.ofNat value)

/-! ## Objects -/

/-- The numbers the enumerations are folded by. -/
def SectionKind.ordinal : SectionKind → UInt64
  | text => 0
  | readOnly => 1
  | data => 2
  | bss => 3
  | debug => 4
  | ehFrame => 5
  | mergeString => 6
  | mergeConst => 7
  | initArray => 8
  | tdata => 9
  | tbss => 10
  | other => 11

def Binding.ordinal : Binding → UInt64
  | .local => 0
  | .global => 1
  | .weak => 2

def digestReloc (obj : InputObject) (hash : UInt64) (reloc : InputReloc) : UInt64 :=
  let folded := fnvU64 (fnvU64 (fnvU64 hash reloc.offset) reloc.rType.toUInt64)
    reloc.addend.toUInt64
  match obj.symbolByIndex reloc.symbol with
  | some sym => fnvBytes (fnvByte folded 1) sym.name
  | none => fnvByte folded 0

/-- Whether a section takes part in the digest of its object. -/
def isDigested (live : SectionFilter)
    (foldMap : Option (AList fun _ : SectionKey => SectionKey)) (objId : Nat)
    (sec : InputSection) : Bool :=
  if isAllocatable sec then
    live.emits (objId, sec.index) &&
      !(foldMap.any fun folded => (folded.lookup (objId, sec.index)).isSome)
  else sec.name == propertyName

def digestSection (arena : InputArena) (obj : InputObject) (hash : UInt64)
    (numbered : InputSection × Nat) : UInt64 :=
  let sec := numbered.1
  let shape := fnvU64 (fnvU64 (fnvU64 (fnvU64 (fnvU64 (fnvBytes (fnvNat
    (fnvNat hash numbered.2) sec.index) sec.name) sec.kind.ordinal)
      sec.shType.toUInt64) sec.flags) sec.align) sec.size
  let contents :=
    if sec.name == propertyName || sec.kind == .ehFrame then
      fnvBytes shape (arena.bytes sec.data)
    else shape
  sec.relocs.foldl (digestReloc obj) contents

def digestGroup (hash : UInt64) (group : ComdatGroup) : UInt64 :=
  group.members.foldl fnvNat (fnvByte (fnvBytes hash group.signature) 0)

def digestSymbol (hash : UInt64) (sym : InputSymbol) : UInt64 :=
  fnvU64 (fnvU64 (fnvNat (fnvU64 (fnvU64 (fnvBool (fnvBool (fnvBool (fnvU64
    (fnvBytes hash sym.name) sym.binding.ordinal) sym.isUndefined) sym.isCommon)
      sym.isIfunc) sym.stType.toUInt64) sym.visibility.toUInt64)
        ((sym.sectionIndex.map (· + 1)).getD 0)) sym.value) sym.size

def objectLayoutDigest (arena : InputArena) (obj : InputObject) (objId : Nat)
    (live : SectionFilter)
    (foldMap : Option (AList fun _ : SectionKey => SectionKey)) : UInt64 :=
  let sections := (obj.sections.zipIdx.filter fun numbered =>
    isDigested live foldMap objId numbered.1).foldl (digestSection arena obj) fnvOffset
  obj.symbols.foldl digestSymbol (obj.comdatGroups.foldl digestGroup sections)

/-! ## Symbols -/

def foldSymbolName (symbols : SymbolTable) (hash : UInt64) (id : SymbolId) : UInt64 :=
  match symbols.nameById id with
  | some name => fnvBytes (fnvByte hash 1) name
  | none => fnvByte hash 0

def foldTlsRef (symbols : SymbolTable) (kind : UInt8) (hash : UInt64) (ref : TlsRef) :
    UInt64 :=
  let hash := fnvByte hash kind
  match ref with
  | .global id => foldSymbolName symbols (fnvByte hash 1) id
  | .local objId symPos => fnvNat (fnvNat (fnvByte hash 2) objId) symPos

def foldIds (symbols : SymbolTable) (hash : UInt64) : UInt64 :=
  (List.range symbols.idCount).foldl
    (fun hash i => fnvByte
      (match symbols.nameById (UInt32.ofNat i) with
        | some name => fnvBytes hash name
        | none => hash) 0)
    (fnvNat hash symbols.idCount)

/-- A tentative definition: its id, name, size and alignment. -/
abbrev CommonEntry := SymbolId × Name × UInt64 × UInt64

def fingerprintCommons (symbols : SymbolTable) : List CommonEntry :=
  sortBy (fun first second => compare first.1.toNat second.1.toNat)
    (symbols.resolutions.entries.filterMap fun entry =>
      entry.2.common.map fun common => (entry.2.id, entry.1, common.1, common.2))

/-- The names whose resolutions satisfy a condition, in order. -/
def namesOf (symbols : SymbolTable) (chosen : SymbolResolution → Bool) : List Name :=
  sortBy compare ((symbols.resolutions.entries.filter fun entry =>
    chosen entry.2).map fun entry => entry.1)

def compareImport (first second : Name × Name × Name) : Ordering :=
  ((compare first.1 second.1).then (compare first.2.1 second.2.1)).then
    (compare first.2.2 second.2.2)

instance : Std.TransCmp compareImport :=
  inferInstanceAs (Std.TransCmp (compareLex
    (compareLex (compareOn fun entry : Name × Name × Name => entry.1)
      (compareOn fun entry => entry.2.1))
    (compareOn fun entry => entry.2.2)))

/-- The imports with their versions and libraries, in order. -/
def fingerprintImports (symbols : SymbolTable) : List (Name × Name × Name) :=
  sortBy compareImport
    ((symbols.resolutions.entries.filter fun entry => entry.2.isImport).map fun entry =>
      (entry.1, entry.2.version.getD [], (entry.2.soname.map nameOf).getD []))

def foldTable (symbols : SymbolTable) (hash : UInt64) : UInt64 :=
  let commons := (fingerprintCommons symbols).foldl
    (fun hash common => fnvU64 (fnvU64 (fnvBytes hash common.2.1) common.2.2.1)
      common.2.2.2) hash
  let copies := (namesOf symbols SymbolResolution.copyReloc).foldl fnvBytes commons
  let imports := (fingerprintImports symbols).foldl
    (fun hash entry =>
      fnvBytes (fnvBytes (fnvBytes hash entry.1) entry.2.1) entry.2.2) copies
  (namesOf symbols SymbolResolution.isExport).foldl fnvBytes imports

/-! ## The fingerprint -/

structure LayoutFingerprint where
  driversHash : UInt64
  objectDigests : List UInt64
deriving DecidableEq, Repr

def foldConfig (config : LayoutConfig) : UInt64 :=
  fnvBool (fnvBool (fnvBool (fnvBool (fnvBool (fnvBool (fnvBool (fnvBytes (fnvU64
    (fnvU64 fnvOffset config.baseAddress) config.pageSize) config.entrySymbol)
      config.buildId) config.strip) config.stripDebug) config.pie) config.shared)
        config.emitRelocs) config.script.isSome

namespace LayoutInput

variable (input : LayoutInput)

def objectDigests (changed : List Nat) (prior : Option (List UInt64)) : List UInt64 :=
  let known := prior.filter fun digests => digests.length == input.objects.length
  input.objects.zipIdx.map fun numbered =>
    match known.bind fun digests =>
        if changed.contains numbered.2 then none else digests[numbered.2]? with
    | some digest => digest
    | none =>
        objectLayoutDigest input.arena numbered.1 numbered.2 input.live input.foldMap

def computeLayoutFingerprint (changed : List Nat) (prior : Option (List UInt64)) :
    LayoutFingerprint :=
  let digests := input.objectDigests changed prior
  let objects := (input.objects.zip digests).foldl
    (fun hash obj => fnvU64 (fnvByte (fnvBytes hash (nameOf obj.1.path)) 0) obj.2)
    (fnvNat (foldConfig input.config) input.objects.length)
  let ids := foldIds input.symbols objects
  let got := input.gotSyms.foldl (foldSymbolName input.symbols)
    (fnvNat ids input.gotSyms.length)
  let plt := input.pltSyms.foldl (foldSymbolName input.symbols)
    (fnvNat got input.pltSyms.length)
  let gd := input.tls.gd.foldl (foldTlsRef input.symbols 1) plt
  let ie := input.tls.ie.foldl (foldTlsRef input.symbols 2) gd
  let desc := input.tls.desc.foldl (foldTlsRef input.symbols 3) ie
  { driversHash := foldTable input.symbols (fnvBool desc input.tls.ldm)
    objectDigests := digests }

end LayoutInput

/-! ## Tables that agree -/

section Agree

variable {first second : SymbolTable} (agree : SymbolTable.Agree first second)

include agree

theorem namesOf_agree : namesOf first = namesOf second := by
  funext chosen
  refine sortBy_key_eq_of_perm (fun name : Name => name)
    ((agree.entries_perm.filter _).map _) ?_
  exact fun name _ other _ same => Std.LawfulEqCmp.eq_of_compare same

theorem fingerprintCommons_agree (numbered : first.Numbered) :
    fingerprintCommons first = fingerprintCommons second := by
  refine sortBy_key_eq_of_perm (fun common : CommonEntry => common.1.toNat)
    (agree.entries_perm.filterMap _) ?_
  intro common isCommon other isOther same
  rcases List.mem_filterMap.mp isCommon with ⟨entry, isEntry, made⟩
  rcases List.mem_filterMap.mp isOther with ⟨another, isAnother, madeOther⟩
  rcases Option.map_eq_some_iff.mp made with ⟨sizes, isSizes, rfl⟩
  rcases Option.map_eq_some_iff.mp madeOther with ⟨others, isOthers, rfl⟩
  have sameEntry := numbered.entry_eq isEntry isAnother (by rw [isSizes]; rfl)
    (by rw [isOthers]; rfl) (UInt32.toNat_inj.mp (Std.LawfulEqCmp.eq_of_compare same))
  subst sameEntry
  rw [isSizes, Option.some.injEq] at isOthers
  rw [isOthers]

theorem fingerprintImports_agree :
    fingerprintImports first = fingerprintImports second := by
  refine sortBy_eq_of_perm ((agree.entries_perm.filter _).map _) ?_
  intro item isItem other isOther same
  rcases List.mem_map.mp isItem with ⟨entry, isEntry, rfl⟩
  rcases List.mem_map.mp isOther with ⟨another, isAnother, rfl⟩
  rw [compareImport, Ordering.then_eq_eq, Ordering.then_eq_eq] at same
  rw [SymbolTable.entry_eq_of_name (List.mem_of_mem_filter isEntry)
    (List.mem_of_mem_filter isAnother) (Std.LawfulEqCmp.eq_of_compare same.1.1)]

theorem foldTable_agree (numbered : first.Numbered) :
    foldTable first = foldTable second := by
  funext hash
  rw [foldTable, foldTable, fingerprintCommons_agree agree numbered,
    namesOf_agree agree, fingerprintImports_agree agree]

theorem foldSymbolName_agree : foldSymbolName first = foldSymbolName second := by
  funext hash id
  rw [foldSymbolName, foldSymbolName, agree.nameById]

theorem foldTlsRef_agree : foldTlsRef first = foldTlsRef second := by
  funext kind hash ref
  cases ref with
  | «local» objId symPos => rfl
  | global id =>
      change foldSymbolName first _ id = foldSymbolName second _ id
      rw [foldSymbolName_agree agree]

theorem foldIds_agree : foldIds first = foldIds second := by
  funext hash
  rw [foldIds, foldIds, SymbolTable.idCount, SymbolTable.idCount, agree.names,
    agree.nameById]

end Agree

theorem LayoutInput.computeLayoutFingerprint_withSymbols {input : LayoutInput}
    {table : SymbolTable} (agree : SymbolTable.Agree input.symbols table)
    (numbered : input.symbols.Numbered) (changed : List Nat)
    (prior : Option (List UInt64)) :
    (input.withSymbols table).computeLayoutFingerprint changed prior =
      input.computeLayoutFingerprint changed prior := by
  rw [computeLayoutFingerprint, computeLayoutFingerprint]
  simp only [withSymbols, foldTable_agree agree numbered, foldIds_agree agree,
    foldSymbolName_agree agree, foldTlsRef_agree agree]
  rfl

end Peony
