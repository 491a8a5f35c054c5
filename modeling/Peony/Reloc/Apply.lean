import Peony.Reloc.Patch

namespace Peony

/-! The application of one relocation: its symbol is resolved to addresses and
the bytes of the section are patched with them. -/

/-! ## Symbol resolution -/

/-- The resolution of every symbol of every object, by object and position. Local
and nameless symbols have none. -/
structure SymIndex where
  byObject : List (List (Option SymbolResolution))

namespace SymIndex

def entry (symbols : SymbolTable) (sym : InputSymbol) : Option SymbolResolution :=
  if sym.binding = .local ∨ sym.name.isEmpty then none
  else symbols.lookup sym.name

def build (objects : List InputObject) (symbols : SymbolTable) : SymIndex where
  byObject := objects.map fun obj => obj.symbols.map (entry symbols)

def resolution (index : SymIndex) (objId symPos : Nat) : Option SymbolResolution :=
  ((index.byObject[objId]?).bind fun entries => entries[symPos]?).bind id

end SymIndex

structure ApplyCtx where
  symbols : SymbolTable
  layout : Layout
  shared : Bool
  symIndex : Option SymIndex

inductive RelocSkipReason where
  | noneRelocation | missingSymbolPosition | missingSymbolRecord
  | relaxedTlsGetAddrCall | missingLocalSectionAddress
deriving DecidableEq, Repr

inductive RelocAction where
  | skip (reason : RelocSkipReason)
  | patch (addrs : RelocAddrs)
deriving DecidableEq

namespace ApplyCtx

variable (ctx : ApplyCtx)

def resolutionOf (objId symPos : Nat) (sym : InputSymbol) :
    Option SymbolResolution :=
  if sym.binding = .local then none
  else
    match ctx.symIndex with
    | some index => index.resolution objId symPos
    | none => ctx.symbols.lookup sym.name

/-- The address of a symbol, its GOT slot, its stub and its size. -/
structure Target where
  s : UInt64
  g : UInt64
  l : UInt64
  z : UInt64
deriving DecidableEq

/-- A local symbol has neither a slot nor a stub; nothing stands for one whose
section was not placed. -/
def localTarget (objId : Nat) (sym : InputSymbol) : Option Target :=
  match sym.sectionIndex with
  | some index =>
      (ctx.layout.addressOf objId index).map fun va =>
        ⟨va + sym.value, 0, 0, sym.size⟩
  | none => some ⟨sym.value, 0, 0, sym.size⟩

/-- A weak reference that nothing defines has the address 0, in its slot too. -/
def globalTarget (obj : InputObject) (sym : InputSymbol)
    (res : Option SymbolResolution) : Except RelocError Target :=
  match res with
  | some r =>
      if r.isDefined then
        .ok ⟨r.virtualAddress, r.gotAddress, r.pltAddress, r.size⟩
      else if sym.binding = .weak then .ok ⟨0, r.gotAddress, 0, 0⟩
      else .error (.undefinedSymbol sym.name obj.path)
  | none => .error (.undefinedSymbol sym.name obj.path)

def tlsBlockOffset (objId : Nat) (sym : InputSymbol)
    (res : Option SymbolResolution) : UInt64 :=
  (if sym.binding = .local then
    (sym.sectionIndex.bind (ctx.layout.tlsOffset objId)).map (· + sym.value)
  else
    res.bind fun r =>
      r.definedIn.bind fun defined =>
        (r.sectionIndex.bind (ctx.layout.tlsOffset defined.toNat)).map
          (· + r.value)).getD 0

def tlsRefOf (objId symPos : Nat) (sym : InputSymbol)
    (res : Option SymbolResolution) : TlsRef :=
  if sym.binding = .local then .local objId symPos
  else
    match res with
    | some r => .global r.id
    | none => .local objId symPos

def relocAddrs (objId symPos : Nat) (sym : InputSymbol)
    (res : Option SymbolResolution) (target : Target) (reloc : InputReloc)
    (sectionVa : UInt64) : RelocAddrs :=
  let tls := isTls reloc.rType
  let tlsRef := tlsRefOf objId symPos sym res
  { s := target.s
    a := reloc.addend
    p := sectionVa + reloc.offset
    g := target.g
    l := target.l
    z := target.z
    gotBase := ctx.layout.gotBase
    tls := if tls then ctx.tlsBlockOffset objId sym res else 0
    tlsSize := ctx.layout.tlsSize
    offset := reloc.offset
    shared := ctx.shared
    tlsGd := if tls then (ctx.layout.tlsGdAddr.lookup tlsRef).getD 0 else 0
    tlsIe := if tls then (ctx.layout.tlsIeAddr.lookup tlsRef).getD 0 else 0
    tlsDesc := if tls then (ctx.layout.tlsDescAddr.lookup tlsRef).getD 0 else 0
    tlsLdm := ctx.layout.tlsLdmAddr.getD 0
    tlsImported := tls && sym.binding != .local &&
      res.any fun r => r.isImport && r.definedIn.isNone }

def tlsGetAddr : Name := nameOf "__tls_get_addr"

/-- The call of `__tls_get_addr` goes away with the relaxed sequence that it
belongs to, which only an executable has. -/
def isRelaxedCall (reloc : InputReloc) (sym : InputSymbol) : Bool :=
  !ctx.shared &&
    (reloc.rType == RelocType.plt32.code || reloc.rType == RelocType.pc32.code) &&
    sym.name == tlsGetAddr

def resolveRelocAction (obj : InputObject) (objId : Nat) (reloc : InputReloc)
    (sectionVa : UInt64) : Except RelocError RelocAction :=
  if reloc.rType = RelocType.none.code then .ok (.skip .noneRelocation)
  else
    match obj.symbolPos reloc.symbol with
    | none => .ok (.skip .missingSymbolPosition)
    | some symPos =>
        match obj.symbols[symPos]? with
        | none => .ok (.skip .missingSymbolRecord)
        | some sym =>
            if ctx.isRelaxedCall reloc sym then .ok (.skip .relaxedTlsGetAddrCall)
            else
              let res := ctx.resolutionOf objId symPos sym
              if sym.binding = .local then
                match ctx.localTarget objId sym with
                | none => .ok (.skip .missingLocalSectionAddress)
                | some target =>
                    .ok (.patch (ctx.relocAddrs objId symPos sym res target reloc
                      sectionVa))
              else do
                let target ← globalTarget obj sym res
                return .patch (ctx.relocAddrs objId symPos sym res target reloc
                  sectionVa)

def applyReloc (obj : InputObject) (objId : Nat) (reloc : InputReloc)
    (sectionVa : UInt64) (buf : List UInt8) : Except RelocFault (List UInt8) :=
  match ctx.resolveRelocAction obj objId reloc sectionVa with
  | .error error => .error (.error error)
  | .ok (.skip _) => .ok buf
  | .ok (.patch addrs) => patchBuf buf reloc.rType addrs obj.path

/-! ## Facts about actions -/

/-- The address of the place is read from the relocation alone. -/
theorem offset_of_patch {obj : InputObject} {objId : Nat} {reloc : InputReloc}
    {sectionVa : UInt64} {addrs : RelocAddrs}
    (isPatch : ctx.resolveRelocAction obj objId reloc sectionVa =
      .ok (.patch addrs)) : addrs.offset = reloc.offset := by
  rw [resolveRelocAction] at isPatch
  split at isPatch
  · cases isPatch
  cases found : obj.symbolPos reloc.symbol with
  | none => simp only [found] at isPatch; cases isPatch
  | some symPos =>
      simp only [found] at isPatch
      cases isSym : obj.symbols[symPos]? with
      | none => simp only [isSym] at isPatch; cases isPatch
      | some sym =>
          simp only [isSym] at isPatch
          split at isPatch
          · cases isPatch
          split at isPatch
          · split at isPatch
            · cases isPatch
            · cases isPatch
              rfl
          · cases isTarget : globalTarget obj sym (ctx.resolutionOf objId symPos sym) with
            | error error => rw [isTarget] at isPatch; cases isPatch
            | ok target => rw [isTarget] at isPatch; cases isPatch; rfl

end ApplyCtx

/-! ## The index and the names -/

theorem SymIndex.resolution_build {objects : List InputObject} {obj : InputObject}
    {objId symPos : Nat} {sym : InputSymbol} (symbols : SymbolTable)
    (isObject : objects[objId]? = some obj) (isSym : obj.symbols[symPos]? = some sym) :
    (build objects symbols).resolution objId symPos = entry symbols sym := by
  rw [resolution, build, List.getElem?_map, isObject, Option.map_some, Option.bind_some,
    List.getElem?_map, isSym, Option.map_some, Option.bind_some, id]

namespace ApplyCtx

variable (ctx : ApplyCtx) {objects : List InputObject} {obj : InputObject} {objId : Nat}

def indexed (objects : List InputObject) : ApplyCtx :=
  { ctx with symIndex := some (SymIndex.build objects ctx.symbols) }

def byName : ApplyCtx := { ctx with symIndex := none }

theorem resolutionOf_indexed (nameless : ctx.symbols.lookup [] = none)
    (isObject : objects[objId]? = some obj) {symPos : Nat} {sym : InputSymbol}
    (isSym : obj.symbols[symPos]? = some sym) :
    (ctx.indexed objects).resolutionOf objId symPos sym =
      ctx.byName.resolutionOf objId symPos sym := by
  rw [resolutionOf, resolutionOf]
  by_cases isLocal : sym.binding = .local
  · rw [if_pos isLocal, if_pos isLocal]
  rw [if_neg isLocal, if_neg isLocal]
  change (SymIndex.build objects ctx.symbols).resolution objId symPos =
    ctx.symbols.lookup sym.name
  rw [SymIndex.resolution_build ctx.symbols isObject isSym, SymIndex.entry]
  split
  · rename_i skipped
    have isNameless : sym.name = [] := List.isEmpty_iff.mp (skipped.resolve_left isLocal)
    rw [isNameless, nameless]
  · rfl

theorem resolveRelocAction_indexed (nameless : ctx.symbols.lookup [] = none)
    (isObject : objects[objId]? = some obj) (reloc : InputReloc) (sectionVa : UInt64) :
    (ctx.indexed objects).resolveRelocAction obj objId reloc sectionVa =
      ctx.byName.resolveRelocAction obj objId reloc sectionVa := by
  rw [resolveRelocAction, resolveRelocAction]
  cases obj.symbolPos reloc.symbol with
  | none => rfl
  | some symPos =>
      cases isSym : obj.symbols[symPos]? with
      | none => simp only [isSym]
      | some sym =>
          simp only [isSym, ctx.resolutionOf_indexed nameless isObject isSym]
          rfl

/-- Applying a relocation does the same with the index as with the names: it skips for the
same reason, fails with the same error, or patches with the same addresses, and leaves the
same bytes. -/
theorem applyReloc_indexed (nameless : ctx.symbols.lookup [] = none)
    (isObject : objects[objId]? = some obj) (reloc : InputReloc) (sectionVa : UInt64)
    (buf : List UInt8) :
    (ctx.indexed objects).resolveRelocAction obj objId reloc sectionVa =
        ctx.byName.resolveRelocAction obj objId reloc sectionVa ∧
      (ctx.indexed objects).applyReloc obj objId reloc sectionVa buf =
        ctx.byName.applyReloc obj objId reloc sectionVa buf := by
  have same := ctx.resolveRelocAction_indexed nameless isObject reloc sectionVa
  refine ⟨same, ?_⟩
  rw [applyReloc, applyReloc, same]

end ApplyCtx

private def namedObject : InputObject where
  path := "b.o"
  sections := []
  symbols := [{
    index := 1
    name := nameOf "x"
    binding := .global
    isUndefined := true
    isCommon := false
    isIfunc := false
    stType := 0
    visibility := 0
    sectionIndex := none
    value := 0
    size := 0 }]
  sectionMap := default
  symbolMap := IndexLookup.insert default 1 0
  comdatGroups := []

private def namedCtx : ApplyCtx where
  symbols := SymbolTable.new.insertCached (nameOf "x") (.cachedDefined 0x401000 0 0 8)
  layout := {}
  shared := false
  symIndex := none

/-- The address of `x` and the addend 2 go to the last four bytes. -/
theorem ApplyCtx.applyReloc_indexed_global :
    (namedCtx.indexed [namedObject, namedObject]).applyReloc namedObject 1
        ⟨4, RelocType.r32.code, 1, 2⟩ 0x1000 (List.replicate 8 0) =
      .ok [0, 0, 0, 0, 2, 0x10, 0x40, 0] := by
  rw [(ApplyCtx.applyReloc_indexed namedCtx rfl rfl _ _ _).2]
  decide +kernel

end Peony
