import Peony.Driver.Exclusive
import Peony.Driver.Finalized
import Peony.Layout.RuntimeAlignment
import Peony.Reloc.Apply

namespace Peony

/-! Which absolute references of a position-independent output the loader biases, and which
it should: those to what has storage in the image. -/

/-! ## Storage -/

namespace LayoutInput

/-- The bytes of the section, or of the one that it is folded onto, are laid out in the
image. -/
def Stored (input : LayoutInput) (layout : Layout) (key : SectionKey) : Prop :=
  ∃ s ∈ layout.outputSections, s.shFlags &&& shfAlloc ≠ 0 ∧ ∃ c ∈ s.contributions,
    key = c.key ∨ input.foldsTo key = some c.key

section Computed

variable {input : LayoutInput} (parsed : ∀ obj ∈ input.objects, obj.Parsed)
variable {layout : Layout} (computed : Computed input layout)

include computed

theorem stored_iff {key : SectionKey} : input.Stored layout key ↔
    ∃ host ∈ input.contributors, key = host.label ∨ input.foldsTo key = some host.label := by
  constructor
  · rintro ⟨s, present, isAlloc, c, among, either⟩
    rw [computed.assembled] at present
    rcases exists_placed_of_isAlloc input present isAlloc with ⟨placed, isPlaced, isFinished⟩
    rw [isFinished.contributions] at among
    rcases exists_contributor computed.aligned computed.pre isPlaced among with
      ⟨host, contributes, place⟩
    exact ⟨host, contributes, place.key ▸ either⟩
  · rintro ⟨host, contributes, either⟩
    rcases exists_laidOutAt computed contributes with
      ⟨_, s, present, isAlloc, c, among, key, _⟩
    exact ⟨s, present, isAlloc, c, among, key ▸ either⟩

include parsed

theorem isSome_addressOf_iff_stored (folding : input.Folding) {key : SectionKey} :
    (layout.addressOf key.1 key.2).isSome = true ↔
      (∃ member, input.IsPassedThrough member ∧ member.label = key) ∨
        input.Stored layout key := by
  rw [isSome_addressOf parsed computed folding, stored_iff computed]

end Computed

end LayoutInput

/-! ## References -/

/-- An absolute 64-bit reference, with the address of the section that it is in. -/
structure AbsoluteRef where
  objId : Nat
  obj : InputObject
  sec : InputSection
  siteVa : UInt64
  reloc : InputReloc
  sym : InputSymbol

namespace AbsoluteRef

def site (ref : AbsoluteRef) : UInt64 := ref.siteVa + ref.reloc.offset

/-- The reference is in a kept allocatable section. -/
structure Of (ref : AbsoluteRef) (objects : List InputObject) (layout : Layout) : Prop where
  isObject : objects[ref.objId]? = some ref.obj
  isSection : ref.sec ∈ ref.obj.sections
  isAlloc : ref.sec.isAlloc = true
  placed : layout.addressOf ref.objId ref.sec.index = some ref.siteVa
  isReloc : ref.reloc ∈ ref.sec.relocs
  isAbsolute : ref.reloc.rType = RelocType.r64.code
  isTarget : ref.obj.symbolByIndex ref.reloc.symbol = some ref.sym

/-- What is collected for the reference. -/
def entry (ref : AbsoluteRef) (symbols : SymbolTable) (layout : Layout) :
    Option DynamicSite :=
  symSite symbols layout ref.objId ref.site ref.reloc.addend ref.sym

theorem mem_inputSites {objects : List InputObject} {symbols : SymbolTable}
    {layout : Layout} {found : DynamicSite} :
    found ∈ inputSites objects symbols layout ↔
      ∃ ref : AbsoluteRef, ref.Of objects layout ∧ ref.entry symbols layout = some found := by
  rw [inputSites, List.mem_flatMap]
  constructor
  · rintro ⟨⟨obj, objId⟩, isObject, inObject⟩
    rcases List.mem_flatMap.mp inObject with ⟨sec, isSection, inSection⟩
    rcases List.mem_filter.mp isSection with ⟨isMember, isAlloc⟩
    rw [sectionSites] at inSection
    cases placed : layout.addressOf objId sec.index with
    | none =>
        rw [placed] at inSection
        exact nomatch inSection
    | some siteVa =>
        rw [placed] at inSection
        rcases List.mem_filterMap.mp inSection with ⟨reloc, isReloc, chosen⟩
        rw [relocSite] at chosen
        split at chosen
        · exact nomatch chosen
        · rename_i isAbsolute
          rcases Option.bind_eq_some_iff.mp chosen with ⟨sym, isTarget, isEntry⟩
          exact ⟨⟨objId, obj, sec, siteVa, reloc, sym⟩,
            ⟨List.mem_zipIdx_iff_getElem?.mp isObject, isMember, isAlloc, placed, isReloc,
              not_not.mp isAbsolute, isTarget⟩, isEntry⟩
  · rintro ⟨ref, isRef, isEntry⟩
    refine ⟨(ref.obj, ref.objId), List.mem_zipIdx_iff_getElem?.mpr isRef.isObject,
      List.mem_flatMap.mpr ⟨ref.sec, List.mem_filter.mpr ⟨isRef.isSection, isRef.isAlloc⟩, ?_⟩⟩
    rw [sectionSites, isRef.placed]
    refine List.mem_filterMap.mpr ⟨ref.reloc, isRef.isReloc, ?_⟩
    rw [relocSite, if_neg (not_not.mpr isRef.isAbsolute), isRef.isTarget]
    exact isEntry

end AbsoluteRef

/-! ## What moves -/

def ProvidedSymbol.Moves (layout : Layout) : ProvidedSymbol → Prop
  | fixed name => name = nameOf "_GLOBAL_OFFSET_TABLE_" →
      ∃ s ∈ layout.outputSections, s.source = .got
  | sectionStart _ sectionName | sectionStop _ sectionName =>
      ∃ s, layout.outputSections.find? (isNamed sectionName) = some s ∧
        s.shFlags &&& shfAlloc ≠ 0

namespace Link

variable (link : Link) (symbols : SymbolTable) (layout : Layout)

/-- What a global name stands for has storage in this output: it is copied here, a common,
in a section of the image, or a symbol that bounds something of the image. -/
inductive MovesWith (name : Name) (res : SymbolResolution) : Prop
  | copied (isImport : res.isImport = true) (copyReloc : res.copyReloc = true)
  | common (isDefined : res.definedIn.isSome = true) (isCommon : res.common.isSome = true)
  | inSection (objId : ObjectId) (sectionIndex : Nat) (isDefined : res.definedIn = some objId)
      (uncommon : res.common = none) (isSection : res.sectionIndex = some sectionIndex)
      (stored : (link.layoutInput symbols).Stored layout (objId.toNat, sectionIndex))
  | provided (sym : ProvidedSymbol) (isProvided : sym ∈ link.provided)
      (sameName : sym.name = name) (moves : sym.Moves layout)

/-- The target of a reference moves with the load base, and is no IFUNC. -/
def Biased (ref : AbsoluteRef) : Prop :=
  if ref.sym.binding = .local then
    ref.sym.isIfunc = false ∧ ∃ sectionIndex, ref.sym.sectionIndex = some sectionIndex ∧
      (link.layoutInput symbols).Stored layout (ref.objId, sectionIndex)
  else
    ∃ res, symbols.lookup ref.sym.name = some res ∧ res.isIfunc = false ∧
      link.MovesWith symbols layout ref.sym.name res

/-- What emission applies relocations with. -/
def applyCtx (index : Option SymIndex) : ApplyCtx where
  symbols := link.finalized symbols layout
  layout := link.withDynamicRelocs (link.finalized symbols layout)
    (patchIfuncPltRelocs layout (link.finalized symbols layout))
  shared := link.args.shared
  symIndex := index

/-- What emission does at a reference, if it does not fail, is to write the value. -/
def Writes (ref : AbsoluteRef) (value : UInt64) : Prop :=
  ∀ index, index = none ∨
      index = some (SymIndex.build link.objects (link.finalized symbols layout)) →
    ∀ action, (link.applyCtx symbols layout index).resolveRelocAction ref.obj ref.objId
        ref.reloc ref.siteVa = .ok action →
      ∃ addrs, action = .patch addrs ∧ addrs.p = ref.site ∧
        fieldOf .r64 addrs = some (.u64 value)

/-- The entries mark the words that move: each has the place and the final value of a
reference to what moves, or is that of a GOT slot. -/
structure MarksMoving : Prop where
  collected : ∀ entry, entry ∈ (link.collected (link.finalized symbols layout) layout).relative ↔
    (∃ ref : AbsoluteRef, ref.Of link.objects layout ∧
      ref.entry (link.finalized symbols layout) layout =
        some (.relative entry.1 entry.2)) ∨
    ∃ place id, layout.gotSlots[place]? = some id ∧
      slotSite (link.finalized symbols layout) layout place id =
        some (.relative entry.1 entry.2)
  marks : ∀ ref : AbsoluteRef, ref.Of link.objects layout →
    ((∃ place value, ref.entry (link.finalized symbols layout) layout =
      some (.relative place value)) ↔ link.Biased symbols layout ref)
  final : ∀ ref : AbsoluteRef, ref.Of link.objects layout → ∀ place value,
    ref.entry (link.finalized symbols layout) layout = some (.relative place value) →
      place = ref.site ∧ link.Writes symbols layout ref value

/-- What a reference is to is an IFUNC, or it is not in a section without a place in the
image, not a global that is defined as a constant, and not one that the linker provides
and a library exports. -/
structure TargetMoves (ref : AbsoluteRef) : Prop where
  ownSection : ref.sym.binding = .local → ref.sym.isIfunc = false →
    ∀ sectionIndex, ref.sym.sectionIndex = some sectionIndex →
      (∃ member, (link.layoutInput symbols).IsPassedThrough member ∧
        member.label = (ref.objId, sectionIndex)) →
          (link.layoutInput symbols).Stored layout (ref.objId, sectionIndex)
  inSection : ref.sym.binding ≠ .local → ∀ res, symbols.lookup ref.sym.name = some res →
    res.isIfunc = false → res.isImport = false → res.common = none →
      ∀ objId sectionIndex, res.definedIn = some objId → res.sectionIndex = some sectionIndex →
        (link.layoutInput symbols).Stored layout (objId.toNat, sectionIndex)
  constant : ref.sym.binding ≠ .local → ∀ res, symbols.lookup ref.sym.name = some res →
    res.isIfunc = false → res.isImport = false → res.common = none →
      res.definedIn.isSome = true → res.sectionIndex = none →
        ∃ sym ∈ link.provided, sym.name = ref.sym.name ∧ sym.Moves layout
  exported : ref.sym.binding ≠ .local → ∀ res, symbols.lookup ref.sym.name = some res →
    res.isIfunc = false → res.isImport = true → res.copyReloc = false →
      ∀ sym ∈ link.provided, sym.name = ref.sym.name → ¬ sym.Moves layout

end Link

/-! ## Where definitions are -/

namespace SymbolTable

def DefinedNowhere (table : SymbolTable) (name : Name) : Prop :=
  ∃ res, table.lookup name = some res ∧ res.definedIn.isSome = true ∧ res.sectionIndex = none

theorem definedNowhere_defineAbsolute (table : SymbolTable) (name : Name) (value : UInt64) :
    (table.defineAbsolute name value).DefinedNowhere name :=
  ⟨_, lookup_put_self _ _ _, rfl, rfl⟩

theorem DefinedNowhere.defineAbsolute {table : SymbolTable} {name : Name}
    (nowhere : table.DefinedNowhere name) (other : Name) (value : UInt64) :
    (table.defineAbsolute other value).DefinedNowhere name := by
  by_cases same : name = other
  · rw [same]
    exact definedNowhere_defineAbsolute table other value
  · rcases nowhere with ⟨res, found, rest⟩
    exact ⟨res, (lookup_put_of_ne _ _ same).trans found, rest⟩

/-- What is imported is no common, and defined in no section. -/
def ImportsNowhere (table : SymbolTable) : Prop :=
  ∀ name res, table.lookup name = some res → res.isImport = true →
    res.common = none ∧ (res.definedIn = none ∨ res.sectionIndex = none)

theorem ImportsNowhere.defineAbsolute {table : SymbolTable} (nowhere : table.ImportsNowhere)
    (name : Name) (value : UInt64) : (table.defineAbsolute name value).ImportsNowhere := by
  intro other res found isImport
  rw [lookup_defineAbsolute] at found
  split at found
  · cases found
    refine ⟨?_, Or.inr rfl⟩
    cases known : table.lookup name with
    | none => rfl
    | some entry =>
        rw [known] at isImport
        exact (nowhere name entry known isImport).1
  · exact nowhere other res found isImport

theorem Exclusive.importsNowhere {table : SymbolTable} (exclusive : table.Exclusive) :
    table.ImportsNowhere := by
  intro name res found isImport
  have notOwned := exclusive name ⟨res, found, isImport⟩
  constructor
  · by_contra isCommon
    exact notOwned ⟨res, found, Or.inr (Option.isSome_iff_ne_none.mpr isCommon)⟩
  · by_contra! isDefined
    exact notOwned ⟨res, found, Or.inl (Option.isSome_iff_ne_none.mpr isDefined.1)⟩

end SymbolTable

theorem definedNowhere_provided (table : SymbolTable) {sym : ProvidedSymbol}
    (isProvided : sym ∈ (predefineLinkerSymbols table).2) :
    (predefineLinkerSymbols table).1.DefinedNowhere sym.name := by
  have fixed (names : List Name) (state : SymbolTable × List ProvidedSymbol)
      (start : ∀ sym ∈ state.2, state.1.DefinedNowhere sym.name) :
      ∀ sym ∈ (names.foldl provideFixed state).2,
        (names.foldl provideFixed state).1.DefinedNowhere sym.name := by
    induction names generalizing state with
    | nil => exact start
    | cons name rest induction =>
        refine induction _ ?_
        rw [provideFixed]
        split
        · intro sym present
          rcases List.mem_append.mp present with early | isLast
          · exact (start sym early).defineAbsolute name 0
          · rw [List.mem_singleton.mp isLast]
            exact state.1.definedNowhere_defineAbsolute name 0
        · exact start
  have bounds (syms : List ProvidedSymbol) (state : SymbolTable × List ProvidedSymbol)
      (start : ∀ sym ∈ state.2, state.1.DefinedNowhere sym.name) :
      ∀ sym ∈ (syms.foldl (fun state sym =>
          (state.1.defineAbsolute sym.name 0, state.2 ++ [sym])) state).2,
        (syms.foldl (fun state sym =>
          (state.1.defineAbsolute sym.name 0, state.2 ++ [sym])) state).1.DefinedNowhere
            sym.name := by
    induction syms generalizing state with
    | nil => exact start
    | cons first rest induction =>
        refine induction _ fun sym present => ?_
        rcases List.mem_append.mp present with early | isLast
        · exact (start sym early).defineAbsolute first.name 0
        · rw [List.mem_singleton.mp isLast]
          exact state.1.definedNowhere_defineAbsolute first.name 0
  refine bounds _ _ (fixed linkerSyms (table, []) ?_) sym isProvided
  exact fun sym impossible => absurd impossible List.not_mem_nil

namespace Link

variable {link : Link} {symbols : SymbolTable} (defined : link.defined = some symbols)

include defined

theorem defined_keeps {holds : SymbolTable → Prop}
    (keeps : ∀ table name value, holds table → holds (table.defineAbsolute name value))
    (start : holds link.predefined) : holds symbols := by
  have each (definitions : List (Name × UInt64)) (table : SymbolTable)
      (start : holds table) : holds (defineAll table definitions) := by
    rw [defineAll]
    induction definitions generalizing table with
    | nil => exact start
    | cons definition rest induction =>
        exact induction _ (keeps table definition.1 definition.2 start)
  rcases Option.map_eq_some_iff.mp defined with ⟨parsed, _, rfl⟩
  exact each parsed link.predefined start

theorem provided_definedNowhere {sym : ProvidedSymbol} (isProvided : sym ∈ link.provided) :
    symbols.DefinedNowhere sym.name := by
  have start : link.predefined.DefinedNowhere sym.name :=
    definedNowhere_provided link.indexed isProvided
  exact @defined_keeps link symbols defined (fun table => table.DefinedNowhere sym.name)
    (fun _ name value nowhere => nowhere.defineAbsolute name value) start

theorem importsNowhere_defined {run : TableRun} (imported : run.imported = .ok link.symbols) :
    symbols.ImportsNowhere := by
  have exclusive : link.indexed.Exclusive := fun name imports owns =>
    (TableRun.exclusive_imported imported).1 name
      ((link.sameSides_indexed.imports_iff name).mp imports)
      ((link.sameSides_indexed.owns_iff name).mp owns)
  have start : link.predefined.ImportsNowhere :=
    @predefineLinkerSymbols_keeps SymbolTable.ImportsNowhere
      (fun _ name nowhere => nowhere.defineAbsolute name 0) link.indexed
      exclusive.importsNowhere
  exact @defined_keeps link symbols defined SymbolTable.ImportsNowhere
    (fun _ name value nowhere => nowhere.defineAbsolute name value) start

end Link

/-! ## What is collected -/

namespace Link

variable {link : Link} {symbols : SymbolTable} {layout : Layout}

/-- What finalization keeps of an entry and the collection looks at. -/
def definitionOf (res : SymbolResolution) : Option ObjectId × Bool × Bool × Bool :=
  (res.definedIn, res.isImport, res.copyReloc, res.isIfunc)

theorem lookup_finalized (name : Name) :
    (((link.finalized symbols layout).lookup name).map definitionOf) =
      (symbols.lookup name).map definitionOf :=
  link.seen_finalized definitionOf (fun _ _ _ _ _ => rfl) symbols layout name

/-- A global reference is taken for one to the image. -/
def TakenAsOwn (res : SymbolResolution) : Prop :=
  res.isDefined = true ∧ (res.isImport = false ∨ res.copyReloc = true) ∧ res.isIfunc = false

theorem takenAsOwn_iff {first second : SymbolResolution}
    (same : definitionOf first = definitionOf second) : TakenAsOwn first ↔ TakenAsOwn second := by
  simp only [definitionOf, Prod.mk.injEq] at same
  rw [TakenAsOwn, TakenAsOwn, SymbolResolution.isDefined, SymbolResolution.isDefined, same.1,
    same.2.1, same.2.2.1, same.2.2.2]

theorem entry_relative_local {ref : AbsoluteRef} (isLocal : ref.sym.binding = .local)
    (table : SymbolTable) {place value : UInt64} :
    ref.entry table layout = some (.relative place value) ↔
      ref.sym.isIfunc = false ∧ ∃ sectionIndex va, ref.sym.sectionIndex = some sectionIndex ∧
        layout.addressOf ref.objId sectionIndex = some va ∧ place = ref.site ∧
          value = va + ref.sym.value + ref.reloc.addend.toUInt64 := by
  rw [AbsoluteRef.entry, symSite, if_pos isLocal]
  constructor
  · intro isEntry
    rcases Option.map_eq_some_iff.mp isEntry with ⟨va, found, chosen⟩
    rcases Option.bind_eq_some_iff.mp found with ⟨sectionIndex, isSection, isAddress⟩
    split at chosen
    · exact nomatch chosen
    · rename_i notIfunc
      cases chosen
      exact ⟨Bool.eq_false_iff.mpr notIfunc, sectionIndex, va, isSection, isAddress, rfl, rfl⟩
  · rintro ⟨notIfunc, sectionIndex, va, isSection, isAddress, rfl, rfl⟩
    rw [isSection, Option.bind_some, isAddress, Option.map_some, if_neg]
    exact Bool.eq_false_iff.mp notIfunc

theorem entry_relative_global {ref : AbsoluteRef} (isGlobal : ref.sym.binding ≠ .local)
    (table : SymbolTable) {place value : UInt64} :
    ref.entry table layout = some (.relative place value) ↔
      ∃ res, table.lookup ref.sym.name = some res ∧ TakenAsOwn res ∧ place = ref.site ∧
        value = res.virtualAddress + ref.reloc.addend.toUInt64 := by
  rw [AbsoluteRef.entry, symSite, if_neg isGlobal]
  cases found : table.lookup ref.sym.name with
  | none => simp
  | some res =>
      simp only [Option.some.injEq, exists_eq_left']
      have own : TakenAsOwn res ↔
          (res.isDefined && (!res.isImport || res.copyReloc)) = true ∧ res.isIfunc = false := by
        rw [TakenAsOwn, Bool.and_eq_true, Bool.or_eq_true, Bool.not_eq_true', and_assoc]
      rw [own]
      by_cases isOwn : (res.isDefined && (!res.isImport || res.copyReloc)) = true
      · rw [if_pos isOwn]
        cases isIfunc : res.isIfunc with
        | true => simp
        | false =>
            rw [if_neg Bool.false_ne_true, Option.some.injEq, DynamicSite.relative.injEq]
            constructor
            · rintro ⟨rfl, rfl⟩
              exact ⟨⟨isOwn, rfl⟩, rfl, rfl⟩
            · rintro ⟨_, rfl, rfl⟩
              exact ⟨rfl, rfl⟩
      · rw [if_neg isOwn]
        refine iff_of_false ?_ fun taken => isOwn taken.1.1
        split <;> exact nofun

/-! ## What emission writes -/

section Written

variable {ref : AbsoluteRef} (isRef : ref.Of link.objects layout)

theorem addressOf_withDynamicRelocs (table : SymbolTable) (layout : Layout)
    (objId sectionIndex : Nat) :
    (link.withDynamicRelocs table layout).addressOf objId sectionIndex =
      layout.addressOf objId sectionIndex := by
  rw [withDynamicRelocs]
  split <;> rfl

theorem toUInt64_toInt64_add (word : UInt64) (addend : Int64) :
    (word.toInt64 + addend).toUInt64 = word + addend.toUInt64 := by
  rw [Int64.toUInt64_add, UInt64.toUInt64_toInt64]

include isRef

theorem resolveRelocAction_absolute {ctx : ApplyCtx} {action : RelocAction}
    (isAction : ctx.resolveRelocAction ref.obj ref.objId ref.reloc ref.siteVa = .ok action) :
    ∃ symPos, ref.obj.symbols[symPos]? = some ref.sym ∧
      (if ref.sym.binding = .local then
        match ctx.localTarget ref.objId ref.sym with
        | none => .ok (.skip .missingLocalSectionAddress)
        | some target => .ok (.patch (ctx.relocAddrs ref.objId symPos ref.sym
            (ctx.resolutionOf ref.objId symPos ref.sym) target ref.reloc ref.siteVa))
      else do
        let target ← ApplyCtx.globalTarget ref.obj ref.sym
          (ctx.resolutionOf ref.objId symPos ref.sym)
        return .patch (ctx.relocAddrs ref.objId symPos ref.sym
          (ctx.resolutionOf ref.objId symPos ref.sym) target ref.reloc ref.siteVa) :
        Except RelocError RelocAction) = .ok action := by
  have isTarget := isRef.isTarget
  rw [InputObject.symbolByIndex, Option.bind_eq_bind, Option.bind_eq_some_iff] at isTarget
  rcases isTarget with ⟨symPos, isPos, isSym⟩
  have unrelaxed : ctx.isRelaxedCall ref.reloc ref.sym = false := by
    rw [ApplyCtx.isRelaxedCall, isRef.isAbsolute]
    cases ctx.shared <;> rfl
  rw [ApplyCtx.resolveRelocAction, isRef.isAbsolute, if_neg (by decide), isPos] at isAction
  dsimp only at isAction
  rw [isSym] at isAction
  dsimp only at isAction
  rw [unrelaxed, if_neg Bool.false_ne_true] at isAction
  exact ⟨symPos, isSym, isAction⟩

theorem writes_local (isLocal : ref.sym.binding = .local) {sectionIndex : Nat} {va : UInt64}
    (isSection : ref.sym.sectionIndex = some sectionIndex)
    (isAddress : layout.addressOf ref.objId sectionIndex = some va) :
    link.Writes symbols layout ref (va + ref.sym.value + ref.reloc.addend.toUInt64) := by
  intro index _ action isAction
  rcases resolveRelocAction_absolute isRef isAction with ⟨symPos, _, chosen⟩
  have found : (link.applyCtx symbols layout index).layout.addressOf ref.objId sectionIndex =
      some va := (addressOf_withDynamicRelocs _ _ _ _).trans isAddress
  rw [if_pos isLocal, ApplyCtx.localTarget, isSection] at chosen
  dsimp only at chosen
  rw [found] at chosen
  cases chosen
  refine ⟨_, rfl, rfl, ?_⟩
  exact congrArg (fun word => some (Field.u64 word)) (toUInt64_toInt64_add _ _)

theorem writes_global (isGlobal : ref.sym.binding ≠ .local) {res : SymbolResolution}
    (found : (link.finalized symbols layout).lookup ref.sym.name = some res)
    (isDefined : res.isDefined = true) :
    link.Writes symbols layout ref (res.virtualAddress + ref.reloc.addend.toUInt64) := by
  intro index isIndex action isAction
  rcases resolveRelocAction_absolute isRef isAction with ⟨symPos, isSym, chosen⟩
  rw [if_neg isGlobal] at chosen
  have known : (link.applyCtx symbols layout index).resolutionOf ref.objId symPos ref.sym =
      none ∨ (link.applyCtx symbols layout index).resolutionOf ref.objId symPos ref.sym =
        some res := by
    rw [ApplyCtx.resolutionOf, if_neg isGlobal]
    rcases isIndex with rfl | rfl
    · exact Or.inr found
    · change SymIndex.resolution (SymIndex.build _ _) _ _ = _ ∨
        SymIndex.resolution (SymIndex.build _ _) _ _ = _
      rw [SymIndex.resolution, SymIndex.build, List.getElem?_map, isRef.isObject,
        Option.map_some, Option.bind_some, List.getElem?_map, isSym, Option.map_some,
        Option.bind_some, id, SymIndex.entry]
      split
      · exact Or.inl rfl
      · exact Or.inr found
  rcases known with missing | known
  · rw [missing] at chosen
    cases chosen
  · rw [known, ApplyCtx.globalTarget, if_pos isDefined] at chosen
    cases chosen
    refine ⟨_, rfl, rfl, ?_⟩
    exact congrArg (fun word => some (Field.u64 word)) (toUInt64_toInt64_add _ _)

theorem writes_of_entry {place value : UInt64}
    (isEntry : ref.entry (link.finalized symbols layout) layout =
      some (.relative place value)) :
    place = ref.site ∧ link.Writes symbols layout ref value := by
  by_cases isLocal : ref.sym.binding = .local
  · rcases (entry_relative_local isLocal _).mp isEntry with
      ⟨_, sectionIndex, va, isSection, isAddress, samePlace, rfl⟩
    exact ⟨samePlace, writes_local isRef isLocal isSection isAddress⟩
  · rcases (entry_relative_global isLocal _).mp isEntry with
      ⟨res, found, taken, samePlace, rfl⟩
    exact ⟨samePlace, writes_global isRef isLocal found taken.1⟩

end Written

/-! ## The marks -/

theorem mem_collected_relative (isEtDyn : link.etDyn = true) (table : SymbolTable)
    (entry : UInt64 × UInt64) : entry ∈ (link.collected table layout).relative ↔
      (∃ ref : AbsoluteRef, ref.Of link.objects layout ∧
        ref.entry table layout = some (.relative entry.1 entry.2)) ∨
      ∃ place id, layout.gotSlots[place]? = some id ∧
        slotSite table layout place id = some (.relative entry.1 entry.2) := by
  have isRelative (found : DynamicSite) :
      found.relative? = some entry ↔ found = .relative entry.1 entry.2 := by
    cases found <;> simp [DynamicSite.relative?, Prod.ext_iff]
  rw [collected, if_pos isEtDyn, collectDataAndSymbolicRelocs, mem_sortBy,
    List.mem_filterMap]
  simp only [isRelative, exists_eq_right, List.mem_append, AbsoluteRef.mem_inputSites]
  refine or_congr Iff.rfl ?_
  rw [gotSites, List.mem_filterMap]
  constructor
  · rintro ⟨⟨id, place⟩, isSlot, isEntry⟩
    exact ⟨place, id, List.mem_zipIdx_iff_getElem?.mp isSlot, isEntry⟩
  · rintro ⟨place, id, isSlot, isEntry⟩
    exact ⟨(id, place), List.mem_zipIdx_iff_getElem?.mpr isSlot, isEntry⟩

section Marks

variable (parsed : ∀ obj ∈ link.objects, obj.Parsed)
variable (folding : (link.layoutInput symbols).Folding)
variable (succeeded : (link.layoutInput symbols).computeLayoutIcf = .ok layout)

theorem exists_entry_global {ref : AbsoluteRef} (isGlobal : ref.sym.binding ≠ .local) :
    (∃ place value, ref.entry (link.finalized symbols layout) layout =
      some (.relative place value)) ↔
      ∃ res, symbols.lookup ref.sym.name = some res ∧ TakenAsOwn res := by
  have same := @lookup_finalized link symbols layout ref.sym.name
  simp only [entry_relative_global isGlobal]
  constructor
  · rintro ⟨_, _, res, found, taken, _⟩
    rw [found, Option.map_some] at same
    rcases Option.map_eq_some_iff.mp same.symm with ⟨old, isOld, sameDefinition⟩
    exact ⟨old, isOld, (takenAsOwn_iff sameDefinition).mpr taken⟩
  · rintro ⟨old, isOld, taken⟩
    rw [isOld, Option.map_some] at same
    rcases Option.map_eq_some_iff.mp same with ⟨res, found, sameDefinition⟩
    exact ⟨_, _, res, found, (takenAsOwn_iff sameDefinition).mpr taken, rfl, rfl⟩

include parsed folding succeeded

theorem exists_entry_local {ref : AbsoluteRef} (isLocal : ref.sym.binding = .local) :
    (∃ place value, ref.entry (link.finalized symbols layout) layout =
      some (.relative place value)) ↔
      ref.sym.isIfunc = false ∧ ∃ sectionIndex, ref.sym.sectionIndex = some sectionIndex ∧
        ((∃ member, (link.layoutInput symbols).IsPassedThrough member ∧
          member.label = (ref.objId, sectionIndex)) ∨
            (link.layoutInput symbols).Stored layout (ref.objId, sectionIndex)) := by
  rcases LayoutInput.computed_of_ok succeeded with ⟨computed⟩
  have stored (sectionIndex : Nat) := @LayoutInput.isSome_addressOf_iff_stored
    (link.layoutInput symbols) parsed layout computed folding (ref.objId, sectionIndex)
  simp only [entry_relative_local isLocal, ← stored, Option.isSome_iff_exists]
  constructor
  · rintro ⟨_, _, notIfunc, sectionIndex, va, isSection, isAddress, _⟩
    exact ⟨notIfunc, sectionIndex, isSection, va, isAddress⟩
  · rintro ⟨notIfunc, sectionIndex, isSection, va, isAddress⟩
    exact ⟨_, _, notIfunc, sectionIndex, va, isSection, isAddress, rfl, rfl⟩

theorem marks_iff_of_local {ref : AbsoluteRef} (isLocal : ref.sym.binding = .local) :
    ((∃ place value, ref.entry (link.finalized symbols layout) layout =
      some (.relative place value)) ↔ link.Biased symbols layout ref) ↔
      link.TargetMoves symbols layout ref := by
  rw [exists_entry_local parsed folding succeeded isLocal, Biased, if_pos isLocal]
  constructor
  · intro marked
    refine ⟨fun _ notIfunc sectionIndex isSection passed => ?_,
      fun isGlobal => absurd isLocal isGlobal, fun isGlobal => absurd isLocal isGlobal,
      fun isGlobal => absurd isLocal isGlobal⟩
    rcases (marked.mp ⟨notIfunc, sectionIndex, isSection, Or.inl passed⟩).2 with
      ⟨other, isOther, stored⟩
    rw [isSection, Option.some.injEq] at isOther
    exact isOther ▸ stored
  · intro moves
    refine and_congr_right fun notIfunc => exists_congr fun sectionIndex =>
      and_congr_right fun isSection => or_iff_right_of_imp fun passed => ?_
    exact moves.ownSection isLocal notIfunc sectionIndex isSection passed

end Marks

section Global

variable (defined : link.defined = some symbols)
variable {ref : AbsoluteRef} {res : SymbolResolution}
variable (found : symbols.lookup ref.sym.name = some res)

include defined found

theorem definedIn_of_provided {sym : ProvidedSymbol} (isProvided : sym ∈ link.provided)
    (sameName : sym.name = ref.sym.name) :
    res.definedIn.isSome = true ∧ res.sectionIndex = none := by
  rcases provided_definedNowhere defined isProvided with ⟨other, isOther, both⟩
  rw [sameName, found, Option.some.injEq] at isOther
  exact isOther ▸ both

theorem movesWith_iff_of_own (notImport : res.isImport = false) :
    link.MovesWith symbols layout ref.sym.name res ↔ res.definedIn.isSome = true ∧
      (res.common = none → (∀ objId sectionIndex, res.definedIn = some objId →
        res.sectionIndex = some sectionIndex →
          (link.layoutInput symbols).Stored layout (objId.toNat, sectionIndex)) ∧
        (res.sectionIndex = none →
          ∃ sym ∈ link.provided, sym.name = ref.sym.name ∧ sym.Moves layout)) := by
  constructor
  · intro moves
    cases moves with
    | copied isImport _ => exact absurd isImport (by rw [notImport]; decide)
    | common isDefined isCommon =>
        exact ⟨isDefined, fun uncommon => absurd isCommon (by rw [uncommon]; decide)⟩
    | inSection objId sectionIndex isDefined _ isSection stored =>
        refine ⟨by rw [isDefined]; rfl, fun _ => ⟨fun other index isOther isIndex => ?_,
          fun nowhere => nomatch nowhere.symm.trans isSection⟩⟩
        rw [isDefined, Option.some.injEq] at isOther
        rw [isSection, Option.some.injEq] at isIndex
        rw [← isOther, ← isIndex]
        exact stored
    | provided sym isProvided sameName moves =>
        rcases definedIn_of_provided defined found isProvided sameName with
          ⟨isDefined, nowhere⟩
        refine ⟨isDefined, fun _ => ⟨fun _ _ _ isSection => ?_,
          fun _ => ⟨sym, isProvided, sameName, moves⟩⟩⟩
        exact nomatch nowhere.symm.trans isSection
  · rintro ⟨isDefined, each⟩
    cases common : res.common with
    | some _ => exact .common isDefined (by rw [common]; rfl)
    | none =>
        rcases Option.isSome_iff_exists.mp isDefined with ⟨objId, definedIn⟩
        cases isSection : res.sectionIndex with
        | some sectionIndex =>
            exact .inSection objId sectionIndex definedIn common isSection
              ((each common).1 objId sectionIndex definedIn isSection)
        | none =>
            rcases (each common).2 isSection with ⟨sym, isProvided, sameName, moves⟩
            exact .provided sym isProvided sameName moves

omit defined in
theorem movesWith_iff_of_import (importsNowhere : symbols.ImportsNowhere)
    (isImport : res.isImport = true) :
    link.MovesWith symbols layout ref.sym.name res ↔ res.copyReloc = true ∨
      ∃ sym ∈ link.provided, sym.name = ref.sym.name ∧ sym.Moves layout := by
  rcases importsNowhere _ res found isImport with ⟨uncommon, apart⟩
  constructor
  · intro moves
    cases moves with
    | copied _ copyReloc => exact Or.inl copyReloc
    | common _ isCommon => exact absurd isCommon (by rw [uncommon]; decide)
    | inSection _ _ isDefined _ isSection _ =>
        rcases apart with undefined | nowhere
        · exact nomatch undefined.symm.trans isDefined
        · exact nomatch nowhere.symm.trans isSection
    | provided sym isProvided sameName moves => exact Or.inr ⟨sym, isProvided, sameName, moves⟩
  · rintro (copyReloc | ⟨sym, isProvided, sameName, moves⟩)
    · exact .copied isImport copyReloc
    · exact .provided sym isProvided sameName moves

end Global

theorem marks_iff_of_global (defined : link.defined = some symbols)
    (importsNowhere : symbols.ImportsNowhere) {ref : AbsoluteRef}
    (isGlobal : ref.sym.binding ≠ .local) :
    ((∃ place value, ref.entry (link.finalized symbols layout) layout =
      some (.relative place value)) ↔ link.Biased symbols layout ref) ↔
      link.TargetMoves symbols layout ref := by
  rw [exists_entry_global isGlobal, Biased, if_neg isGlobal]
  cases found : symbols.lookup ref.sym.name with
  | none =>
      refine iff_of_true (by simp) ⟨fun isLocal => absurd isLocal isGlobal, ?_, ?_, ?_⟩ <;>
        exact fun _ res isRes => absurd (found.symm.trans isRes).symm (Option.some_ne_none _)
  | some res =>
      simp only [Option.some.injEq, exists_eq_left']
      have only {other : SymbolResolution} (isOther : symbols.lookup ref.sym.name = some other) :
          other = res := Option.some.inj (isOther.symm.trans found)
      cases isImport : res.isImport with
      | false =>
          rw [movesWith_iff_of_own defined found isImport, TakenAsOwn,
            SymbolResolution.isDefined, isImport, Bool.or_false]
          constructor
          · intro marked
            refine ⟨fun isLocal => absurd isLocal isGlobal, ?_, ?_, ?_⟩
            · intro _ other isOther notIfunc _ uncommon objId sectionIndex definedIn isSection
              cases only isOther
              have moves := (marked.mp ⟨by rw [definedIn]; rfl, Or.inl rfl, notIfunc⟩).2
              exact (moves.2 uncommon).1 objId sectionIndex definedIn isSection
            · intro _ other isOther notIfunc _ uncommon isDefined nowhere
              cases only isOther
              exact ((marked.mp ⟨isDefined, Or.inl rfl, notIfunc⟩).2.2 uncommon).2 nowhere
            · intro _ other isOther _ imports
              cases only isOther
              exact absurd imports (by rw [isImport]; decide)
          · intro moves
            constructor
            · rintro ⟨isDefined, _, notIfunc⟩
              exact ⟨notIfunc, isDefined, fun uncommon =>
                ⟨moves.inSection isGlobal res found notIfunc isImport uncommon,
                  moves.constant isGlobal res found notIfunc isImport uncommon isDefined⟩⟩
            · rintro ⟨notIfunc, isDefined, _⟩
              exact ⟨isDefined, Or.inl rfl, notIfunc⟩
      | true =>
          rw [movesWith_iff_of_import found importsNowhere isImport, TakenAsOwn,
            SymbolResolution.isDefined, isImport, Bool.or_true]
          constructor
          · intro marked
            refine ⟨fun isLocal => absurd isLocal isGlobal, ?_, ?_, ?_⟩
            · intro _ other isOther _ notImport
              cases only isOther
              exact absurd isImport (by rw [notImport]; decide)
            · intro _ other isOther _ notImport
              cases only isOther
              exact absurd isImport (by rw [notImport]; decide)
            · intro _ other isOther notIfunc _ notCopied sym isProvided sameName moves
              cases only isOther
              have taken := marked.mpr ⟨notIfunc, Or.inr ⟨sym, isProvided, sameName, moves⟩⟩
              rw [notCopied] at taken
              rcases taken.2.1 with impossible | impossible <;> cases impossible
          · intro moves
            constructor
            · rintro ⟨_, isOwn, notIfunc⟩
              exact ⟨notIfunc, Or.inl (isOwn.resolve_left (by decide))⟩
            · rintro ⟨notIfunc, copied | ⟨sym, isProvided, sameName, isMoving⟩⟩
              · exact ⟨rfl, Or.inr copied, notIfunc⟩
              · refine ⟨rfl, Or.inr (by_contra fun notCopied => ?_), notIfunc⟩
                exact moves.exported isGlobal res found notIfunc isImport
                  (Bool.eq_false_iff.mpr notCopied) sym isProvided sameName isMoving

/-- The marks are right just when every target that is no IFUNC moves or is left alone. -/
theorem marksMoving_iff (link : Link) (run : TableRun) (symbols : SymbolTable)
    (layout : Layout) (isEtDyn : link.etDyn = true)
    (parsed : ∀ obj ∈ link.objects, obj.Parsed)
    (imported : run.imported = .ok link.symbols) (defined : link.defined = some symbols)
    (folding : (link.layoutInput symbols).Folding)
    (succeeded : (link.layoutInput symbols).computeLayoutIcf = .ok layout) :
    link.MarksMoving symbols layout ↔
      ∀ ref : AbsoluteRef, ref.Of link.objects layout →
        link.TargetMoves symbols layout ref := by
  have importsNowhere := importsNowhere_defined defined imported
  have each (ref : AbsoluteRef) : ((∃ place value,
      ref.entry (link.finalized symbols layout) layout = some (.relative place value)) ↔
        link.Biased symbols layout ref) ↔ link.TargetMoves symbols layout ref := by
    by_cases isLocal : ref.sym.binding = .local
    · exact marks_iff_of_local parsed folding succeeded isLocal
    · exact marks_iff_of_global defined importsNowhere isLocal
  constructor
  · intro marking ref isRef
    exact (each ref).mp (marking.marks ref isRef)
  · intro targets
    exact ⟨mem_collected_relative isEtDyn _,
      fun ref isRef => (each ref).mpr (targets ref isRef),
      fun ref isRef place value => writes_of_entry isRef⟩

/-! ### A pointer

An object with one absolute reference, to a symbol in a section or to a constant. -/

private def pointerArena : InputArena where
  mmaps := []
  owned := [[0xc3], [0, 0, 0, 0, 0, 0, 0, 0]]

private def codeSection : InputSection where
  index := 1
  name := nameOf ".text"
  kind := .text
  shType := 1
  data := ⟨.owned 0, 0, 1⟩
  align := 1
  size := 1
  flags := 6
  relocs := []

private def pointerSection : InputSection where
  index := 2
  name := nameOf ".data"
  kind := .data
  shType := 1
  data := ⟨.owned 1, 0, 8⟩
  align := 8
  size := 8
  flags := 3
  relocs := [⟨0, 1, 2, 0⟩]

private def startSymbol : InputSymbol where
  index := 1
  name := nameOf "_start"
  binding := .global
  isUndefined := false
  isCommon := false
  isIfunc := false
  stType := 2
  visibility := 0
  sectionIndex := some 1
  value := 0
  size := 1

private def limitSymbol (constant : Bool) : InputSymbol where
  index := 2
  name := nameOf "limit"
  binding := .global
  isUndefined := false
  isCommon := false
  isIfunc := false
  stType := 0
  visibility := 0
  sectionIndex := if constant then none else some 2
  value := 4096
  size := 0

private def pointerObject (constant : Bool) : InputObject :=
  InputObject.assemble "pointer.o" 2 2 [codeSection, pointerSection]
    [startSymbol, limitSymbol constant] []

def pointerRun (constant : Bool) : TableRun where
  resolving := [.addObject "pointer.o",
    .processObjectExcluding 0 (pointerObject constant) []]
  libraries := []
  ensured := []
  late := []

def pointerLink (constant : Bool) : Link where
  args := { pie := true }
  baseAddress := 0
  arena := pointerArena
  objects := [pointerObject constant]
  symbols :=
    match (pointerRun constant).imported with
    | .ok table => table
    | .error _ => SymbolTable.new

def pointerTable (constant : Bool) : SymbolTable :=
  defineAll (pointerLink constant).predefined []

private theorem pointerObject_parsed (constant : Bool) :
    ∀ obj ∈ (pointerLink constant).objects, obj.Parsed := by
  intro obj present
  rw [List.mem_singleton.mp present]
  cases constant <;>
    exact InputObject.assemble_parsed _ _ _ _ _ _ (by decide) (by decide) (by decide)
      (by decide)

private theorem pointer_layout (constant : Bool)
    (isOk : ((pointerLink constant).layoutInput
      (pointerTable constant)).computeLayoutIcf.toOption.any
        (fun layout => (layout.addressOf 0 2).isSome) = true) :
    ∃ layout va, ((pointerLink constant).layoutInput
      (pointerTable constant)).computeLayoutIcf = .ok layout ∧
        layout.addressOf 0 2 = some va := by
  cases computed : ((pointerLink constant).layoutInput
      (pointerTable constant)).computeLayoutIcf with
  | error failure =>
      rw [computed] at isOk
      exact nomatch isOk
  | ok layout =>
      rw [computed] at isOk
      rcases Option.isSome_iff_exists.mp isOk with ⟨va, found⟩
      exact ⟨layout, va, rfl, found⟩

private def pointerRef (constant : Bool) (va : UInt64) : AbsoluteRef where
  objId := 0
  obj := pointerObject constant
  sec := pointerSection
  siteVa := va
  reloc := ⟨0, 1, 2, 0⟩
  sym := limitSymbol constant

private theorem pointerRef_of {constant : Bool} {layout : Layout} {va : UInt64} :
    (pointerRef constant va).Of (pointerLink constant).objects layout ↔
      layout.addressOf 0 2 = some va := by
  refine ⟨fun isRef => isRef.placed, fun found => ⟨rfl, List.mem_cons_of_mem _
    List.mem_cons_self, (by decide : pointerSection.isAlloc = true), found,
    List.mem_cons_self, rfl, ?_⟩⟩
  cases constant <;> rfl

private theorem eq_pointerRef {constant : Bool} {layout : Layout} {ref : AbsoluteRef}
    (isRef : ref.Of (pointerLink constant).objects layout) :
    ref = pointerRef constant ref.siteVa := by
  rcases ref with ⟨objId, obj, sec, siteVa, reloc, sym⟩
  rcases isRef with ⟨isObject, isSection, _, _, isReloc, _, isTarget⟩
  dsimp only at isObject isSection isReloc isTarget
  cases objId with
  | succ objId => exact nomatch isObject
  | zero =>
      cases isObject
      rcases List.mem_cons.mp isSection with rfl | isLast
      · exact absurd isReloc List.not_mem_nil
      · cases List.mem_singleton.mp isLast
        cases List.mem_singleton.mp isReloc
        have target : (pointerObject constant).symbolByIndex 2 = some (limitSymbol constant) := by
          cases constant <;> rfl
        cases Option.some.inj (target.symm.trans isTarget)
        rfl

private theorem pointer_known (constant : Bool) :
    ∃ res, (pointerTable constant).lookup (nameOf "limit") = some res ∧
      res.definedIn = some 0 ∧ res.isImport = false ∧ res.isIfunc = false ∧
        res.common = none ∧ res.sectionIndex = if constant then none else some 2 := by
  have known : ((pointerTable constant).lookup (nameOf "limit")).map (fun res =>
      (res.definedIn, res.isImport, res.isIfunc, res.common, res.sectionIndex)) =
        some (some 0, false, false, none, if constant then none else some 2) := by
    cases constant <;> rfl
  rcases Option.map_eq_some_iff.mp known with ⟨res, isRes, each⟩
  simp only [Prod.mk.injEq] at each
  exact ⟨res, isRes, each⟩

theorem marksMoving_pointer : ∃ layout,
    ((pointerLink false).layoutInput (pointerTable false)).computeLayoutIcf = .ok layout ∧
      (pointerLink false).MarksMoving (pointerTable false) layout := by
  rcases pointer_layout false (by decide +kernel) with ⟨layout, va, computed, found⟩
  refine ⟨layout, computed, (marksMoving_iff (pointerLink false) (pointerRun false)
    (pointerTable false) layout rfl (pointerObject_parsed false) rfl rfl
    (fun _ impossible => nomatch impossible) computed).mpr fun ref isRef => ?_⟩
  rw [eq_pointerRef isRef]
  rcases pointer_known false with ⟨res, isRes, isDefined, notImport, _, _, isSection⟩
  have only {other : SymbolResolution} (isOther : (pointerTable false).lookup
      (pointerRef false ref.siteVa).sym.name = some other) : other = res :=
    Option.some.inj (isOther.symm.trans isRes)
  refine ⟨fun impossible => (nomatch impossible), ?_, ?_, ?_⟩
  · intro _ other isOther _ _ _ objId sectionIndex isOwner isIndex
    cases only isOther
    rw [isDefined, Option.some.injEq] at isOwner
    rw [isSection, if_neg Bool.false_ne_true, Option.some.injEq] at isIndex
    rcases LayoutInput.computed_of_ok computed with ⟨isComputed⟩
    rw [← isOwner, ← isIndex, LayoutInput.stored_iff isComputed]
    have contributes : ((pointerLink false).layoutInput (pointerTable false)).contributors.any
        (fun host => (0, 2) == host.label) = true := by decide +kernel
    rcases List.any_eq_true.mp contributes with ⟨host, isHost, same⟩
    exact ⟨host, isHost, Or.inl (beq_iff_eq.mp same)⟩
  · intro _ other isOther _ _ _ _ nowhere
    cases only isOther
    exact nomatch nowhere.symm.trans isSection
  · intro _ other isOther _ isImport
    cases only isOther
    exact nomatch notImport.symm.trans isImport

/-- The constant gets an entry. -/
theorem constant_not_marksMoving :
    (pointerLink true).etDyn = true ∧
    (∀ obj ∈ (pointerLink true).objects, obj.Parsed) ∧
    (pointerRun true).imported = .ok (pointerLink true).symbols ∧
    (pointerLink true).defined = some (pointerTable true) ∧
    ((pointerLink true).layoutInput (pointerTable true)).Folding ∧
    ∃ layout, ((pointerLink true).layoutInput (pointerTable true)).computeLayoutIcf =
        .ok layout ∧ ¬ (pointerLink true).MarksMoving (pointerTable true) layout := by
  rcases pointer_layout true (by decide +kernel) with ⟨layout, va, computed, found⟩
  refine ⟨rfl, pointerObject_parsed true, rfl, rfl,
    fun _ impossible => absurd impossible.symm (Option.some_ne_none _), layout, computed,
    fun marking => ?_⟩
  rcases pointer_known true with ⟨res, isRes, isDefined, notImport, notIfunc, uncommon, nowhere⟩
  have isGlobal : (pointerRef true va).sym.binding ≠ .local := by
    intro isLocal
    cases isLocal
  have entered := (@exists_entry_global (pointerLink true) (pointerTable true) layout
    (pointerRef true va) isGlobal).mpr ⟨res, isRes,
      by rw [SymbolResolution.isDefined, isDefined]; rfl, Or.inl notImport, notIfunc⟩
  have biased := (marking.marks _ (pointerRef_of.mpr found)).mp entered
  rw [Biased, if_neg isGlobal] at biased
  rcases biased with ⟨other, isOther, _, moves⟩
  cases Option.some.inj (isOther.symm.trans isRes)
  cases moves with
  | copied isImport _ => cases notImport.symm.trans isImport
  | common _ isCommon => exact absurd isCommon (by rw [uncommon]; decide)
  | inSection _ _ _ _ isSection _ => cases nowhere.symm.trans isSection
  | provided sym isProvided _ _ =>
      have none : (pointerLink true).provided = [] := rfl
      rw [none] at isProvided
      exact absurd isProvided List.not_mem_nil

end Link

end Peony
