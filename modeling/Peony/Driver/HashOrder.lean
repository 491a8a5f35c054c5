import Peony.Driver.Link
import Peony.Layout.Fingerprint
import Peony.Symbols.Numbered

namespace Peony

/-! Where the driver enumerates the symbol table it sorts what it finds, or writes
the same value for each, so that the order of the enumeration shows nowhere. -/

section Agree

variable {first second : SymbolTable} (agree : SymbolTable.Agree first second)

include agree

/-! ## The scan -/

theorem assignWeakGotId_agree (obj : InputObject) (reloc : InputReloc) :
    SymbolTable.Agree (assignWeakGotId obj first reloc)
      (assignWeakGotId obj second reloc) := by
  rw [assignWeakGotId, assignWeakGotId]
  split
  · split
    · rw [isWeakUndef, isWeakUndef, agree.lookup]
      split
      · exact agree.ensureId _
      · exact agree
    · exact agree
  · exact agree

theorem assignWeakGotIds_agree (objects : List InputObject) :
    SymbolTable.Agree (assignWeakGotIds objects first)
      (assignWeakGotIds objects second) := by
  rw [assignWeakGotIds, assignWeakGotIds]
  refine SymbolTable.Agree.foldl (fun obj agree => ?_) agree objects
  exact SymbolTable.Agree.foldl
    (fun reloc agree => assignWeakGotId_agree agree obj reloc) agree _

theorem scanRelocations_agree (objects : List InputObject) (shared : Bool) :
    scanRelocations objects first shared = scanRelocations objects second shared := by
  have slots : Scan.relocSlot first = Scan.relocSlot second := by
    funext shared objId obj reloc
    simp only [Scan.relocSlot, Scan.symSlot, Scan.plainSlot, Scan.relaxesToInitialExec,
      Scan.tlsRef, agree.lookup]
  rw [scanRelocations, scanRelocations]
  simp only [Scan.scanObject, slots]

theorem copyRelocSymbols_agree (objects : List InputObject) :
    copyRelocSymbols objects first = copyRelocSymbols objects second := by
  have copies : Copy.relocCopy first = Copy.relocCopy second := by
    funext obj reloc
    rw [Copy.relocCopy, Copy.relocCopy, agree.lookup]
  have collects : Copy.collectObject first = Copy.collectObject second := by
    funext obj
    rw [Copy.collectObject, Copy.collectObject, copies]
  rw [copyRelocSymbols, copyRelocSymbols, collects]

/-! ## Counts and exports -/

theorem byId_agree : first.byId = second.byId := by
  funext id
  rw [SymbolTable.byId, SymbolTable.byId, agree.nameById, agree.lookup]

theorem countTlsRelocs_agree : countTlsRelocs first = countTlsRelocs second := by
  have imported : countsImported first = countsImported second := by
    funext ref
    cases ref with
    | «local» objId symPos => rfl
    | global id => rw [countsImported, countsImported, byId_agree agree]
  funext tls shared
  rw [countTlsRelocs, countTlsRelocs, imported]

theorem countDynamicRelocs_agree (objects : List InputObject) :
    countDynamicRelocs objects first = countDynamicRelocs objects second := by
  have counts : countObject first = countObject second := by
    have relocs : countReloc first = countReloc second := by
      funext obj reloc
      simp only [countReloc, countSym, agree.lookup]
    funext obj
    rw [countObject, countObject, relocs]
  have slots : countSlot first = countSlot second := by
    funext id
    rw [countSlot, countSlot, byId_agree agree]
  funext gotSyms tls shared
  rw [countDynamicRelocs, countDynamicRelocs, counts, slots, countTlsRelocs_agree agree]

theorem exportsOf_agree (args : Args) (versionScript : Option VersionScript) :
    exportsOf args versionScript first = exportsOf args versionScript second := by
  have chosen : isExported args versionScript first =
      isExported args versionScript second := by
    funext entry
    rw [isExported, isExported, excludedByExcludeLibs, excludedByExcludeLibs,
      agree.objectPaths]
  rw [exportsOf, exportsOf, chosen]
  split
  · refine sortBy_key_eq_of_perm (fun sym : ExportSym => sym.name)
      (((agree.entries_perm.map _).filter _).map _) ?_
    intro sym isSym other isOther same
    rcases List.mem_map.mp isSym with ⟨entry, isEntry, rfl⟩
    rcases List.mem_map.mp isOther with ⟨another, isAnother, rfl⟩
    rcases List.mem_map.mp (List.mem_of_mem_filter isEntry) with ⟨found, isFound, rfl⟩
    rcases List.mem_map.mp (List.mem_of_mem_filter isAnother) with ⟨next, isNext, rfl⟩
    rw [SymbolTable.entry_eq_of_name isFound isNext (Std.LawfulEqCmp.eq_of_compare same)]
  · rfl

/-! ## Symbols of the linker -/

theorem lacksDefinition_agree : first.lacksDefinition = second.lacksDefinition := by
  funext name
  rw [SymbolTable.lacksDefinition, SymbolTable.lacksDefinition, agree.lookup]

theorem provideFixed_agree (provided : List ProvidedSymbol) (names : List Name) :
    SymbolTable.Agree (names.foldl provideFixed (first, provided)).1
      (names.foldl provideFixed (second, provided)).1 := by
  induction names generalizing first second provided with
  | nil => exact agree
  | cons name rest induction =>
      rw [List.foldl_cons, List.foldl_cons, provideFixed, provideFixed]
      simp only [lacksDefinition_agree agree]
      split
      · exact induction (agree.defineAbsolute name 0) _
      · exact induction agree _

omit agree in
theorem fst_foldl_provide (syms : List ProvidedSymbol)
    (state : SymbolTable × List ProvidedSymbol) :
    (syms.foldl (fun state sym =>
      (state.1.defineAbsolute sym.name 0, state.2 ++ [sym])) state).1 =
      (syms.map ProvidedSymbol.name).foldl (fun table name => table.defineAbsolute name 0)
        state.1 := by
  induction syms generalizing state with
  | nil => rfl
  | cons sym rest induction => exact induction _

theorem defineAll_agree {names others : List Name} (perm : names.Perm others) :
    SymbolTable.Agree
      (names.foldl (fun table name => table.defineAbsolute name 0) first)
      (others.foldl (fun table name => table.defineAbsolute name 0) second) := by
  induction perm generalizing first second with
  | nil => exact agree
  | cons name _ induction => exact induction (agree.defineAbsolute name 0)
  | swap name other names =>
      simp only [List.foldl_cons]
      refine SymbolTable.Agree.foldl (fun name agree => agree.defineAbsolute name 0) ?_ _
      exact ((agree.defineAbsolute other 0).defineAbsolute name 0).trans
        (SymbolTable.Agree.defineAbsolute_comm second other name 0)
  | trans _ _ isFirst isSecond =>
      exact (isFirst agree).trans (isSecond (SymbolTable.Agree.refl second))

theorem predefineLinkerSymbols_agree :
    SymbolTable.Agree (predefineLinkerSymbols first).1 (predefineLinkerSymbols second).1 := by
  have fixed := provideFixed_agree agree [] linkerSyms
  rw [predefineLinkerSymbols, predefineLinkerSymbols, fst_foldl_provide, fst_foldl_provide]
  exact defineAll_agree fixed (((fixed.entries_perm.filter _).filterMap _).map _)

theorem applyDefsym_agree (definitions : List Text) :
    Option.Rel SymbolTable.Agree (applyDefsym first definitions)
      (applyDefsym second definitions) := by
  rw [applyDefsym, applyDefsym]
  cases definitions.mapM parseDefsym with
  | none => exact Option.Rel.none
  | some parsed =>
      refine Option.Rel.some ?_
      rw [defineAll, defineAll]
      exact SymbolTable.Agree.foldl
        (fun definition agree => agree.defineAbsolute definition.1 definition.2) agree _

end Agree

/-! ## The preparation of a link -/

namespace Link

def withSymbols (link : Link) (table : SymbolTable) : Link := { link with symbols := table }

variable {link : Link} {table : SymbolTable}
  (agree : SymbolTable.Agree link.symbols table)

section Agree

include agree

theorem numbered_withSymbols :
    SymbolTable.Agree link.numbered (link.withSymbols table).numbered :=
  assignWeakGotIds_agree agree link.objects

theorem scan_withSymbols : (link.withSymbols table).scan = link.scan :=
  (scanRelocations_agree (numbered_withSymbols agree) link.objects link.args.shared).symm

theorem copyRelocs_withSymbols :
    (link.withSymbols table).copyRelocs = link.copyRelocs := by
  rw [copyRelocs, copyRelocs, copyRelocSymbols_agree (numbered_withSymbols agree)]
  rfl

theorem copied_withSymbols :
    SymbolTable.Agree link.copied (link.withSymbols table).copied := by
  rw [copied, copied, copyRelocs_withSymbols agree,
    (numbered_withSymbols agree).nameById]
  exact SymbolTable.Agree.foldl (fun name agree => agree.markCopyReloc name)
    (numbered_withSymbols agree) _

theorem imports_withSymbols : (link.withSymbols table).imports = link.imports := by
  refine (sortBy_key_eq_of_perm (fun name : Name => name)
    (((copied_withSymbols agree).entries_perm.filter _).map _) ?_).symm
  exact fun name _ other _ same => Std.LawfulEqCmp.eq_of_compare same

theorem indexed_withSymbols :
    SymbolTable.Agree link.indexed (link.withSymbols table).indexed := by
  rw [indexed, indexed, imports_withSymbols agree]
  exact SymbolTable.Agree.foldl (fun entry agree => agree.modify entry.1 _)
    (copied_withSymbols agree) _

theorem dynamicCounts_withSymbols :
    (link.withSymbols table).dynamicCounts = link.dynamicCounts := by
  rw [dynamicCounts, dynamicCounts, imports_withSymbols agree,
    ← countDynamicRelocs_agree (indexed_withSymbols agree),
    ← countTlsRelocs_agree (indexed_withSymbols agree), gotSyms, gotSyms, tlsGot, tlsGot,
    scan_withSymbols agree]
  rfl

theorem dynamic_withSymbols : (link.withSymbols table).dynamic = link.dynamic := by
  have versions : (link.withSymbols table).importVersions = link.importVersions := by
    rw [importVersions, importVersions, imports_withSymbols agree,
      (copied_withSymbols agree).lookup]
  have sonames : (link.withSymbols table).importSonames = link.importSonames := by
    rw [importSonames, importSonames, imports_withSymbols agree,
      (copied_withSymbols agree).lookup]
  have exported : (link.withSymbols table).exports = link.exports :=
    (exportsOf_agree (indexed_withSymbols agree) link.args link.versionScript).symm
  have info : (link.withSymbols table).dynamicInfo = link.dynamicInfo := by
    rw [dynamicInfo, dynamicInfo, imports_withSymbols agree, versions, sonames, exported,
      dynamicCounts_withSymbols agree, copyRelocs_withSymbols agree]
    rfl
  rw [dynamic, dynamic, dynamicNeeded, dynamicNeeded, info, imports_withSymbols agree]
  rfl

theorem defined_withSymbols :
    Option.Rel SymbolTable.Agree link.defined (link.withSymbols table).defined :=
  applyDefsym_agree (predefineLinkerSymbols_agree (indexed_withSymbols agree))
    link.args.defsym

theorem layoutInput_withSymbols (symbols : SymbolTable) :
    (link.withSymbols table).layoutInput symbols = link.layoutInput symbols := by
  rw [layoutInput, layoutInput, dynamic_withSymbols agree, gotSyms, gotSyms, pltSyms,
    pltSyms, tlsGot, tlsGot, scan_withSymbols agree]
  rfl

end Agree

/-! ## Numbered tables -/

section Numbered

variable {table : SymbolTable} (numbered : table.Numbered)

include numbered

theorem numbered_assignWeakGotIds (objects : List InputObject) :
    (assignWeakGotIds objects table).Numbered := by
  rw [assignWeakGotIds]
  refine SymbolTable.Numbered.foldl (fun obj numbered => ?_) numbered objects
  refine SymbolTable.Numbered.foldl (fun reloc numbered => ?_) numbered _
  rw [assignWeakGotId]
  split
  · split
    · split
      · rename_i weak
        refine numbered.ensureId fun entry found => ?_
        have undefined := weak.2
        rw [isWeakUndef, found, Option.any_some, SymbolResolution.isDefined] at undefined
        cases isDefined : entry.definedIn with
        | none => rfl
        | some objId =>
            rw [isDefined] at undefined
            cases undefined
      · exact numbered
    · exact numbered
  · exact numbered

theorem numbered_predefine : (predefineLinkerSymbols table).1.Numbered :=
  predefineLinkerSymbols_keeps (fun _ name numbered => numbered.defineAbsolute name 0)
    numbered

end Numbered

theorem numbered_defined {link : Link} (numbered : link.symbols.Numbered)
    {symbols : SymbolTable} (defined : link.defined = some symbols) :
    symbols.Numbered := by
  have copied : link.copied.Numbered :=
    SymbolTable.Numbered.foldl
      (fun name numbered => numbered.modify name fun entry => by
        split <;> exact ⟨rfl, rfl, rfl⟩)
      (numbered_assignWeakGotIds numbered link.objects) _
  have indexed : link.indexed.Numbered :=
    SymbolTable.Numbered.foldl
      (fun entry numbered => by
        refine numbered.modify entry.1 fun res => ?_
        exact ⟨rfl, rfl, rfl⟩)
      copied _
  rcases Option.map_eq_some_iff.mp defined with ⟨definitions, -, rfl⟩
  exact SymbolTable.Numbered.foldl
    (fun definition numbered => numbered.defineAbsolute definition.1 definition.2)
    (numbered_predefine indexed) _

/-! ## The layout and its fingerprint -/

/-- What the driver lays out and hashes does not depend on the order in which the
symbol table is enumerated. -/
theorem layout_orderIndependent {link : Link} {table : SymbolTable}
    (agree : SymbolTable.Agree link.symbols table) (numbered : link.symbols.Numbered) :
    (link.defined.map fun symbols => (link.layoutInput symbols).computeLayoutIcf) =
      ((link.withSymbols table).defined.map fun symbols =>
        ((link.withSymbols table).layoutInput symbols).computeLayoutIcf) ∧
    ∀ changed prior,
      (link.defined.map fun symbols =>
        (link.layoutInput symbols).computeLayoutFingerprint changed prior) =
      ((link.withSymbols table).defined.map fun symbols =>
        ((link.withSymbols table).layoutInput symbols).computeLayoutFingerprint
          changed prior) := by
  have related := defined_withSymbols agree
  cases isDefined : link.defined with
  | none =>
      rw [isDefined] at related
      cases isOther : (link.withSymbols table).defined with
      | none => simp only [Option.map_none, implies_true, and_self]
      | some other =>
          rw [isOther] at related
          exact nomatch related
  | some symbols =>
      rw [isDefined] at related
      cases isOther : (link.withSymbols table).defined with
      | none =>
          rw [isOther] at related
          exact nomatch related
      | some other =>
          rw [isOther] at related
          rcases related with ⟨same⟩
          have kept := numbered_defined numbered isDefined
          simp only [Option.map_some, Option.some.injEq, layoutInput_withSymbols agree]
          have input : link.layoutInput other =
              (link.layoutInput symbols).withSymbols other := rfl
          rw [input]
          exact ⟨(LayoutInput.computeLayoutIcf_withSymbols same kept).symm,
            fun changed prior =>
              (LayoutInput.computeLayoutFingerprint_withSymbols same kept changed
                prior).symm⟩

private def orderSymbol (index : Nat) (name : String) (common : Bool)
    (sectionIndex : Option Nat) : InputSymbol where
  index := index
  name := nameOf name
  binding := .global
  isUndefined := false
  isCommon := common
  isIfunc := false
  stType := sttObject
  visibility := 0
  sectionIndex := sectionIndex
  value := 8
  size := 8

private def orderSection : InputSection where
  index := 1
  name := nameOf ".text"
  kind := .text
  shType := shtProgbits
  data := .empty
  align := 16
  size := 16
  flags := shfAlloc ||| shfExecinstr
  relocs := []

private def orderObject : InputObject :=
  .assemble "order.o" 2 4 [orderSection]
    [orderSymbol 1 "_start" false (some 1), orderSymbol 2 "first" true none,
      orderSymbol 3 "second" true none] []

private def orderTable : SymbolTable :=
  match SymbolTable.processAll [⟨orderObject, []⟩] with
  | .ok table => table
  | .error _ => SymbolTable.new

private def orderLink : Link where
  args := {}
  baseAddress := 0x400000
  arena := InputArena.empty
  objects := [orderObject]
  symbols := orderTable

/-- The entries of the table the other way round. -/
private def reversedTable : SymbolTable :=
  { orderTable with
    resolutions := ⟨orderTable.resolutions.entries.reverse,
      (List.perm_nodupKeys (List.reverse_perm _)).mpr
        orderTable.resolutions.nodupKeys⟩ }

theorem orderLink_orderIndependent :
    orderTable.resolutions.keys ≠ reversedTable.resolutions.keys ∧
    (orderLink.defined.map fun symbols =>
        (orderLink.layoutInput symbols).computeLayoutIcf) =
      ((orderLink.withSymbols reversedTable).defined.map fun symbols =>
        ((orderLink.withSymbols reversedTable).layoutInput symbols).computeLayoutIcf) := by
  have processed : SymbolTable.processAll [⟨orderObject, []⟩] = .ok orderTable := by
    rfl
  refine ⟨by decide +kernel, (layout_orderIndependent ?_ ?_).1⟩
  · exact SymbolTable.Agree.of_perm (List.reverse_perm _).symm
  · exact SymbolTable.numbered_processAll processed (by decide +kernel)

end Link

end Peony
