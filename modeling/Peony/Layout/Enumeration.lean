import Peony.Foundation.Sorting
import Peony.Layout.Compute
import Peony.Symbols.Updates

namespace Peony

/-! A layout asks the symbol table for names, for ids, and for its symbols in a
sorted order. Tables that agree on these have the same layouts. -/

/-! ## Sorting -/

/-- Items that the order tells apart are sorted alike in whatever order they
come. -/
theorem sortBy_eq_of_perm {Item : Type} {cmp : Item → Item → Ordering}
    [Std.TransCmp cmp] {first second : List Item} (perm : first.Perm second)
    (distinct : ∀ item ∈ first, ∀ other ∈ first, cmp item other = .eq → item = other) :
    sortBy cmp first = sortBy cmp second := by
  have permuted (items : List Item) : (sortBy cmp items).Perm items :=
    List.perm_insertionSort _ items
  refine List.Perm.eq_of_pairwise ?_ (Sorting.pairwise first) (Sorting.pairwise second)
    (((permuted first).trans perm).trans (permuted second).symm)
  intro item other isItem isOther before after
  refine distinct item ((permuted first).mem_iff.mp isItem) other
    (perm.mem_iff.mpr ((permuted second).mem_iff.mp isOther)) ?_
  exact Std.OrientedCmp.isLE_antisymm (Ordering.ne_gt_iff_isLE.mp before)
    (Ordering.ne_gt_iff_isLE.mp after)

theorem sortBy_key_eq_of_perm {Item Key : Type} [Ord Key] [Std.TransOrd Key]
    (key : Item → Key) {first second : List Item} (perm : first.Perm second)
    (distinct : ∀ item ∈ first, ∀ other ∈ first,
      compare (key item) (key other) = .eq → item = other) :
    sortBy (fun item other => compare (key item) (key other)) first =
      sortBy (fun item other => compare (key item) (key other)) second :=
  have : Std.TransCmp fun item other => compare (key item) (key other) :=
    inferInstanceAs (Std.TransCmp (compareOn key))
  sortBy_eq_of_perm perm distinct

/-! ## What a layout asks -/

namespace LayoutInput

def withSymbols (input : LayoutInput) (table : SymbolTable) : LayoutInput :=
  { input with symbols := table }

variable {input : LayoutInput} {table : SymbolTable}
  (agree : SymbolTable.Agree input.symbols table)

include agree

theorem lookup_withSymbols :
    (input.withSymbols table).symbols.lookup = input.symbols.lookup :=
  agree.lookup.symm

theorem nameById_withSymbols :
    (input.withSymbols table).symbols.nameById = input.symbols.nameById :=
  agree.nameById.symm

theorem commonSyms_withSymbols (numbered : input.symbols.Numbered) :
    (input.withSymbols table).commonSyms = input.commonSyms := by
  rw [commonSyms, commonSyms]
  refine (sortBy_key_eq_of_perm
    (fun common : SymbolId × UInt64 × UInt64 => common.1.toNat)
    (agree.entries_perm.filterMap _) ?_).symm
  intro common isCommon other isOther same
  rcases List.mem_filterMap.mp isCommon with ⟨entry, isEntry, made⟩
  rcases List.mem_filterMap.mp isOther with ⟨another, isAnother, madeOther⟩
  rcases Option.map_eq_some_iff.mp made with ⟨sizes, isSizes, rfl⟩
  rcases Option.map_eq_some_iff.mp madeOther with ⟨others, isOthers, rfl⟩
  have sameEntry := numbered.entry_eq isEntry isAnother (by rw [isSizes]; rfl)
    (by rw [isOthers]; rfl) (UInt32.toNat_inj.mp (Std.LawfulEqCmp.eq_of_compare same))
  subst sameEntry
  rw [isSizes, Option.some.injEq] at isOthers
  rw [isOthers]

theorem definedGlobals_withSymbols :
    (input.withSymbols table).definedGlobals = input.definedGlobals := by
  rw [definedGlobals, definedGlobals]
  refine (sortBy_key_eq_of_perm (fun entry : Name × SymbolResolution => entry.1)
    ((agree.entries_perm.filter _).map _) ?_).symm
  intro entry isEntry other isOther same
  rcases List.mem_map.mp isEntry with ⟨found, isFound, rfl⟩
  rcases List.mem_map.mp isOther with ⟨another, isAnother, rfl⟩
  rw [SymbolTable.entry_eq_of_name (List.mem_of_mem_filter isFound)
    (List.mem_of_mem_filter isAnother) (Std.LawfulEqCmp.eq_of_compare same)]

/-! ## Tables and builders -/

theorem slotResolution_withSymbols :
    (input.withSymbols table).slotResolution = input.slotResolution := by
  funext id
  rw [slotResolution, slotResolution, lookup_withSymbols agree,
    nameById_withSymbols agree]

theorem prebuildDynamic_withSymbols :
    (input.withSymbols table).prebuildDynamic = input.prebuildDynamic := by
  have copied : (input.withSymbols table).copyImports = input.copyImports := by
    funext dynj
    rw [copyImports, copyImports, nameById_withSymbols agree]
  have entries : (input.withSymbols table).importEntry = input.importEntry := by
    funext dynj name nameOff
    rw [importEntry, importEntry, lookup_withSymbols agree, copied]
  have indices : (input.withSymbols table).copyImportIndices =
      input.copyImportIndices := by
    funext dynj
    rw [copyImportIndices, copyImportIndices, copied]
  have patches : (input.withSymbols table).copyPatches = input.copyPatches := by
    funext dynj
    rw [copyPatches, copyPatches, lookup_withSymbols agree, copied]
  have hashes : (input.withSymbols table).gnuHashOf = input.gnuHashOf := by
    funext dynj
    rw [gnuHashOf, gnuHashOf, indices]
  have infos : (input.withSymbols table).prebuildInfo = input.prebuildInfo := by
    funext dynj
    simp only [prebuildInfo, entries, indices, patches, hashes]
    rfl
  rw [prebuildDynamic, prebuildDynamic, infos]
  rfl

theorem isGlobDat_withSymbols :
    (input.withSymbols table).isGlobDat = input.isGlobDat := by
  funext id
  rw [isGlobDat, isGlobDat, slotResolution_withSymbols agree]

theorem nRelaDyn_withSymbols :
    (input.withSymbols table).nRelaDyn = input.nRelaDyn := by
  funext dynj
  rw [nRelaDyn, nRelaDyn, nGlobDat, nGlobDat, isGlobDat_withSymbols agree]
  rfl

theorem copySpace_withSymbols (numbered : input.symbols.Numbered) :
    (input.withSymbols table).copySpace = input.copySpace := by
  rw [copySpace, copySpace, copyDemands, copyDemands, commonSpace, commonSpace,
    commonSyms_withSymbols agree numbered, slotResolution_withSymbols agree]
  rfl

theorem synthesizeDynamic_withSymbols (pre : DynPrebuild) :
    (input.withSymbols table).synthesizeDynamic pre = input.synthesizeDynamic pre := by
  funext found
  have entries : (input.withSymbols table).dynEntries = input.dynEntries := by
    funext pre dynj rx rwPb
    rw [dynEntries, dynEntries, nRelaDyn_withSymbols agree]
    rfl
  have tables : (input.withSymbols table).roDyn = input.roDyn := by
    funext pre dynj
    rw [roDyn, roDyn, nRelaDyn_withSymbols agree]
  rw [synthesizeDynamic, synthesizeDynamic, entries, tables]
  rfl

theorem orderedBuilders_withSymbols (numbered : input.symbols.Numbered)
    (pre : DynPrebuild) :
    (input.withSymbols table).orderedBuilders pre = input.orderedBuilders pre := by
  funext grouped
  have synthesized : (input.withSymbols table).synthesize = input.synthesize := by
    funext found
    rw [synthesize, synthesize, copySpace_withSymbols agree numbered]
    rfl
  rw [orderedBuilders, orderedBuilders, synthesized,
    synthesizeDynamic_withSymbols agree]
  rfl

/-! ## The file and the entry point -/

theorem symtabPlan_withSymbols (ordered : Builders) :
    (input.withSymbols table).symtabPlan ordered = input.symtabPlan ordered := by
  have placed : (input.withSymbols table).placement ordered =
      input.placement ordered := rfl
  rw [symtabPlan, symtabPlan, buildSymtabPlan, buildSymtabPlan,
    definedGlobals_withSymbols agree, placed]
  rfl

theorem fileCursor_withSymbols (ordered : Builders) :
    (input.withSymbols table).fileCursor ordered = input.fileCursor ordered := by
  rw [fileCursor, fileCursor, symtabPlan_withSymbols agree]
  rfl

theorem fileEnd_withSymbols (pre : DynPrebuild) (ordered : Builders) :
    (input.withSymbols table).fileEnd pre ordered = input.fileEnd pre ordered := by
  rw [fileEnd, fileEnd, fileCursor_withSymbols agree]
  rfl

theorem entryAddress_withSymbols :
    (input.withSymbols table).entryAddress = input.entryAddress := by
  have resolved : (input.withSymbols table).resolveEntry = input.resolveEntry := by
    funext addresses
    rw [resolveEntry, resolveEntry, lookup_withSymbols agree]
    rfl
  funext addresses
  rw [entryAddress, entryAddress, resolved]
  rfl

/-! ## The dynamic sections -/

theorem finishBlobs_withSymbols (pre : DynPrebuild) (placement : Placement)
    (file : FileEnd) (gotBase : UInt64) (copies : List (SymbolId × UInt64)) :
    (input.withSymbols table).finishBlobs pre placement file gotBase copies =
      input.finishBlobs pre placement file gotBase copies := by
  have indices : (input.withSymbols table).dynIndex = input.dynIndex := by
    funext dynj id
    rw [dynIndex, dynIndex, nameById_withSymbols agree]
  have globs : (input.withSymbols table).relaGlobDat = input.relaGlobDat := by
    funext dynj gotBase
    rw [relaGlobDat, relaGlobDat, isGlobDat_withSymbols agree, indices]
    rfl
  have copied : (input.withSymbols table).relaCopy = input.relaCopy := by
    funext dynj copies
    rw [relaCopy, relaCopy, nameById_withSymbols agree, indices]
  have functions : (input.withSymbols table).isIfuncSlot = input.isIfuncSlot := by
    funext id
    rw [isIfuncSlot, isIfuncSlot, slotResolution_withSymbols agree]
  have infos : (input.withSymbols table).pltInfo = input.pltInfo := by
    funext dynj id
    rw [pltInfo, pltInfo, functions, indices]
  have plts : (input.withSymbols table).relaPltBytes = input.relaPltBytes := by
    funext dynj gotpltBase
    rw [relaPltBytes, relaPltBytes, infos]
    rfl
  have dynamics : (input.withSymbols table).dynamicBytes = input.dynamicBytes := by
    funext pre dynj sections
    have flags : (input.withSymbols table).flagTags dynj = input.flagTags dynj := rfl
    have slots : (input.withSymbols table).pltSyms = input.pltSyms := rfl
    unfold dynamicBytes
    rw [nRelaDyn_withSymbols agree, flags, slots]
  have exported : (input.withSymbols table).exportPatches = input.exportPatches := by
    funext pre placement addresses
    rw [exportPatches, exportPatches, lookup_withSymbols agree]
  have patched : (input.withSymbols table).copyPatchesAt = input.copyPatchesAt := by
    funext pre copies bssShndx
    rw [copyPatchesAt, copyPatchesAt, slotResolution_withSymbols agree]
  rw [finishBlobs, finishBlobs, globs, copied, plts, dynamics, exported, patched]
  rfl

/-! ## The layout -/

theorem assemble_withSymbols (numbered : input.symbols.Numbered) (pre : DynPrebuild)
    (ordered : Builders) (entry : UInt64) :
    (input.withSymbols table).assemble pre ordered entry =
      input.assemble pre ordered entry := by
  have patches : (input.withSymbols table).ifuncPltPatches = input.ifuncPltPatches := by
    have functions : (input.withSymbols table).isIfuncSlot = input.isIfuncSlot := by
      funext id
      rw [isIfuncSlot, isIfuncSlot, slotResolution_withSymbols agree]
    rw [ifuncPltPatches, ifuncPltPatches, functions]
    rfl
  have commons : (input.withSymbols table).commonSpace = input.commonSpace := by
    rw [commonSpace, commonSpace, commonSyms_withSymbols agree numbered]
  rw [assemble, assemble]
  simp only [fileEnd_withSymbols agree, symtabPlan_withSymbols agree,
    copySpace_withSymbols agree numbered, finishBlobs_withSymbols agree, patches, commons]
  rfl

theorem computeLayoutIcf_withSymbols (numbered : input.symbols.Numbered) :
    (input.withSymbols table).computeLayoutIcf = input.computeLayoutIcf := by
  simp only [computeLayoutIcf, prebuildDynamic_withSymbols agree,
    orderedBuilders_withSymbols agree numbered, entryAddress_withSymbols agree,
    fileCursor_withSymbols agree, assemble_withSymbols agree numbered]
  rfl

end LayoutInput

end Peony
