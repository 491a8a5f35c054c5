import Mathlib.Data.Fintype.Card
import Peony.Emit.HeaderNumbers
import Peony.Layout.Geometry
import Peony.Layout.HeaderCount

namespace Peony

open Relocatable (SymPlace)

/-! Whether the numbers of sections that an output has are read as those of the sections that
are meant. -/

/-! ## `.dynsym` -/

/-- How the 16 bits of a dynamic symbol have its place. -/
inductive IsShort : SymPlace → UInt16 → Prop
  | inSection {number : Nat} (positive : 0 < number) :
      IsShort (.section number) (UInt16.ofNat number)
  | absolute : IsShort .abs shnAbs
  | undefined : IsShort .undef 0

/-- What 16 bits without a table are read as. -/
theorem extPlace_short_iff {target : SymPlace} {shndx : UInt16} (short : IsShort target shndx)
    (place : Nat) :
    extPlace [] place shndx = some target ↔
      ∀ number, target = .section number → number < 0xff00 := by
  cases short with
  | @inSection number positive =>
      rw [extPlace_narrow_iff positive]
      constructor
      · intro fits other same
        rw [← SymPlace.section.inj same]
        exact fits
      · intro fits
        exact fits number rfl
  | absolute =>
      constructor
      · intro _ number impossible
        cases impossible
      · intro _
        rfl
  | undefined =>
      constructor
      · intro _ number impossible
        cases impossible
      · intro _
        rfl

theorem dynsymPlace_eq {table : List UInt8} {index : Nat}
    (inTable : 24 * index + 24 ≤ table.length) :
    dynsymPlace table index = extPlace [] index (halfAt table (24 * index + 6)) := by
  have read : DynSym.format.readAt table index =
      some (DynSym.ofBytes ((table.drop (24 * index)).take 24)) := by
    have fits : DynSym.format.width * (index + 1) ≤ table.length := inTable
    rw [RecordFormat.readAt, if_pos fits]
    rfl
  have half : (DynSym.ofBytes ((table.drop (24 * index)).take 24)).shndx =
      halfAt table (24 * index + 6) := by
    rw [DynSym.ofBytes, halfAt, List.drop_take, List.take_take, List.drop_drop]
    rfl
  rw [dynsymPlace, read, Option.bind_some, half]

section Patched

variable {table : List UInt8} {patches : List (Buffer.Patch UInt8)} {index : Nat}
variable (inTable : 24 * index + 24 ≤ table.length)

include inTable

theorem dynsymPlace_patched (apart : patches.Pairwise Buffer.Patch.Apart) {shndx : UInt16}
    {value size : UInt64}
    (present : LayoutInput.dynsymPatch (24 * index) shndx value size ∈ patches) :
    dynsymPlace (Buffer.applyAll table patches) index = extPlace [] index shndx := by
  have slice := @Buffer.slice_applyAll _ table patches apart _ present (by
    change 24 * index + 6 + 18 ≤ table.length
    exact inTable)
  have half : halfAt (Buffer.applyAll table patches) (24 * index + 6) = shndx := by
    have part := congrArg (List.take 2) slice
    rw [List.take_take] at part
    change ((Buffer.applyAll table patches).drop (24 * index + 6)).take 2 = le16 shndx at part
    rw [halfAt, part, fromLeBytes_le16, UInt16.ofNat_toNat]
  rw [dynsymPlace_eq (by rw [Buffer.length_applyAll]; exact inTable), half]

theorem dynsymPlace_unpatched (behind : ∀ patch ∈ patches, LayoutInput.BehindName patch)
    (absent : ∀ patch ∈ patches, patch.offset ≠ 24 * index + 6) :
    dynsymPlace (Buffer.applyAll table patches) index = dynsymPlace table index := by
  rw [dynsymPlace_eq (by rw [Buffer.length_applyAll]; exact inTable), dynsymPlace_eq inTable,
    halfAt, halfAt, Buffer.window_applyAll_apart]
  intro patch present
  rcases behind patch present with ⟨other, offset, length⟩
  have differ := absent patch present
  omega

end Patched

/-! ### The planned places -/

/-- The place of the storage that imports are copied to. -/
def copyPlace (sections : List OutputSection) : SymPlace :=
  ((sections.findIdx? fun s => s.source == .bss && s.contributions.isEmpty).map fun place =>
    SymPlace.section (place + 1)).getD .abs

namespace LayoutInput

variable (input : LayoutInput) (dynj : DynamicInfo)

def exportedPlace (placed : Placement) (res : SymbolResolution) : SymPlace :=
  match res.sectionIndex with
  | none => .abs
  | some si =>
      ((placed.secToOut.lookup ((res.definedIn.map UInt32.toNat).getD 0, si)).map fun out =>
        SymPlace.section (out + 1)).getD .abs

/-- An import is copied when the table knows it and there is storage for it. -/
def IsCopied (layout : Layout) (name : Name) : Prop :=
  name ∈ input.copyImports dynj ∧ ∃ res own value, input.symbols.lookup name = some res ∧
    input.slotResolution res.id = some own ∧ layout.copyRelocs.lookup res.id = some value

inductive ImportedPlace (layout : Layout) (name : Name) : SymPlace → Prop
  | copied (isCopied : input.IsCopied dynj layout name) :
      ImportedPlace layout name (copyPlace layout.outputSections)
  | undefined (other : ¬ input.IsCopied dynj layout name) : ImportedPlace layout name .undef

theorem short_exportPlace (placed : Placement) (addresses : List (SectionKey × UInt64))
    (res : SymbolResolution) :
    IsShort (exportedPlace placed res) (exportPlace placed addresses res).1 := by
  rw [exportedPlace, exportPlace]
  cases res.sectionIndex with
  | none => exact .absolute
  | some si =>
      dsimp only
      cases placed.secToOut.lookup ((res.definedIn.map UInt32.toNat).getD 0, si) with
      | none => exact .absolute
      | some out => exact .inSection (Nat.succ_pos out)

theorem mem_dynsymPatches {pre : DynPrebuild} (prebuilt : input.prebuildInfo dynj = .ok pre)
    {placed : Placement} {addresses : List (SectionKey × UInt64)}
    {copies : List (SymbolId × UInt64)} {shndx : UInt16} {patch : Buffer.Patch UInt8} :
    patch ∈ input.exportPatches pre placed addresses ++ input.copyPatchesAt pre copies shndx ↔
      (∃ index sym res, dynj.exports[index]? = some sym ∧
        input.symbols.lookup sym.name = some res ∧
        patch = dynsymPatch (24 * (1 + dynj.imports.length + index))
          (exportPlace placed addresses res).1 (exportPlace placed addresses res).2 res.size) ∨
      ∃ index name res own value, dynj.imports[index]? = some name ∧
        name ∈ input.copyImports dynj ∧ input.symbols.lookup name = some res ∧
        input.slotResolution res.id = some own ∧ copies.lookup res.id = some value ∧
        patch = dynsymPatch (24 * (1 + index)) shndx value own.size := by
  rcases input.prebuildInfo_dynsym dynj prebuilt with ⟨_, isExports, isCopies⟩
  rw [exportPatches, copyPatchesAt, isExports, isCopies, copyPatches, List.mem_append]
  constructor
  · rintro (isExport | isCopy)
    · rcases List.mem_filterMap.mp isExport with ⟨entry, isEntry, isPatch⟩
      rcases List.mem_map.mp isEntry with ⟨⟨sym, index⟩, isSym, rfl⟩
      rcases Option.map_eq_some_iff.mp isPatch with ⟨res, isRes, rfl⟩
      refine .inl ⟨index, sym, res, List.mem_zipIdx_iff_getElem?.mp isSym, isRes, ?_⟩
      dsimp only
      congr 1
      omega
    · rcases List.mem_filterMap.mp isCopy with ⟨entry, isEntry, isPatch⟩
      rcases List.mem_filterMap.mp isEntry with ⟨⟨name, index⟩, isName, isOne⟩
      rcases List.mem_filter.mp isName with ⟨isImport, copied⟩
      rcases Option.map_eq_some_iff.mp isOne with ⟨res, isRes, rfl⟩
      rcases Option.bind_eq_some_iff.mp isPatch with ⟨own, isOwn, later⟩
      rcases Option.bind_eq_some_iff.mp later with ⟨value, isValue, same⟩
      cases same
      refine .inr ⟨index, name, res, own, value, List.mem_zipIdx_iff_getElem?.mp isImport,
        of_decide_eq_true copied, isRes, isOwn, isValue, ?_⟩
      dsimp only
      congr 1
      omega
  · rintro (⟨index, sym, res, isSym, isRes, rfl⟩ |
      ⟨index, name, res, own, value, isName, copied, isRes, isOwn, isValue, rfl⟩)
    · refine .inl (List.mem_filterMap.mpr ⟨(sym.name, 24 + 24 * dynj.imports.length +
        24 * index), List.mem_map.mpr ⟨(sym, index),
          List.mem_zipIdx_iff_getElem?.mpr isSym, rfl⟩, ?_⟩)
      dsimp only
      rw [isRes, Option.map_some]
      congr 2
      omega
    · refine .inr (List.mem_filterMap.mpr ⟨(res.id, 24 + 24 * index),
        List.mem_filterMap.mpr ⟨(name, index), List.mem_filter.mpr
          ⟨List.mem_zipIdx_iff_getElem?.mpr isName, decide_eq_true copied⟩, ?_⟩, ?_⟩)
      · dsimp only
        rw [isRes]
        rfl
      · dsimp only
        rw [isOwn, isValue]
        change some (dynsymPatch (24 + 24 * index) shndx value own.size) = _
        congr 2
        omega

omit input dynj in
private theorem places_increase {Item : Type} (items : List Item) :
    items.zipIdx.Pairwise fun first second => first.2 < second.2 := by
  rw [← List.pairwise_map (f := Prod.snd), List.zipIdx_map_snd]
  exact List.pairwise_lt_range'

theorem pairwise_dynsymPatches {pre : DynPrebuild}
    (prebuilt : input.prebuildInfo dynj = .ok pre) (placed : Placement)
    (addresses : List (SectionKey × UInt64)) (copies : List (SymbolId × UInt64))
    (shndx : UInt16) :
    (input.exportPatches pre placed addresses ++
      input.copyPatchesAt pre copies shndx).Pairwise Buffer.Patch.Apart := by
  rcases input.prebuildInfo_dynsym dynj prebuilt with ⟨_, isExports, isCopies⟩
  rw [List.pairwise_append]
  refine ⟨?_, ?_, fun first isFirst second isSecond => ?_⟩
  · rw [exportPatches, isExports, List.pairwise_filterMap, List.pairwise_map]
    refine (places_increase dynj.exports).imp fun {first second} below patch isPatch other
      isOther => ?_
    rcases Option.map_eq_some_iff.mp isPatch with ⟨res, _, rfl⟩
    rcases Option.map_eq_some_iff.mp isOther with ⟨later, _, rfl⟩
    apply Or.inl
    change 24 + 24 * dynj.imports.length + 24 * first.2 + 6 + 18 ≤
      24 + 24 * dynj.imports.length + 24 * second.2 + 6
    omega
  · rw [copyPatchesAt, isCopies, copyPatches, List.pairwise_filterMap,
      List.pairwise_filterMap]
    refine ((places_increase dynj.imports).filter _).imp fun {first second} below entry
      isEntry later isLater patch isPatch other isOther => ?_
    rcases Option.map_eq_some_iff.mp isEntry with ⟨res, _, rfl⟩
    rcases Option.map_eq_some_iff.mp isLater with ⟨laterRes, _, rfl⟩
    rcases Option.bind_eq_some_iff.mp isPatch with ⟨own, _, some⟩
    rcases Option.bind_eq_some_iff.mp some with ⟨value, _, same⟩
    rcases Option.bind_eq_some_iff.mp isOther with ⟨otherOwn, _, otherSome⟩
    rcases Option.bind_eq_some_iff.mp otherSome with ⟨otherValue, _, otherSame⟩
    cases same
    cases otherSame
    apply Or.inl
    change 24 + 24 * first.2 + 6 + 18 ≤ 24 + 24 * second.2 + 6
    omega
  · rw [exportPatches, isExports] at isFirst
    rw [copyPatchesAt, isCopies, copyPatches] at isSecond
    rcases List.mem_filterMap.mp isFirst with ⟨entry, isEntry, isPatch⟩
    rcases List.mem_map.mp isEntry with ⟨⟨sym, index⟩, _, rfl⟩
    rcases Option.map_eq_some_iff.mp isPatch with ⟨res, _, rfl⟩
    rcases List.mem_filterMap.mp isSecond with ⟨copy, isCopy, isOther⟩
    rcases List.mem_filterMap.mp isCopy with ⟨⟨name, other⟩, isName, isOne⟩
    rcases Option.map_eq_some_iff.mp isOne with ⟨own, _, rfl⟩
    rcases Option.bind_eq_some_iff.mp isOther with ⟨_, _, later⟩
    rcases Option.bind_eq_some_iff.mp later with ⟨_, _, same⟩
    cases same
    have isImport := List.mem_zipIdx_iff_getElem?.mp (List.mem_filter.mp isName).1
    have below : other < dynj.imports.length := (List.getElem?_eq_some_iff.mp isImport).1
    apply Or.inr
    change 24 + 24 * other + 6 + 18 ≤ 24 + 24 * dynj.imports.length + 24 * index + 6
    omega

section Entries

variable {input dynj} {layout : Layout} (computed : Computed input layout)
variable (isDynamic : input.dynamic = some dynj)

include computed isDynamic

theorem prebuilt_of_dynamic : input.prebuildInfo dynj = .ok computed.pre := by
  have prebuilt := computed.prebuilt
  rw [prebuildDynamic, isDynamic] at prebuilt
  exact prebuilt

theorem dynsym_eq :
    layout.dynBlobs.dynsym =
      Buffer.applyAll (DynSym.format.table (input.dynsymEntries dynj))
        (input.exportPatches computed.pre (input.placement (input.ordered computed.pre))
            layout.addresses ++
          input.copyPatchesAt computed.pre layout.copyRelocs
            (bssShndx layout.outputSections)) := by
  have addresses : layout.addresses =
      (input.fileEnd computed.pre (input.ordered computed.pre)).addresses :=
    congrArg Layout.addresses computed.assembled
  have copies : layout.copyRelocs = rebase (commonBase (input.fileEnd computed.pre
      (input.ordered computed.pre)).sections) input.copySpace.offsets :=
    congrArg Layout.copyRelocs computed.assembled
  have blobs : layout.dynBlobs = input.finishBlobs computed.pre _ _ _ _ :=
    congrArg Layout.dynBlobs computed.assembled
  rw [blobs, finishBlobs, isDynamic, addresses, copies, outputSections_eq computed,
    ← (input.prebuildInfo_dynsym dynj (prebuilt_of_dynamic computed isDynamic)).1]

omit computed isDynamic in
theorem length_dynsymEntries :
    (input.dynsymEntries dynj).length = 1 + dynj.imports.length + dynj.exports.length := by
  have length := congrArg List.length (input.nameOff_dynsymEntries dynj)
  rw [List.length_map, List.length_cons, List.length_map, nameOffsets, List.length_append,
    length_offsetsFrom, length_offsetsFrom, List.length_map] at length
  omega

omit computed isDynamic in
theorem shndx_dynsymEntries {sym : DynSym} (present : sym ∈ input.dynsymEntries dynj) :
    sym.shndx = 0 := by
  rw [dynsymEntries, List.cons_append] at present
  rcases List.mem_cons.mp present with rfl | isOther
  · rfl
  · rcases List.mem_append.mp isOther with isImport | isExport
    · rcases List.mem_map.mp isImport with ⟨entry, _, rfl⟩
      rfl
    · rcases List.mem_map.mp isExport with ⟨entry, _, rfl⟩
      rfl

omit computed isDynamic in
theorem dynsymPlace_blank {index : Nat}
    (inEntries : index < (input.dynsymEntries dynj).length) :
    dynsymPlace (DynSym.format.table (input.dynsymEntries dynj)) index = some .undef := by
  have read := @RecordFormat.readAt_table _ _ DynSym.format (input.dynsymEntries dynj) []
    index inEntries
  rw [List.append_nil] at read
  rw [dynsymPlace, read, Option.bind_some,
    shndx_dynsymEntries (List.getElem_mem inEntries)]
  rfl

theorem dynsymPlace_export {index : Nat} {sym : ExportSym} {res : SymbolResolution}
    (isSym : dynj.exports[index]? = some sym) (isRes : input.symbols.lookup sym.name = some res) :
    dynsymPlace layout.dynBlobs.dynsym (1 + dynj.imports.length + index) =
      extPlace [] (1 + dynj.imports.length + index)
        (exportPlace (input.placement (input.ordered computed.pre)) layout.addresses res).1 := by
  have prebuilt := prebuilt_of_dynamic computed isDynamic
  have inRange := (List.getElem?_eq_some_iff.mp isSym).1
  rw [dynsym_eq computed isDynamic]
  apply dynsymPlace_patched
  · rw [RecordFormat.length_table, length_dynsymEntries]
    change _ ≤ 24 * _
    omega
  · exact input.pairwise_dynsymPatches dynj prebuilt _ _ _ _
  · exact (mem_dynsymPatches input dynj prebuilt).mpr
      (.inl ⟨index, sym, res, isSym, isRes, rfl⟩)

theorem dynsymPlace_copied {index : Nat} {name : Name}
    (isName : dynj.imports[index]? = some name) (isCopied : input.IsCopied dynj layout name) :
    dynsymPlace layout.dynBlobs.dynsym (1 + index) =
      extPlace [] (1 + index) (bssShndx layout.outputSections) := by
  have prebuilt := prebuilt_of_dynamic computed isDynamic
  have inRange := (List.getElem?_eq_some_iff.mp isName).1
  rcases isCopied with ⟨copied, res, own, value, isRes, isOwn, isValue⟩
  rw [dynsym_eq computed isDynamic]
  apply dynsymPlace_patched
  · rw [RecordFormat.length_table, length_dynsymEntries]
    change _ ≤ 24 * _
    omega
  · exact input.pairwise_dynsymPatches dynj prebuilt _ _ _ _
  · exact (mem_dynsymPatches input dynj prebuilt).mpr
      (.inr ⟨index, name, res, own, value, isName, copied, isRes, isOwn, isValue, rfl⟩)

theorem dynsymPlace_imported {index : Nat} {name : Name}
    (isName : dynj.imports[index]? = some name) (other : ¬ input.IsCopied dynj layout name) :
    dynsymPlace layout.dynBlobs.dynsym (1 + index) = some .undef := by
  have prebuilt := prebuilt_of_dynamic computed isDynamic
  have inRange := (List.getElem?_eq_some_iff.mp isName).1
  have inEntries : 1 + index < (input.dynsymEntries dynj).length := by
    rw [length_dynsymEntries]
    omega
  rw [dynsym_eq computed isDynamic, dynsymPlace_unpatched, dynsymPlace_blank inEntries]
  · rw [RecordFormat.length_table]
    change _ ≤ 24 * _
    omega
  · exact input.behindName_patches dynj prebuilt _ _ _ _
  · intro patch present same
    rcases (mem_dynsymPatches input dynj prebuilt).mp present with
      ⟨place, sym, res, isSym, _, rfl⟩ |
        ⟨place, copy, res, own, value, isCopy, copied, isRes, isOwn, isValue, rfl⟩
    · change 24 * (1 + dynj.imports.length + place) + 6 = _ at same
      omega
    · change 24 * (1 + place) + 6 = _ at same
      have isPlace : place = index := by omega
      rw [isPlace, isName] at isCopy
      cases isCopy
      exact other ⟨copied, res, own, value, isRes, isOwn, isValue⟩

omit isDynamic in
/-- The storage that imports are copied to has its number cut to 16 bits. -/
theorem short_bssShndx :
    IsShort (copyPlace layout.outputSections) (bssShndx layout.outputSections) := by
  rw [copyPlace, bssShndx, syntheticBss, List.find?_eq_bind_findIdx?_getElem?]
  cases found : layout.outputSections.findIdx? fun s =>
      s.source == .bss && s.contributions.isEmpty with
  | none => exact .absolute
  | some place =>
      rcases List.findIdx?_eq_some_iff_getElem.mp found with ⟨inRange, _⟩
      have isSection := List.getElem?_eq_getElem inRange
      have narrow : layout.outputSections[place].shndx.toUInt16 = UInt16.ofNat (place + 1) := by
        rw [shndx_eq computed isSection, ← UInt16.toNat_inj, UInt32.toNat_toUInt16,
          UInt16.toNat_ofNat']
        change (UInt32.ofNat (place + 1)).toNat % _ = _
        rw [UInt32.toNat_ofNat']
        omega
      rw [Option.bind_some, isSection, Option.map_some, Option.map_some, Option.getD_some,
        Option.getD_some, narrow]
      exact .inSection (Nat.succ_pos place)

end Entries

/-! ## The numbers of an output -/

/-- Every number of a section that the tables and headers of an output have is read as the
number of the section that is meant. -/
structure ReadsSections (input : LayoutInput) (pre : DynPrebuild) (layout : Layout) :
    Prop where
  symtab : ∀ s ∈ layout.outputSections, s.source = .symTab → ∀ symbols file,
    file.length = layout.fileSize → ∀ index place,
      (input.symtabPlaces (input.placement (input.ordered pre)))[index]? = some place →
        symtabPlace (writeSymtabSection symbols layout s file) s.shOffset.toNat
          layout.symtabShndx (index + 1) = some place
  exports : ∀ dynj, input.dynamic = some dynj → ∀ index sym res,
    dynj.exports[index]? = some sym → input.symbols.lookup sym.name = some res →
      dynsymPlace layout.dynBlobs.dynsym (1 + dynj.imports.length + index) =
        some (exportedPlace (input.placement (input.ordered pre)) res)
  imports : ∀ dynj, input.dynamic = some dynj → ∀ index name place,
    dynj.imports[index]? = some name → input.ImportedPlace dynj layout name place →
      dynsymPlace layout.dynBlobs.dynsym (1 + index) = some place
  headers : ∀ file, file.length = layout.fileSize →
    sectionCount (writeSectionHeaders layout (writeHeaders layout file)) layout.shoff.toNat =
        layout.outputSections.length + 1 ∧
      IsNamesPlace layout (namesPlace
        (writeSectionHeaders layout (writeHeaders layout file)) layout.shoff.toNat)

/-- No symbol of `.symtab` is in a section with a reserved number, no dynamic one is in such a
section or behind them, and the sections can be counted by a word. -/
structure NumbersFit (input : LayoutInput) (pre : DynPrebuild) (layout : Layout) : Prop where
  symtab : ∀ number,
    .section number ∈ input.symtabPlaces (input.placement (input.ordered pre)) →
      number < 0xff00 ∨ 0x10000 ≤ number
  exports : ∀ dynj, input.dynamic = some dynj → ∀ sym ∈ dynj.exports, ∀ res,
    input.symbols.lookup sym.name = some res → ∀ number,
      exportedPlace (input.placement (input.ordered pre)) res = .section number →
        number < 0xff00
  copies : ∀ dynj, input.dynamic = some dynj → ∀ name ∈ dynj.imports,
    input.IsCopied dynj layout name → ∀ number,
      copyPlace layout.outputSections = .section number → number < 0xff00
  count : layout.outputSections.length < 2 ^ 32

section Numbers

variable {input : LayoutInput} {layout : Layout} (computed : Computed input layout)

include computed

theorem length_placed_le :
    (input.placement (input.ordered computed.pre)).sections.length ≤
      layout.outputSections.length := by
  have pairs := input.finished_assemble computed.pre (input.ordered computed.pre)
    computed.entry
  rw [← computed.assembled] at pairs
  have length := pairs.length_eq
  rcases input.fileCursor_extends (input.ordered computed.pre) with ⟨more, _, sections, _⟩
  rw [sections, List.length_append, List.length_append] at length
  rw [sections_placement]
  omega

theorem exports_read_iff {dynj : DynamicInfo} (isDynamic : input.dynamic = some dynj)
    {index : Nat} {sym : ExportSym} {res : SymbolResolution}
    (isSym : dynj.exports[index]? = some sym) (isRes : input.symbols.lookup sym.name = some res) :
    dynsymPlace layout.dynBlobs.dynsym (1 + dynj.imports.length + index) =
        some (exportedPlace (input.placement (input.ordered computed.pre)) res) ↔
      ∀ number, exportedPlace (input.placement (input.ordered computed.pre)) res =
        .section number → number < 0xff00 := by
  rw [dynsymPlace_export computed isDynamic isSym isRes]
  exact extPlace_short_iff (short_exportPlace _ _ _) _

theorem copies_read_iff {dynj : DynamicInfo} (isDynamic : input.dynamic = some dynj)
    {index : Nat} {name : Name} (isName : dynj.imports[index]? = some name)
    (isCopied : input.IsCopied dynj layout name) :
    dynsymPlace layout.dynBlobs.dynsym (1 + index) = some (copyPlace layout.outputSections) ↔
      ∀ number, copyPlace layout.outputSections = .section number → number < 0xff00 := by
  rw [dynsymPlace_copied computed isDynamic isName isCopied]
  exact extPlace_short_iff (short_bssShndx computed) _

variable (noWrap : input.NoWrap computed.pre)
variable (sized : symSize.toNat * (layout.symtab.length + 1) < 2 ^ 64)

include noWrap sized

theorem symtab_read_iff {s : OutputSection} (present : s ∈ layout.outputSections)
    (isSymTab : s.source = .symTab) (symbols : SymbolTable) {file : List UInt8}
    (length : file.length = layout.fileSize) {index : Nat} {place : SymPlace}
    (isPlace : (input.symtabPlaces
      (input.placement (input.ordered computed.pre)))[index]? = some place) :
    symtabPlace (writeSymtabSection symbols layout s file) s.shOffset.toNat
        layout.symtabShndx (index + 1) = some place ↔
      ∀ number, place = .section number →
        number < 2 ^ 32 ∧ (number < 0xff00 ∨ 0x10000 ≤ number) := by
  have planned := input.planned_symtabPlan (input.ordered computed.pre)
  rw [Planned, ← symtab_eq computed] at planned
  rcases List.getElem?_eq_some_iff.mp isPlace with ⟨inPlaces, rfl⟩
  have inEntries : index < layout.symtab.length := by
    rw [planned.length_eq]
    exact inPlaces
  have noted := planned.get inEntries inPlaces
  have isEntry := List.getElem?_eq_getElem inEntries
  rw [symtabPlace_written computed noWrap sized present isSymTab symbols length isEntry]
  exact extPlace_noted_iff isEntry noted

end Numbers

/-- All numbers of sections are read as those that are meant, if and only if no symbol of
`.symtab` is in a section from 0xff00 to 0xffff, no dynamic one in a section from 0xff00 on,
and there are fewer than 2^32 sections. -/
theorem readsSections_iff {input : LayoutInput} {pre : DynPrebuild}
    (prebuilt : input.prebuildDynamic = .ok pre) (noWrap : input.NoWrap pre) {layout : Layout}
    (succeeded : input.computeLayoutIcf = .ok layout)
    (sized : symSize.toNat * (layout.symtab.length + 1) < 2 ^ 64) :
    ReadsSections input pre layout ↔ NumbersFit input pre layout := by
  rcases computed_of_ok succeeded with ⟨computed⟩
  rw [← Except.ok.inj (computed.prebuilt.symm.trans prebuilt)] at noWrap ⊢
  have headers := headers_read_iff computed noWrap
  constructor
  · intro reads
    refine ⟨fun number among => ?_, fun dynj isDynamic sym isSym res isRes => ?_,
      fun dynj isDynamic name isName isCopied => ?_, headers.mp reads.headers⟩
    · have kept : input.config.strip = false := by
        rw [Bool.eq_false_iff]
        intro stripped
        rw [symtabPlaces, if_pos stripped] at among
        exact absurd among List.not_mem_nil
      rcases List.getElem?_of_mem among with ⟨index, isPlace⟩
      rcases exists_symTab computed kept with ⟨s, present, isSymTab⟩
      have read := reads.symtab s present isSymTab input.symbols
        (List.replicate layout.fileSize 0) List.length_replicate index _ isPlace
      exact ((symtab_read_iff computed noWrap sized present isSymTab input.symbols
        List.length_replicate isPlace).mp read number rfl).2
    · rcases List.getElem?_of_mem isSym with ⟨index, isIndex⟩
      exact (exports_read_iff computed isDynamic isIndex isRes).mp
        (reads.exports dynj isDynamic index sym res isIndex isRes)
    · rcases List.getElem?_of_mem isName with ⟨index, isIndex⟩
      exact (copies_read_iff computed isDynamic isIndex isCopied).mp
        (reads.imports dynj isDynamic index name _ isIndex (.copied isCopied))
  · intro fit
    refine ⟨fun s present isSymTab symbols file length index place isPlace => ?_,
      fun dynj isDynamic index sym res isSym isRes => ?_,
      fun dynj isDynamic index name place isName isImported => ?_, headers.mpr fit.count⟩
    · rw [symtab_read_iff computed noWrap sized present isSymTab symbols length isPlace]
      intro number isSection
      subst isSection
      have among := List.mem_of_getElem? isPlace
      have placed := (lt_of_symtabPlaces input among).2
      have counted := length_placed_le computed
      have few := fit.count
      exact ⟨by omega, fit.symtab number among⟩
    · exact (exports_read_iff computed isDynamic isSym isRes).mpr
        (fit.exports dynj isDynamic sym (List.mem_of_getElem? isSym) res isRes)
    · cases isImported with
      | copied isCopied =>
          exact (copies_read_iff computed isDynamic isName isCopied).mpr
            (fit.copies dynj isDynamic name (List.mem_of_getElem? isName) isCopied)
      | undefined other => exact dynsymPlace_imported computed isDynamic isName other

/-! ## Few sections and many -/

theorem le_of_copyPlace {sections : List OutputSection} {number : Nat}
    (isPlace : copyPlace sections = .section number) : number ≤ sections.length := by
  rw [copyPlace] at isPlace
  cases found : sections.findIdx? fun s => s.source == .bss && s.contributions.isEmpty with
  | none =>
      rw [found] at isPlace
      cases isPlace
  | some place =>
      rcases List.findIdx?_eq_some_iff_getElem.mp found with ⟨inRange, _⟩
      rw [found, Option.map_some, Option.getD_some, SymPlace.section.injEq] at isPlace
      omega

theorem exportedPlace_of {placed : Placement} {res : SymbolResolution} {objId : ObjectId}
    {si out : Nat} (definedIn : res.definedIn = some objId)
    (sectionIndex : res.sectionIndex = some si)
    (found : placed.secToOut.lookup (objId.toNat, si) = some out) :
    exportedPlace placed res = .section (out + 1) := by
  simp only [exportedPlace, sectionIndex, definedIn, Option.map_some, Option.getD_some, found]

theorem le_of_exportedPlace {input : LayoutInput} {ordered : Builders}
    {res : SymbolResolution} {number : Nat}
    (isPlace : exportedPlace (input.placement ordered) res = .section number) :
    number ≤ (input.placement ordered).sections.length := by
  rw [exportedPlace] at isPlace
  cases isSection : res.sectionIndex with
  | none =>
      rw [isSection] at isPlace
      cases isPlace
  | some si =>
      rw [isSection] at isPlace
      dsimp only at isPlace
      cases found : (input.placement ordered).secToOut.lookup
          ((res.definedIn.map UInt32.toNat).getD 0, si) with
      | none =>
          rw [found] at isPlace
          cases isPlace
      | some out =>
          have below := lt_of_lookup_secToOut found
          rw [found, Option.map_some, Option.getD_some, SymPlace.section.injEq] at isPlace
          omega

theorem numbersFit_of_few {input : LayoutInput} {layout : Layout}
    (computed : Computed input layout) (few : layout.outputSections.length < 0xff00) :
    NumbersFit input computed.pre layout := by
  have placed := length_placed_le computed
  constructor
  · intro number among
    have below := (lt_of_symtabPlaces input among).2
    exact .inl (by omega)
  · intro dynj _ sym _ res _ number isPlace
    have below := le_of_exportedPlace isPlace
    omega
  · intro dynj _ name _ _ number isPlace
    have below := le_of_copyPlace isPlace
    omega
  · omega

/-! A shared object of any number of sections, each with a name of its own and an exported
symbol in it. -/

private def manySection (place : Nat) : InputSection where
  index := place + 1
  name := List.replicate (place + 1) 97
  kind := .data
  shType := shtProgbits
  data := ⟨.owned 0, UInt32.ofNat place, 1⟩
  align := 1
  size := 1
  flags := shfAlloc ||| shfWrite
  relocs := []

private def manySymbol (place : Nat) : InputSymbol where
  index := place + 1
  name := List.replicate (place + 1) 98
  binding := .global
  isUndefined := false
  isCommon := false
  isIfunc := false
  stType := 1
  visibility := 0
  sectionIndex := some (place + 1)
  value := 0
  size := 1

private def manyObject (count : Nat) : InputObject :=
  InputObject.assemble "many.o" count count ((List.range count).map manySection)
    ((List.range count).map manySymbol) []

private def manyDynamic (count : Nat) : DynamicInfo where
  exports := (List.range count).map fun place =>
    { name := (manySymbol place).name, info := 17, other := 0 }
  shared := true

private def manyInput (count : Nat) : LayoutInput where
  arena := { mmaps := [], owned := [List.replicate count 0] }
  objects := [manyObject count]
  symbols :=
    match SymbolTable.processAll [⟨manyObject count, []⟩] with
    | .ok table => table
    | .error _ => SymbolTable.new
  dynamic := some (manyDynamic count)
  config := { baseAddress := 0, shared := true }

private theorem many_parsed {count : Nat} (few : count < 2 ^ 32) :
    ∀ obj ∈ (manyInput count).objects, obj.Parsed := by
  have each {Item : Type} (make : Nat → Item) (index : Item → Nat)
      (isIndex : ∀ place, index (make place) = place + 1) :
      (((List.range count).map make).map index).Nodup ∧
        ∀ item ∈ (List.range count).map make, index item < 2 ^ 32 := by
    constructor
    · rw [List.map_map]
      refine List.nodup_range.map fun first second same => ?_
      rw [Function.comp_apply, Function.comp_apply, isIndex, isIndex] at same
      exact Nat.succ.inj same
    · intro item present
      rcases List.mem_map.mp present with ⟨place, inRange, rfl⟩
      have below := List.mem_range.mp inRange
      rw [isIndex]
      omega
  intro obj present
  rw [List.mem_singleton.mp present]
  have sections := each manySection (fun sec => sec.index) fun _ => rfl
  have symbols := each manySymbol (fun sym => sym.index) fun _ => rfl
  exact InputObject.assemble_parsed _ _ _ _ _ _ sections.1 symbols.1 sections.2 symbols.2

/-! ### Its symbols -/

private theorem replicate_inj {first second : Nat} {byte : UInt8}
    (same : List.replicate (first + 1) byte = List.replicate (second + 1) byte) :
    first = second := by
  have lengths := congrArg List.length same
  rw [List.length_replicate, List.length_replicate] at lengths
  exact Nat.succ.inj lengths

private theorem exists_merged (places : List Nat) (table : SymbolTable) (distinct : places.Nodup)
    (unknown : ∀ place ∈ places, table.lookup (manySymbol place).name = none) :
    ∃ next, (places.map manySymbol).foldlM (fun table sym =>
        if SymbolTable.skipsSymbol [] sym then .ok table else table.mergeSymbol 0 sym) table =
          .ok next ∧
      (∀ place ∈ places, ∃ res, next.lookup (manySymbol place).name = some res ∧
        res.definedIn = some 0 ∧ res.sectionIndex = some (place + 1)) ∧
      ∀ name, (∀ place ∈ places, (manySymbol place).name ≠ name) →
        next.lookup name = table.lookup name := by
  induction places generalizing table with
  | nil => exact ⟨table, rfl, fun _ absent => absurd absent List.not_mem_nil, fun _ _ => rfl⟩
  | cons place rest induction =>
      rw [List.nodup_cons] at distinct
      have isNew := unknown place List.mem_cons_self
      have merged : ∃ entry, table.mergeSymbol 0 (manySymbol place) =
          .ok ((table.pushName (manySymbol place).name).put (manySymbol place).name entry) ∧
          entry.definedIn = some 0 ∧ entry.sectionIndex = some (place + 1) := by
        change ∃ entry, table.mergeDefined 0 (manySymbol place) = _ ∧ _
        rw [SymbolTable.mergeDefined, isNew]
        exact ⟨_, rfl, rfl, rfl⟩
      rcases merged with ⟨entry, isMerged, definedIn, sectionIndex⟩
      have other {later : Nat} (isLater : later ∈ rest) :
          (manySymbol later).name ≠ (manySymbol place).name := by
        intro same
        exact distinct.1 (replicate_inj same ▸ isLater)
      rcases induction ((table.pushName (manySymbol place).name).put (manySymbol place).name
          entry) distinct.2 (fun later isLater => by
            rw [SymbolTable.lookup_put_of_ne _ _ (other isLater), SymbolTable.lookup_pushName]
            exact unknown later (List.mem_cons_of_mem _ isLater)) with
        ⟨next, isNext, defined, kept⟩
      refine ⟨next, ?_, fun one present => ?_, fun name absent => ?_⟩
      · rw [List.map_cons, List.foldlM_cons]
        change (table.mergeSymbol 0 (manySymbol place) >>= _) = _
        rw [isMerged]
        exact isNext
      · rcases List.mem_cons.mp present with rfl | isLater
        · refine ⟨entry, ?_, definedIn, sectionIndex⟩
          rw [kept _ fun later isLater => other isLater, SymbolTable.lookup_put_self]
        · exact defined one isLater
      · rw [kept name fun later isLater => absent later (List.mem_cons_of_mem _ isLater),
          SymbolTable.lookup_put_of_ne _ _ (absent place List.mem_cons_self).symm,
          SymbolTable.lookup_pushName]

private theorem many_lookup {count place : Nat} (inRange : place < count) :
    ∃ res, (manyInput count).symbols.lookup (manySymbol place).name = some res ∧
      res.definedIn = some 0 ∧ res.sectionIndex = some (place + 1) := by
  rcases exists_merged (List.range count) (SymbolTable.new.addObject "many.o").1
    List.nodup_range (fun _ _ => rfl) with ⟨table, isTable, defined, _⟩
  have processed : SymbolTable.processAll [⟨manyObject count, []⟩] = .ok table := by
    change (SymbolTable.addAndProcess SymbolTable.new ⟨manyObject count, []⟩ >>= _) = _
    have added : SymbolTable.addAndProcess SymbolTable.new ⟨manyObject count, []⟩ =
        .ok table := isTable
    rw [added]
    rfl
  have symbols : (manyInput count).symbols = table := by
    rw [manyInput]
    dsimp only
    rw [processed]
  rw [symbols]
  exact defined place (List.mem_range.mpr inRange)

/-! ### Its sections -/

private theorem fromUtf8_replicate (count : Nat) :
    (fromUtf8 (List.replicate count 97)).isSome = true := by
  have decoded : decodeUtf8 none (List.replicate count 97) = List.replicate count (some 'a') := by
    induction count with
    | zero => rfl
    | succ count induction =>
        rw [List.replicate_succ, decodeUtf8]
        exact congrArg (some 'a' :: ·) induction
  rw [fromUtf8, decoded]
  clear decoded
  induction count with
  | zero => rfl
  | succ count induction =>
      rcases Option.isSome_iff_exists.mp induction with ⟨chars, isChars⟩
      rw [List.replicate_succ, List.mapM_cons, isChars]
      rfl

private theorem many_outName (count place : Nat) :
    (manyInput count).outName (manySection place).name = (manySection place).name := by
  have script : (manyInput count).outName (manySection place).name =
      outputSectionName (manySection place).name := rfl
  have whole : (List.replicate place (97 : UInt8)).takeWhile (fun byte => byte != 46) =
      List.replicate place 97 := by
    rw [List.takeWhile_replicate]
    rfl
  have noRest : ((List.replicate place (97 : UInt8)).head?.any fun byte =>
      0x80 ≤ byte && byte < 0xc0) = false := by
    cases place with
    | zero => rfl
    | succ place => rfl
  rw [script, outputSectionName]
  have isText : (fromUtf8 (manySection place).name).isSome = true := fromUtf8_replicate _
  rw [if_pos isText]
  have noNote : (nameOf ".note.").isPrefixOf (manySection place).name = false := rfl
  rw [noNote, if_neg Bool.false_ne_true]
  change (if ((List.replicate place (97 : UInt8)).head?.any fun byte =>
      0x80 ≤ byte && byte < 0xc0) = true then _ else
    97 :: (List.replicate place (97 : UInt8)).takeWhile fun byte => byte != 46) = _
  rw [noRest, if_neg Bool.false_ne_true, whole]
  rfl

private theorem many_contributors {count : Nat} {member : Contributor} :
    member ∈ (manyInput count).contributors ↔
      ∃ place < count, member = ⟨0, manyObject count, place, manySection place⟩ := by
  have sections (place : Nat) : (manyObject count).sections[place]? =
      ((List.range count)[place]?).map manySection := List.getElem?_map
  rw [mem_contributors, mem_inputSections]
  constructor
  · rintro ⟨⟨isObject, isSection⟩, _⟩
    rcases member with ⟨objId, obj, place, sec⟩
    rcases List.getElem?_eq_some_iff.mp isObject with ⟨isFirst, isObj⟩
    have first : objId = 0 := Nat.lt_one_iff.mp isFirst
    subst first
    have isMany : obj = manyObject count := isObj.symm
    subst isMany
    dsimp only at isSection
    rw [sections] at isSection
    rcases Option.map_eq_some_iff.mp isSection with ⟨own, isOwn, rfl⟩
    rcases List.getElem?_eq_some_iff.mp isOwn with ⟨inRange, isPlace⟩
    rw [List.getElem_range] at isPlace
    rw [List.length_range] at inRange
    exact ⟨place, inRange, by rw [isPlace]⟩
  · rintro ⟨place, inRange, rfl⟩
    have alloc : (manySection place).isAlloc = true := by
      change (shfAlloc ||| shfWrite) &&& shfAlloc != 0
      decide
    have isAlloc : isAllocatable (manySection place) = true := by
      rw [isAllocatable, alloc]
      rfl
    refine ⟨⟨rfl, ?_⟩, ?_⟩
    · dsimp only
      rw [sections, List.getElem?_range inRange]
      rfl
    · rw [contributes, emits, isAlloc]
      rfl

private theorem many_aligned (count : Nat) :
    ∀ member ∈ (manyInput count).contributors, member.align.toNat.isPowerOfTwo := by
  intro member present
  rcases many_contributors.mp present with ⟨place, _, rfl⟩
  exact ⟨0, rfl⟩

private theorem many_groups {count : Nat} {b : Builder} (isGroup : b ∈ (manyInput count).groups) :
    b.isTls = false ∧ ∃ place, b.name = (manySection place).name := by
  rcases mem_groups.mp isGroup with ⟨first, rest, ofName, rfl⟩
  have present : first ∈ (manyInput count).contributors := by
    have among : first ∈ first :: rest := List.mem_cons_self
    rw [← ofName] at among
    exact (List.mem_filter.mp among).1
  rcases many_contributors.mp present with ⟨place, _, rfl⟩
  rw [collect_shape]
  exact ⟨rfl, place, many_outName count place⟩

/-! ### Its layout -/

private theorem many_hasGroup {count : Nat} {name : Name} (other : name.head? = some 46) :
    (manyInput count).hasGroup name = false := by
  rw [hasGroup, List.any_eq_false]
  intro b isGroup isName
  rcases (many_groups isGroup).2 with ⟨place, named⟩
  have first : (manySection place).name.head? = some 97 := rfl
  rw [← beq_iff_eq.mp isName, named, first] at other
  exact absurd (Option.some.inj other) (by decide)

private theorem many_tls {count : Nat} (pre : DynPrebuild) :
    (manyInput count).hasWritableTls = false ∧ (manyInput count).tlsBytes pre = 0 := by
  constructor
  · rw [hasWritableTls, List.any_eq_false]
    intro b isGroup both
    rw [(many_groups isGroup).1] at both
    cases both
  · have plain : ∀ b ∈ (relroOrder ((manyInput count).ordered pre)).all, b.isTls = false := by
      intro raised among
      rcases ((manyInput count).classified_ordered pre (manyInput count).groups).exists_origin
        (groups_aligned (many_aligned count)) among with ⟨b, origin, align, rfl, _⟩
      rcases origin with isGroup | bare
      · exact (many_groups isGroup).1
      · exact bare.2
    have none : (relroOrder ((manyInput count).ordered pre)).tlsShapes = [] := by
      rw [Builders.tlsShapes, List.filter_eq_nil_iff.mpr, List.filter_eq_nil_iff.mpr]
      · rfl
      · intro b among isTbss
        have other := plain b among
        rw [Builder.isTls, isTbss, Bool.or_true] at other
        cases other
      · intro b among isTdata
        have other := plain b among
        rw [Builder.isTls, isTdata, Bool.true_or] at other
        cases other
    rw [tlsBytes, none, blockRun]
    rfl

private theorem exists_many (count : Nat) :
    ∃ pre layout, (manyInput count).prebuildDynamic = .ok pre ∧
      (manyInput count).computeLayoutIcf = .ok layout := by
  have prebuilt : ∃ pre, (manyInput count).prebuildDynamic = .ok pre := ⟨_, rfl⟩
  rcases prebuilt with ⟨pre, prebuilt⟩
  have entered : ∃ entry, (manyInput count).entryAddress ((manyInput count).fileCursor
      ((manyInput count).ordered pre)).addresses = .ok entry := by
    have shared : (manyInput count).config.shared = true := rfl
    rw [entryAddress, if_pos shared]
    cases (manyInput count).resolveEntry ((manyInput count).fileCursor
        ((manyInput count).ordered pre)).addresses with
    | ok entry => exact ⟨entry, rfl⟩
    | error failure => exact ⟨0, rfl⟩
  rcases entered with ⟨entry, entered⟩
  have met := (Checked.count_eq_iff
    ⟨pre, entry, prebuilt, many_aligned count, entered⟩).mpr (by
      rw [unforeseenHeaders, unusedHeaders, many_hasGroup rfl, many_hasGroup rfl,
        (many_tls pre).1, (many_tls pre).2]
      simp [manyInput])
  refine ⟨pre, _, prebuilt, (Checked.computeLayoutIcf_eq
    ⟨pre, entry, prebuilt, many_aligned count, entered⟩).trans (if_pos met)⟩

private def onePre : DynPrebuild :=
  match (manyInput 1).prebuildDynamic with
  | .ok pre => pre
  | .error _ => {}

private theorem one_noWrap : (manyInput 1).NoWrap onePre :=
  noWrap_of_checked (by decide +kernel)

private theorem one_small : ((manyInput 1).computeLayoutIcf.toOption.any fun layout =>
    decide (layout.outputSections.length < 0xff00) &&
      decide (symSize.toNat * (layout.symtab.length + 1) < 2 ^ 64)) = true := by
  decide +kernel

theorem readsSections_iff_one :
    ∃ layout, (manyInput 1).computeLayoutIcf = .ok layout ∧
      ReadsSections (manyInput 1) onePre layout := by
  rcases exists_many 1 with ⟨pre, layout, prebuilt, succeeded⟩
  have small := one_small
  rw [succeeded] at small
  have both := Bool.and_eq_true_iff.mp small
  have isPre : (manyInput 1).prebuildDynamic = .ok onePre := rfl
  rcases computed_of_ok succeeded with ⟨computed⟩
  have same := Except.ok.inj (computed.prebuilt.symm.trans isPre)
  refine ⟨layout, succeeded, (readsSections_iff isPre one_noWrap succeeded
    (of_decide_eq_true both.2)).mpr ?_⟩
  rw [← same]
  exact numbersFit_of_few computed (of_decide_eq_true both.1)

/-- Of 0xff00 sections with an exported symbol each, not all have a number in front of the
reserved ones. -/
theorem manySections_not_read :
    ∃ pre layout, (manyInput 0xff00).prebuildDynamic = .ok pre ∧
      (manyInput 0xff00).computeLayoutIcf = .ok layout ∧
      ¬ ReadsSections (manyInput 0xff00) pre layout := by
  rcases exists_many 0xff00 with ⟨pre, layout, prebuilt, succeeded⟩
  refine ⟨pre, layout, prebuilt, succeeded, fun reads => ?_⟩
  rcases computed_of_ok succeeded with ⟨computed⟩
  rw [← Except.ok.inj (computed.prebuilt.symm.trans prebuilt)] at reads
  have numbered (place : Fin 0xff00) : ∃ out : Fin 0xfeff, ∃ s,
      ((manyInput 0xff00).placeAll ((manyInput 0xff00).ordered
        computed.pre)).placement.sections[out.val]? = some s ∧
      s.name = (manySection place).name := by
    have isMember : (⟨0, manyObject 0xff00, place, manySection place⟩ : Contributor) ∈
        (manyInput 0xff00).contributors :=
      many_contributors.mpr ⟨place, place.isLt, rfl⟩
    rcases exists_numbered (many_parsed (by decide)) (many_aligned 0xff00) rfl computed.pre
      isMember with ⟨out, s, isOut, isSection, named⟩
    rcases many_lookup place.isLt with ⟨res, isRes, definedIn, sectionIndex⟩
    have isSym : (manyDynamic 0xff00).exports[place.val]? =
        some { name := (manySymbol place).name, info := 17, other := 0 } := by
      rw [manyDynamic, List.getElem?_map, List.getElem?_range place.isLt]
      rfl
    have below := (exports_read_iff computed rfl isSym isRes).mp
      (reads.exports _ rfl _ _ res isSym isRes) (out + 1)
      (exportedPlace_of definedIn sectionIndex isOut)
    exact ⟨⟨out, by omega⟩, s, isSection, named.trans (many_outName _ _)⟩
  have injective : Function.Injective fun place => (numbered place).choose := by
    intro first second same
    rcases (numbered first).choose_spec with ⟨s, isFirst, firstName⟩
    rcases (numbered second).choose_spec with ⟨other, isSecond, secondName⟩
    dsimp only at same
    rw [same, isSecond] at isFirst
    cases isFirst
    exact Fin.ext (replicate_inj (firstName.symm.trans secondName))
  have count := Fintype.card_le_of_injective _ injective
  rw [Fintype.card_fin, Fintype.card_fin] at count
  omega

end LayoutInput

end Peony
