import Peony.Layout.Compute
import Peony.Layout.HashTable

namespace Peony

/-! The hash table of an output as an index of its dynamic symbols, once the addresses are
patched into `.dynsym`. -/

/-! ## The tables of an output -/

namespace LayoutInput

variable (input : LayoutInput) (dynj : DynamicInfo)

/-- The names of the dynamic symbols behind the null symbol. -/
def dynsymNames : List Name := dynj.imports ++ dynj.exports.map ExportSym.name

/-- The symbols that are to be found: the imports that are copied and the exports. -/
def hashedSymbols : List (Nat × Name) :=
  (dynj.imports.zipIdx.filter fun entry =>
      decide (entry.1 ∈ input.copyImports dynj)).map (fun entry => (entry.2 + 1, entry.1)) ++
    dynj.exports.zipIdx.map fun entry =>
      (1 + dynj.imports.length + entry.2, entry.1.name)

/-- Where the names of the dynamic symbols start in `.dynstr`. -/
def nameOffsets : List Nat :=
  offsetsFrom 1 dynj.imports ++
    offsetsFrom (1 + (stringBytes (dynj.imports ++ dynj.needed)).length)
      (dynj.exports.map ExportSym.name)

theorem hashedWords_hashedSymbols :
    hashedWords (input.hashedSymbols dynj) =
      input.copyImportIndices dynj ++ exportIndices dynj := by
  rw [hashedWords, hashedSymbols, List.map_append, List.map_map, List.map_map]
  rfl

theorem name_of_hashed {entry : Nat × Name} (present : entry ∈ input.hashedSymbols dynj) :
    ∃ place, entry.1 = place + 1 ∧ (dynsymNames dynj)[place]? = some entry.2 := by
  rcases List.mem_append.mp present with isCopy | isExport
  · rcases List.mem_map.mp isCopy with ⟨⟨name, place⟩, isImport, rfl⟩
    have isName := List.mem_zipIdx_iff_getElem?.mp (List.mem_filter.mp isImport).1
    refine ⟨place, rfl, ?_⟩
    rw [dynsymNames, List.getElem?_append_left (List.getElem?_eq_some_iff.mp isName).1]
    exact isName
  · rcases List.mem_map.mp isExport with ⟨⟨sym, place⟩, isSym, rfl⟩
    have isName := List.mem_zipIdx_iff_getElem?.mp isSym
    refine ⟨dynj.imports.length + place, by dsimp only; omega, ?_⟩
    rw [dynsymNames, List.getElem?_append_right (Nat.le_add_right _ _),
      Nat.add_sub_cancel_left, List.getElem?_map, isName]
    rfl

theorem nodup_indices : ((input.hashedSymbols dynj).map Prod.fst).Nodup := by
  have places {Item : Type} (items : List Item) : (items.zipIdx.map Prod.snd).Nodup := by
    rw [List.zipIdx_map_snd]
    exact List.nodup_range'
  have copies : (((dynj.imports.zipIdx.filter fun entry =>
      decide (entry.1 ∈ input.copyImports dynj)).map Prod.snd).map (· + 1)).Nodup :=
    ((places dynj.imports).sublist (List.filter_sublist.map Prod.snd)).map
      fun _ _ same => Nat.succ.inj same
  have exports : ((dynj.exports.zipIdx.map Prod.snd).map
      (1 + dynj.imports.length + ·)).Nodup :=
    (places dynj.exports).map fun _ _ same => Nat.add_left_cancel same
  rw [List.map_map] at copies exports
  rw [hashedSymbols, List.map_append, List.map_map, List.map_map]
  refine List.Nodup.append copies exports ?_
  rintro index isCopy isExport
  rcases List.mem_map.mp isCopy with ⟨⟨name, place⟩, isImport, rfl⟩
  rcases List.mem_map.mp isExport with ⟨⟨sym, other⟩, isSym, same⟩
  have isName := List.mem_zipIdx_iff_getElem?.mp (List.mem_filter.mp isImport).1
  have inRange : place < dynj.imports.length := (List.getElem?_eq_some_iff.mp isName).1
  have equal : 1 + dynj.imports.length + other = place + 1 := same
  omega

/-! ### The names of the entries -/

def dynsymEntries : List DynSym :=
  { nameOff := 0 } ::
    ((dynj.imports.zip (offsetsFrom 1 dynj.imports)).map fun entry =>
      { nameOff := UInt32.ofNat entry.2
        info := stInfo stbGlobal
          (((input.symbols.lookup entry.1).map SymbolResolution.stType).getD sttNotype)
        size := if entry.1 ∈ input.copyImports dynj then
          ((input.symbols.lookup entry.1).map SymbolResolution.size).getD 0 else 0 }) ++
    (dynj.exports.zip (offsetsFrom
      (1 + (stringBytes (dynj.imports ++ dynj.needed)).length)
      (dynj.exports.map ExportSym.name))).map fun entry =>
        { nameOff := UInt32.ofNat entry.2, info := entry.1.info, other := entry.1.other }

theorem nameOff_dynsymEntries :
    (input.dynsymEntries dynj).map DynSym.nameOff =
      0 :: (nameOffsets dynj).map UInt32.ofNat := by
  rw [dynsymEntries, nameOffsets, List.cons_append, List.map_cons, List.map_append,
    List.map_map, List.map_map, List.map_append]
  congr 2
  · have first : (dynj.imports.zip (offsetsFrom 1 dynj.imports)).map Prod.snd =
        offsetsFrom 1 dynj.imports :=
      List.map_snd_zip (Nat.le_of_eq (length_offsetsFrom ..))
    conv => rhs; rw [← first, List.map_map]
    rfl
  · have second : (dynj.exports.zip (offsetsFrom
        (1 + (stringBytes (dynj.imports ++ dynj.needed)).length)
        (dynj.exports.map ExportSym.name))).map Prod.snd = _ :=
      List.map_snd_zip (Nat.le_of_eq
        ((length_offsetsFrom ..).trans (List.length_map _)))
    conv => rhs; rw [← second, List.map_map]
    rfl

omit input in
theorem exists_dynstr_versions (entries : List (Option Name × Option Name))
    (state : VersionState) :
    ∃ more, (entries.foldl dynj.addVersion state).dynstr = state.dynstr ++ more := by
  induction entries generalizing state with
  | nil => exact ⟨[], (List.append_nil _).symm⟩
  | cons entry rest induction =>
      have step : ∃ more, (dynj.addVersion state entry).dynstr = state.dynstr ++ more := by
        rw [DynamicInfo.addVersion]
        split
        · exact ⟨[], (List.append_nil _).symm⟩
        · split
          · exact ⟨[], (List.append_nil _).symm⟩
          · exact ⟨_, List.append_assoc _ _ _⟩
      rcases step with ⟨first, isFirst⟩
      rcases induction (dynj.addVersion state entry) with ⟨more, isMore⟩
      exact ⟨first ++ more, by rw [List.foldl_cons, isMore, isFirst, List.append_assoc]⟩

omit input dynj in
theorem exists_pushOptional (table : List UInt8) (name : Option Name) :
    ∃ more, (pushOptional table name).2 = table ++ more := by
  cases name with
  | none => exact ⟨[], (List.append_nil _).symm⟩
  | some name => exact ⟨_, List.append_assoc _ _ _⟩

/-- What is known of `.dynsym` before any address is. -/
theorem prebuildInfo_dynsym {pre : DynPrebuild} (prebuilt : input.prebuildInfo dynj = .ok pre) :
    pre.blobs.dynsym = DynSym.format.table (input.dynsymEntries dynj) ∧
      pre.exportPatch = dynj.exports.zipIdx.map (fun entry =>
        (entry.1.name, 24 + 24 * dynj.imports.length + 24 * entry.2)) ∧
      pre.copyPatch = input.copyPatches dynj := by
  rw [prebuildInfo] at prebuilt
  simp only [pushStrings_eq] at prebuilt
  split at prebuilt
  · exact nomatch prebuilt
  · rw [Except.ok.injEq] at prebuilt
    subst prebuilt
    refine ⟨?_, rfl, rfl⟩
    have start : ([0] ++ stringBytes dynj.imports ++ stringBytes dynj.needed).length =
        1 + (stringBytes (dynj.imports ++ dynj.needed)).length := by
      rw [stringBytes_append, List.append_assoc, List.length_append, List.length_singleton]
    rw [dynsymEntries, RecordFormat.table_append, RecordFormat.table_cons,
      RecordFormat.table, RecordFormat.table, List.flatMap_map, List.flatMap_map]
    dsimp only
    rw [start, List.zip_map_right, List.zip_map_right, List.flatMap_map, List.flatMap_map]
    rfl

/-- What the tables of a dynamic output are made of. -/
theorem prebuildInfo_blobs {pre : DynPrebuild} (prebuilt : input.prebuildInfo dynj = .ok pre)
    (style : dynj.hashStyle ≠ .gnu) :
    pre.blobs.hash = sysvHash (input.copyImportIndices dynj ++ exportIndices dynj)
        (1 + dynj.imports.length + dynj.exports.length) ∧
      pre.blobs.dynsym = DynSym.format.table (input.dynsymEntries dynj) ∧
      ∃ more, pre.blobs.dynstr =
        [0] ++ stringBytes (dynj.imports ++ dynj.needed ++ dynj.exports.map ExportSym.name) ++
          more := by
  have isTable := (input.prebuildInfo_dynsym dynj prebuilt).1
  rw [prebuildInfo] at prebuilt
  simp only [pushStrings_eq, style, false_and, if_false, Except.ok.injEq] at prebuilt
  subst prebuilt
  refine ⟨rfl, isTable, ?_⟩
  rcases exists_pushOptional ([0] ++ stringBytes dynj.imports ++
    stringBytes dynj.needed ++ stringBytes (dynj.exports.map ExportSym.name))
    dynj.soname with ⟨soname, isSoname⟩
  rcases exists_pushOptional ([0] ++ stringBytes dynj.imports ++
    stringBytes dynj.needed ++ stringBytes (dynj.exports.map ExportSym.name) ++ soname)
    dynj.rpath with ⟨rpath, isRpath⟩
  dsimp only
  rw [isSoname, isRpath, DynamicInfo.versions]
  rcases exists_dynstr_versions dynj (dynj.importVersions.zip dynj.importSonames)
    { dynstr := [0] ++ stringBytes dynj.imports ++ stringBytes dynj.needed ++
        stringBytes (dynj.exports.map ExportSym.name) ++ soname ++ rpath } with
    ⟨versions, isVersions⟩
  refine ⟨soname ++ rpath ++ versions, ?_⟩
  rw [isVersions, stringBytes_append, stringBytes_append]
  simp only [List.append_assoc]

/-! ### The entries once addresses are known -/

/-- A patch of an entry of `.dynsym` behind its name, info and other bytes. -/
def BehindName (patch : Buffer.Patch UInt8) : Prop :=
  ∃ index, patch.offset = 24 * index + 6 ∧ patch.data.length = 18

omit input dynj in
theorem nameOff_applyAll {buffer : List UInt8} {patches : List (Buffer.Patch UInt8)}
    (behind : ∀ patch ∈ patches, BehindName patch) (index : Nat) :
    (DynSym.format.readAt (Buffer.applyAll buffer patches) index).map DynSym.nameOff =
      (DynSym.format.readAt buffer index).map DynSym.nameOff := by
  have unchanged : ((Buffer.applyAll buffer patches).drop (24 * index)).take 4 =
      (buffer.drop (24 * index)).take 4 := by
    apply Buffer.window_congr
    intro place inName
    apply Buffer.getElem?_applyAll_of_not_covers
    intro patch present
    rcases behind patch present with ⟨other, offset, length⟩
    rintro ⟨atLeast, below⟩
    rw [offset] at atLeast below
    rw [length] at below
    omega
  have name (bytes : List UInt8) : (DynSym.ofBytes
      ((bytes.drop (24 * index)).take 24)).nameOff =
        UInt32.ofNat (fromLeBytes ((bytes.drop (24 * index)).take 4)) := by
    rw [DynSym.ofBytes, readU32, List.take_take]
    rfl
  rw [RecordFormat.readAt, RecordFormat.readAt, Buffer.length_applyAll]
  split
  · refine congrArg some ?_
    change (DynSym.ofBytes ((_ : List UInt8).take 24)).nameOff =
      (DynSym.ofBytes ((_ : List UInt8).take 24)).nameOff
    exact (name _).trans ((congrArg (fun bytes => UInt32.ofNat (fromLeBytes bytes))
      unchanged).trans (name _).symm)
  · rfl

theorem prebuildInfo_offsets {pre : DynPrebuild}
    (prebuilt : input.prebuildInfo dynj = .ok pre) :
    (∀ entry ∈ pre.exportPatch, 24 ∣ entry.2) ∧ ∀ entry ∈ pre.copyPatch, 24 ∣ entry.2 := by
  rw [prebuildInfo] at prebuilt
  split at prebuilt
  · exact nomatch prebuilt
  · cases prebuilt
    constructor
    · intro entry present
      rcases List.mem_map.mp present with ⟨⟨sym, place⟩, _, rfl⟩
      exact ⟨1 + dynj.imports.length + place, by dsimp only; omega⟩
    · intro entry present
      rcases List.mem_filterMap.mp present with ⟨⟨name, place⟩, _, isEntry⟩
      rcases Option.map_eq_some_iff.mp isEntry with ⟨res, _, rfl⟩
      exact ⟨1 + place, by dsimp only; omega⟩

omit input dynj in
theorem behindName_dynsymPatch {off : Nat} (isEntry : 24 ∣ off) (shndx : UInt16)
    (value size : UInt64) : BehindName (dynsymPatch off shndx value size) := by
  rcases isEntry with ⟨index, rfl⟩
  exact ⟨index, rfl, rfl⟩

theorem behindName_patches {pre : DynPrebuild} (prebuilt : input.prebuildInfo dynj = .ok pre)
    (placement : Placement) (addresses : List (SectionKey × UInt64))
    (copies : List (SymbolId × UInt64)) (bssShndx : UInt16) :
    ∀ patch ∈ input.exportPatches pre placement addresses ++
      input.copyPatchesAt pre copies bssShndx, BehindName patch := by
  rcases input.prebuildInfo_offsets dynj prebuilt with ⟨exports, imports⟩
  intro patch present
  rcases List.mem_append.mp present with isExport | isCopy
  · rcases List.mem_filterMap.mp isExport with ⟨entry, isEntry, isPatch⟩
    rcases Option.map_eq_some_iff.mp isPatch with ⟨res, _, rfl⟩
    exact behindName_dynsymPatch (exports entry isEntry) _ _ _
  · rcases List.mem_filterMap.mp isCopy with ⟨entry, isEntry, isPatch⟩
    rcases Option.bind_eq_some_iff.mp isPatch with ⟨res, _, later⟩
    rcases Option.bind_eq_some_iff.mp later with ⟨value, _, same⟩
    cases same
    exact behindName_dynsymPatch (imports entry isEntry) _ _ _

/-! ## The index -/

/-- The condition under which every symbol that is hashed can be read by its name: the names
are distinct, and the indices and offsets are not cut to words that mean others. -/
structure HashReadable (dynstr : List UInt8) : Prop where
  distinct : ((input.hashedSymbols dynj).map Prod.snd).Nodup
  small : ∀ entry ∈ input.hashedSymbols dynj, entry.1 < 2 ^ 32
  named : ∀ entry ∈ input.hashedSymbols dynj,
    stringAt dynstr (((0 :: nameOffsets dynj).getD entry.1 0) % 2 ^ 32) = entry.2

/-- The strings of the libraries and symbols, in the order of `.dynstr`. -/
def dynamicStrings : List Name :=
  dynj.imports ++ dynj.needed ++ dynj.exports.map ExportSym.name

omit input in
theorem exists_string {place : Nat} {name : Name}
    (named : (dynsymNames dynj)[place]? = some name) :
    ∃ position, ∃ inStrings : position < (dynamicStrings dynj).length,
      (nameOffsets dynj)[place]? =
        some (1 + (stringBytes ((dynamicStrings dynj).take position)).length) ∧
      (dynamicStrings dynj)[position] = name := by
  rw [dynsymNames] at named
  by_cases isImport : place < dynj.imports.length
  · rw [List.getElem?_append_left isImport] at named
    have inStrings : place < (dynamicStrings dynj).length := by
      rw [dynamicStrings, List.length_append, List.length_append]
      omega
    refine ⟨place, inStrings, ?_, ?_⟩
    · rw [nameOffsets, List.getElem?_append_left (by rwa [length_offsetsFrom]),
        getElem?_offsetsFrom _ _ isImport, dynamicStrings, List.append_assoc,
        List.take_append_of_le_length (Nat.le_of_lt isImport)]
    · have both : (dynamicStrings dynj)[place]? = some name := by
        rw [dynamicStrings, List.append_assoc, List.getElem?_append_left isImport]
        exact named
      exact (List.getElem?_eq_some_iff.mp both).2
  · rcases Nat.exists_eq_add_of_le (Nat.le_of_not_lt isImport) with ⟨other, rfl⟩
    rw [List.getElem?_append_right (Nat.le_add_right _ _), Nat.add_sub_cancel_left] at named
    have isExport := (List.getElem?_eq_some_iff.mp named).1
    have both : (dynamicStrings dynj)[(dynj.imports ++ dynj.needed).length + other]? =
        some name := by
      rw [dynamicStrings, List.getElem?_append_right (Nat.le_add_right _ _),
        Nat.add_sub_cancel_left]
      exact named
    have front : stringBytes (dynj.imports ++ dynj.needed ++
        (dynj.exports.map ExportSym.name).take other) =
        stringBytes (dynj.imports ++ dynj.needed) ++
          stringBytes ((dynj.exports.map ExportSym.name).take other) :=
      stringBytes_append _ _
    refine ⟨_, (List.getElem?_eq_some_iff.mp both).1, ?_,
      (List.getElem?_eq_some_iff.mp both).2⟩
    rw [nameOffsets, List.getElem?_append_right (by
      rw [length_offsetsFrom]
      exact Nat.le_add_right _ _), length_offsetsFrom, Nat.add_sub_cancel_left,
      getElem?_offsetsFrom _ _ isExport, dynamicStrings, List.take_length_add_append, front,
      List.length_append, Nat.add_assoc]

section Index

variable {input dynj}
variable {pre : DynPrebuild} (prebuilt : input.prebuildInfo dynj = .ok pre)
variable (style : dynj.hashStyle ≠ .gnu) (isDynamic : input.dynamic = some dynj)
variable (placement : Placement) (file : FileEnd) (gotBase : UInt64)
variable (copies : List (SymbolId × UInt64))

include prebuilt style isDynamic

/-- The name that the tables of the output give to an entry. -/
theorem dynsymName_finish {index : Nat} (inRange : index ≤ (nameOffsets dynj).length) :
    dynsymName (input.finishBlobs pre placement file gotBase copies) index =
      some (stringAt pre.blobs.dynstr
        (((0 :: nameOffsets dynj).getD index 0) % 2 ^ 32)) := by
  rcases input.prebuildInfo_blobs dynj prebuilt style with ⟨_, isTable, _⟩
  have patched : (input.finishBlobs pre placement file gotBase copies).dynsym =
      Buffer.applyAll pre.blobs.dynsym (input.exportPatches pre placement file.addresses ++
        input.copyPatchesAt pre copies (LayoutInput.bssShndx file.sections)) := by
    simp only [finishBlobs, isDynamic]
  have strings : (input.finishBlobs pre placement file gotBase copies).dynstr =
      pre.blobs.dynstr := by
    simp only [finishBlobs, isDynamic]
  have inEntries : index < (input.dynsymEntries dynj).length := by
    have length := congrArg List.length (input.nameOff_dynsymEntries dynj)
    rw [List.length_map, List.length_cons, List.length_map] at length
    omega
  have read := @RecordFormat.readAt_table _ _ DynSym.format (input.dynsymEntries dynj) []
    index inEntries
  rw [List.append_nil, ← isTable] at read
  have nameOff : (input.dynsymEntries dynj)[index].nameOff =
      UInt32.ofNat ((0 :: nameOffsets dynj).getD index 0) := by
    have both := congrArg (fun words : List UInt32 => words[index]?)
      (input.nameOff_dynsymEntries dynj)
    rw [List.getElem?_map, List.getElem?_eq_getElem inEntries, Option.map_some] at both
    cases index with
    | zero => exact Option.some.inj both
    | succ place =>
        rw [List.getElem?_cons_succ, List.getElem?_map] at both
        rw [List.getD_cons_succ, List.getD_eq_getElem?_getD]
        cases found : (nameOffsets dynj)[place]? with
        | none => rw [found] at both; exact nomatch both
        | some offset => rw [found] at both; exact Option.some.inj both
  have names : dynsymName (input.finishBlobs pre placement file gotBase copies) index =
      ((DynSym.format.readAt (input.finishBlobs pre placement file gotBase copies).dynsym
        index).map DynSym.nameOff).map fun off => stringAt pre.blobs.dynstr off.toNat := by
    rw [dynsymName, strings, Option.map_map]
    rfl
  rw [names, patched, nameOff_applyAll (input.behindName_patches dynj prebuilt _ _ _ _), read,
    Option.map_some, Option.map_some, nameOff, UInt32.toNat_ofNat']

theorem hashIndexes_iff_readable :
    HashIndexes (input.finishBlobs pre placement file gotBase copies)
        (input.hashedSymbols dynj) ↔
      input.HashReadable dynj pre.blobs.dynstr := by
  have offsets : (nameOffsets dynj).length = dynj.imports.length + dynj.exports.length := by
    rw [nameOffsets, List.length_append, length_offsetsFrom, length_offsetsFrom,
      List.length_map]
  have inRange : ∀ entry ∈ input.hashedSymbols dynj, entry.1 ≠ 0 ∧
      entry.1 < 1 + dynj.imports.length + dynj.exports.length := by
    intro entry present
    rcases input.name_of_hashed dynj present with ⟨place, isPlace, named⟩
    have within := (List.getElem?_eq_some_iff.mp named).1
    rw [dynsymNames, List.length_append, List.length_map] at within
    omega
  have names (entry : Nat × Name) (present : entry ∈ input.hashedSymbols dynj) :=
    @dynsymName_finish input dynj pre prebuilt style isDynamic placement file gotBase copies
      entry.1 (by have := inRange entry present; omega)
  rcases input.prebuildInfo_blobs dynj prebuilt style with ⟨isHash, _, _⟩
  have hash : (input.finishBlobs pre placement file gotBase copies).hash =
      sysvHash (hashedWords (input.hashedSymbols dynj))
        (1 + dynj.imports.length + dynj.exports.length) := by
    rw [hashedWords_hashedSymbols, ← isHash]
    simp only [finishBlobs, isDynamic]
  constructor
  · intro indexes
    rcases readable_of_hashIndexes indexes (input.nodup_indices dynj) with
      ⟨each, distinct⟩
    refine ⟨distinct, fun entry present => (each entry present).1,
      fun entry present => ?_⟩
    have both := (names entry present).symm.trans (each entry present).2
    exact Option.some.inj both
  · intro readable
    refine hashIndexes_of_readable readable.small hash inRange (input.nodup_indices dynj)
      readable.distinct fun entry present => ?_
    rw [names entry present, readable.named entry present]

omit isDynamic in
/-- In a short string table every name that has no zero byte is read back. -/
theorem readable_of_short (distinct : ((input.hashedSymbols dynj).map Prod.snd).Nodup)
    (noEnd : ∀ entry ∈ input.hashedSymbols dynj, (0 : UInt8) ∉ entry.2)
    (few : dynj.imports.length + dynj.exports.length < 2 ^ 32)
    (short : pre.blobs.dynstr.length ≤ 2 ^ 32) :
    input.HashReadable dynj pre.blobs.dynstr := by
  rcases input.prebuildInfo_blobs dynj prebuilt style with ⟨_, _, more, isTable⟩
  refine ⟨distinct, fun entry present => ?_, fun entry present => ?_⟩
  · rcases input.name_of_hashed dynj present with ⟨place, isPlace, named⟩
    have within := (List.getElem?_eq_some_iff.mp named).1
    rw [dynsymNames, List.length_append, List.length_map] at within
    omega
  · rcases input.name_of_hashed dynj present with ⟨place, isPlace, named⟩
    rcases exists_string dynj named with ⟨position, inStrings, offset, isName⟩
    have below := length_stringBytes_take_lt inStrings
    have whole : (1 + (stringBytes (dynamicStrings dynj)).length) ≤ 2 ^ 32 := by
      rw [isTable, List.length_append, List.length_append, List.length_singleton] at short
      exact Nat.le_trans (Nat.le_add_right _ _) short
    have read := stringAt_offset inStrings (isName ▸ noEnd entry present) [0] more
    rw [isPlace, List.getD_cons_succ, List.getD_eq_getElem?_getD, offset, Option.getD_some,
      Nat.mod_eq_of_lt (by omega), isTable, ← isName]
    exact read

/-- The table is a correct index exactly when the names of its symbols are distinct and can
be read where the entries, cut to 32 bits, say, whatever addresses are patched in. -/
theorem hashIndexes_iff :
    (HashIndexes (input.finishBlobs pre placement file gotBase copies)
        (input.hashedSymbols dynj) ↔ input.HashReadable dynj pre.blobs.dynstr) ∧
      (((input.hashedSymbols dynj).map Prod.snd).Nodup →
        (∀ entry ∈ input.hashedSymbols dynj, (0 : UInt8) ∉ entry.2) →
        dynj.imports.length + dynj.exports.length < 2 ^ 32 →
        pre.blobs.dynstr.length ≤ 2 ^ 32 → input.HashReadable dynj pre.blobs.dynstr) :=
  ⟨hashIndexes_iff_readable prebuilt style isDynamic placement file gotBase copies,
    readable_of_short prebuilt style⟩

end Index

/-! One imported and one exported symbol, with names of any length. -/

private def namedDynamic (imported : Name) : DynamicInfo where
  imports := [imported]
  exports := [{ name := nameOf "b", info := 18, other := 0 }]
  shared := true

private def namedInput (imported : Name) : LayoutInput where
  arena := { mmaps := [], owned := [] }
  objects := []
  symbols := SymbolTable.new
  dynamic := some (namedDynamic imported)

private def noFile : FileEnd where
  sections := []
  addresses := []
  emitRelocs := []
  shstrtab := []
  shoff := 0
  fileSize := 0

private theorem prebuilt_named (imported : Name) :
    ∃ pre, (namedInput imported).prebuildInfo (namedDynamic imported) = .ok pre :=
  ⟨_, rfl⟩

theorem hashIndexes_short : ∃ pre,
    (namedInput (nameOf "a")).prebuildInfo (namedDynamic (nameOf "a")) = .ok pre ∧
      HashIndexes ((namedInput (nameOf "a")).finishBlobs pre { va := 0 } noFile 0 [])
        [(2, nameOf "b")] := by
  rcases prebuilt_named (nameOf "a") with ⟨pre, prebuilt⟩
  have both := hashIndexes_iff prebuilt (by decide) rfl { va := 0 } noFile 0 []
  refine ⟨pre, prebuilt, both.1.mpr (both.2 (by decide) (by decide) (by decide) ?_)⟩
  have dynstr : pre.blobs.dynstr = nameOf "\x00a\x00b\x00" := by
    cases prebuilt
    rfl
  rw [dynstr]
  decide

private theorem not_hashIndexes_of_long {imported : Name} {pre : DynPrebuild}
    (prebuilt : (namedInput imported).prebuildInfo (namedDynamic imported) = .ok pre)
    (long : imported.length = 2 ^ 32 - 1) (noEnd : (0 : UInt8) ∉ imported)
    (other : imported ≠ nameOf "b") :
    ¬ HashIndexes ((namedInput imported).finishBlobs pre { va := 0 } noFile 0 [])
      [(2, nameOf "b")] := by
  intro indexes
  have readable := (hashIndexes_iff_readable prebuilt
    (show HashStyle.both ≠ .gnu by decide) rfl { va := 0 } noFile 0 []).mp indexes
  have named := readable.named (2, nameOf "b") List.mem_cons_self
  have offset : (0 :: nameOffsets (namedDynamic imported)).getD 2 0 = 2 ^ 32 + 1 := by
    change 1 + (stringBytes ([imported] ++ [])).length = _
    rw [List.append_nil, stringBytes_cons, List.length_append, List.length_append, long]
    rfl
  rcases (namedInput imported).prebuildInfo_blobs _ prebuilt
      (show HashStyle.both ≠ .gnu by decide) with
    ⟨_, _, more, isTable⟩
  have first : stringAt pre.blobs.dynstr 1 = imported := by
    rw [isTable]
    exact @stringAt_offset (dynamicStrings (namedDynamic imported)) 0 (Nat.zero_lt_succ _)
      noEnd [0] more
  rw [offset] at named
  exact other (first.symm.trans named)

/-- The name of the export starts 4 GiB behind that of the import, and its offset in the
symbol table means the import's. -/
theorem long_not_hashIndexes : ∃ pre,
    (namedInput (List.replicate (2 ^ 32 - 1) 97)).prebuildInfo
        (namedDynamic (List.replicate (2 ^ 32 - 1) 97)) = .ok pre ∧
      ¬ HashIndexes ((namedInput (List.replicate (2 ^ 32 - 1) 97)).finishBlobs pre
        { va := 0 } noFile 0 []) [(2, nameOf "b")] := by
  rcases prebuilt_named (List.replicate (2 ^ 32 - 1) 97) with ⟨pre, prebuilt⟩
  refine ⟨pre, prebuilt, not_hashIndexes_of_long prebuilt List.length_replicate ?_ ?_⟩
  · intro present
    exact absurd (List.eq_of_mem_replicate present) (by decide)
  · intro same
    have present : (98 : UInt8) ∈ List.replicate (2 ^ 32 - 1) 97 := by
      rw [same]
      exact List.mem_singleton_self _
    exact absurd (List.eq_of_mem_replicate present) (by decide)

end LayoutInput

end Peony
