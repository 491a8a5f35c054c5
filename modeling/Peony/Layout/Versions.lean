import Peony.Layout.Compute
import Peony.Layout.VersionNeeds
import Peony.Layout.VersionNumbers

namespace Peony

/-! The version tables of a dynamic output as a loader reads them: which libraries and versions
it finds, and which version it takes an import to have. -/

/-- What the version tables say to a loader of the imports: every library that a version is
needed of is visited once with each of its versions once, the indices are distinct and at
least 2, and every import with a version has the index of that version of its library. -/
structure VersionsConsistent (blobs : DynBlobs) (imports : List (Option Name × Option Name))
    (libraries : List LibraryVersions) : Prop where
  decoded : decodeVersions blobs = some libraries
  files : (libraries.map LibraryVersions.file).Nodup
  versions : ∀ library ∈ libraries,
    library.versions ≠ [] ∧ (library.versions.map Prod.fst).Nodup
  covers : ∀ file version,
    (∃ library ∈ libraries, library.file = file ∧ version ∈ library.versions.map Prod.fst) ↔
      (some version, some file) ∈ imports
  indices : (libraries.flatMap fun library => library.versions.map Prod.snd).Nodup
  bounds : ∀ library ∈ libraries, ∀ entry ∈ library.versions,
    2 ≤ entry.2.toNat ∧ entry.2.toNat < 2 ^ 15
  named : ∀ place version file, imports[place]? = some (some version, some file) →
    ∃ library ∈ libraries, library.file = file ∧
      ∃ index, (version, index) ∈ library.versions ∧
        versionIndex blobs (place + 1) = some index

namespace DynamicInfo

variable {dynj : DynamicInfo}

structure NamesRead (dynj : DynamicInfo) (dynstr : List UInt8) (sonameOff : List UInt32)
    (needs : List VersionNeed) : Prop where
  provided : ∀ version soname, (some version, some soname) ∈ dynj.versioned →
    soname ∈ dynj.needed
  files : ∀ need ∈ needs,
    dynj.needed[need.lib]? = some (stringAt dynstr (sonameOff.getD need.lib 0).toNat)
  named : ∀ need ∈ needs, stringAt dynstr need.nameOff.toNat = need.version

section Tables

variable {table : List UInt8} {state : VersionState} {sonameOff : List UInt32}
variable (numbered : Numbered table (dynj.versioned.filterMap dynj.versionKey) state)
variable (few : state.needs.length < 2 ^ 15 - 2) {blobs : DynBlobs}
variable (count : blobs.verneedNum = UInt64.ofNat (dynj.activeLibs state.needs).length)
variable (bytes : dynj.activeLibs state.needs ≠ [] →
  blobs.gnuVersionR = dynj.verneed sonameOff state.needs ∧
    blobs.gnuVersion = dynj.versym state.needs)

theorem mem_needsOf {needs : List VersionNeed} {lib : Nat} {need : VersionNeed} :
    need ∈ needsOf needs lib ↔ need ∈ needs ∧ need.lib = lib := by
  rw [needsOf, List.mem_filter, beq_iff_eq]

include bytes in
theorem versionIndex_versym {place : Nat} {entry : Option Name × Option Name}
    (active : dynj.activeLibs state.needs ≠ []) (isEntry : dynj.versioned[place]? = some entry) :
    versionIndex blobs (place + 1) = some (dynj.versymOf state.needs entry) := by
  rcases List.getElem?_eq_some_iff.mp isEntry with ⟨inRange, isEntry⟩
  have written : blobs.gnuVersion = halfFormat.table (0 :: (dynj.versioned.map
      (dynj.versymOf state.needs))) ++ dynj.exports.flatMap fun _ => le16 1 := by
    rw [(bytes active).2, versym, RecordFormat.table, List.flatMap_cons, List.flatMap_map]
    rfl
  have inTable : place + 1 < (0 :: dynj.versioned.map (dynj.versymOf state.needs)).length := by
    rw [List.length_cons, List.length_map]
    exact Nat.succ_lt_succ inRange
  rw [versionIndex, written, halfFormat.readAt_table inTable, List.getElem_cons_succ,
    List.getElem_map, isEntry]

include numbered in
theorem NamesRead.lastIndexOf_file {dynstr : List UInt8}
    (read : dynj.NamesRead dynstr sonameOff state.needs) {need : VersionNeed}
    (present : need ∈ state.needs) :
    lastIndexOf dynj.needed (stringAt dynstr (sonameOff.getD need.lib 0).toNat) =
        some need.lib ∧
      (some need.version, some (stringAt dynstr (sonameOff.getD need.lib 0).toNat)) ∈
        dynj.versioned := by
  have isKey := List.mem_map_of_mem (f := VersionNeed.key) present
  rw [numbered.keys] at isKey
  rcases dynj.mem_versionKeys isKey with ⟨soname, isEntry, isLib⟩
  have both := (read.files need present).symm.trans (getElem?_of_lastIndexOf isLib)
  rw [Option.some.inj both]
  exact ⟨isLib, isEntry⟩

theorem NamesRead.names_decodedLibrary {dynstr : List UInt8} {needs : List VersionNeed}
    (read : dynj.NamesRead dynstr sonameOff needs) (lib : Nat) :
    (decodedLibrary sonameOff needs dynstr lib).versions.map Prod.fst =
      (needsOf needs lib).map VersionNeed.version := by
  rw [decodedLibrary, List.map_map]
  apply List.map_congr_left
  intro need present
  exact read.named need (mem_needsOf.mp present).1

theorem indices_decodedLibrary (needs : List VersionNeed) (dynstr : List UInt8) (lib : Nat) :
    (decodedLibrary sonameOff needs dynstr lib).versions.map Prod.snd =
      (needsOf needs lib).map VersionNeed.index := by
  rw [decodedLibrary, List.map_map]
  rfl

include numbered in
theorem NamesRead.exists_decoded {dynstr : List UInt8}
    (read : dynj.NamesRead dynstr sonameOff state.needs) {version soname : Name}
    (present : (some version, some soname) ∈ dynj.versioned) :
    ∃ lib ∈ dynj.activeLibs state.needs,
      (decodedLibrary sonameOff state.needs dynstr lib).file = soname ∧
      (version, dynj.versymOf state.needs (some version, some soname)) ∈
        (decodedLibrary sonameOff state.needs dynstr lib).versions := by
  rcases exists_lastIndexOf (read.provided version soname present) with ⟨lib, isLib⟩
  have isKey : dynj.versionKey (some version, some soname) = some (lib, version) := by
    rw [versionKey, isLib]
    rfl
  rcases numbered.exists_need present isKey with ⟨need, isNeed, key, index⟩
  rcases Prod.mk.inj key with ⟨sameLib, sameVersion⟩
  have isFile := read.files need isNeed
  rw [sameLib, getElem?_of_lastIndexOf isLib] at isFile
  refine ⟨lib, numbered.mem_activeLibs_iff.mpr ⟨need, isNeed, sameLib⟩,
    (Option.some.inj isFile).symm, ?_⟩
  apply List.mem_map.mpr
  exact ⟨need, mem_needsOf.mpr ⟨isNeed, sameLib⟩,
    Prod.ext ((read.named need isNeed).trans sameVersion) index.symm⟩

include numbered few in
/-- No two libraries share an index. -/
theorem nodup_decodedIndices (dynstr : List UInt8) :
    (((dynj.activeLibs state.needs).map
      (decodedLibrary sonameOff state.needs dynstr)).flatMap fun library =>
        library.versions.map Prod.snd).Nodup := by
  have distinct := numbered.nodup_indices few
  rw [List.flatMap_map, List.nodup_flatMap]
  constructor
  · intro lib _
    rw [indices_decodedLibrary]
    exact distinct.sublist (List.filter_sublist.map _)
  · apply (List.nodup_range.filter _).imp
    intro first second different index isFirst isSecond
    dsimp only at isFirst isSecond
    rw [indices_decodedLibrary] at isFirst isSecond
    rcases List.mem_map.mp isFirst with ⟨need, isNeed, isIndex⟩
    rcases List.mem_map.mp isSecond with ⟨other, isOther, sameIndex⟩
    rw [mem_needsOf] at isNeed isOther
    have same := List.inj_on_of_nodup_map distinct isNeed.1 isOther.1
      (isIndex.trans sameIndex.symm)
    exact different (isNeed.2.symm.trans (same ▸ isOther.2))

include numbered few count bytes in
theorem consistent_of_namesRead (read : dynj.NamesRead blobs.dynstr sonameOff state.needs) :
    VersionsConsistent blobs dynj.versioned
      ((dynj.activeLibs state.needs).map
        (decodedLibrary sonameOff state.needs blobs.dynstr)) := by
  constructor
  · exact dynj.decodeVersions_verneed sonameOff state.needs (by omega) blobs count
      fun active => (bytes active).1
  · rw [List.map_map]
    apply List.Nodup.map_on _ (List.nodup_range.filter _)
    intro first isFirst second isSecond same
    rcases numbered.mem_activeLibs_iff.mp isFirst with ⟨need, isNeed, rfl⟩
    rcases numbered.mem_activeLibs_iff.mp isSecond with ⟨other, isOther, rfl⟩
    have firstLib := (read.lastIndexOf_file numbered isNeed).1
    change stringAt _ _ = stringAt _ _ at same
    rw [same] at firstLib
    exact Option.some.inj (firstLib.symm.trans (read.lastIndexOf_file numbered isOther).1)
  · intro library isLibrary
    rcases List.mem_map.mp isLibrary with ⟨lib, active, rfl⟩
    constructor
    · intro none
      exact dynj.needsOf_ne_nil state.needs active (List.map_eq_nil_iff.mp none)
    · rw [read.names_decodedLibrary]
      apply List.Nodup.map_on
      · intro first isFirst second isSecond same
        rw [mem_needsOf] at isFirst isSecond
        exact List.inj_on_of_nodup_map numbered.distinct isFirst.1 isSecond.1
          (Prod.ext (isFirst.2.trans isSecond.2.symm) same)
      · exact (List.Nodup.of_map _ numbered.distinct).filter _
  · intro file version
    constructor
    · rintro ⟨library, isLibrary, rfl, isVersion⟩
      rcases List.mem_map.mp isLibrary with ⟨lib, active, rfl⟩
      rw [read.names_decodedLibrary] at isVersion
      rcases List.mem_map.mp isVersion with ⟨need, isNeed, rfl⟩
      rw [mem_needsOf] at isNeed
      have isEntry := (read.lastIndexOf_file numbered isNeed.1).2
      rw [isNeed.2] at isEntry
      exact isEntry
    · intro present
      rcases read.exists_decoded numbered present with ⟨lib, active, isFile, isVersion⟩
      exact ⟨_, List.mem_map_of_mem active, isFile, List.mem_map_of_mem isVersion⟩
  · exact nodup_decodedIndices numbered few blobs.dynstr
  · intro library isLibrary entry isEntry
    rcases List.mem_map.mp isLibrary with ⟨lib, active, rfl⟩
    rcases List.mem_map.mp isEntry with ⟨need, isNeed, rfl⟩
    exact numbered.bounds few (mem_needsOf.mp isNeed).1
  · intro place version file isEntry
    rcases read.exists_decoded numbered (List.mem_of_getElem? isEntry) with
      ⟨lib, active, isFile, isVersion⟩
    exact ⟨_, List.mem_map_of_mem active, isFile, _, isVersion,
      versionIndex_versym bytes (List.ne_nil_of_mem active) isEntry⟩

include numbered few count bytes in
theorem namesRead_of_consistent {libraries : List LibraryVersions}
    (consistent : VersionsConsistent blobs dynj.versioned libraries) :
    dynj.NamesRead blobs.dynstr sonameOff state.needs := by
  have isDecoded := dynj.decodeVersions_verneed sonameOff state.needs (by omega) blobs count
    fun active => (bytes active).1
  rw [consistent.decoded] at isDecoded
  cases isDecoded
  have each : ∀ version soname, (some version, some soname) ∈ dynj.versioned →
      ∃ lib need, lastIndexOf dynj.needed soname = some lib ∧ need ∈ state.needs ∧
        need.key = (lib, version) ∧
        stringAt blobs.dynstr (sonameOff.getD need.lib 0).toNat = soname ∧
        stringAt blobs.dynstr need.nameOff.toNat = version := by
    intro version soname present
    rcases List.getElem?_of_mem present with ⟨place, isEntry⟩
    rcases consistent.named place version soname isEntry with
      ⟨library, isLibrary, isFile, index, isIndex, isWord⟩
    have bound := (consistent.bounds library isLibrary _ isIndex).1
    rcases List.mem_map.mp isLibrary with ⟨lib, active, rfl⟩
    rcases List.mem_map.mp isIndex with ⟨need, isNeed, same⟩
    rcases Prod.mk.inj same with ⟨isVersion, sameIndex⟩
    rw [versionIndex_versym bytes (List.ne_nil_of_mem active) isEntry, Option.some.injEq]
      at isWord
    rw [mem_needsOf] at isNeed
    cases isKey : dynj.versionKey (some version, some soname) with
    | none =>
        have isOne : dynj.versymOf state.needs (some version, some soname) = 1 := by
          rw [versymOf, isKey]
          rfl
        rw [← isWord, isOne] at bound
        exact absurd bound (show ¬ 2 ≤ (1 : UInt16).toNat by decide)
    | some key =>
        rcases numbered.exists_need present isKey with ⟨other, isOther, otherKey, otherIndex⟩
        have sameNeed : other = need :=
          List.inj_on_of_nodup_map (numbered.nodup_indices few) isOther isNeed.1
            (otherIndex.symm.trans (isWord.trans sameIndex.symm))
        subst sameNeed
        rcases Option.map_eq_some_iff.mp isKey with ⟨keyLib, isLib, rfl⟩
        refine ⟨keyLib, other, isLib, isNeed.1, otherKey, ?_, isVersion⟩
        rw [isNeed.2]
        exact isFile
  have needRead : ∀ need ∈ state.needs,
      dynj.needed[need.lib]? = some (stringAt blobs.dynstr (sonameOff.getD need.lib 0).toNat) ∧
        stringAt blobs.dynstr need.nameOff.toNat = need.version := by
    intro need present
    have isKey := List.mem_map_of_mem (f := VersionNeed.key) present
    rw [numbered.keys] at isKey
    rcases dynj.mem_versionKeys isKey with ⟨soname, isEntry, isLib⟩
    rcases each _ _ isEntry with ⟨lib, other, isOtherLib, isOther, otherKey, isFile, isName⟩
    have sameLib : need.key.1 = lib := Option.some.inj (isLib.symm.trans isOtherLib)
    have sameKey : other.key = need.key := by
      rw [otherKey, ← sameLib]
    have same : other = need :=
      List.inj_on_of_nodup_map numbered.distinct isOther present sameKey
    subst same
    exact ⟨(getElem?_of_lastIndexOf isLib).trans (congrArg some isFile.symm), isName⟩
  refine ⟨?_, fun need present => (needRead need present).1,
    fun need present => (needRead need present).2⟩
  intro version soname present
  rcases each version soname present with ⟨lib, need, isLib, _⟩
  exact List.mem_of_getElem? (getElem?_of_lastIndexOf isLib)

end Tables

end DynamicInfo

/-! ## The strings -/

/-- The string at a place is read where an offset that is cut to 32 bits says. -/
def StringReadable (strings : List Name) (place : Nat) : Prop :=
  ∀ name, strings[place]? = some name →
    stringAt ([0] ++ stringBytes strings)
      ((1 + (stringBytes (strings.take place)).length) % 2 ^ 32) = name

theorem stringReadable_of_short {strings : List Name} {place : Nat}
    (short : 1 + (stringBytes strings).length ≤ 2 ^ 32)
    (noEnd : ∀ name ∈ strings, (0 : UInt8) ∉ name) : StringReadable strings place := by
  intro name isName
  rcases List.getElem?_eq_some_iff.mp isName with ⟨inRange, rfl⟩
  have below := length_stringBytes_take_lt inRange
  have read := stringAt_offset inRange (noEnd _ (List.getElem_mem inRange)) [0] []
  rw [List.append_nil] at read
  rw [Nat.mod_eq_of_lt (by omega)]
  exact read

namespace DynamicInfo

variable (dynj : DynamicInfo)

def strings : List Name :=
  dynj.imports ++ dynj.needed ++ dynj.exports.map ExportSym.name ++ dynj.soname.toList ++
    dynj.rpath.toList

def allStrings : List Name := dynj.strings ++ dynj.versionKeys.map Prod.snd

def outputNeeds : List VersionNeed := (dynj.versions ([0] ++ stringBytes dynj.strings)).needs

/-- Where the names of the libraries are. -/
def sonameOffsets : List UInt32 :=
  (offsetsFrom (1 + (stringBytes dynj.imports).length) dynj.needed).map UInt32.ofNat

/-- The condition under which the version tables say what they are to say: every library is
one of those that are needed, and the names of the libraries and versions can be read where
their offsets, cut to 32 bits, say. -/
structure VersionsReadable : Prop where
  provided : ∀ version soname, (some version, some soname) ∈ dynj.versioned →
    soname ∈ dynj.needed
  files : ∀ key ∈ dynj.versionKeys,
    StringReadable dynj.allStrings (dynj.imports.length + key.1)
  named : ∀ place < dynj.versionKeys.length,
    StringReadable dynj.allStrings (dynj.strings.length + place)

theorem map_key_outputNeeds :
    dynj.outputNeeds.map VersionNeed.key = dynj.versionKeys :=
  (dynj.numbered_versions _).keys

theorem map_version_outputNeeds :
    dynj.outputNeeds.map VersionNeed.version = dynj.versionKeys.map Prod.snd := by
  rw [← map_key_outputNeeds, List.map_map]
  rfl

theorem allStrings_eq : ∃ more, dynj.allStrings = dynj.imports ++ (dynj.needed ++ more) := by
  refine ⟨dynj.exports.map ExportSym.name ++ dynj.soname.toList ++ dynj.rpath.toList ++
    dynj.versionKeys.map Prod.snd, ?_⟩
  rw [allStrings, strings]
  simp only [List.append_assoc]

theorem file_readable_iff {lib : Nat} {soname : Name}
    (isNeeded : dynj.needed[lib]? = some soname) :
    StringReadable dynj.allStrings (dynj.imports.length + lib) ↔
      stringAt ([0] ++ stringBytes dynj.allStrings)
        (dynj.sonameOffsets.getD lib 0).toNat = soname := by
  have inRange := (List.getElem?_eq_some_iff.mp isNeeded).1
  rcases dynj.allStrings_eq with ⟨more, isStrings⟩
  have front : dynj.allStrings.take (dynj.imports.length + lib) =
      dynj.imports ++ dynj.needed.take lib := by
    rw [isStrings, List.take_length_add_append,
      List.take_append_of_le_length (Nat.le_of_lt inRange)]
  have isName : dynj.allStrings[dynj.imports.length + lib]? = some soname := by
    rw [isStrings, List.getElem?_append_right (Nat.le_add_right _ _), Nat.add_sub_cancel_left,
      List.getElem?_append_left inRange, isNeeded]
  have offset : (dynj.sonameOffsets.getD lib 0).toNat =
      (1 + (stringBytes (dynj.allStrings.take (dynj.imports.length + lib))).length) %
        2 ^ 32 := by
    rw [front, stringBytes_append, List.length_append, ← Nat.add_assoc, sonameOffsets,
      List.getD_eq_getElem?_getD, List.getElem?_map, getElem?_offsetsFrom _ _ inRange,
      Option.map_some, Option.getD_some, UInt32.toNat_ofNat']
  rw [offset]
  constructor
  · intro readable
    exact readable soname isName
  · intro read name isOther
    rw [isName] at isOther
    cases isOther
    exact read

theorem version_readable_iff {place : Nat} {need : VersionNeed}
    (isNeed : dynj.outputNeeds[place]? = some need) :
    StringReadable dynj.allStrings (dynj.strings.length + place) ↔
      stringAt ([0] ++ stringBytes dynj.allStrings) need.nameOff.toNat = need.version := by
  have numbered := dynj.numbered_versions ([0] ++ stringBytes dynj.strings)
  have isVersion : (dynj.versionKeys.map Prod.snd)[place]? = some need.version := by
    rw [← map_version_outputNeeds, List.getElem?_map, isNeed]
    rfl
  have inRange := (List.getElem?_eq_some_iff.mp isVersion).1
  have front : dynj.allStrings.take (dynj.strings.length + place) =
      dynj.strings ++ (dynj.versionKeys.map Prod.snd).take place := by
    rw [allStrings, List.take_length_add_append]
  have isName : dynj.allStrings[dynj.strings.length + place]? = some need.version := by
    rw [allStrings, List.getElem?_append_right (Nat.le_add_right _ _), Nat.add_sub_cancel_left,
      isVersion]
  have offset : need.nameOff.toNat =
      (1 + (stringBytes (dynj.allStrings.take (dynj.strings.length + place))).length) %
        2 ^ 32 := by
    have both := congrArg (fun offsets : List UInt32 => offsets[place]?) numbered.offsets
    change (dynj.outputNeeds.map VersionNeed.nameOff)[place]? =
      ((offsetsFrom _ (dynj.outputNeeds.map VersionNeed.version)).map UInt32.ofNat)[place]?
      at both
    rw [map_version_outputNeeds, List.getElem?_map, isNeed, List.getElem?_map,
      getElem?_offsetsFrom _ _ inRange, Option.map_some, Option.map_some, Option.some.injEq]
      at both
    rw [both, UInt32.toNat_ofNat', front, stringBytes_append, List.length_append,
      List.length_append, List.length_singleton, Nat.add_assoc]
  rw [offset]
  constructor
  · intro readable
    exact readable need.version isName
  · intro read name isOther
    rw [isName] at isOther
    cases isOther
    exact read

theorem namesRead_iff :
    dynj.NamesRead ([0] ++ stringBytes dynj.allStrings) dynj.sonameOffsets dynj.outputNeeds ↔
      dynj.VersionsReadable := by
  have keys := dynj.map_key_outputNeeds
  have isNeeded {key : Nat × Name} (present : key ∈ dynj.versionKeys) :
      ∃ soname, dynj.needed[key.1]? = some soname := by
    rcases dynj.mem_versionKeys present with ⟨soname, _, isLib⟩
    exact ⟨soname, getElem?_of_lastIndexOf isLib⟩
  constructor
  · intro read
    refine ⟨read.provided, ?_, ?_⟩
    · intro key present
      rcases isNeeded present with ⟨soname, isSoname⟩
      rw [← keys] at present
      rcases List.mem_map.mp present with ⟨need, isNeed, rfl⟩
      have isFile := read.files need isNeed
      change dynj.needed[need.lib]? = _ at isSoname
      apply (dynj.file_readable_iff isSoname).mpr
      rw [isSoname] at isFile
      exact (Option.some.inj isFile).symm
    · intro place inRange
      rw [← keys, List.length_map] at inRange
      have isNeed := List.getElem?_eq_getElem inRange
      exact (dynj.version_readable_iff isNeed).mpr (read.named _ (List.getElem_mem inRange))
  · intro readable
    refine ⟨readable.provided, ?_, ?_⟩
    · intro need present
      have isKey := List.mem_map_of_mem (f := VersionNeed.key) present
      rw [keys] at isKey
      rcases isNeeded isKey with ⟨soname, isSoname⟩
      have read := (dynj.file_readable_iff isSoname).mp (readable.files _ isKey)
      exact isSoname.trans (congrArg some read.symm)
    · intro need present
      rcases List.getElem?_of_mem present with ⟨place, isNeed⟩
      have inRange := (List.getElem?_eq_some_iff.mp isNeed).1
      apply (dynj.version_readable_iff isNeed).mp
      apply readable.named
      rw [← keys, List.length_map]
      exact inRange

theorem versionsReadable_of_short
    (provided : ∀ version soname, (some version, some soname) ∈ dynj.versioned →
      soname ∈ dynj.needed)
    (short : 1 + (stringBytes dynj.allStrings).length ≤ 2 ^ 32)
    (noEnd : ∀ name ∈ dynj.allStrings, (0 : UInt8) ∉ name) : dynj.VersionsReadable :=
  ⟨provided, fun _ _ => stringReadable_of_short short noEnd,
    fun _ _ => stringReadable_of_short short noEnd⟩

end DynamicInfo

namespace LayoutInput

variable (input : LayoutInput) (dynj : DynamicInfo)

omit input in
theorem pushOptional_eq (table : List UInt8) (name : Option Name) :
    (pushOptional table name).2 = table ++ stringBytes name.toList := by
  cases name with
  | none => exact (List.append_nil _).symm
  | some name =>
      rw [pushOptional, pushString, Option.toList_some, stringBytes_cons, List.append_assoc]
      exact congrArg (table ++ ·) (List.append_nil _).symm

theorem prebuildInfo_versions {pre : DynPrebuild}
    (prebuilt : input.prebuildInfo dynj = .ok pre) :
    pre.blobs.dynstr = [0] ++ stringBytes dynj.allStrings ∧
      pre.blobs.verneedNum = UInt64.ofNat (dynj.activeLibs dynj.outputNeeds).length ∧
      (dynj.activeLibs dynj.outputNeeds ≠ [] →
        pre.blobs.gnuVersionR = dynj.verneed dynj.sonameOffsets dynj.outputNeeds ∧
          pre.blobs.gnuVersion = dynj.versym dynj.outputNeeds) := by
  have strings : [0] ++ stringBytes dynj.imports ++ stringBytes dynj.needed ++
      stringBytes (dynj.exports.map ExportSym.name) ++ stringBytes dynj.soname.toList ++
        stringBytes dynj.rpath.toList = [0] ++ stringBytes dynj.strings := by
    rw [DynamicInfo.strings]
    simp only [stringBytes_append, List.append_assoc]
  rw [prebuildInfo] at prebuilt
  simp only [pushStrings_eq, pushOptional_eq, strings] at prebuilt
  split at prebuilt
  · exact nomatch prebuilt
  · cases prebuilt
    refine ⟨?_, rfl, ?_⟩
    · rw [(dynj.numbered_versions _).strings, DynamicInfo.allStrings,
        ← dynj.map_version_outputNeeds, stringBytes_append, ← List.append_assoc]
      rfl
    · intro active
      have filled : (dynj.activeLibs dynj.outputNeeds).length ≠ 0 :=
        fun none => active (List.length_eq_zero_iff.mp none)
      have start : ([0] ++ stringBytes dynj.imports).length =
          1 + (stringBytes dynj.imports).length := List.length_append
      constructor
      · refine (if_neg filled).trans ?_
        rw [start]
        rfl
      · exact if_neg filled

section Consistent

variable {input dynj}
variable {pre : DynPrebuild} (prebuilt : input.prebuildInfo dynj = .ok pre)
variable (isDynamic : input.dynamic = some dynj)
variable (few : dynj.versionPairs.dedup.length < 2 ^ 15 - 2)
variable (placement : Placement) (file : FileEnd) (gotBase : UInt64)
variable (copies : List (SymbolId × UInt64))

include prebuilt isDynamic few

theorem versionsConsistent_iff_readable :
    (∃ libraries, VersionsConsistent (input.finishBlobs pre placement file gotBase copies)
        dynj.versioned libraries) ↔ dynj.VersionsReadable := by
  have numbered := dynj.numbered_versions ([0] ++ stringBytes dynj.strings)
  have fewer : dynj.outputNeeds.length < 2 ^ 15 - 2 :=
    Nat.lt_of_le_of_lt (dynj.length_needs_le _) few
  have finished : (input.finishBlobs pre placement file gotBase copies).dynstr =
        [0] ++ stringBytes dynj.allStrings ∧
      (input.finishBlobs pre placement file gotBase copies).verneedNum =
        UInt64.ofNat (dynj.activeLibs dynj.outputNeeds).length ∧
      (dynj.activeLibs dynj.outputNeeds ≠ [] →
        (input.finishBlobs pre placement file gotBase copies).gnuVersionR =
            dynj.verneed dynj.sonameOffsets dynj.outputNeeds ∧
          (input.finishBlobs pre placement file gotBase copies).gnuVersion =
            dynj.versym dynj.outputNeeds) := by
    simp only [finishBlobs, isDynamic]
    exact input.prebuildInfo_versions dynj prebuilt
  rcases finished with ⟨dynstr, count, bytes⟩
  rw [← dynj.namesRead_iff, ← dynstr]
  constructor
  · rintro ⟨libraries, consistent⟩
    exact DynamicInfo.namesRead_of_consistent numbered fewer count bytes consistent
  · intro read
    exact ⟨_, DynamicInfo.consistent_of_namesRead numbered fewer count bytes read⟩

/-- The version tables are consistent exactly when the names of the libraries and versions
can be read where the records, cut to 32 bits, say. -/
theorem versionsConsistent_iff :
    ((∃ libraries, VersionsConsistent (input.finishBlobs pre placement file gotBase copies)
        dynj.versioned libraries) ↔ dynj.VersionsReadable) ∧
      ((∀ version soname, (some version, some soname) ∈ dynj.versioned →
          soname ∈ dynj.needed) →
        1 + (stringBytes dynj.allStrings).length ≤ 2 ^ 32 →
        (∀ name ∈ dynj.allStrings, (0 : UInt8) ∉ name) → dynj.VersionsReadable) :=
  ⟨versionsConsistent_iff_readable prebuilt isDynamic few placement file gotBase copies,
    dynj.versionsReadable_of_short⟩

end Consistent

/-! One import of a library, behind another import with a name of any length. -/

private def versionedDynamic (imported : Name) : DynamicInfo where
  imports := [imported, nameOf "f"]
  importVersions := [none, some (nameOf "V1")]
  importSonames := [none, some (nameOf "b")]
  needed := [nameOf "b"]

private def versionedInput (imported : Name) : LayoutInput where
  arena := { mmaps := [], owned := [] }
  objects := []
  symbols := SymbolTable.new
  dynamic := some (versionedDynamic imported)

private def emptyFile : FileEnd where
  sections := []
  addresses := []
  emitRelocs := []
  shstrtab := []
  shoff := 0
  fileSize := 0

private theorem prebuilt_versioned (imported : Name) :
    ∃ pre, (versionedInput imported).prebuildInfo (versionedDynamic imported) = .ok pre :=
  ⟨_, rfl⟩

private theorem few_versioned (imported : Name) :
    (versionedDynamic imported).versionPairs.dedup.length < 2 ^ 15 - 2 := by
  change ([(nameOf "V1", nameOf "b")] : List (Name × Name)).dedup.length < 2 ^ 15 - 2
  decide

theorem versionsConsistent_short : ∃ pre,
    (versionedInput (nameOf "a")).prebuildInfo (versionedDynamic (nameOf "a")) = .ok pre ∧
      ∃ libraries, VersionsConsistent
        ((versionedInput (nameOf "a")).finishBlobs pre { va := 0 } emptyFile 0 [])
        [(none, none), (some (nameOf "V1"), some (nameOf "b"))] libraries := by
  rcases prebuilt_versioned (nameOf "a") with ⟨pre, prebuilt⟩
  have both := versionsConsistent_iff prebuilt rfl (few_versioned _) { va := 0 } emptyFile 0 []
  refine ⟨pre, prebuilt, both.1.mpr (both.2 ?_ (by decide) (by decide))⟩
  intro version soname present
  cases present with
  | tail _ present =>
      cases present with
      | head => exact List.mem_singleton_self _
      | tail _ none => exact nomatch none

/-- A name of 2^32 - 3 bytes in front of it takes the library out of reach. -/
private theorem not_consistent_of_long {imported : Name} {pre : DynPrebuild}
    (prebuilt : (versionedInput imported).prebuildInfo (versionedDynamic imported) = .ok pre)
    (long : imported.length = 2 ^ 32 - 3) (clean : (0 : UInt8) ∉ imported)
    (other : imported ≠ nameOf "b") :
    ¬ ∃ libraries, VersionsConsistent
      ((versionedInput imported).finishBlobs pre { va := 0 } emptyFile 0 [])
      [(none, none), (some (nameOf "V1"), some (nameOf "b"))] libraries := by
  intro consistent
  have readable := (versionsConsistent_iff_readable prebuilt rfl (few_versioned _) { va := 0 }
    emptyFile 0 []).mp consistent
  have isKey : (0, nameOf "V1") ∈ (versionedDynamic imported).versionKeys :=
    (versionedDynamic imported).versionKeys_of_mem (List.mem_cons_of_mem _ List.mem_cons_self)
      rfl
  have read := readable.files _ isKey (nameOf "b") rfl
  have offset : (stringBytes ((versionedDynamic imported).allStrings.take
      ((versionedDynamic imported).imports.length + 0))).length = 2 ^ 32 := by
    have tail : (stringBytes [nameOf "f"]).length = 2 := rfl
    change (stringBytes [imported, nameOf "f"]).length = _
    rw [stringBytes_cons, List.length_append, List.length_append, long, tail,
      List.length_singleton]
    omega
  have first : stringAt ([0] ++ stringBytes (versionedDynamic imported).allStrings ++ []) 1 =
      imported :=
    @stringAt_offset (versionedDynamic imported).allStrings 0 (Nat.zero_lt_succ _) clean [0] []
  rw [List.append_nil] at first
  rw [offset, Nat.add_mod_right, Nat.mod_eq_of_lt (by omega), first] at read
  exact other read

/-- The name of the library starts 4 GiB behind that of the first import, and its offset in
the record means the import's. -/
theorem long_not_versionsConsistent : ∃ pre,
    (versionedInput (List.replicate (2 ^ 32 - 3) 97)).prebuildInfo
        (versionedDynamic (List.replicate (2 ^ 32 - 3) 97)) = .ok pre ∧
      ¬ ∃ libraries, VersionsConsistent
        ((versionedInput (List.replicate (2 ^ 32 - 3) 97)).finishBlobs pre
          { va := 0 } emptyFile 0 [])
        [(none, none), (some (nameOf "V1"), some (nameOf "b"))] libraries := by
  rcases prebuilt_versioned (List.replicate (2 ^ 32 - 3) 97) with ⟨pre, prebuilt⟩
  refine ⟨pre, prebuilt, not_consistent_of_long prebuilt List.length_replicate ?_ ?_⟩
  · intro present
    exact absurd (List.eq_of_mem_replicate present) (by decide)
  · intro same
    have present : (98 : UInt8) ∈ List.replicate (2 ^ 32 - 3) 97 := by
      rw [same]
      exact List.mem_singleton_self _
    exact absurd (List.eq_of_mem_replicate present) (by decide)

end LayoutInput

end Peony
