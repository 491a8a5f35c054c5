import Mathlib.Data.List.Dedup
import Peony.Layout.StringTable

namespace Peony

/-! How the versions that imports need are numbered, over all libraries. -/

theorem getElem?_of_lastIndexOf {names : List Name} {name : Name} {place : Nat}
    (found : lastIndexOf names name = some place) : names[place]? = some name := by
  rcases Option.map_eq_some_iff.mp found with ⟨⟨other, index⟩, isEntry, rfl⟩
  have present := List.mem_reverse.mp (List.mem_of_find?_eq_some isEntry)
  have isName := List.find?_some isEntry
  rw [beq_iff_eq] at isName
  have both := List.mem_zipIdx_iff_getElem?.mp present
  rwa [isName] at both

theorem exists_lastIndexOf {names : List Name} {name : Name} (present : name ∈ names) :
    ∃ place, lastIndexOf names name = some place := by
  rcases List.getElem?_of_mem present with ⟨place, isName⟩
  have inEntries : (name, place) ∈ names.zipIdx.reverse :=
    List.mem_reverse.mpr (List.mem_zipIdx_iff_getElem?.mpr isName)
  have found : (names.zipIdx.reverse.find? fun entry => entry.1 == name).isSome :=
    List.find?_isSome.mpr ⟨(name, place), inEntries, BEq.rfl⟩
  rcases Option.isSome_iff_exists.mp found with ⟨entry, isEntry⟩
  exact ⟨entry.2, by rw [lastIndexOf, isEntry]; rfl⟩

theorem offsetsFrom_append (start : Nat) (names more : List Name) :
    offsetsFrom start (names ++ more) =
      offsetsFrom start names ++ offsetsFrom (start + (stringBytes names).length) more := by
  induction names generalizing start with
  | nil => rfl
  | cons name rest induction =>
      have longer : (stringBytes (name :: rest)).length =
          name.length + 1 + (stringBytes rest).length := by
        rw [stringBytes_cons, List.length_append, List.length_append]
        rfl
      rw [List.cons_append, offsetsFrom, offsetsFrom, induction, longer, List.cons_append,
        Nat.add_assoc start]

/-! ## Numbering -/

def VersionNeed.key (need : VersionNeed) : Nat × Name := (need.lib, need.version)

section Distinct

variable {Item : Type} [BEq Item] [LawfulBEq Item]

theorem eraseDups_concat_of_mem {items : List Item} {item : Item} (present : item ∈ items) :
    (items ++ [item]).eraseDups = items.eraseDups := by
  have gone : [item].removeAll items = [] := by
    simp [List.removeAll, present]
  rw [List.eraseDups_append, gone, List.eraseDups_nil, List.append_nil]

theorem eraseDups_concat_of_not_mem {items : List Item} {item : Item}
    (absent : item ∉ items) : (items ++ [item]).eraseDups = items.eraseDups ++ [item] := by
  have kept : [item].removeAll items = [item] := by
    simp [List.removeAll, absent]
  rw [List.eraseDups_append, kept]
  rfl

end Distinct

namespace DynamicInfo

variable (dynj : DynamicInfo)

/-- The needs of some keys: one for each distinct key, with the indices from 2 on and the
strings behind the table. -/
structure Numbered (table : List UInt8) (keys : List (Nat × Name)) (state : VersionState) :
    Prop where
  keys : state.needs.map VersionNeed.key = keys.eraseDups
  distinct : (state.needs.map VersionNeed.key).Nodup
  next : state.nextIndex = UInt16.ofNat (2 + state.needs.length)
  indices : state.needs.map VersionNeed.index =
    (List.range' 2 state.needs.length).map UInt16.ofNat
  strings : state.dynstr = table ++ stringBytes (state.needs.map VersionNeed.version)
  offsets : state.needs.map VersionNeed.nameOff =
    (offsetsFrom table.length (state.needs.map VersionNeed.version)).map UInt32.ofNat

theorem versionOf_eq_some {needs : List VersionNeed} {key : Nat × Name} {need : VersionNeed}
    (found : versionOf needs key = some need) : need ∈ needs ∧ need.key = key := by
  have both := List.find?_some found
  rw [Bool.and_eq_true, beq_iff_eq, beq_iff_eq] at both
  exact ⟨List.mem_of_find?_eq_some found, Prod.ext both.1 both.2⟩

theorem isSome_versionOf_iff {needs : List VersionNeed} {key : Nat × Name} :
    (versionOf needs key).isSome ↔ key ∈ needs.map VersionNeed.key := by
  constructor
  · intro found
    rcases Option.isSome_iff_exists.mp found with ⟨need, isNeed⟩
    have both := versionOf_eq_some isNeed
    exact List.mem_map.mpr ⟨need, both.1, both.2⟩
  · intro present
    rcases List.mem_map.mp present with ⟨need, isNeed, rfl⟩
    rw [versionOf, List.find?_isSome]
    exact ⟨need, isNeed, by
      rw [Bool.and_eq_true, beq_iff_eq, beq_iff_eq]
      exact ⟨rfl, rfl⟩⟩

theorem numbered_addVersion {table : List UInt8} {keys : List (Nat × Name)}
    {state : VersionState} (numbered : Numbered table keys state)
    (entry : Option Name × Option Name) :
    Numbered table (keys ++ (dynj.versionKey entry).toList) (dynj.addVersion state entry) := by
  rw [addVersion]
  cases isKey : dynj.versionKey entry with
  | none =>
      rw [Option.toList_none, List.append_nil]
      exact numbered
  | some key =>
      have seen : (versionOf state.needs key).isSome ↔ key ∈ keys := by
        rw [isSome_versionOf_iff, numbered.keys, List.mem_eraseDups]
      rw [Option.toList_some]
      dsimp only
      split
      · next known =>
        exact { numbered with
          keys := numbered.keys.trans (eraseDups_concat_of_mem (seen.mp known)).symm }
      · next unknown =>
        have absent : key ∉ keys := fun present => unknown (seen.mpr present)
        have another : key ∉ state.needs.map VersionNeed.key := by
          rw [numbered.keys, List.mem_eraseDups]
          exact absent
        have longer {Field : Type} (field : VersionNeed → Field) (need : VersionNeed) :
            (state.needs ++ [need]).map field = state.needs.map field ++ [field need] := by
          rw [List.map_append]
          rfl
        constructor
        · dsimp only
          rw [longer, numbered.keys, eraseDups_concat_of_not_mem absent]
          rfl
        · dsimp only
          rw [longer]
          have both := (List.nodup_concat _ _).mpr ⟨another, numbered.distinct⟩
          rw [List.concat_eq_append] at both
          exact both
        · dsimp only
          rw [numbered.next, List.length_append, ← Nat.add_assoc]
          exact (UInt16.ofNat_add _ 1).symm
        · dsimp only
          rw [longer, numbered.indices, numbered.next, List.length_append,
            List.length_singleton, List.range'_1_concat, List.map_append]
          rfl
        · dsimp only
          rw [longer, numbered.strings, stringBytes_append, stringBytes_cons, pushString,
            List.append_assoc, List.append_assoc]
          simp only [stringBytes, List.flatMap_nil, List.append_nil]
        · dsimp only
          rw [longer, longer, numbered.offsets, offsetsFrom_append, List.map_append,
            numbered.strings, List.length_append]
          rfl

theorem numbered_foldl {table : List UInt8} {keys : List (Nat × Name)}
    {state : VersionState} (numbered : Numbered table keys state)
    (entries : List (Option Name × Option Name)) :
    Numbered table (keys ++ entries.filterMap dynj.versionKey)
      (entries.foldl dynj.addVersion state) := by
  induction entries generalizing keys state with
  | nil =>
      rw [List.filterMap_nil, List.append_nil]
      exact numbered
  | cons entry rest induction =>
      have later := induction (dynj.numbered_addVersion numbered entry)
      rw [List.append_assoc] at later
      cases isKey : dynj.versionKey entry with
      | none =>
          rw [isKey] at later
          rw [List.filterMap_cons_none isKey]
          exact later
      | some key =>
          rw [isKey] at later
          rw [List.filterMap_cons_some isKey]
          exact later

def versioned : List (Option Name × Option Name) :=
  dynj.importVersions.zip dynj.importSonames

/-- The distinct libraries and versions that are needed. -/
def versionKeys : List (Nat × Name) := (dynj.versioned.filterMap dynj.versionKey).eraseDups

theorem numbered_versions (table : List UInt8) :
    Numbered table (dynj.versioned.filterMap dynj.versionKey) (dynj.versions table) := by
  have start : Numbered table [] { dynstr := table } :=
    ⟨rfl, List.nodup_nil, rfl, rfl, (List.append_nil _).symm, rfl⟩
  exact dynj.numbered_foldl start dynj.versioned

/-! ### What is numbered -/

theorem mem_versionKeys {key : Nat × Name} (present : key ∈ dynj.versionKeys) :
    ∃ soname, (some key.2, some soname) ∈ dynj.versioned ∧
      lastIndexOf dynj.needed soname = some key.1 := by
  rcases List.mem_filterMap.mp (List.mem_eraseDups.mp present) with
    ⟨⟨version, soname⟩, isEntry, isKey⟩
  cases version with
  | none => exact nomatch isKey
  | some version =>
      cases soname with
      | none => exact nomatch isKey
      | some soname =>
          rcases Option.map_eq_some_iff.mp isKey with ⟨lib, isLib, rfl⟩
          exact ⟨soname, isEntry, isLib⟩

theorem versionKeys_of_mem {version soname : Name} {lib : Nat}
    (present : (some version, some soname) ∈ dynj.versioned)
    (isLib : lastIndexOf dynj.needed soname = some lib) : (lib, version) ∈ dynj.versionKeys := by
  apply List.mem_eraseDups.mpr
  apply List.mem_filterMap.mpr
  exact ⟨_, present, by rw [versionKey, isLib]; rfl⟩

def versionPairs : List (Name × Name) :=
  dynj.versioned.filterMap fun entry =>
    entry.1.bind fun version => entry.2.map fun soname => (version, soname)

theorem length_needs_le (table : List UInt8) :
    (dynj.versions table).needs.length ≤ dynj.versionPairs.dedup.length := by
  have numbered := dynj.numbered_versions table
  have toKeys : (dynj.versions table).needs.map VersionNeed.key ⊆
      dynj.versionPairs.dedup.filterMap fun pair =>
        dynj.versionKey (some pair.1, some pair.2) := by
    intro key present
    rw [numbered.keys, List.mem_eraseDups] at present
    rcases dynj.mem_versionKeys (List.mem_eraseDups.mpr present) with ⟨soname, isEntry, isLib⟩
    have isPair : (key.2, soname) ∈ dynj.versionPairs :=
      List.mem_filterMap.mpr ⟨_, isEntry, rfl⟩
    apply List.mem_filterMap.mpr
    exact ⟨_, List.mem_dedup.mpr isPair, by rw [versionKey, isLib]; rfl⟩
  have fewer := (numbered.distinct.subperm toKeys).length_le
  rw [List.length_map] at fewer
  exact Nat.le_trans fewer (List.length_filterMap_le _ _)

section Numbered

variable {dynj}
variable {table : List UInt8} {state : VersionState}
variable (numbered : Numbered table (dynj.versioned.filterMap dynj.versionKey) state)

include numbered

theorem Numbered.nodup_indices (few : state.needs.length < 2 ^ 15 - 2) :
    (state.needs.map VersionNeed.index).Nodup := by
  rw [numbered.indices]
  apply List.Nodup.map_on _ List.nodup_range'
  intro first isFirst second isSecond same
  rw [List.mem_range'_1] at isFirst isSecond
  rw [← UInt16.toNat_inj, UInt16.toNat_ofNat', UInt16.toNat_ofNat'] at same
  omega

theorem Numbered.bounds (few : state.needs.length < 2 ^ 15 - 2) {need : VersionNeed}
    (present : need ∈ state.needs) : 2 ≤ need.index.toNat ∧ need.index.toNat < 2 ^ 15 := by
  have isIndex := List.mem_map_of_mem (f := VersionNeed.index) present
  rw [numbered.indices] at isIndex
  rcases List.mem_map.mp isIndex with ⟨number, inRange, isNumber⟩
  rw [List.mem_range'_1] at inRange
  rw [← isNumber, UInt16.toNat_ofNat']
  omega

/-- The need that an import with a known library is given. -/
theorem Numbered.exists_need {entry : Option Name × Option Name} (present : entry ∈ dynj.versioned)
    {key : Nat × Name} (isKey : dynj.versionKey entry = some key) :
    ∃ need ∈ state.needs, need.key = key ∧ dynj.versymOf state.needs entry = need.index := by
  have known : key ∈ state.needs.map VersionNeed.key := by
    rw [numbered.keys, List.mem_eraseDups]
    exact List.mem_filterMap.mpr ⟨entry, present, isKey⟩
  rcases Option.isSome_iff_exists.mp (isSome_versionOf_iff.mpr known) with ⟨need, found⟩
  have both := versionOf_eq_some found
  refine ⟨need, both.1, both.2, ?_⟩
  rw [versymOf, isKey, Option.bind_some, found]
  rfl

theorem Numbered.mem_activeLibs_iff {lib : Nat} :
    lib ∈ dynj.activeLibs state.needs ↔ ∃ need ∈ state.needs, need.lib = lib := by
  constructor
  · intro active
    rcases List.any_eq_true.mp (List.mem_filter.mp active).2 with ⟨need, present, isLib⟩
    exact ⟨need, present, beq_iff_eq.mp isLib⟩
  · rintro ⟨need, present, rfl⟩
    have isKey := List.mem_map_of_mem (f := VersionNeed.key) present
    rw [numbered.keys] at isKey
    rcases dynj.mem_versionKeys isKey with ⟨soname, _, isLib⟩
    have inRange := (List.getElem?_eq_some_iff.mp (getElem?_of_lastIndexOf isLib)).1
    exact List.mem_filter.mpr ⟨List.mem_range.mpr inRange,
      List.any_eq_true.mpr ⟨need, present, beq_iff_eq.mpr rfl⟩⟩

end Numbered

end DynamicInfo

end Peony
