import Mathlib.Data.List.AList
import Peony.Layout.Model

namespace Peony

/-! What the driver does to the symbol table after resolution, and tables that
answer every question alike. -/

namespace SymbolTable

/-! ## Updates -/

def ensureId (table : SymbolTable) (name : Name) : SymbolTable :=
  match table.lookup name with
  | some entry =>
      if entry.id = SymbolId.placeholder then
        (table.pushName name).put name { entry with id := table.nextId }
      else table
  | none => table

def markCopyReloc (table : SymbolTable) (name : Name) : SymbolTable :=
  table.modify name fun entry =>
    if entry.isImport then { entry with copyReloc := true } else entry

/-- What a name is once it is defined at an address. -/
def absolute (entry : SymbolResolution) (value : UInt64) : SymbolResolution :=
  { entry with
    definedIn := some 0
    sectionIndex := none
    value := value
    virtualAddress := value }

theorem lookup_defineAbsolute (table : SymbolTable) (name other : Name)
    (value : UInt64) :
    (table.defineAbsolute name value).lookup other =
      if other = name then
        some (absolute
          ((table.lookup name).getD SymbolResolution.makeUndefinedResolution) value)
      else table.lookup other := by
  rw [defineAbsolute]
  by_cases same : other = name
  · rw [if_pos same, same, lookup_put_self]
    rfl
  · rw [if_neg same, lookup_put_of_ne _ _ same]

/-! ## Tables that agree -/

/-- The tables hold the same names and the same resolutions; the order in which
they enumerate them may differ. -/
structure Agree (first second : SymbolTable) : Prop where
  names : first.names = second.names
  objectPaths : first.objectPaths = second.objectPaths
  lookup : first.lookup = second.lookup

namespace Agree

theorem refl (table : SymbolTable) : Agree table table := ⟨rfl, rfl, rfl⟩

/-- The same entries in another order. -/
theorem of_perm {table : SymbolTable} {resolutions : AList fun _ : Name => SymbolResolution}
    (perm : table.resolutions.entries.Perm resolutions.entries) :
    Agree table { table with resolutions := resolutions } where
  names := rfl
  objectPaths := rfl
  lookup := funext fun _ => AList.perm_lookup perm

theorem trans {first second third : SymbolTable} (isFirst : Agree first second)
    (isSecond : Agree second third) : Agree first third :=
  ⟨isFirst.names.trans isSecond.names, isFirst.objectPaths.trans isSecond.objectPaths,
    isFirst.lookup.trans isSecond.lookup⟩

/-- Definitions at one address do not depend on their order. -/
theorem defineAbsolute_comm (table : SymbolTable) (name other : Name)
    (value : UInt64) :
    Agree ((table.defineAbsolute name value).defineAbsolute other value)
      ((table.defineAbsolute other value).defineAbsolute name value) where
  names := rfl
  objectPaths := rfl
  lookup := by
    funext queried
    by_cases same : name = other
    · rw [same]
    · rw [lookup_defineAbsolute, lookup_defineAbsolute, lookup_defineAbsolute,
        lookup_defineAbsolute, lookup_defineAbsolute, lookup_defineAbsolute,
        if_neg same, if_neg (Ne.symm same)]
      by_cases isName : queried = name
      · rw [isName, if_neg same, if_pos rfl, if_pos rfl]
      · rw [if_neg isName, if_neg isName]

variable {first second : SymbolTable} (agree : Agree first second)

include agree

theorem symm : Agree second first :=
  ⟨agree.names.symm, agree.objectPaths.symm, agree.lookup.symm⟩

theorem nameById : first.nameById = second.nameById := by
  funext id
  rw [SymbolTable.nameById, SymbolTable.nameById, agree.names]

/-- Tables that agree enumerate the same entries. -/
theorem entries_perm :
    first.resolutions.entries.Perm second.resolutions.entries := by
  refine List.lookup_ext first.resolutions.nodupKeys second.resolutions.nodupKeys ?_
  intro name entry
  have same := congrFun agree.lookup name
  change first.resolutions.lookup name = second.resolutions.lookup name at same
  rw [AList.lookup, AList.lookup] at same
  rw [same]

theorem put (name : Name) (entry : SymbolResolution) :
    Agree (first.put name entry) (second.put name entry) where
  names := agree.names
  objectPaths := agree.objectPaths
  lookup := by
    funext other
    by_cases same : other = name
    · rw [same, lookup_put_self, lookup_put_self]
    · rw [lookup_put_of_ne _ _ same, lookup_put_of_ne _ _ same, agree.lookup]

theorem pushName (name : Name) : Agree (first.pushName name) (second.pushName name) where
  names := congrArg (· ++ [name]) agree.names
  objectPaths := agree.objectPaths
  lookup := agree.lookup

theorem modify (name : Name) (change : SymbolResolution → SymbolResolution) :
    Agree (first.modify name change) (second.modify name change) := by
  rw [SymbolTable.modify, SymbolTable.modify, agree.lookup]
  split
  · exact agree.put _ _
  · exact agree

theorem ensureId (name : Name) : Agree (first.ensureId name) (second.ensureId name) := by
  rw [SymbolTable.ensureId, SymbolTable.ensureId, agree.lookup, nextId, nextId,
    agree.names]
  split
  · split
    · exact (agree.pushName name).put _ _
    · exact agree
  · exact agree

theorem markCopyReloc (name : Name) :
    Agree (first.markCopyReloc name) (second.markCopyReloc name) :=
  agree.modify name _

theorem defineAbsolute (name : Name) (value : UInt64) :
    Agree (first.defineAbsolute name value) (second.defineAbsolute name value) := by
  rw [SymbolTable.defineAbsolute, SymbolTable.defineAbsolute, agree.lookup]
  exact agree.put _ _

end Agree

theorem Agree.foldl {Item : Type} {step : SymbolTable → Item → SymbolTable}
    (keeps : ∀ {first second : SymbolTable} (item : Item), Agree first second →
      Agree (step first item) (step second item))
    {first second : SymbolTable} (agree : Agree first second) (items : List Item) :
    Agree (items.foldl step first) (items.foldl step second) := by
  induction items generalizing first second with
  | nil => exact agree
  | cons item rest induction => exact induction (keeps item agree)

/-! ## Numbered tables -/

/-- Tentative definitions are definitions, and their ids name them. -/
def Numbered (table : SymbolTable) : Prop :=
  ∀ name res, table.lookup name = some res → res.common.isSome →
    res.definedIn.isSome ∧ table.nameById res.id = some name

abbrev Entry := Σ _ : Name, SymbolResolution

theorem lookup_of_mem {table : SymbolTable} {entry : Entry}
    (present : entry ∈ table.resolutions.entries) :
    table.lookup entry.1 = some entry.2 :=
  AList.mem_lookup_iff.mpr present

theorem entry_eq_of_name {table : SymbolTable} {entry other : Entry}
    (isEntry : entry ∈ table.resolutions.entries)
    (isOther : other ∈ table.resolutions.entries) (same : entry.1 = other.1) :
    entry = other := by
  rcases entry with ⟨name, res⟩
  rcases other with ⟨another, next⟩
  change name = another at same
  subst same
  have found := lookup_of_mem isEntry
  rw [lookup_of_mem isOther, Option.some.injEq] at found
  change next = res at found
  rw [found]

theorem Numbered.entry_eq {table : SymbolTable} (numbered : table.Numbered)
    {entry other : Entry} (isEntry : entry ∈ table.resolutions.entries)
    (isOther : other ∈ table.resolutions.entries) (isCommon : entry.2.common.isSome)
    (otherCommon : other.2.common.isSome) (same : entry.2.id = other.2.id) :
    entry = other := by
  have named := (numbered _ _ (lookup_of_mem isEntry) isCommon).2
  have otherNamed := (numbered _ _ (lookup_of_mem isOther) otherCommon).2
  rw [same, otherNamed, Option.some.injEq] at named
  exact entry_eq_of_name isEntry isOther named.symm

theorem nameById_pushName {table : SymbolTable} {id : SymbolId} {name other : Name}
    (found : table.nameById id = some name) :
    (table.pushName other).nameById id = some name := by
  rw [nameById] at found
  rw [nameById, pushName, List.getElem?_append_left
    (List.getElem?_eq_some_iff.mp found).1, found]

/-- An entry is written that keeps the promise. -/
theorem Numbered.put {table : SymbolTable} (numbered : table.Numbered) {name : Name}
    {entry : SymbolResolution}
    (kept : entry.common.isSome →
      entry.definedIn.isSome ∧ table.nameById entry.id = some name) :
    (table.put name entry).Numbered := by
  intro other res found isCommon
  by_cases same : other = name
  · subst same
    rw [lookup_put_self, Option.some.injEq] at found
    subst found
    exact kept isCommon
  · rw [lookup_put_of_ne _ _ same] at found
    exact numbered other res found isCommon

theorem Numbered.modify {table : SymbolTable} (numbered : table.Numbered) (name : Name)
    {change : SymbolResolution → SymbolResolution}
    (keeps : ∀ entry, (change entry).common = entry.common ∧
      (change entry).definedIn = entry.definedIn ∧ (change entry).id = entry.id) :
    (table.modify name change).Numbered := by
  rw [SymbolTable.modify]
  split
  · rename_i entry found
    refine numbered.put fun isCommon => ?_
    rcases keeps entry with ⟨sameCommon, sameDefined, sameId⟩
    rw [sameCommon] at isCommon
    rw [sameDefined, sameId]
    exact numbered name entry found isCommon
  · exact numbered

theorem Numbered.pushName {table : SymbolTable} (numbered : table.Numbered)
    (name : Name) : (table.pushName name).Numbered := fun other res found isCommon =>
  have kept := numbered other res found isCommon
  ⟨kept.1, nameById_pushName kept.2⟩

theorem Numbered.ensureId {table : SymbolTable} (numbered : table.Numbered)
    {name : Name} (undefined : ∀ entry, table.lookup name = some entry →
      entry.definedIn = none) : (table.ensureId name).Numbered := by
  rw [SymbolTable.ensureId]
  cases found : table.lookup name with
  | none => exact numbered
  | some entry =>
      change (if _ then _ else _ : SymbolTable).Numbered
      split
      · refine (numbered.pushName name).put fun isCommon => ?_
        have defined := (numbered name entry found isCommon).1
        rw [undefined entry found] at defined
        exact nomatch defined
      · exact numbered

theorem Numbered.defineAbsolute {table : SymbolTable} (numbered : table.Numbered)
    (name : Name) (value : UInt64) : (table.defineAbsolute name value).Numbered := by
  rw [SymbolTable.defineAbsolute]
  cases found : table.lookup name with
  | none => exact numbered.put fun isCommon => nomatch isCommon
  | some entry => exact numbered.put fun isCommon =>
      ⟨rfl, (numbered name entry found isCommon).2⟩

theorem Numbered.foldl {Item : Type} {step : SymbolTable → Item → SymbolTable}
    (keeps : ∀ {table : SymbolTable} (item : Item), table.Numbered →
      (step table item).Numbered)
    {table : SymbolTable} (numbered : table.Numbered) (items : List Item) :
    (items.foldl step table).Numbered := by
  induction items generalizing table with
  | nil => exact numbered
  | cons item rest induction => exact induction (keeps item numbered)

end SymbolTable

end Peony
