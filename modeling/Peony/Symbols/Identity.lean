import Peony.Foundation.Interning
import Peony.Symbols.Shared

namespace Peony

/-! Ids and names: what keeps each id with its one name. -/

open Interning

namespace SymbolTable

/-- The number that a name has, unless its id is the placeholder. -/
def number (table : SymbolTable) (name : Name) : Option Nat :=
  (table.lookup name).bind fun res =>
    if res.id = SymbolId.placeholder then none else some res.id.toNat

theorem number_eq_some {table : SymbolTable} {name : Name} {place : Nat} :
    table.number name = some place ↔
      ∃ res, table.lookup name = some res ∧ res.id ≠ SymbolId.placeholder ∧
        res.id.toNat = place := by
  rw [number, Option.bind_eq_some_iff]
  refine exists_congr fun res => and_congr_right fun _ => ?_
  by_cases isPlaceholder : res.id = SymbolId.placeholder
  · simp [isPlaceholder]
  · simp [isPlaceholder]

/-- The ids are the positions of the names; a name without one has the placeholder. -/
def Identified (table : SymbolTable) : Prop := NumberedBy table.names table.number

/-- Nothing but what is defined or imported has an id. -/
def DefinedHaveIds (table : SymbolTable) : Prop :=
  ∀ name res, table.lookup name = some res →
    (res.isDefined = true ↔ res.id ≠ SymbolId.placeholder)

/-- No library has been registered. -/
def NoImports (table : SymbolTable) : Prop :=
  ∀ name res, table.lookup name = some res → res.isImport = false

/-! ## Writing an entry -/

theorem number_put (table : SymbolTable) (name : Name) (entry : SymbolResolution) :
    (table.put name entry).number =
      Function.update table.number name
        (if entry.id = SymbolId.placeholder then none else some entry.id.toNat) := by
  funext other
  by_cases same : other = name
  · rw [same, Function.update_self, number, lookup_put_self, Option.bind_some]
  · rw [Function.update_of_ne same, number, lookup_put_of_ne _ _ same]
    rfl

theorem number_put_of_id {table : SymbolTable} {name : Name}
    {entry next : SymbolResolution} (found : table.lookup name = some entry)
    (same : next.id = entry.id) : (table.put name next).number = table.number := by
  rw [number_put, same, Function.update_eq_self_iff, number, found]
  rfl

theorem number_put_unnamed {table : SymbolTable} {name : Name}
    {next : SymbolResolution} (missing : table.lookup name = none)
    (unnamed : next.id = SymbolId.placeholder) :
    (table.put name next).number = table.number := by
  rw [number_put, if_pos unnamed, Function.update_eq_self_iff, number, missing]
  rfl

theorem toNat_nextId {table : SymbolTable} (few : table.names.length + 1 < 2 ^ 32) :
    table.nextId.toNat = table.names.length := by
  rw [nextId, UInt32.toNat_ofNat']
  exact Nat.mod_eq_of_lt (by omega)

theorem nextId_ne_placeholder {table : SymbolTable}
    (few : table.names.length + 1 < 2 ^ 32) : table.nextId ≠ SymbolId.placeholder := by
  intro isPlaceholder
  have isLast := toNat_nextId few
  rw [isPlaceholder] at isLast
  change 0xFFFFFFFF = table.names.length at isLast
  omega

theorem Identified.put_next {table : SymbolTable} (identified : table.Identified)
    {name : Name} (fresh : table.number name = none) {entry : SymbolResolution}
    (isNext : entry.id = table.nextId) (few : table.names.length + 1 < 2 ^ 32) :
    ((table.pushName name).put name entry).Identified := by
  have numbers := NumberedBy.snoc identified fresh
  rw [Identified, number_put, isNext, if_neg (nextId_ne_placeholder few), toNat_nextId few]
  exact numbers

/-! ## What a merge can do -/

inductive Merged (table : SymbolTable) (sym : InputSymbol) : SymbolTable → Prop
  | kept {entry : SymbolResolution} (found : table.lookup sym.name = some entry)
      (defines : sym.isUndefined = false → entry.definedIn.isSome = true) :
      Merged table sym table
  | rewritten {entry next : SymbolResolution} (found : table.lookup sym.name = some entry)
      (sameId : next.id = entry.id) (sameImport : next.isImport = entry.isImport)
      (defined : next.definedIn.isSome = entry.definedIn.isSome ∨
        entry.common.isSome = true ∧ next.definedIn.isSome = true)
      (tentative : next.common.isSome = true → entry.common.isSome = true)
      (defines : sym.isUndefined = false → next.definedIn.isSome = true) :
      Merged table sym (table.put sym.name next)
  | numbered {next : SymbolResolution}
      (unfound : ∀ entry, table.lookup sym.name = some entry → entry.definedIn = none)
      (isNext : next.id = table.nextId) (defined : next.definedIn.isSome = true)
      (sameImport : next.isImport =
        ((table.lookup sym.name).map SymbolResolution.isImport).getD false)
      (defines : sym.isUndefined = false) :
      Merged table sym ((table.pushName sym.name).put sym.name next)
  | referenced (missing : table.lookup sym.name = none)
      (reference : sym.isUndefined = true) :
      Merged table sym (table.put sym.name
        { SymbolResolution.makeUndefinedResolution with binding := sym.binding })

theorem merged_mergeUndefined (table : SymbolTable) {sym : InputSymbol}
    (reference : sym.isUndefined = true) : Merged table sym (table.mergeUndefined sym) := by
  have notDefining {goal : Prop} (defines : sym.isUndefined = false) : goal := by
    rw [reference] at defines
    exact nomatch defines
  rw [mergeUndefined]
  cases found : table.lookup sym.name with
  | none => exact .referenced found reference
  | some entry =>
      change Merged table sym (if _ then _ else if _ then _ else _ : SymbolTable)
      split
      · exact .kept found notDefining
      · split
        · exact .rewritten found rfl rfl (Or.inl rfl) id notDefining
        · exact .kept found notDefining

theorem merged_mergeCommon (table : SymbolTable) (objId : ObjectId) {sym : InputSymbol}
    (defines : sym.isUndefined = false)
    (commonDefined : ∀ entry, table.lookup sym.name = some entry →
      entry.common.isSome = true → entry.definedIn.isSome = true) :
    Merged table sym (table.mergeCommon objId sym) := by
  rw [mergeCommon]
  cases found : table.lookup sym.name with
  | none =>
      refine .numbered (fun entry impossible => ?_) rfl rfl (by rw [found]; rfl) defines
      rw [found] at impossible
      exact nomatch impossible
  | some entry =>
      dsimp only
      split
      · rename_i isSome _
        exact .kept found fun _ => isSome
      · rename_i common isCommon
        have tentative : entry.common.isSome = true := by rw [isCommon]; rfl
        exact .rewritten found rfl rfl (Or.inl rfl) (fun _ => tentative)
          fun _ => commonDefined entry found tentative
      · rename_i isNone _
        refine .numbered (fun other isOther => ?_) rfl rfl (by rw [found]; rfl) defines
        rw [found, Option.some.injEq] at isOther
        rw [← isOther]
        exact Option.isSome_eq_false_iff.mp isNone |> Option.isNone_iff_eq_none.mp

theorem merged_mergeDefined {table next : SymbolTable} {objId : ObjectId}
    {sym : InputSymbol} (defines : sym.isUndefined = false)
    (merged : table.mergeDefined objId sym = .ok next) : Merged table sym next := by
  rw [mergeDefined] at merged
  cases found : table.lookup sym.name with
  | none =>
      rw [found, Except.ok.injEq] at merged
      subst merged
      refine .numbered (fun entry impossible => ?_) rfl rfl (by rw [found]; rfl) defines
      rw [found] at impossible
      exact nomatch impossible
  | some entry =>
      rw [found] at merged
      change (if _ then _ else _ : Except _ _) = _ at merged
      split at merged
      · rename_i isCommon
        rw [Except.ok.injEq] at merged
        subst merged
        exact .rewritten found rfl rfl (Or.inr ⟨isCommon, rfl⟩)
          (fun impossible => nomatch impossible) fun _ => rfl
      · rename_i notCommon
        cases decided : conflictAction entry objId sym table.objectPaths with
        | error failure =>
            rw [decided] at merged
            exact nomatch merged
        | ok action =>
            rw [decided] at merged
            unfold conflictAction at decided
            cases isDefined : entry.definedIn with
            | none =>
                rw [isDefined] at decided
                cases decided
                cases merged
                refine .numbered (fun other isOther => ?_) rfl rfl (by rw [found]; rfl)
                  defines
                rw [found, Option.some.injEq] at isOther
                rw [← isOther]
                exact isDefined
            | some first =>
                rw [isDefined] at decided
                have isSome : entry.definedIn.isSome = true := by rw [isDefined]; rfl
                cases action with
                | satisfyUndef => split at decided <;> simp_all
                | upgrade =>
                    cases merged
                    exact .rewritten found rfl rfl (Or.inl (by rw [isSome]; rfl))
                      (fun impossible => absurd impossible notCommon) fun _ => rfl
                | keepExisting =>
                    cases merged
                    exact .kept found fun _ => isSome
                | warnLocal =>
                    cases merged
                    exact .kept found fun _ => isSome

/-- Tentative definitions are definitions. -/
def CommonsDefined (table : SymbolTable) : Prop :=
  ∀ name entry, table.lookup name = some entry → entry.common.isSome = true →
    entry.definedIn.isSome = true

theorem merged_mergeSymbol {table next : SymbolTable} {objId : ObjectId}
    {sym : InputSymbol} (commonsDefined : table.CommonsDefined)
    (merged : table.mergeSymbol objId sym = .ok next) : Merged table sym next := by
  rw [mergeSymbol] at merged
  split at merged
  · rename_i reference
    cases merged
    exact merged_mergeUndefined table reference
  · rename_i notReference
    have defines := Bool.eq_false_iff.mpr notReference
    split at merged
    · cases merged
      exact merged_mergeCommon table objId defines (commonsDefined sym.name)
    · exact merged_mergeDefined defines merged

def Defines (table : SymbolTable) (name : Name) : Prop :=
  ∃ res, table.lookup name = some res ∧ res.isDefined = true

/-- A table that no library has been registered in. -/
structure Resolving (table : SymbolTable) : Prop where
  noImports : table.NoImports
  commonsDefined : table.CommonsDefined

/-- Ids and names agree, and the names with an id are those that are defined. -/
structure WellNumbered (table : SymbolTable) : Prop where
  identified : table.Identified
  definedHaveIds : table.DefinedHaveIds

namespace Merged

variable {table next : SymbolTable} {sym : InputSymbol}

theorem lookup_of_ne (merged : Merged table sym next) {other : Name}
    (different : other ≠ sym.name) : next.lookup other = table.lookup other := by
  cases merged with
  | kept found defines => rfl
  | rewritten => exact lookup_put_of_ne _ _ different
  | numbered => exact lookup_put_of_ne _ _ different
  | referenced => exact lookup_put_of_ne _ _ different

theorem entry (merged : Merged table sym next) :
    ∃ entry, next.lookup sym.name = some entry ∧
      entry.isImport = ((table.lookup sym.name).map SymbolResolution.isImport).getD false ∧
      (sym.isUndefined = false → entry.definedIn.isSome = true) := by
  cases merged with
  | kept found defines =>
      exact ⟨_, found, by rw [found]; rfl, defines⟩
  | rewritten found sameId sameImport defined tentative defines =>
      exact ⟨_, lookup_put_self _ _ _, by rw [sameImport, found]; rfl, defines⟩
  | numbered unfound isNext defined sameImport defines =>
      exact ⟨_, lookup_put_self _ _ _, sameImport, fun _ => defined⟩
  | referenced missing reference =>
      refine ⟨_, lookup_put_self _ _ _, by rw [missing]; rfl, fun defines => ?_⟩
      rw [reference] at defines
      exact nomatch defines

theorem resolving (merged : Merged table sym next) (before : table.Resolving) :
    next.Resolving where
  noImports name res found := by
    by_cases same : name = sym.name
    · rcases merged.entry with ⟨entry, isEntry, sameImport, _⟩
      subst same
      rw [isEntry, Option.some.injEq] at found
      rw [← found, sameImport]
      cases old : table.lookup sym.name with
      | none => rfl
      | some entry => exact before.noImports _ _ old
    · rw [merged.lookup_of_ne same] at found
      exact before.noImports name res found
  commonsDefined name res found isCommon := by
    by_cases same : name = sym.name
    · subst same
      cases merged with
      | kept old defines => exact before.commonsDefined _ _ found isCommon
      | rewritten old sameId sameImport defined tentative defines =>
          rw [lookup_put_self, Option.some.injEq] at found
          subst found
          rcases defined with same | both
          · rw [same]
            exact before.commonsDefined _ _ old (tentative isCommon)
          · exact both.2
      | numbered unfound isNext defined sameImport defines =>
          rw [lookup_put_self, Option.some.injEq] at found
          subst found
          exact defined
      | referenced missing reference =>
          rw [lookup_put_self, Option.some.injEq] at found
          subst found
          exact nomatch isCommon
    · rw [merged.lookup_of_ne same] at found
      exact before.commonsDefined name res found isCommon

theorem defines_iff (merged : Merged table sym next) (before : table.Resolving)
    (name : Name) :
    next.Defines name ↔ table.Defines name ∨ name = sym.name ∧ sym.isUndefined = false := by
  by_cases same : name = sym.name
  · subst same
    rcases merged.entry with ⟨entry, isEntry, _, defines⟩
    constructor
    · rintro ⟨res, found, isDefined⟩
      cases reference : sym.isUndefined with
      | false => exact Or.inr ⟨rfl, rfl⟩
      | true =>
          refine Or.inl ?_
          cases merged with
          | kept old defines => exact ⟨res, found, isDefined⟩
          | rewritten old sameId sameImport defined tentative defines =>
              rw [lookup_put_self, Option.some.injEq] at found
              subst found
              refine ⟨_, old, ?_⟩
              rw [SymbolResolution.isDefined, Bool.or_eq_true] at isDefined ⊢
              rcases isDefined with isHere | isImported
              · rcases defined with same | both
                · exact Or.inl (same ▸ isHere)
                · exact Or.inl (before.commonsDefined _ _ old both.1)
              · exact Or.inr (sameImport ▸ isImported)
          | numbered unfound isNext defined sameImport defines =>
              rw [defines] at reference
              exact nomatch reference
          | referenced missing _ =>
              rw [lookup_put_self, Option.some.injEq] at found
              subst found
              exact nomatch isDefined
    · rintro (⟨res, found, isDefined⟩ | ⟨_, isDefinition⟩)
      · refine ⟨entry, isEntry, ?_⟩
        rw [SymbolResolution.isDefined, before.noImports _ _ found, Bool.or_false]
          at isDefined
        rw [SymbolResolution.isDefined, Bool.or_eq_true]
        refine Or.inl ?_
        cases merged with
        | kept old defines =>
            rw [found, Option.some.injEq] at isEntry
            rw [← isEntry]
            exact isDefined
        | rewritten old sameId sameImport defined tentative defines =>
            rw [lookup_put_self, Option.some.injEq] at isEntry
            subst isEntry
            rw [found, Option.some.injEq] at old
            subst old
            rcases defined with same | both
            · exact same ▸ isDefined
            · exact both.2
        | numbered unfound isNext defined sameImport defines =>
            rw [unfound res found] at isDefined
            exact nomatch isDefined
        | referenced missing _ =>
            rw [missing] at found
            exact nomatch found
      · refine ⟨entry, isEntry, ?_⟩
        rw [SymbolResolution.isDefined, defines isDefinition, Bool.true_or]
  · rw [Defines, merged.lookup_of_ne same]
    simp only [same, false_and, or_false]
    rfl

theorem names_cases (merged : Merged table sym next) :
    next.names = table.names ∨
      sym.isUndefined = false ∧ next.names = table.names ++ [sym.name] := by
  cases merged with
  | kept found defines => exact Or.inl rfl
  | rewritten => exact Or.inl rfl
  | numbered unfound isNext defined sameImport defines => exact Or.inr ⟨defines, rfl⟩
  | referenced => exact Or.inl rfl

theorem number_eq_none (wellNumbered : table.WellNumbered) (before : table.Resolving)
    {name : Name} (unfound : ∀ entry, table.lookup name = some entry →
      entry.definedIn = none) : table.number name = none := by
  rw [Option.eq_none_iff_forall_ne_some]
  intro place isNumber
  rcases number_eq_some.mp isNumber with ⟨res, found, notPlaceholder, _⟩
  have isDefined := (wellNumbered.definedHaveIds name res found).mpr notPlaceholder
  rw [SymbolResolution.isDefined, unfound res found, before.noImports name res found]
    at isDefined
  exact nomatch isDefined

theorem wellNumbered (merged : Merged table sym next) (before : table.Resolving)
    (wellNumbered : table.WellNumbered) (few : next.names.length < 2 ^ 32) :
    next.WellNumbered := by
  cases merged with
  | kept found defines => exact wellNumbered
  | @rewritten entry next found sameId sameImport defined tentative defines =>
      refine ⟨?_, fun name res isRes => ?_⟩
      · rw [Identified, number_put_of_id found sameId]
        exact wellNumbered.identified
      · by_cases same : name = sym.name
        · subst same
          rw [lookup_put_self, Option.some.injEq] at isRes
          subst isRes
          rw [sameId, ← wellNumbered.definedHaveIds _ _ found]
          have unchanged : next.definedIn.isSome = entry.definedIn.isSome := by
            rcases defined with same | both
            · exact same
            · rw [both.2, before.commonsDefined _ _ found both.1]
          rw [SymbolResolution.isDefined, SymbolResolution.isDefined, unchanged, sameImport]
        · rw [lookup_put_of_ne _ _ same] at isRes
          exact wellNumbered.definedHaveIds name res isRes
  | @numbered next unfound isNext defined sameImport defines =>
      have count : table.names.length + 1 < 2 ^ 32 := by
        change (table.names ++ [sym.name]).length < 2 ^ 32 at few
        rwa [List.length_append, List.length_singleton] at few
      have fresh := number_eq_none wellNumbered before unfound
      have identified := wellNumbered.identified.put_next fresh isNext count
      refine ⟨identified, fun name res isRes => ?_⟩
      by_cases same : name = sym.name
      · subst same
        rw [lookup_put_self, Option.some.injEq] at isRes
        subst isRes
        refine iff_of_true (by rw [SymbolResolution.isDefined, defined, Bool.true_or]) ?_
        rw [isNext]
        exact nextId_ne_placeholder count
      · rw [lookup_put_of_ne _ _ same] at isRes
        exact wellNumbered.definedHaveIds name res isRes
  | referenced missing reference =>
      refine ⟨?_, fun name res isRes => ?_⟩
      · rw [Identified, number_put_unnamed missing rfl]
        exact wellNumbered.identified
      · by_cases same : name = sym.name
        · subst same
          rw [lookup_put_self, Option.some.injEq] at isRes
          subst isRes
          exact iff_of_false (fun impossible => nomatch impossible) fun differs => differs rfl
        · rw [lookup_put_of_ne _ _ same] at isRes
          exact wellNumbered.definedHaveIds name res isRes

/-- A name that is given a number had none. -/
theorem fresh (merged : Merged table sym next) (before : table.Resolving)
    (wellNumbered : table.WellNumbered)
    (added : next.names = table.names ++ [sym.name]) : sym.name ∉ table.names := by
  cases merged with
  | kept found defines => exact absurd added (by simp)
  | rewritten => exact absurd added (by simp [put])
  | numbered unfound isNext defined sameImport defines =>
      rw [wellNumbered.identified.mem_iff, number_eq_none wellNumbered before unfound]
      exact fun impossible => nomatch impossible
  | referenced => exact absurd added (by simp [put])

end Merged

/-! ## Other updates -/

/-- Whether a name has an entry. -/
def Knows (table : SymbolTable) (name : Name) : Prop := (table.lookup name).isSome = true

theorem Merged.knows_iff {table next : SymbolTable} {sym : InputSymbol}
    (merged : Merged table sym next) (name : Name) :
    next.Knows name ↔ table.Knows name ∨ name = sym.name := by
  by_cases same : name = sym.name
  · rcases merged.entry with ⟨entry, isEntry, _⟩
    refine iff_of_true ?_ (Or.inr same)
    rw [Knows, same, isEntry]
    rfl
  · rw [Knows, merged.lookup_of_ne same]
    simp only [same, or_false]
    rfl

theorem knows_put {table : SymbolTable} {name other : Name} {entry : SymbolResolution} :
    (table.put name entry).Knows other ↔ table.Knows other ∨ other = name := by
  by_cases same : other = name
  · refine iff_of_true ?_ (Or.inr same)
    rw [Knows, same, lookup_put_self]
    rfl
  · rw [Knows, lookup_put_of_ne _ _ same]
    simp only [same, or_false]
    rfl

theorem knows_put_of_knows {table : SymbolTable} {name other : Name}
    {entry : SymbolResolution} (known : table.Knows name) :
    (table.put name entry).Knows other ↔ table.Knows other := by
  rw [knows_put]
  exact or_iff_left_of_imp fun same => same ▸ known

/-! ### Forced names -/

section Force

variable (table : SymbolTable) (forced : Name)

private theorem force_entry :
    ∃ entry, table.forceUndefined forced = table.put forced entry ∧
      entry.id = ((table.lookup forced).map SymbolResolution.id).getD SymbolId.placeholder ∧
      entry.definedIn = (table.lookup forced).bind SymbolResolution.definedIn ∧
      entry.isImport = ((table.lookup forced).map SymbolResolution.isImport).getD false ∧
      entry.common = (table.lookup forced).bind SymbolResolution.common := by
  refine ⟨_, rfl, ?_⟩
  cases table.lookup forced with
  | none => exact ⟨rfl, rfl, rfl, rfl⟩
  | some entry =>
      simp only [Option.getD_some, Option.map_some, Option.bind_some]
      split <;> exact ⟨rfl, rfl, rfl, rfl⟩

theorem knows_forceUndefined (name : Name) :
    (table.forceUndefined forced).Knows name ↔ table.Knows name ∨ name = forced :=
  knows_put

theorem defines_forceUndefined (name : Name) :
    (table.forceUndefined forced).Defines name ↔ table.Defines name := by
  rcases force_entry table forced with ⟨entry, isPut, _, sameDefined, sameImport, _⟩
  rw [isPut, Defines, Defines]
  by_cases same : name = forced
  · subst same
    rw [lookup_put_self]
    cases found : table.lookup name with
    | none =>
        rw [found] at sameDefined sameImport
        simp [SymbolResolution.isDefined, sameDefined, sameImport]
    | some old =>
        rw [found] at sameDefined sameImport
        simp only [Option.bind_some, Option.map_some, Option.getD_some] at sameDefined sameImport
        simp [SymbolResolution.isDefined, sameDefined, sameImport]
  · rw [lookup_put_of_ne _ _ same]

theorem Resolving.forceUndefined {table : SymbolTable} (resolving : table.Resolving) :
    (table.forceUndefined forced).Resolving := by
  rcases force_entry table forced with
    ⟨entry, isPut, _, sameDefined, sameImport, sameCommon⟩
  rw [isPut]
  constructor
  · intro name res found
    by_cases same : name = forced
    · subst same
      rw [lookup_put_self, Option.some.injEq] at found
      rw [← found, sameImport]
      cases old : table.lookup name with
      | none => rfl
      | some entry => exact resolving.noImports _ _ old
    · rw [lookup_put_of_ne _ _ same] at found
      exact resolving.noImports name res found
  · intro name res found isCommon
    by_cases same : name = forced
    · subst same
      rw [lookup_put_self, Option.some.injEq] at found
      subst found
      cases old : table.lookup name with
      | none =>
          rw [sameCommon, old] at isCommon
          exact nomatch isCommon
      | some entry =>
          rw [sameCommon, old] at isCommon
          rw [sameDefined, old]
          exact resolving.commonsDefined _ _ old isCommon
    · rw [lookup_put_of_ne _ _ same] at found
      exact resolving.commonsDefined name res found isCommon

theorem WellNumbered.forceUndefined {table : SymbolTable}
    (wellNumbered : table.WellNumbered) : (table.forceUndefined forced).WellNumbered := by
  rcases force_entry table forced with ⟨entry, isPut, sameId, sameDefined, sameImport, _⟩
  rw [isPut]
  cases found : table.lookup forced with
  | none =>
      rw [found] at sameId sameDefined sameImport
      refine ⟨?_, fun name res isRes => ?_⟩
      · rw [Identified, number_put_unnamed found sameId]
        exact wellNumbered.identified
      · by_cases same : name = forced
        · subst same
          rw [lookup_put_self, Option.some.injEq] at isRes
          subst isRes
          refine iff_of_false ?_ (fun differs => differs sameId)
          rw [SymbolResolution.isDefined, sameDefined, sameImport]
          exact fun impossible => nomatch impossible
        · rw [lookup_put_of_ne _ _ same] at isRes
          exact wellNumbered.definedHaveIds name res isRes
  | some old =>
      rw [found] at sameId sameDefined sameImport
      refine ⟨?_, fun name res isRes => ?_⟩
      · rw [Identified, number_put_of_id found sameId]
        exact wellNumbered.identified
      · by_cases same : name = forced
        · subst same
          rw [lookup_put_self, Option.some.injEq] at isRes
          subst isRes
          have oldIds := wellNumbered.definedHaveIds _ _ found
          rw [SymbolResolution.isDefined] at oldIds ⊢
          rw [sameDefined, sameImport, sameId]
          exact oldIds
        · rw [lookup_put_of_ne _ _ same] at isRes
          exact wellNumbered.definedHaveIds name res isRes

end Force

/-! ### Imports -/

section Register

variable (soname : String) (table : SymbolTable) (exported : SharedExport)

theorem registerSharedExport_cases :
    (registerSharedExport soname table exported = table ∧
      (table.Knows exported.name → table.Defines exported.name)) ∨
    ∃ entry next, table.lookup exported.name = some entry ∧ entry.isDefined = false ∧
      next.id = table.nextId ∧ next.isImport = true ∧ next.definedIn = entry.definedIn ∧
      next.common = entry.common ∧
      registerSharedExport soname table exported =
        (table.pushName exported.name).put exported.name next := by
  rw [registerSharedExport]
  cases found : table.lookup exported.name with
  | none =>
      refine Or.inl ⟨rfl, fun known => ?_⟩
      rw [Knows, found] at known
      exact nomatch known
  | some entry =>
      dsimp only
      split
      · rename_i satisfies
        rw [Bool.and_eq_true, Bool.not_eq_true', Option.isNone_iff_eq_none] at satisfies
        refine Or.inr ⟨entry,
          { entry with
            isImport := true
            copyReloc := false
            id := table.nextId
            version := exported.version
            soname := some soname
            size := exported.size
            stType := exported.stType }, rfl, ?_, rfl, rfl, rfl, rfl, rfl⟩
        rw [SymbolResolution.isDefined, satisfies.1, satisfies.2]
        rfl
      · rename_i unsatisfied
        refine Or.inl ⟨rfl, fun _ => ⟨entry, found, ?_⟩⟩
        rw [SymbolResolution.isDefined]
        cases isDefined : entry.definedIn with
        | some first => rfl
        | none =>
            rw [isDefined] at unsatisfied
            simpa using unsatisfied

variable {soname table exported}

theorem knows_registerSharedExport (name : Name) :
    (registerSharedExport soname table exported).Knows name ↔ table.Knows name := by
  rcases registerSharedExport_cases soname table exported with
    ⟨same, _⟩ | ⟨entry, next, found, _, _, _, _, _, isPut⟩
  · rw [same]
  · rw [isPut, knows_put_of_knows]
    · rfl
    · change (table.lookup exported.name).isSome = true
      rw [found]
      rfl

theorem defines_registerSharedExport (name : Name) :
    (registerSharedExport soname table exported).Defines name ↔
      table.Defines name ∨ name = exported.name ∧ table.Knows name := by
  rcases registerSharedExport_cases soname table exported with
    ⟨same, defines⟩ | ⟨entry, next, found, undefined, _, isImport, _, _, isPut⟩
  · rw [same]
    refine ⟨Or.inl, fun either => ?_⟩
    rcases either with isDefined | ⟨rfl, known⟩
    · exact isDefined
    · exact defines known
  · rw [isPut, Defines]
    by_cases same : name = exported.name
    · subst same
      refine iff_of_true ⟨next, lookup_put_self _ _ _, ?_⟩ (Or.inr ⟨rfl, ?_⟩)
      · rw [SymbolResolution.isDefined, isImport, Bool.or_true]
      · rw [Knows, found]
        rfl
    · rw [lookup_put_of_ne _ _ same]
      simp only [same, false_and, or_false]
      rfl

theorem names_registerSharedExport :
    (registerSharedExport soname table exported).names = table.names ∨
      table.Knows exported.name ∧
        (registerSharedExport soname table exported).names =
          table.names ++ [exported.name] := by
  rcases registerSharedExport_cases soname table exported with
    ⟨same, _⟩ | ⟨entry, next, found, _, _, _, _, _, isPut⟩
  · exact Or.inl (by rw [same])
  · refine Or.inr ⟨by rw [Knows, found]; rfl, by rw [isPut]; rfl⟩

theorem number_eq_none_of_undefined (wellNumbered : table.WellNumbered)
    {name : Name} {entry : SymbolResolution} (found : table.lookup name = some entry)
    (undefined : entry.isDefined = false) : table.number name = none := by
  rw [Option.eq_none_iff_forall_ne_some]
  intro place isNumber
  rcases number_eq_some.mp isNumber with ⟨res, isRes, notPlaceholder, _⟩
  rw [found, Option.some.injEq] at isRes
  subst isRes
  rw [(wellNumbered.definedHaveIds name entry found).mpr notPlaceholder] at undefined
  exact nomatch undefined

theorem WellNumbered.registerSharedExport (wellNumbered : table.WellNumbered)
    (few : (registerSharedExport soname table exported).names.length < 2 ^ 32) :
    (registerSharedExport soname table exported).WellNumbered := by
  rcases registerSharedExport_cases soname table exported with
    ⟨same, _⟩ | ⟨entry, next, found, undefined, isNext, isImport, _, _, isPut⟩
  · rw [same]
    exact wellNumbered
  · rw [isPut] at few ⊢
    have count : table.names.length + 1 < 2 ^ 32 := by
      change (table.names ++ [exported.name]).length < 2 ^ 32 at few
      rwa [List.length_append, List.length_singleton] at few
    have none := number_eq_none_of_undefined wellNumbered found undefined
    refine ⟨wellNumbered.identified.put_next none isNext count, fun name res isRes => ?_⟩
    by_cases same : name = exported.name
    · subst same
      rw [lookup_put_self, Option.some.injEq] at isRes
      subst isRes
      refine iff_of_true (by rw [SymbolResolution.isDefined, isImport, Bool.or_true]) ?_
      rw [isNext]
      exact nextId_ne_placeholder count
    · rw [lookup_put_of_ne _ _ same] at isRes
      exact wellNumbered.definedHaveIds name res isRes

theorem fresh_registerSharedExport (wellNumbered : table.WellNumbered)
    (added : (SymbolTable.registerSharedExport soname table exported).names =
      table.names ++ [exported.name]) : exported.name ∉ table.names := by
  rcases registerSharedExport_cases soname table exported with
    ⟨same, _⟩ | ⟨entry, next, found, undefined, _⟩
  · rw [same] at added
    exact absurd added (by simp)
  · rw [wellNumbered.identified.mem_iff,
      number_eq_none_of_undefined wellNumbered found undefined]
    exact fun impossible => nomatch impossible

end Register

/-! ### Ids on demand -/

section Ensure

variable {table : SymbolTable} {ensured : Name}

theorem ensureId_cases :
    (table.ensureId ensured = table ∧ ∀ entry, table.lookup ensured = some entry →
      entry.id ≠ SymbolId.placeholder) ∨
    ∃ entry, table.lookup ensured = some entry ∧ entry.id = SymbolId.placeholder ∧
      table.ensureId ensured =
        (table.pushName ensured).put ensured { entry with id := table.nextId } := by
  rw [SymbolTable.ensureId]
  cases found : table.lookup ensured with
  | none => exact Or.inl ⟨rfl, fun entry absent => absurd absent.symm (Option.some_ne_none _)⟩
  | some entry =>
      dsimp only
      split
      · rename_i unnamed
        exact Or.inr ⟨entry, rfl, unnamed, rfl⟩
      · rename_i named
        refine Or.inl ⟨rfl, fun other isOther => ?_⟩
        rw [Option.some.injEq] at isOther
        rwa [← isOther]

theorem knows_ensureId (name : Name) :
    (table.ensureId ensured).Knows name ↔ table.Knows name := by
  rcases @ensureId_cases table ensured with ⟨same, _⟩ | ⟨entry, found, _, isPut⟩
  · rw [same]
  · rw [isPut, knows_put_of_knows]
    · rfl
    · change (table.lookup ensured).isSome = true
      rw [found]
      rfl

theorem names_ensureId :
    (table.ensureId ensured).names = table.names ∨
      table.Knows ensured ∧
        (table.ensureId ensured).names = table.names ++ [ensured] := by
  rcases @ensureId_cases table ensured with ⟨same, _⟩ | ⟨entry, found, _, isPut⟩
  · exact Or.inl (by rw [same])
  · exact Or.inr ⟨by rw [Knows, found]; rfl, by rw [isPut]; rfl⟩

private theorem number_unnamed {entry : SymbolResolution}
    (found : table.lookup ensured = some entry)
    (unnamed : entry.id = SymbolId.placeholder) : table.number ensured = none := by
  rw [number, found, Option.bind_some, if_pos unnamed]

theorem Identified.ensureId (identified : table.Identified)
    (few : (table.ensureId ensured).names.length < 2 ^ 32) :
    (table.ensureId ensured).Identified := by
  rcases @ensureId_cases table ensured with ⟨same, _⟩ | ⟨entry, found, unnamed, isPut⟩
  · rw [same]
    exact identified
  · rw [isPut] at few ⊢
    refine identified.put_next (number_unnamed found unnamed) rfl ?_
    change (table.names ++ [ensured]).length < 2 ^ 32 at few
    rwa [List.length_append, List.length_singleton] at few

theorem fresh_ensureId (identified : table.Identified)
    (added : (table.ensureId ensured).names = table.names ++ [ensured]) :
    ensured ∉ table.names := by
  rcases @ensureId_cases table ensured with ⟨same, _⟩ | ⟨entry, found, unnamed, _⟩
  · rw [same] at added
    exact absurd added (by simp)
  · rw [identified.mem_iff, number_unnamed found unnamed]
    exact fun impossible => nomatch impossible

/-- A known name has a number then, and what had one keeps it. -/
theorem mem_names_ensureId (identified : table.Identified) {name : Name}
    (numbered : name ∈ table.names ∨ name = ensured ∧ table.Knows name) :
    name ∈ (table.ensureId ensured).names := by
  rcases @ensureId_cases table ensured with ⟨same, named⟩ | ⟨entry, found, _, isPut⟩
  · rw [same]
    rcases numbered with old | ⟨rfl, known⟩
    · exact old
    · rcases Option.isSome_iff_exists.mp known with ⟨entry, found⟩
      rw [identified.mem_iff, number, found, Option.bind_some, if_neg (named entry found)]
      rfl
  · rw [isPut]
    change name ∈ table.names ++ [ensured]
    rcases numbered with old | ⟨rfl, _⟩
    · exact List.mem_append_left _ old
    · exact List.mem_append_right _ List.mem_cons_self

end Ensure

/-! ### Definitions at an address -/

theorem Identified.defineAbsolute {table : SymbolTable} (identified : table.Identified)
    (name : Name) (value : UInt64) : (table.defineAbsolute name value).Identified := by
  rw [SymbolTable.defineAbsolute]
  cases found : table.lookup name with
  | none =>
      rw [Identified, number_put_unnamed found rfl]
      exact identified
  | some entry =>
      have same : ∀ next : SymbolResolution, next.id = entry.id →
          (table.put name next).Identified := by
        intro next sameId
        rw [Identified, number_put_of_id found sameId]
        exact identified
      exact same _ rfl

/-! ## The index by ids -/

section Index

variable {table : SymbolTable} (identified : table.Identified)

include identified

private theorem index_foldl {seen : List Name} (known : ∀ name ∈ seen, name ∈ table.names)
    {index : List (Option SymbolResolution)} (sameLength : index.length = table.names.length)
    {place : Nat} {name : Name} (isName : table.names[place]? = some name) :
    (seen.foldl
      (fun index name =>
        match table.lookup name with
        | some entry =>
            if entry.id.toNat < index.length then index.set entry.id.toNat (some entry)
            else index
        | none => index)
      index)[place]? =
      if name ∈ seen then some (table.lookup name) else index[place]? := by
  induction seen generalizing index with
  | nil => simp
  | cons first rest induction =>
      rcases List.mem_iff_getElem?.mp (known first List.mem_cons_self) with ⟨own, isOwn⟩
      rcases number_eq_some.mp ((identified own first).mp isOwn) with
        ⟨res, found, notPlaceholder, isPlace⟩
      have inside : own < index.length :=
        sameLength ▸ (List.getElem?_eq_some_iff.mp isOwn).1
      rw [List.foldl_cons, found]
      dsimp only
      rw [isPlace, if_pos inside,
        induction (fun other present => known other (List.mem_cons_of_mem _ present))
          (by rw [List.length_set, sameLength])]
      by_cases later : name ∈ rest
      · rw [if_pos later, if_pos (List.mem_cons_of_mem _ later)]
      · rw [if_neg later]
        by_cases same : own = place
        · subst same
          rw [isName, Option.some.injEq] at isOwn
          rw [isOwn, if_pos List.mem_cons_self, List.getElem?_set_self inside, found]
        · rw [List.getElem?_set_ne same, if_neg]
          intro present
          rcases List.mem_cons.mp present with rfl | isLater
          · refine same (Option.some.inj ?_)
            rw [← (identified own name).mp isOwn, ← (identified place name).mp isName]
          · exact later isLater

theorem Identified.buildIdIndex {place : Nat} {name : Name}
    (isName : table.names[place]? = some name) :
    table.buildIdIndex[place]? = some (table.lookup name) :=
  (index_foldl identified (fun _ => id) List.length_replicate isName).trans
    (if_pos (List.mem_of_getElem? isName))

end Index

end SymbolTable

end Peony
