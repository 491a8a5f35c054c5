import Peony.Driver.Link
import Peony.Driver.TableRun
import Peony.Layout.Ordered

namespace Peony

/-! Imports and definitions: which updates of the symbol table leave a name on both
sides. -/

namespace SymbolTable

/-! ## The two sides -/

def Imports (table : SymbolTable) (name : Name) : Prop :=
  ∃ res, table.lookup name = some res ∧ res.isImport = true

/-- A name that is defined here, for good or tentatively. -/
def Owns (table : SymbolTable) (name : Name) : Prop :=
  ∃ res, table.lookup name = some res ∧
    (res.definedIn.isSome = true ∨ res.common.isSome = true)

def Exclusive (table : SymbolTable) : Prop := ∀ name, table.Imports name → ¬ table.Owns name

variable {before middle after : SymbolTable}

theorem owns_of_defines (noImports : before.NoImports) {name : Name}
    (defines : before.Defines name) : before.Owns name := by
  rcases defines with ⟨res, found, isDefined⟩
  rw [SymbolResolution.isDefined, noImports name res found, Bool.or_false] at isDefined
  exact ⟨res, found, Or.inl isDefined⟩

theorem CommonsDefined.owns_iff (commonsDefined : before.CommonsDefined) (name : Name) :
    before.Owns name ↔
      ∃ res, before.lookup name = some res ∧ res.definedIn.isSome = true := by
  refine exists_congr fun res => and_congr_right fun found => or_iff_left_of_imp ?_
  exact commonsDefined name res found

theorem Resolving.owns_iff (resolving : before.Resolving) (name : Name) :
    before.Owns name ↔ before.Defines name := by
  refine ⟨fun owns => ?_, owns_of_defines resolving.noImports⟩
  rcases (resolving.commonsDefined.owns_iff name).mp owns with ⟨res, found, isSome⟩
  exact ⟨res, found, by rw [SymbolResolution.isDefined, isSome, Bool.true_or]⟩

/-! ## Updates that keep both sides -/

structure SameSides (before after : SymbolTable) : Prop where
  imports_iff : ∀ name, after.Imports name ↔ before.Imports name
  owns_iff : ∀ name, after.Owns name ↔ before.Owns name

namespace SameSides

theorem refl (table : SymbolTable) : SameSides table table :=
  ⟨fun _ => Iff.rfl, fun _ => Iff.rfl⟩

theorem trans (first : SameSides before middle) (second : SameSides middle after) :
    SameSides before after where
  imports_iff name := (second.imports_iff name).trans (first.imports_iff name)
  owns_iff name := (second.owns_iff name).trans (first.owns_iff name)

theorem put {name : Name} {entry next : SymbolResolution}
    (found : before.lookup name = some entry) (sameImport : next.isImport = entry.isImport)
    (sameDefined : next.definedIn = entry.definedIn) (sameCommon : next.common = entry.common) :
    SameSides before (before.put name next) where
  imports_iff other := by
    by_cases same : other = name
    · subst same
      simp [Imports, found, sameImport]
    · rw [Imports, lookup_put_of_ne _ _ same]
      rfl
  owns_iff other := by
    by_cases same : other = name
    · subst same
      simp [Owns, found, sameDefined, sameCommon]
    · rw [Owns, lookup_put_of_ne _ _ same]
      rfl

theorem modify (table : SymbolTable) (name : Name)
    {change : SymbolResolution → SymbolResolution}
    (keeps : ∀ entry, (change entry).isImport = entry.isImport ∧
      (change entry).definedIn = entry.definedIn ∧ (change entry).common = entry.common) :
    SameSides table (table.modify name change) := by
  rw [SymbolTable.modify]
  split
  · rename_i entry found
    rcases keeps entry with ⟨sameImport, sameDefined, sameCommon⟩
    exact put found sameImport sameDefined sameCommon
  · exact refl table

theorem ensureId (table : SymbolTable) (name : Name) :
    SameSides table (table.ensureId name) := by
  rcases @ensureId_cases table name with ⟨same, _⟩ | ⟨entry, found, _, isPut⟩
  · rw [same]
    exact refl table
  · have pushed : SameSides table (table.pushName name) :=
      ⟨fun _ => Iff.rfl, fun _ => Iff.rfl⟩
    rw [isPut]
    exact pushed.trans (put found rfl rfl rfl)

theorem foldl {Item : Type*} {step : SymbolTable → Item → SymbolTable}
    (keeps : ∀ table item, SameSides table (step table item)) (items : List Item)
    (table : SymbolTable) : SameSides table (items.foldl step table) := by
  induction items generalizing table with
  | nil => exact refl table
  | cons item rest induction => exact (keeps table item).trans (induction _)

end SameSides

/-! ## Imports -/

variable (soname : String) (exported : SharedExport)

/-- What is registered is not defined here, and nothing else changes sides. -/
theorem owns_registerSharedExport (table : SymbolTable) (name : Name) :
    (registerSharedExport soname table exported).Owns name ↔ table.Owns name := by
  rcases registerSharedExport_cases soname table exported with
    ⟨same, _⟩ | ⟨entry, next, found, _, _, _, sameDefined, sameCommon, isPut⟩
  · rw [same]
  · rw [isPut]
    by_cases same : name = exported.name
    · subst same
      simp [Owns, found, sameDefined, sameCommon]
    · rw [Owns, lookup_put_of_ne _ _ same]
      rfl

/-- Tentative definitions are definitions, and no import is defined here. -/
structure Importing (table : SymbolTable) : Prop where
  commonsDefined : table.CommonsDefined
  exclusive : table.Exclusive

theorem Importing.registerSharedExport {table : SymbolTable} (importing : table.Importing) :
    (registerSharedExport soname table exported).Importing := by
  rcases registerSharedExport_cases soname table exported with
    ⟨same, _⟩ | ⟨entry, next, found, undefined, _, _, sameDefined, sameCommon, isPut⟩
  · rw [same]
    exact importing
  have noDefinition : entry.definedIn.isSome = false := by
    rw [SymbolResolution.isDefined, Bool.or_eq_false_iff] at undefined
    exact undefined.1
  have noCommon : entry.common.isSome = false := by
    by_contra isCommon
    have isDefined := importing.commonsDefined _ _ found (Bool.not_eq_false _ ▸ isCommon)
    rw [noDefinition] at isDefined
    cases isDefined
  constructor
  · rw [isPut]
    intro name res isRes isCommon
    by_cases same : name = exported.name
    · subst same
      rw [lookup_put_self, Option.some.injEq] at isRes
      rw [← isRes, sameCommon, noCommon] at isCommon
      cases isCommon
    · rw [lookup_put_of_ne _ _ same] at isRes
      exact importing.commonsDefined name res isRes isCommon
  · intro name imports owns
    by_cases same : name = exported.name
    · subst same
      rw [isPut, Owns, lookup_put_self] at owns
      rcases owns with ⟨res, isRes, isDefined | isCommon⟩
      · rw [← Option.some.inj isRes, sameDefined, noDefinition] at isDefined
        cases isDefined
      · rw [← Option.some.inj isRes, sameCommon, noCommon] at isCommon
        cases isCommon
    · rw [owns_registerSharedExport] at owns
      rw [isPut, Imports, lookup_put_of_ne _ _ same] at imports
      exact importing.exclusive name imports owns

/-! ## Definitions at an address -/

/-- The imports stay, and become owned when they have one of the names. -/
structure Provides (names : Name → Prop) (before after : SymbolTable) : Prop where
  imports_iff : ∀ name, after.Imports name ↔ before.Imports name
  owns_iff : ∀ name, before.Imports name →
    (after.Owns name ↔ before.Owns name ∨ names name)

namespace Provides

variable {names more : Name → Prop}

theorem refl (table : SymbolTable) : Provides (fun _ => False) table table where
  imports_iff _ := Iff.rfl
  owns_iff _ _ := (or_false _).symm ▸ Iff.rfl

theorem trans (first : Provides names before middle) (second : Provides more middle after) :
    Provides (fun name => names name ∨ more name) before after where
  imports_iff name := (second.imports_iff name).trans (first.imports_iff name)
  owns_iff name imports := by
    rw [second.owns_iff name ((first.imports_iff name).mpr imports),
      first.owns_iff name imports, or_assoc]

theorem congr (provides : Provides names before after)
    (same : ∀ name, names name ↔ more name) : Provides more before after where
  imports_iff := provides.imports_iff
  owns_iff name imports := by rw [provides.owns_iff name imports, same]

theorem defineAbsolute (table : SymbolTable) (name : Name) (value : UInt64) :
    Provides (fun other => other = name) table (table.defineAbsolute name value) where
  imports_iff other := by
    rw [Imports, lookup_defineAbsolute]
    by_cases same : other = name
    · subst same
      cases found : table.lookup other with
      | none => simp [Imports, found, absolute, SymbolResolution.makeUndefinedResolution]
      | some entry => simp [Imports, found, absolute]
    · rw [if_neg same]
      rfl
  owns_iff other imports := by
    rw [Owns, lookup_defineAbsolute]
    by_cases same : other = name
    · rw [if_pos same]
      exact iff_of_true ⟨_, rfl, Or.inl rfl⟩ (Or.inr same)
    · rw [if_neg same, or_iff_left same]
      rfl

/-- A name that is known and not defined is provided; an import that is defined already
is owned already. -/
theorem provideFixed (state : SymbolTable × List ProvidedSymbol) (name : Name) :
    Provides (fun other => other = name) state.1 (provideFixed state name).1 := by
  rw [Peony.provideFixed]
  split
  · exact defineAbsolute state.1 name 0
  · rename_i keeps
    refine ⟨fun _ => Iff.rfl, fun other imports => (or_iff_left_of_imp ?_).symm⟩
    rintro rfl
    rcases imports with ⟨res, found, _⟩
    refine ⟨res, found, Or.inl ?_⟩
    rw [lacksDefinition, found, Option.any_some, Option.isNone_iff_eq_none] at keeps
    exact Option.isSome_iff_ne_none.mpr keeps

theorem provideAll (names : List Name) (state : SymbolTable × List ProvidedSymbol) :
    Provides (· ∈ names) state.1 (names.foldl Peony.provideFixed state).1 := by
  induction names generalizing state with
  | nil => exact (refl state.1).congr (by simp)
  | cons name rest induction =>
      exact ((provideFixed state name).trans (induction _)).congr (by simp)

theorem defineAll (definitions : List (Name × UInt64)) (table : SymbolTable) :
    Provides (· ∈ definitions.map Prod.fst) table (Peony.defineAll table definitions) := by
  rw [Peony.defineAll]
  induction definitions generalizing table with
  | nil => exact (refl table).congr (by simp)
  | cons definition rest induction =>
      exact ((defineAbsolute table definition.1 definition.2).trans (induction _)).congr
        (by simp)

end Provides

end SymbolTable

/-! ## Symbols of the linker -/

theorem startStopSymbol_name {name : Name} {sym : ProvidedSymbol}
    (isSymbol : startStopSymbol name = some sym) : sym.name = name := by
  rw [startStopSymbol, Option.bind_eq_bind, Option.bind_eq_some_iff] at isSymbol
  rcases isSymbol with ⟨text, _, isSymbol⟩
  split at isSymbol
  · cases isSymbol
    rfl
  · split at isSymbol
    · cases isSymbol
      rfl
    · exact nomatch isSymbol

namespace SymbolTable.Provides

theorem defineSymbols (syms : List ProvidedSymbol)
    (state : SymbolTable × List ProvidedSymbol) :
    Provides (· ∈ syms.map ProvidedSymbol.name) state.1
      (syms.foldl (fun state sym =>
        (state.1.defineAbsolute sym.name 0, state.2 ++ [sym])) state).1 := by
  induction syms generalizing state with
  | nil => exact (refl state.1).congr (by simp)
  | cons sym rest induction =>
      have later := induction (state.1.defineAbsolute sym.name 0, state.2 ++ [sym])
      exact ((defineAbsolute state.1 sym.name 0).trans later).congr (by simp)

theorem predefineLinkerSymbols (table : SymbolTable) :
    Provides (fun name => name ∈ linkerSyms ∨ (startStopSymbol name).isSome = true) table
      (Peony.predefineLinkerSymbols table).1 := by
  have fixed := provideAll linkerSyms (table, [])
  have bounds := defineSymbols
    (startStopSymbols (linkerSyms.foldl Peony.provideFixed (table, [])).1)
    (linkerSyms.foldl Peony.provideFixed (table, []))
  refine ⟨(fixed.trans bounds).imports_iff, fun name imports => ?_⟩
  have both := (fixed.trans bounds).owns_iff name imports
  refine both.trans ⟨fun either => ?_, fun either => ?_⟩
  · rcases either with owns | isFixed | isBound
    · exact Or.inl owns
    · exact Or.inr (Or.inl isFixed)
    · rcases List.mem_map.mp isBound with ⟨sym, isSym, rfl⟩
      rcases List.mem_filterMap.mp isSym with ⟨entry, _, isSymbol⟩
      rw [startStopSymbol_name isSymbol, isSymbol]
      exact Or.inr (Or.inr rfl)
  · rcases either with owns | isFixed | isBound
    · exact Or.inl owns
    · exact Or.inr (Or.inl isFixed)
    · rcases (fixed.imports_iff name).mpr imports with ⟨res, found, isImport⟩
      by_cases isDefined : res.definedIn.isSome = true
      · rw [← or_assoc, ← fixed.owns_iff name imports]
        exact Or.inl ⟨res, found, Or.inl isDefined⟩
      · refine Or.inr (Or.inr ?_)
        rcases Option.isSome_iff_exists.mp isBound with ⟨sym, isSymbol⟩
        refine List.mem_map.mpr ⟨sym, ?_, startStopSymbol_name isSymbol⟩
        refine List.mem_filterMap.mpr ⟨⟨name, res⟩, List.mem_filter.mpr ⟨?_, ?_⟩, isSymbol⟩
        · exact AList.mem_lookup_iff.mp found
        · rw [Option.isNone_iff_eq_none]
          simpa using isDefined

end SymbolTable.Provides

/-! ## Imports of a run -/

namespace TableRun

variable {run : TableRun} {table : SymbolTable}

theorem importing_libraries (libraries : List (List SharedExport × String))
    {table : SymbolTable} (importing : table.Importing) :
    (libraries.foldl registerLibrary table).Importing ∧
      ∀ name, (libraries.foldl registerLibrary table).Owns name ↔ table.Owns name := by
  have exports (soname : String) (exports : List SharedExport) {table : SymbolTable}
      (importing : table.Importing) :
      (table.registerSharedExportSymbols exports soname).Importing ∧
        ∀ name, (table.registerSharedExportSymbols exports soname).Owns name ↔
          table.Owns name := by
    induction exports generalizing table with
    | nil => exact ⟨importing, fun _ => Iff.rfl⟩
    | cons exported rest induction =>
        rcases induction (importing.registerSharedExport soname exported) with
          ⟨last, sameOwns⟩
        exact ⟨last, fun name => (sameOwns name).trans
          (SymbolTable.owns_registerSharedExport soname exported table name)⟩
  induction libraries generalizing table with
  | nil => exact ⟨importing, fun _ => Iff.rfl⟩
  | cons library rest induction =>
      rcases exports library.2 library.1 importing with ⟨first, sameFirst⟩
      rcases induction first with ⟨last, sameLast⟩
      exact ⟨last, fun name => (sameLast name).trans (sameFirst name)⟩

/-- The names that a library provides for the objects. -/
def imports (run : TableRun) : List Name :=
  run.exported.filter fun name => name ∈ run.mentioned && name ∉ run.defined

theorem exclusive_imported (imported : run.imported = .ok table) :
    table.Exclusive ∧ ∀ name, table.Imports name ↔ name ∈ run.imports := by
  rcases exists_resolved imported with ⟨resolved, ran, rfl⟩
  have both : _ ∧ SymbolTable.Extends (fun _ => True) _ _ _ _ := extends_resolving ran
  have resolving := both.1
  have start : resolved.Importing := {
    commonsDefined := resolving.commonsDefined
    exclusive := by
      rintro name ⟨res, found, isImport⟩ _
      rw [resolving.noImports name res found] at isImport
      exact nomatch isImport }
  rcases importing_libraries run.libraries start with ⟨importing, sameOwns⟩
  refine ⟨importing.exclusive, fun name => ?_⟩
  have owns : (run.libraries.foldl registerLibrary resolved).Owns name ↔
      name ∈ run.defined := by
    rw [sameOwns, resolving.owns_iff, defines_resolved ran]
  have defines := defines_imported imported name
  simp only [imports, List.mem_filter, Bool.and_eq_true, decide_eq_true_eq]
  constructor
  · intro isImport
    have undefined : name ∉ run.defined :=
      fun isDefined => importing.exclusive name isImport (owns.mpr isDefined)
    rcases isImport with ⟨res, found, isImport⟩
    have isDefined := defines.mp ⟨res, found, by
      rw [SymbolResolution.isDefined, isImport, Bool.or_true]⟩
    have provided := isDefined.resolve_left undefined
    exact ⟨provided.1, provided.2, undefined⟩
  · rintro ⟨isExported, isMentioned, undefined⟩
    rcases defines.mpr (Or.inr ⟨isExported, isMentioned⟩) with ⟨res, found, isDefined⟩
    refine ⟨res, found, ?_⟩
    rw [SymbolResolution.isDefined, Bool.or_eq_true] at isDefined
    exact isDefined.resolve_left fun isHere =>
      undefined (owns.mp ⟨res, found, Or.inl isHere⟩)

end TableRun

/-! ## The table that is laid out -/

namespace Link

open SymbolTable

variable (link : Link)

theorem sameSides_numbered : SameSides link.symbols link.numbered := by
  refine SameSides.foldl (fun table obj => ?_) link.objects link.symbols
  refine SameSides.foldl (fun table reloc => ?_) _ table
  rw [assignWeakGotId]
  split
  · split
    · split
      · exact SameSides.ensureId _ _
      · exact SameSides.refl table
    · exact SameSides.refl table
  · exact SameSides.refl table

theorem sameSides_copied : SameSides link.symbols link.copied := by
  refine link.sameSides_numbered.trans
    (SameSides.foldl (fun table name => SameSides.modify table name fun entry => ?_) _ _)
  split <;> exact ⟨rfl, rfl, rfl⟩

theorem sameSides_indexed : SameSides link.symbols link.indexed := by
  refine link.sameSides_copied.trans (SameSides.foldl (fun table entry => ?_) _ _)
  exact SameSides.modify table _ fun _ => ⟨rfl, rfl, rfl⟩

theorem mem_imports (name : Name) : name ∈ link.imports ↔ link.symbols.Imports name := by
  rw [← link.sameSides_copied.imports_iff, imports, mem_sortBy, List.mem_map]
  constructor
  · rintro ⟨entry, isEntry, rfl⟩
    rcases List.mem_filter.mp isEntry with ⟨present, isImport⟩
    exact ⟨entry.2, AList.mem_lookup_iff.mpr present, isImport⟩
  · rintro ⟨res, found, isImport⟩
    exact ⟨⟨name, res⟩,
      List.mem_filter.mpr ⟨AList.mem_lookup_iff.mp found, isImport⟩, rfl⟩

/-- The names that the command line defines. -/
def defsymNames : List Name := (link.args.defsym.filterMap parseDefsym).map Prod.fst

theorem filterMap_of_mapM {definitions : List Text} {parsed : List (Name × UInt64)}
    (all : definitions.mapM parseDefsym = some parsed) :
    definitions.filterMap parseDefsym = parsed := by
  induction definitions generalizing parsed with
  | nil =>
      cases all
      rfl
  | cons definition rest induction =>
      rw [List.mapM_cons, Option.bind_eq_bind, Option.bind_eq_some_iff] at all
      rcases all with ⟨first, isFirst, later⟩
      rcases Option.bind_eq_some_iff.mp later with ⟨others, areOthers, same⟩
      cases same
      rw [List.filterMap_cons_some isFirst, induction areOthers]

/-- The names that get a definition late. -/
def ProvidesName (name : Name) : Prop :=
  (name ∈ linkerSyms ∨ (startStopSymbol name).isSome = true) ∨ name ∈ link.defsymNames

instance (name : Name) : Decidable (link.ProvidesName name) :=
  inferInstanceAs (Decidable ((_ ∨ _) ∨ _))

theorem provides_defined {symbols : SymbolTable} (defined : link.defined = some symbols) :
    Provides link.ProvidesName link.indexed symbols := by
  rcases Option.map_eq_some_iff.mp defined with ⟨parsed, all, rfl⟩
  refine ((Provides.predefineLinkerSymbols link.indexed).trans
    (Provides.defineAll parsed _)).congr fun name => ?_
  rw [ProvidesName, defsymNames, filterMap_of_mapM all]

/-- An import is owned in the end just when it gets a definition late. -/
theorem owns_defined {run : TableRun} {symbols : SymbolTable}
    (imported : run.imported = .ok link.symbols) (defined : link.defined = some symbols)
    {name : Name} (imports : name ∈ run.imports) :
    symbols.Owns name ↔ link.ProvidesName name := by
  rcases TableRun.exclusive_imported imported with ⟨exclusive, sameImports⟩
  have isImport := (sameImports name).mpr imports
  have provides := link.provides_defined defined
  rw [provides.owns_iff name ((link.sameSides_indexed.imports_iff name).mpr isImport),
    link.sameSides_indexed.owns_iff]
  exact or_iff_right (exclusive name isImport)

theorem imports_defined {run : TableRun} {symbols : SymbolTable}
    (imported : run.imported = .ok link.symbols) (defined : link.defined = some symbols)
    (name : Name) : symbols.Imports name ↔ name ∈ run.imports := by
  rw [(link.provides_defined defined).imports_iff, link.sameSides_indexed.imports_iff,
    (TableRun.exclusive_imported imported).2]

structure ImportsApart (symbols : SymbolTable) : Prop where
  exclusive : symbols.Exclusive
  undefined : ∀ name ∈ link.imports, ¬ symbols.Owns name

/-- Imports and definitions are apart just when nothing that a library provides has a
name that the linker or the command line defines. -/
theorem importsApart_iff (link : Link) (run : TableRun) (symbols : SymbolTable)
    (imported : run.imported = .ok link.symbols) (defined : link.defined = some symbols) :
    link.ImportsApart symbols ↔
      ∀ name ∈ run.imports, name ∉ linkerSyms ∧ startStopSymbol name = none ∧
        name ∉ link.defsymNames := by
  have notProvided (name : Name) : ¬ link.ProvidesName name ↔ name ∉ linkerSyms ∧
      startStopSymbol name = none ∧ name ∉ link.defsymNames := by
    rw [ProvidesName, not_or, not_or, Option.not_isSome_iff_eq_none, and_assoc]
  simp only [← notProvided]
  constructor
  · intro apart name imports provides
    exact apart.exclusive name ((link.imports_defined imported defined name).mpr imports)
      ((link.owns_defined imported defined imports).mpr provides)
  · intro unprovided
    have isApart (name : Name) (imports : name ∈ run.imports) : ¬ symbols.Owns name :=
      fun owns => unprovided name imports ((link.owns_defined imported defined imports).mp owns)
    refine ⟨fun name imports => isApart name
      ((link.imports_defined imported defined name).mp imports), fun name imports => ?_⟩
    exact isApart name (((TableRun.exclusive_imported imported).2 name).mp
      ((link.mem_imports name).mp imports))

/-! ### A name that a library provides -/

def borrower (name : Name) : InputObject :=
  InputObject.assemble "main.o" 1 1 []
    [⟨1, name, .global, true, false, false, 0, 0, none, 0, 0⟩] []

/-- An object refers to the name and a library exports it. -/
def borrowing (name : Name) : TableRun where
  resolving := [.processObjectExcluding 0 (borrower name) []]
  libraries := [([⟨name, none, 8, 1⟩], "libbase.so")]
  ensured := []
  late := []

def borrowingLink (name : Name) : Link where
  args := {}
  baseAddress := 0x400000
  arena := InputArena.empty
  objects := [borrower name]
  symbols :=
    match (borrowing name).imported with
    | .ok table => table
    | .error _ => SymbolTable.new

theorem importsApart_puts : ∃ symbols,
    (borrowingLink (nameOf "puts")).defined = some symbols ∧
      (borrowingLink (nameOf "puts")).ImportsApart symbols :=
  ⟨_, rfl, (importsApart_iff (borrowingLink (nameOf "puts")) (borrowing (nameOf "puts"))
    _ rfl rfl).mpr (by decide)⟩

/-- The end of the image is defined by the linker, although a library exports it. -/
theorem end_not_importsApart : ∃ symbols,
    (borrowing (nameOf "_end")).imported = .ok (borrowingLink (nameOf "_end")).symbols ∧
      (borrowingLink (nameOf "_end")).defined = some symbols ∧
      ¬ (borrowingLink (nameOf "_end")).ImportsApart symbols := by
  have imported : (borrowing (nameOf "_end")).imported =
      .ok (borrowingLink (nameOf "_end")).symbols := rfl
  have defined : (borrowingLink (nameOf "_end")).defined =
      some (defineAll (borrowingLink (nameOf "_end")).predefined []) := rfl
  have imports : nameOf "_end" ∈ (borrowing (nameOf "_end")).imports := by decide
  refine ⟨_, imported, defined, fun apart => ?_⟩
  refine apart.exclusive (nameOf "_end")
    ((imports_defined _ imported defined _).mpr imports)
    ((owns_defined _ imported defined imports).mpr ?_)
  exact Or.inl (Or.inl (by decide))

end Link

end Peony
