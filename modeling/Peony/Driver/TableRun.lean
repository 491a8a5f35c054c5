import Mathlib.Data.Nat.Digits.Defs
import Peony.Driver.Provided
import Peony.Object.Parsed
import Peony.Symbols.Identity

namespace Peony

/-! The symbol table from the first object to the last definition, in the order in which
the driver updates it, and what its ids are worth. -/

open Interning

/-! ## Runs -/

inductive ResolveStep where
  | addObject (path : String)
  | processObjectExcluding (objId : ObjectId) (obj : InputObject) (excluded : List Nat)
  | forceUndefined (name : Name)

namespace ResolveStep

def run (table : SymbolTable) : ResolveStep → Except SymbolError SymbolTable
  | addObject path => .ok (table.addObject path).1
  | processObjectExcluding objId obj excluded =>
      table.processObjectExcluding objId obj excluded
  | forceUndefined name => .ok (table.forceUndefined name)

def merged : ResolveStep → List InputSymbol
  | processObjectExcluding _ obj excluded =>
      obj.symbols.filter fun sym => !SymbolTable.skipsSymbol excluded sym
  | _ => []

def defined (step : ResolveStep) : List Name :=
  (step.merged.filter fun sym => !sym.isUndefined).map InputSymbol.name

def mentioned : ResolveStep → List Name
  | forceUndefined name => [name]
  | step => step.merged.map InputSymbol.name

end ResolveStep

inductive LateStep where
  | defineAbsolute (name : Name) (value : UInt64)
  | predefineLinkerSymbols

def LateStep.run (table : SymbolTable) : LateStep → SymbolTable
  | defineAbsolute name value => table.defineAbsolute name value
  | predefineLinkerSymbols => (Peony.predefineLinkerSymbols table).1

/-- The updates of a link, in the order of the driver. -/
structure TableRun where
  resolving : List ResolveStep
  libraries : List (List SharedExport × String)
  ensured : List Name
  late : List LateStep

namespace TableRun

def registerLibrary (table : SymbolTable) (library : List SharedExport × String) :
    SymbolTable :=
  table.registerSharedExportSymbols library.1 library.2

def imported (run : TableRun) : Except SymbolError SymbolTable := do
  let resolved ← run.resolving.foldlM ResolveStep.run SymbolTable.new
  return run.libraries.foldl registerLibrary resolved

/-- The table that a run leaves; an object may define what is defined already. -/
def table (run : TableRun) : Except SymbolError SymbolTable := do
  let imported ← run.imported
  let ensured := run.ensured.foldl SymbolTable.ensureId imported
  return run.late.foldl LateStep.run ensured

/-! ## The names that are given ids -/

def defined (run : TableRun) : List Name := run.resolving.flatMap ResolveStep.defined

def mentioned (run : TableRun) : List Name := run.resolving.flatMap ResolveStep.mentioned

def exported (run : TableRun) : List Name :=
  run.libraries.flatMap fun library => library.1.map SharedExport.name

/-- What is defined, and what an object refers to and a library exports or needs a
GOT entry. -/
def issued (run : TableRun) : List Name :=
  run.defined ++ (run.exported ++ run.ensured).filter (· ∈ run.mentioned)

end TableRun

/-! ## Resolution -/

namespace SymbolTable

variable {allowed : Name → Prop}

/-- The ids so far: good while they suffice, and for allowed names. -/
abbrev IdLedger (allowed : Name → Prop) (good : SymbolTable → Prop) : SymbolTable → Prop :=
  Ledger SymbolTable.names (2 ^ 32) allowed good

/-- What a part of a run adds to the names that are defined and known. -/
structure Extends (allowed defined mentioned : Name → Prop) (before after : SymbolTable) :
    Prop where
  knows_iff : ∀ name, after.Knows name ↔ before.Knows name ∨ mentioned name
  defines_iff : ∀ name, after.Defines name ↔ before.Defines name ∨ defined name
  ledger : (∀ name, defined name → allowed name) →
    IdLedger allowed WellNumbered before → IdLedger allowed WellNumbered after

namespace Extends

variable {defined mentioned moreDefined moreMentioned : Name → Prop}
variable {before middle after : SymbolTable}

theorem refl (table : SymbolTable) :
    Extends allowed (fun _ => False) (fun _ => False) table table where
  knows_iff _ := (or_false _).symm ▸ Iff.rfl
  defines_iff _ := (or_false _).symm ▸ Iff.rfl
  ledger _ := id

theorem trans (first : Extends allowed defined mentioned before middle)
    (second : Extends allowed moreDefined moreMentioned middle after) :
    Extends allowed (fun name => defined name ∨ moreDefined name)
      (fun name => mentioned name ∨ moreMentioned name) before after where
  knows_iff name := by rw [second.knows_iff, first.knows_iff, or_assoc]
  defines_iff name := by rw [second.defines_iff, first.defines_iff, or_assoc]
  ledger allows ledger :=
    second.ledger (fun name isDefined => allows name (Or.inr isDefined))
      (first.ledger (fun name isDefined => allows name (Or.inl isDefined)) ledger)

theorem congr (more : Extends allowed defined mentioned before after)
    (sameDefined : ∀ name, defined name ↔ moreDefined name)
    (sameMentioned : ∀ name, mentioned name ↔ moreMentioned name) :
    Extends allowed moreDefined moreMentioned before after where
  knows_iff name := by rw [more.knows_iff, sameMentioned]
  defines_iff name := by rw [more.defines_iff, sameDefined]
  ledger allows := more.ledger fun name isDefined =>
    allows name ((sameDefined name).mp isDefined)

end Extends

theorem Merged.extends {table next : SymbolTable} {sym : InputSymbol}
    (merged : Merged table sym next) (resolving : table.Resolving) :
    Extends allowed (fun name => name = sym.name ∧ sym.isUndefined = false)
      (fun name => name = sym.name) table next where
  knows_iff := merged.knows_iff
  defines_iff := merged.defines_iff resolving
  ledger allows ledger := ledger.step {
    keys_cases := (merged.names_cases).imp_right fun added => ⟨_, added.2⟩
    fresh := by
      intro isGood key added
      rcases merged.names_cases with same | ⟨defines, isNew⟩
      · rw [same] at added
        exact absurd added (by simp)
      · rw [isNew, List.append_cancel_left_eq, List.singleton_inj] at added
        subst added
        exact ⟨merged.fresh resolving isGood isNew, allows sym.name ⟨rfl, defines⟩⟩
    keeps := merged.wellNumbered resolving }

theorem extends_processObject {table next : SymbolTable} {objId : ObjectId}
    {obj : InputObject} {excluded : List Nat}
    (processed : table.processObjectExcluding objId obj excluded = .ok next)
    (resolving : table.Resolving) :
    next.Resolving ∧ Extends allowed
      (· ∈ (ResolveStep.processObjectExcluding objId obj excluded).defined)
      (· ∈ (ResolveStep.processObjectExcluding objId obj excluded).mentioned) table next := by
  rw [processObjectExcluding] at processed
  simp only [ResolveStep.defined, ResolveStep.mentioned, ResolveStep.merged]
  generalize obj.symbols = symbols at processed ⊢
  induction symbols generalizing table with
  | nil =>
      cases processed
      exact ⟨resolving, (Extends.refl next).congr (by simp) (by simp)⟩
  | cons sym rest induction =>
      rw [List.foldlM_cons] at processed
      by_cases skipped : skipsSymbol excluded sym = true
      · rw [if_pos skipped] at processed
        rw [List.filter_cons_of_neg (by simp [skipped])]
        exact induction resolving processed
      · rw [if_neg skipped] at processed
        rw [List.filter_cons_of_pos (by simp [skipped])]
        cases result : table.mergeSymbol objId sym with
        | error failure =>
            rw [result] at processed
            exact nomatch processed
        | ok middle =>
            rw [result] at processed
            have merged := merged_mergeSymbol resolving.commonsDefined result
            rcases induction (merged.resolving resolving) processed with ⟨last, more⟩
            refine ⟨last, ((merged.extends resolving).trans more).congr ?_ (by simp)⟩
            intro name
            cases reference : sym.isUndefined with
            | false => simp [reference]
            | true => simp [reference]

theorem extends_addObject (table : SymbolTable) (path : String) :
    Extends allowed (fun _ => False) (fun _ => False) table (table.addObject path).1 where
  knows_iff _ := (or_false _).symm ▸ Iff.rfl
  defines_iff _ := (or_false _).symm ▸ Iff.rfl
  ledger _ ledger := ledger.step
    (.of_same rfl fun isGood => ⟨isGood.identified, isGood.definedHaveIds⟩)

theorem extends_forceUndefined (table : SymbolTable) (forced : Name) :
    Extends allowed (fun _ => False) (fun name => name = forced) table
      (table.forceUndefined forced) where
  knows_iff := knows_forceUndefined table forced
  defines_iff name := by rw [defines_forceUndefined, or_false]
  ledger _ ledger := ledger.step (.of_same rfl fun isGood => isGood.forceUndefined forced)

theorem Extends.of_resolveStep {table next : SymbolTable} {step : ResolveStep}
    (stepped : step.run table = .ok next) (resolving : table.Resolving) :
    next.Resolving ∧ Extends allowed (· ∈ step.defined) (· ∈ step.mentioned) table next := by
  cases step with
  | addObject path =>
      cases stepped
      exact ⟨⟨resolving.noImports, resolving.commonsDefined⟩,
        (extends_addObject table path).congr
          (by simp [ResolveStep.defined, ResolveStep.merged])
          (by simp [ResolveStep.mentioned, ResolveStep.merged])⟩
  | processObjectExcluding objId obj excluded =>
      exact extends_processObject stepped resolving
  | forceUndefined name =>
      cases stepped
      exact ⟨resolving.forceUndefined name, (extends_forceUndefined table name).congr
        (by simp [ResolveStep.defined, ResolveStep.merged])
        (by simp [ResolveStep.mentioned])⟩

/-- A whole resolution. -/
theorem Extends.of_resolving {steps : List ResolveStep} {table next : SymbolTable}
    (ran : steps.foldlM ResolveStep.run table = .ok next) (resolving : table.Resolving) :
    next.Resolving ∧ Extends allowed (· ∈ steps.flatMap ResolveStep.defined)
      (· ∈ steps.flatMap ResolveStep.mentioned) table next := by
  induction steps generalizing table with
  | nil =>
      cases ran
      exact ⟨resolving, (Extends.refl next).congr (by simp) (by simp)⟩
  | cons step rest induction =>
      rw [List.foldlM_cons] at ran
      cases stepped : step.run table with
      | error failure =>
          rw [stepped] at ran
          exact nomatch ran
      | ok middle =>
          rw [stepped] at ran
          have both : middle.Resolving ∧ Extends allowed _ _ table middle :=
            Extends.of_resolveStep stepped resolving
          rcases both with ⟨resolvingNext, first⟩
          rcases induction ran resolvingNext with ⟨last, second⟩
          exact ⟨last, (first.trans second).congr (by simp) (by simp)⟩

/-! ## Imports -/

theorem extends_registerSharedExport (soname : String) (table : SymbolTable)
    (exported : SharedExport) :
    Extends allowed (fun name => name = exported.name ∧ table.Knows name) (fun _ => False)
      table (registerSharedExport soname table exported) where
  knows_iff name := by rw [knows_registerSharedExport, or_false]
  defines_iff := defines_registerSharedExport
  ledger allows ledger := ledger.step {
    keys_cases := names_registerSharedExport.imp_right fun added => ⟨_, added.2⟩
    fresh := by
      intro isGood key added
      rcases names_registerSharedExport with same | ⟨known, isNew⟩
      · rw [same] at added
        exact absurd added (by simp)
      · rw [isNew, List.append_cancel_left_eq, List.singleton_inj] at added
        subst added
        exact ⟨fresh_registerSharedExport isGood isNew, allows _ ⟨rfl, known⟩⟩
    keeps := WellNumbered.registerSharedExport }

/-- Imports that one library after the other provides. -/
theorem Extends.of_exports (soname : String) (exports : List SharedExport)
    (table : SymbolTable) :
    Extends allowed (fun name => name ∈ exports.map SharedExport.name ∧ table.Knows name)
      (fun _ => False) table (table.registerSharedExportSymbols exports soname) := by
  induction exports generalizing table with
  | nil => exact (Extends.refl table).congr (by simp) (by simp)
  | cons exported rest induction =>
      have first : Extends allowed _ _ table (registerSharedExport soname table exported) :=
        extends_registerSharedExport soname table exported
      refine (first.trans (induction _)).congr (fun name => ?_) (by simp)
      rw [knows_registerSharedExport, List.map_cons, List.mem_cons]
      exact or_and_right.symm

theorem Extends.of_libraries (libraries : List (List SharedExport × String))
    (table : SymbolTable) :
    Extends allowed
      (fun name => name ∈ libraries.flatMap (fun library => library.1.map SharedExport.name) ∧
        table.Knows name)
      (fun _ => False) table (libraries.foldl TableRun.registerLibrary table) := by
  induction libraries generalizing table with
  | nil => exact (Extends.refl table).congr (by simp) (by simp)
  | cons library rest induction =>
      have first : Extends allowed _ _ table (TableRun.registerLibrary table library) :=
        Extends.of_exports library.2 library.1 table
      refine (first.trans (induction _)).congr (fun name => ?_) (by simp)
      rw [first.knows_iff, or_false, List.flatMap_cons, List.mem_append]
      exact or_and_right.symm

/-! ## Ids after resolution -/

structure NamesHaveIds (numbered : Name → Prop) (table : SymbolTable) : Prop where
  identified : table.Identified
  mem_names : ∀ name, numbered name → name ∈ table.names

theorem WellNumbered.namesHaveIds {table : SymbolTable} (wellNumbered : table.WellNumbered) :
    table.NamesHaveIds table.Defines where
  identified := wellNumbered.identified
  mem_names := by
    rintro name ⟨res, found, isDefined⟩
    have named := (wellNumbered.definedHaveIds name res found).mp isDefined
    rw [wellNumbered.identified.mem_iff, Option.isSome_iff_exists]
    exact ⟨_, number_eq_some.mpr ⟨res, found, named, rfl⟩⟩

variable {numbered : Name → Prop}

theorem ledger_ensureId {table : SymbolTable} {ensured : Name}
    (allows : table.Knows ensured → allowed ensured)
    (ledger : IdLedger allowed (NamesHaveIds numbered) table) :
    IdLedger allowed (NamesHaveIds fun name => numbered name ∨ name = ensured ∧ table.Knows name)
      (table.ensureId ensured) :=
  ledger.step {
    keys_cases := names_ensureId.imp_right fun added => ⟨_, added.2⟩
    fresh := by
      intro isGood key added
      rcases names_ensureId with same | ⟨known, isNew⟩
      · rw [same] at added
        exact absurd added (by simp)
      · rw [isNew, List.append_cancel_left_eq, List.singleton_inj] at added
        subst added
        exact ⟨fresh_ensureId isGood.identified isNew, allows known⟩
    keeps := fun isGood few =>
      { identified := isGood.identified.ensureId few
        mem_names := fun name either => mem_names_ensureId isGood.identified
          (either.imp_left (isGood.mem_names name)) } }

theorem ledger_ensureIds (ensured : List Name) {table : SymbolTable}
    (allows : ∀ name ∈ ensured, table.Knows name → allowed name)
    (ledger : IdLedger allowed (NamesHaveIds numbered) table) :
    IdLedger allowed (NamesHaveIds fun name => numbered name ∨ name ∈ ensured ∧ table.Knows name)
      (ensured.foldl SymbolTable.ensureId table) := by
  induction ensured generalizing table numbered with
  | nil => simpa using ledger
  | cons name rest induction =>
      have first := ledger_ensureId (allows name List.mem_cons_self) ledger
      have last := induction
        (fun other present known => allows other (List.mem_cons_of_mem _ present)
          ((knows_ensureId other).mp known)) first
      simp only [knows_ensureId, or_assoc, ← or_and_right, ← List.mem_cons] at last
      exact last

theorem ledger_defineAbsolute {table : SymbolTable}
    (ledger : IdLedger allowed (NamesHaveIds numbered) table) (name : Name) (value : UInt64) :
    IdLedger allowed (NamesHaveIds numbered) (table.defineAbsolute name value) :=
  ledger.step (.of_same rfl fun isGood =>
    ⟨isGood.identified.defineAbsolute name value, isGood.mem_names⟩)

theorem ledger_late (late : List LateStep) {table : SymbolTable}
    (ledger : IdLedger allowed (NamesHaveIds numbered) table) :
    IdLedger allowed (NamesHaveIds numbered) (late.foldl LateStep.run table) := by
  induction late generalizing table with
  | nil => exact ledger
  | cons step rest induction =>
      refine induction ?_
      cases step with
      | defineAbsolute name value => exact ledger_defineAbsolute ledger name value
      | predefineLinkerSymbols =>
          have keeps (table : SymbolTable) (name : Name)
              (ledger : IdLedger allowed (NamesHaveIds numbered) table) :
              IdLedger allowed (NamesHaveIds numbered) (table.defineAbsolute name 0) :=
            ledger_defineAbsolute ledger name 0
          exact predefineLinkerSymbols_keeps keeps ledger

theorem ledger_new : IdLedger allowed WellNumbered new where
  good_of_lt _ := ⟨NumberedBy.nil, fun _ _ impossible => nomatch impossible⟩
  nodup := List.nodup_nil
  allowed_of_mem _ impossible := nomatch impossible

theorem resolving_new : new.Resolving where
  noImports _ _ impossible := nomatch impossible
  commonsDefined _ _ impossible := nomatch impossible

end SymbolTable

/-! ## Ids of a whole run -/

namespace TableRun

open SymbolTable

variable {run : TableRun} {table : SymbolTable}

theorem mem_issued {name : Name} : name ∈ run.issued ↔
    name ∈ run.defined ∨
      (name ∈ run.exported ∨ name ∈ run.ensured) ∧ name ∈ run.mentioned := by
  simp [issued, or_and_right]

theorem exists_resolved (imported : run.imported = .ok table) :
    ∃ resolved, run.resolving.foldlM ResolveStep.run SymbolTable.new = .ok resolved ∧
      table = run.libraries.foldl registerLibrary resolved := by
  rw [TableRun.imported] at imported
  cases ran : run.resolving.foldlM ResolveStep.run SymbolTable.new with
  | error failure =>
      rw [ran] at imported
      exact nomatch imported
  | ok resolved =>
      rw [ran] at imported
      exact ⟨resolved, rfl, (Except.ok.inj imported).symm⟩

theorem extends_resolving {allowed : Name → Prop} {resolved : SymbolTable}
    (ran : run.resolving.foldlM ResolveStep.run SymbolTable.new = .ok resolved) :
    resolved.Resolving ∧ Extends allowed (· ∈ run.defined) (· ∈ run.mentioned)
      SymbolTable.new resolved :=
  Extends.of_resolving ran resolving_new

theorem knows_resolved {resolved : SymbolTable}
    (ran : run.resolving.foldlM ResolveStep.run SymbolTable.new = .ok resolved)
    (name : Name) : resolved.Knows name ↔ name ∈ run.mentioned := by
  have both : _ ∧ Extends (fun _ => True) _ _ _ _ := extends_resolving ran
  rw [both.2.knows_iff]
  exact or_iff_right fun impossible => nomatch impossible

theorem defines_resolved {resolved : SymbolTable}
    (ran : run.resolving.foldlM ResolveStep.run SymbolTable.new = .ok resolved)
    (name : Name) : resolved.Defines name ↔ name ∈ run.defined := by
  have both : _ ∧ Extends (fun _ => True) _ _ _ _ := extends_resolving ran
  rw [both.2.defines_iff]
  exact or_iff_right fun ⟨_, impossible, _⟩ => nomatch impossible

theorem knows_imported (imported : run.imported = .ok table) (name : Name) :
    table.Knows name ↔ name ∈ run.mentioned := by
  rcases exists_resolved imported with ⟨resolved, ran, rfl⟩
  have imports : Extends (fun _ => True) _ _ _ _ :=
    Extends.of_libraries run.libraries resolved
  rw [imports.knows_iff, or_false, knows_resolved ran]

theorem defines_imported (imported : run.imported = .ok table) (name : Name) :
    table.Defines name ↔ name ∈ run.defined ∨ name ∈ run.exported ∧ name ∈ run.mentioned := by
  rcases exists_resolved imported with ⟨resolved, ran, rfl⟩
  have imports : Extends (fun _ => True) _ _ _ _ :=
    Extends.of_libraries run.libraries resolved
  rw [imports.defines_iff, defines_resolved ran, knows_resolved ran]
  rfl

theorem ledger_imported (imported : run.imported = .ok table) :
    IdLedger (· ∈ run.issued) WellNumbered table := by
  rcases exists_resolved imported with ⟨resolved, ran, rfl⟩
  have both : _ ∧ Extends (· ∈ run.issued) _ _ _ _ := extends_resolving ran
  have imports : Extends (· ∈ run.issued) _ _ _ _ :=
    Extends.of_libraries run.libraries resolved
  have first := both.2.ledger (fun name isDefined => mem_issued.mpr (Or.inl isDefined))
    ledger_new
  exact imports.ledger (fun name isExported => mem_issued.mpr
    (Or.inr ⟨Or.inl isExported.1, (knows_resolved ran name).mp isExported.2⟩)) first

theorem ledger (ran : run.table = .ok table) :
    IdLedger (· ∈ run.issued) (NamesHaveIds (· ∈ run.issued)) table := by
  rw [TableRun.table] at ran
  cases isImported : run.imported with
  | error failure =>
      rw [isImported] at ran
      exact nomatch ran
  | ok imported =>
      rw [isImported] at ran
      cases ran
      have covered : IdLedger (· ∈ run.issued) (NamesHaveIds imported.Defines) imported :=
        (ledger_imported isImported).step (.of_same rfl fun isGood => isGood.namesHaveIds)
      have ensured := ledger_ensureIds run.ensured (fun name isEnsured isKnown =>
        mem_issued.mpr (Or.inr ⟨Or.inr isEnsured,
          (knows_imported isImported name).mp isKnown⟩)) covered
      refine ledger_late run.late (ensured.step (.of_same rfl fun isGood =>
        ⟨isGood.identified, fun name isIssued => isGood.mem_names name ?_⟩))
      rw [defines_imported isImported, knows_imported isImported]
      rcases mem_issued.mp isIssued with isDefined | ⟨isExported | isEnsured, isMentioned⟩
      · exact Or.inl (Or.inl isDefined)
      · exact Or.inl (Or.inr ⟨isExported, isMentioned⟩)
      · exact Or.inr ⟨isEnsured, isMentioned⟩

theorem length_names_lt_iff (ran : run.table = .ok table) :
    table.names.length < 2 ^ 32 ↔ run.issued.dedup.length < 2 ^ 32 :=
  (ledger ran).length_lt_iff (fun _ => Iff.rfl) fun isGood => isGood.mem_names

end TableRun

namespace SymbolTable

/-- Each id names one name: the ids are the positions of the names without a gap, what
has none carries the placeholder, and the index by ids agrees. -/
structure IdsBijective (table : SymbolTable) : Prop where
  named : ∀ (place : Nat) (name : Name), table.names[place]? = some name ↔
    ∃ res, table.lookup name = some res ∧ res.id ≠ SymbolId.placeholder ∧
      res.id.toNat = place
  gapless : ∀ place < table.names.length, ∃ name res,
    table.lookup name = some res ∧ res.id ≠ SymbolId.placeholder ∧ res.id.toNat = place
  inside : ∀ name res, table.lookup name = some res → res.id ≠ SymbolId.placeholder →
    res.id.toNat < table.names.length
  unnamed : ∀ name res, table.lookup name = some res → name ∉ table.names →
    res.id = SymbolId.placeholder
  unshared : ∀ first second res other, table.lookup first = some res →
    table.lookup second = some other → res.id ≠ SymbolId.placeholder → res.id = other.id →
    first = second
  indexed : ∀ (place : Nat) (name : Name), table.names[place]? = some name →
    table.buildIdIndex[place]? = some (table.lookup name)

theorem Identified.idsBijective {table : SymbolTable} (identified : table.Identified) :
    table.IdsBijective where
  named place name := (identified place name).trans number_eq_some
  gapless place isInside := by
    have isName := List.getElem?_eq_getElem isInside
    exact ⟨_, number_eq_some.mp ((identified place _).mp isName)⟩
  inside name res found named :=
    identified.lt_length (number_eq_some.mpr ⟨res, found, named, rfl⟩)
  unnamed name res found missing := by
    by_contra named
    refine missing (identified.mem_iff.mpr ?_)
    rw [Option.isSome_iff_exists]
    exact ⟨_, number_eq_some.mpr ⟨res, found, named, rfl⟩⟩
  unshared first second res other isFirst isSecond named sameId := by
    have firstAt := (identified _ _).mpr (number_eq_some.mpr ⟨res, isFirst, named, rfl⟩)
    have secondAt := (identified _ _).mpr
      (number_eq_some.mpr ⟨other, isSecond, sameId ▸ named, rfl⟩)
    rw [sameId, secondAt, Option.some.injEq] at firstAt
    exact firstAt.symm
  indexed _ _ isName := identified.buildIdIndex isName

/-- An id is never the number of the placeholder. -/
theorem IdsBijective.length_lt {table : SymbolTable} (bijective : table.IdsBijective) :
    table.names.length < 2 ^ 32 := by
  by_contra long
  have last : 2 ^ 32 - 1 < table.names.length := by omega
  rcases bijective.gapless _ last with ⟨name, res, _, named, isLast⟩
  exact named (UInt32.toNat_inj.mp isLast)

end SymbolTable

namespace TableRun

variable {run : TableRun} {table : SymbolTable}

theorem idsBijective_iff_length (ran : run.table = .ok table) :
    table.IdsBijective ↔ table.names.length < 2 ^ 32 :=
  ⟨fun bijective => bijective.length_lt,
    fun few => ((ledger ran).good_of_lt few).identified.idsBijective⟩

/-- After a run the ids and the names correspond just when fewer than `2 ^ 32` names are
issued ids for. -/
theorem idsBijective_iff (run : TableRun) (table : SymbolTable)
    (ran : run.table = .ok table) :
    table.IdsBijective ↔ run.issued.dedup.length < 2 ^ 32 :=
  (idsBijective_iff_length ran).trans (length_names_lt_iff ran)

def calling : TableRun where
  resolving := [.processObjectExcluding 0
    (InputObject.assemble "main.o" 1 3 []
      [⟨1, nameOf "main", .global, false, false, false, 2, 0, some 1, 0, 8⟩,
        ⟨2, nameOf "puts", .global, true, false, false, 0, 0, none, 0, 0⟩,
        ⟨3, nameOf "__gmon_start__", .weak, true, false, false, 0, 0, none, 0, 0⟩] []) []]
  libraries := [([⟨nameOf "puts", none, 16, 2⟩], "libc.so.6")]
  ensured := [nameOf "__gmon_start__"]
  late := [.defineAbsolute (nameOf "stack") 4096]

theorem idsBijective_calling : ∃ table, calling.table = .ok table ∧
    (table.IdsBijective ↔ calling.issued.dedup.length < 2 ^ 32) ∧ table.IdsBijective :=
  ⟨_, rfl, idsBijective_iff calling _ rfl,
    (idsBijective_iff calling _ rfl).mpr (by decide)⟩

/-! ### Many names -/

def numeral (index : Nat) : Name :=
  115 :: (Nat.digits 16 index).map fun digit => UInt8.ofNat (97 + digit)

theorem numeral_injective : Function.Injective numeral := by
  intro first second same
  have letters := (List.cons.inj same).2
  have digits (index : Nat) :
      ((Nat.digits 16 index).map fun digit => UInt8.ofNat (97 + digit)).map
        (fun letter => letter.toNat - 97) = Nat.digits 16 index := by
    rw [List.map_map]
    refine (List.map_congr_left fun digit isDigit => ?_).trans (List.map_id _)
    have small : digit < 16 := Nat.digits_lt_base (by decide) isDigit
    rw [Function.comp_apply, UInt8.toNat_ofNat', Nat.mod_eq_of_lt (by omega)]
    exact Nat.add_sub_cancel_left _ _
  rw [← @Nat.digits_inj_iff 16, ← digits first, letters, digits second]

def weakConstant (name : Name) (place : Nat) : InputSymbol where
  index := place + 1
  name := name
  binding := .weak
  isUndefined := false
  isCommon := false
  isIfunc := false
  stType := 0
  visibility := 0
  sectionIndex := none
  value := 0
  size := 0

/-- The object of one part: so many definitions, of names that follow those of the parts
before it. -/
def crowdObject (size part : Nat) : InputObject :=
  InputObject.assemble "crowd.o" 0 (size + 1) []
    ((List.range size).map fun place => weakConstant (numeral (size * part + place)) place) []

def crowdPart (size part : Nat) : List ResolveStep :=
  [.addObject "crowd.o", .processObjectExcluding (.ofNat part) (crowdObject size part) []]

def crowd (size parts : Nat) : TableRun where
  resolving := (List.range parts).flatMap (crowdPart size)
  libraries := []
  ensured := []
  late := []

theorem crowdObject_parsed {size : Nat} (short : size < 2 ^ 32) (part : Nat) :
    (crowdObject size part).Parsed := by
  have indices : ((List.range size).map fun place =>
      weakConstant (numeral (size * part + place)) place).map InputSymbol.index =
        (List.range size).map Nat.succ := by
    rw [List.map_map]
    rfl
  apply InputObject.assemble_parsed
  · exact List.nodup_nil
  · rw [indices]
    exact List.nodup_range.map Nat.succ_injective
  · intro sec isSec
    cases isSec
  · intro sym isSym
    have isIndex := List.mem_map_of_mem (f := InputSymbol.index) isSym
    rw [indices] at isIndex
    rcases List.mem_map.mp isIndex with ⟨place, isPlace, same⟩
    have below := List.mem_range.mp isPlace
    omega

theorem merged_crowdObject (size part : Nat) :
    (ResolveStep.processObjectExcluding (.ofNat part) (crowdObject size part) []).merged =
      (crowdObject size part).symbols := by
  rw [ResolveStep.merged, List.filter_eq_self]
  intro sym isSym
  rcases List.mem_map.mp isSym with ⟨place, _, rfl⟩
  rfl

theorem defined_crowdPart (size part : Nat) :
    (crowdPart size part).flatMap ResolveStep.defined =
      (List.range size).map fun place => numeral (size * part + place) := by
  have defining : (crowdObject size part).symbols.filter (fun sym => !sym.isUndefined) =
      (crowdObject size part).symbols := by
    rw [List.filter_eq_self]
    intro sym isSym
    rcases List.mem_map.mp isSym with ⟨place, _, rfl⟩
    rfl
  rw [crowdPart, List.flatMap_cons, List.flatMap_singleton, ResolveStep.defined,
    ResolveStep.defined, merged_crowdObject, defining, crowdObject, InputObject.assemble,
    List.map_map]
  rfl

theorem issued_crowd (size parts : Nat) :
    (crowd size parts).issued = (List.range (size * parts)).map numeral := by
  have defined : (crowd size parts).defined = (List.range (size * parts)).map numeral := by
    induction parts with
    | zero => rfl
    | succ part induction =>
        rw [TableRun.defined, crowd] at induction ⊢
        rw [List.range_succ, List.flatMap_append, List.flatMap_append, induction,
          List.flatMap_singleton, defined_crowdPart, Nat.mul_succ, List.range_add,
          List.map_append, List.map_map]
        rfl
  rw [issued, defined]
  exact List.append_nil _

theorem length_issued_crowd (size parts : Nat) :
    (crowd size parts).issued.dedup.length = size * parts := by
  rw [issued_crowd, (List.Nodup.map numeral_injective List.nodup_range).dedup,
    List.length_map, List.length_range]

theorem exists_mergeSymbol_weakConstant (table : SymbolTable) (objId : ObjectId) (name : Name)
    (place : Nat) : ∃ next, table.mergeSymbol objId (weakConstant name place) = .ok next := by
  change ∃ next, table.mergeDefined objId (weakConstant name place) = .ok next
  rw [SymbolTable.mergeDefined]
  cases table.lookup (weakConstant name place).name with
  | none => exact ⟨_, rfl⟩
  | some entry =>
      dsimp only
      split
      · exact ⟨_, rfl⟩
      · rw [SymbolTable.conflictAction]
        cases entry.definedIn with
        | none => exact ⟨_, rfl⟩
        | some first =>
            cases entry.binding <;> exact ⟨_, rfl⟩

/-- A weak definition never conflicts with another one. -/
theorem exists_run_crowdPart (table : SymbolTable) (size part : Nat) :
    ∃ next, (crowdPart size part).foldlM ResolveStep.run table = .ok next := by
  have processes (places : List Nat) (table : SymbolTable) :
      ∃ next, (places.map fun place =>
          weakConstant (numeral (size * part + place)) place).foldlM
        (fun table sym => if SymbolTable.skipsSymbol [] sym then .ok table
          else table.mergeSymbol (.ofNat part) sym) table = .ok next := by
    induction places generalizing table with
    | nil => exact ⟨table, rfl⟩
    | cons place rest induction =>
        rcases exists_mergeSymbol_weakConstant table (.ofNat part)
          (numeral (size * part + place)) place with ⟨middle, isMiddle⟩
        rcases induction middle with ⟨next, isNext⟩
        refine ⟨next, ?_⟩
        rw [List.map_cons, List.foldlM_cons, if_neg (by exact Bool.false_ne_true), isMiddle]
        exact isNext
  rcases processes (List.range size) (table.addObject "crowd.o").1 with ⟨next, isNext⟩
  have processed : (table.addObject "crowd.o").1.processObjectExcluding (.ofNat part)
      (crowdObject size part) [] = .ok next := isNext
  refine ⟨next, ?_⟩
  simp only [crowdPart, List.foldlM_cons, List.foldlM_nil, ResolveStep.run]
  change (table.addObject "crowd.o").1.processObjectExcluding (.ofNat part) (crowdObject size part) []
    >>= pure = _
  rw [processed]
  rfl

theorem exists_table_crowd (size parts : Nat) :
    ∃ table, (crowd size parts).table = .ok table := by
  have resolves (steps : List Nat) (table : SymbolTable) :
      ∃ next, (steps.flatMap (crowdPart size)).foldlM ResolveStep.run table = .ok next := by
    induction steps generalizing table with
    | nil => exact ⟨table, rfl⟩
    | cons part rest induction =>
        rcases exists_run_crowdPart table size part with ⟨middle, isMiddle⟩
        rcases induction middle with ⟨next, isNext⟩
        refine ⟨next, ?_⟩
        rw [List.flatMap_cons, List.foldlM_append, isMiddle]
        exact isNext
  rcases resolves (List.range parts) SymbolTable.new with ⟨next, isNext⟩
  refine ⟨next, ?_⟩
  simp only [TableRun.table, TableRun.imported, crowd, isNext]
  rfl

/-- With `2 ^ 32` definitions, however they are spread over objects, the last id is the
placeholder. -/
theorem crowd_not_idsBijective :
    (∀ part, (crowdObject (2 ^ 24) part).Parsed) ∧
      ∃ table, (crowd (2 ^ 24) 256).table = .ok table ∧ ¬ table.IdsBijective := by
  rcases exists_table_crowd (2 ^ 24) 256 with ⟨table, ran⟩
  refine ⟨crowdObject_parsed (by decide), table, ran, fun bijective => ?_⟩
  have few := (length_names_lt_iff ran).mp bijective.length_lt
  rw [length_issued_crowd] at few
  exact Nat.lt_irrefl _ few

end TableRun

end Peony
