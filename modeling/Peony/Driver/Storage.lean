import Peony.Driver.Finalized
import Peony.Driver.HashOrder
import Peony.Driver.TableRun
import Peony.Layout.Storage

namespace Peony

/-! The storage of tentative definitions and of copied imports, as the finished symbol
table has it. -/

open Spans Interning

/-! ## Tables whose ids are names -/

namespace SymbolTable

/-- Ids and names agree, and a tentative definition is no import. -/
structure Settled (table : SymbolTable) : Prop where
  identified : table.Identified
  numbered : table.Numbered
  plain : ∀ name res, table.lookup name = some res → res.common.isSome = true →
    res.isImport = false

namespace Settled

variable {table : SymbolTable}

theorem nameById_eq_some (settled : table.Settled) {id : SymbolId} {name : Name} :
    table.nameById id = some name ↔ ∃ res, table.lookup name = some res ∧
      res.id ≠ SymbolId.placeholder ∧ res.id = id := by
  rw [nameById, settled.identified, number_eq_some]
  simp only [UInt32.toNat_inj]

theorem modify (settled : table.Settled) (name : Name)
    {change : SymbolResolution → SymbolResolution}
    (keeps : ∀ entry, (change entry).common = entry.common ∧
      (change entry).definedIn = entry.definedIn ∧ (change entry).id = entry.id)
    (sameImport : ∀ entry, (change entry).isImport = entry.isImport) :
    (table.modify name change).Settled where
  identified := by
    rw [SymbolTable.modify]
    split
    · rename_i entry found
      rw [Identified, number_put_of_id found (keeps entry).2.2]
      exact settled.identified
    · exact settled.identified
  numbered := settled.numbered.modify name keeps
  plain := by
    intro other res found isCommon
    rw [lookup_modify] at found
    split at found
    · rcases Option.map_eq_some_iff.mp found with ⟨entry, isEntry, rfl⟩
      rw [(keeps entry).1] at isCommon
      rw [sameImport]
      exact settled.plain other entry isEntry isCommon
    · exact settled.plain other res found isCommon

theorem defineAbsolute (settled : table.Settled) (name : Name) (value : UInt64) :
    (table.defineAbsolute name value).Settled where
  identified := settled.identified.defineAbsolute name value
  numbered := settled.numbered.defineAbsolute name value
  plain := by
    intro other res found isCommon
    rw [lookup_defineAbsolute] at found
    split at found
    · cases isKnown : table.lookup name with
      | none =>
          rw [isKnown] at found
          cases found
          exact nomatch isCommon
      | some entry =>
          rw [isKnown] at found
          cases found
          exact settled.plain name entry isKnown isCommon
    · exact settled.plain other res found isCommon

theorem ensureId (settled : table.Settled) {name : Name}
    (undefined : ∀ entry, table.lookup name = some entry → entry.definedIn = none)
    (few : (table.ensureId name).names.length < 2 ^ 32) :
    (table.ensureId name).Settled where
  identified := settled.identified.ensureId few
  numbered := settled.numbered.ensureId undefined
  plain := by
    rcases @ensureId_cases table name with ⟨same, _⟩ | ⟨entry, found, _, isPut⟩
    · rw [same]
      exact settled.plain
    · rw [isPut]
      intro other res isOther isCommon
      by_cases isName : other = name
      · subst isName
        rw [lookup_put_self, Option.some.injEq] at isOther
        subst isOther
        exact settled.plain other entry found isCommon
      · rw [lookup_put_of_ne _ _ isName] at isOther
        exact settled.plain other res isOther isCommon

end Settled

/-- A step that forgets no name and keeps a settled table so while the ids suffice. -/
structure Settles (table next : SymbolTable) : Prop where
  length_le : table.names.length ≤ next.names.length
  keeps : next.names.length < 2 ^ 32 → table.Settled → next.Settled

namespace Settles

theorem refl (table : SymbolTable) : Settles table table := ⟨le_rfl, fun _ => id⟩

theorem trans {first second third : SymbolTable} (isFirst : Settles first second)
    (isSecond : Settles second third) : Settles first third where
  length_le := isFirst.length_le.trans isSecond.length_le
  keeps few settled := isSecond.keeps few
    (isFirst.keeps (isSecond.length_le.trans_lt few) settled)

theorem foldl {Item : Type} {step : SymbolTable → Item → SymbolTable}
    (settles : ∀ table item, Settles table (step table item)) (items : List Item)
    (table : SymbolTable) : Settles table (items.foldl step table) := by
  induction items generalizing table with
  | nil => exact refl table
  | cons item rest induction => exact (settles table item).trans (induction _)

theorem of_same {table next : SymbolTable} (same : next.names = table.names)
    (keeps : table.Settled → next.Settled) : Settles table next :=
  ⟨(congrArg List.length same).ge, fun _ => keeps⟩

theorem names_modify (table : SymbolTable) (name : Name)
    (change : SymbolResolution → SymbolResolution) :
    (table.modify name change).names = table.names := by
  rw [SymbolTable.modify]
  split <;> rfl

theorem modify (table : SymbolTable) (name : Name)
    {change : SymbolResolution → SymbolResolution}
    (keeps : ∀ entry, (change entry).common = entry.common ∧
      (change entry).definedIn = entry.definedIn ∧ (change entry).id = entry.id)
    (sameImport : ∀ entry, (change entry).isImport = entry.isImport) :
    Settles table (table.modify name change) :=
  of_same (names_modify table name change)
    fun settled => settled.modify name keeps sameImport

theorem defineAbsolute (table : SymbolTable) (name : Name) (value : UInt64) :
    Settles table (table.defineAbsolute name value) :=
  of_same rfl fun settled => settled.defineAbsolute name value

theorem assignWeakGotIds (objects : List InputObject) (table : SymbolTable) :
    Settles table (assignWeakGotIds objects table) := by
  rw [Peony.assignWeakGotIds]
  refine foldl (fun table obj => ?_) objects table
  refine foldl (fun table reloc => ?_) _ table
  rw [assignWeakGotId]
  split
  · split
    · split
      · rename_i weak
        refine ⟨?_, fun few settled => settled.ensureId (fun entry found => ?_) few⟩
        · rcases @names_ensureId table _ with same | ⟨_, isNew⟩
          · rw [same]
          · rw [isNew, List.length_append]
            exact Nat.le_add_right _ _
        · have undefined := weak.2
          rw [isWeakUndef, found, Option.any_some, SymbolResolution.isDefined] at undefined
          cases isDefined : entry.definedIn with
          | none => rfl
          | some objId =>
              rw [isDefined] at undefined
              cases undefined
      · exact refl table
    · exact refl table
  · exact refl table

end Settles

/-! ### Resolution -/

/-- No import is defined tentatively, and what is so defined is a definition. -/
def CommonsOwn (table : SymbolTable) : Prop :=
  ∀ name res, table.lookup name = some res → res.common.isSome = true →
    res.definedIn.isSome = true ∧ res.isImport = false

theorem commonsOwn_registerSharedExport {table : SymbolTable} (own : table.CommonsOwn)
    (soname : String) (exported : SharedExport) :
    (registerSharedExport soname table exported).CommonsOwn := by
  rcases registerSharedExport_cases soname table exported with
    ⟨same, _⟩ | ⟨entry, next, found, undefined, _, _, _, sameCommon, isPut⟩
  · rw [same]
    exact own
  · rw [isPut]
    intro name res isRes isCommon
    by_cases isName : name = exported.name
    · subst isName
      rw [lookup_put_self, Option.some.injEq] at isRes
      subst isRes
      rw [sameCommon] at isCommon
      have isDefined := (own _ entry found isCommon).1
      rw [SymbolResolution.isDefined, isDefined] at undefined
      cases undefined
    · rw [lookup_put_of_ne _ _ isName] at isRes
      exact own name res isRes isCommon

end SymbolTable

open SymbolTable

theorem TableRun.settled {run : TableRun} {table : SymbolTable}
    (imported : run.imported = .ok table) (few : table.names.length < 2 ^ 32) :
    table.Settled := by
  have good := (ledger_imported imported).good_of_lt few
  have own : table.CommonsOwn := by
    rcases exists_resolved imported with ⟨resolved, ran, rfl⟩
    have resolving : resolved.Resolving ∧
      Extends (fun _ => True) _ _ SymbolTable.new resolved := extends_resolving ran
    have exports (soname : String) (exports : List SharedExport) (table : SymbolTable)
        (own : table.CommonsOwn) :
        (table.registerSharedExportSymbols exports soname).CommonsOwn := by
      rw [registerSharedExportSymbols]
      induction exports generalizing table with
      | nil => exact own
      | cons exported rest induction =>
          exact induction _ (commonsOwn_registerSharedExport own soname exported)
    have libraries (libraries : List (List SharedExport × String)) (table : SymbolTable)
        (own : table.CommonsOwn) :
        (libraries.foldl registerLibrary table).CommonsOwn := by
      induction libraries generalizing table with
      | nil => exact own
      | cons library rest induction => exact induction _ (exports _ _ _ own)
    exact libraries run.libraries resolved fun name res found isCommon =>
      ⟨resolving.1.commonsDefined name res found isCommon,
        resolving.1.noImports name res found⟩
  refine ⟨good.identified, fun name res found isCommon => ?_,
    fun name res found isCommon => (own name res found isCommon).2⟩
  have isDefined := (own name res found isCommon).1
  refine ⟨isDefined, ?_⟩
  have named := (good.definedHaveIds name res found).mp (by
    rw [SymbolResolution.isDefined, isDefined]
    rfl)
  rw [nameById, good.identified, number_eq_some]
  exact ⟨res, found, named, rfl⟩

namespace Link

theorem settles_numbered {link : Link} {symbols : SymbolTable}
    (defined : link.defined = some symbols) : Settles link.numbered symbols := by
  have copied : Settles link.numbered link.copied := by
    refine Settles.foldl (fun table name => ?_) _ _
    refine Settles.modify table name (fun entry => ?_) fun entry => ?_
    · split <;> exact ⟨rfl, rfl, rfl⟩
    · split <;> rfl
  have indexed : Settles link.copied link.indexed := by
    refine Settles.foldl (fun table entry => ?_) _ _
    exact Settles.modify table entry.1 (fun _ => ⟨rfl, rfl, rfl⟩) fun _ => rfl
  have predefined : Settles link.indexed link.predefined :=
    predefineLinkerSymbols_keeps
      (fun table name settles => settles.trans (Settles.defineAbsolute table name 0))
      (Settles.refl _)
  rcases Option.map_eq_some_iff.mp defined with ⟨definitions, -, rfl⟩
  exact ((copied.trans indexed).trans predefined).trans
    (Settles.foldl (fun table (definition : Name × UInt64) =>
      Settles.defineAbsolute table definition.1 definition.2) _ _)

theorem settled_of_run {link : Link} {run : TableRun} {symbols : SymbolTable}
    (imported : run.imported = .ok link.symbols) (defined : link.defined = some symbols)
    (few : symbols.names.length < 2 ^ 32) : link.numbered.Settled ∧ symbols.Settled := by
  have first : Settles link.symbols link.numbered :=
    Settles.assignWeakGotIds link.objects link.symbols
  have last := settles_numbered defined
  have fewNumbered := last.length_le.trans_lt few
  have numbered := first.keeps fewNumbered
    (run.settled imported (first.length_le.trans_lt fewNumbered))
  exact ⟨numbered, last.keeps few numbered⟩

/-! ### Copies -/

theorem nodup_firstNames (found : List (SymbolId × Name)) :
    ((Copy.firstNames found).map Prod.fst).Nodup := by
  rw [Copy.firstNames]
  have step (found names : List (SymbolId × Name)) (distinct : (names.map Prod.fst).Nodup) :
      ((found.foldl (fun names entry =>
        if (names.lookup entry.1).isSome then names else names ++ [entry]) names).map
          Prod.fst).Nodup := by
    induction found generalizing names with
    | nil => exact distinct
    | cons entry rest induction =>
        refine induction _ ?_
        dsimp only
        split
        · exact distinct
        · rename_i isNew
          rw [List.map_append, List.map_singleton, List.nodup_append]
          refine ⟨distinct, List.nodup_singleton _, fun id isOld other isEntry => ?_⟩
          rw [List.mem_singleton.mp isEntry]
          rintro rfl
          rw [Bool.not_eq_true, Option.isSome_eq_false_iff, Option.isNone_iff_eq_none,
            Assoc.lookup_eq_none] at isNew
          exact isNew isOld
  exact step found [] List.nodup_nil

theorem mem_firstNames {found : List (SymbolId × Name)} {entry : SymbolId × Name}
    (present : entry ∈ Copy.firstNames found) : entry ∈ found := by
  rw [Copy.firstNames] at present
  have step (found names : List (SymbolId × Name)) (present : entry ∈
      found.foldl (fun names entry =>
        if (names.lookup entry.1).isSome then names else names ++ [entry]) names) :
      entry ∈ names ∨ entry ∈ found := by
    induction found generalizing names with
    | nil => exact .inl present
    | cons first rest induction =>
        rcases induction _ present with isOld | inRest
        · dsimp only at isOld
          split at isOld
          · exact .inl isOld
          · rcases List.mem_append.mp isOld with isOld | isFirst
            · exact .inl isOld
            · rw [List.mem_singleton.mp isFirst]
              exact .inr List.mem_cons_self
        · exact .inr (List.mem_cons_of_mem _ inRest)
  exact (step found [] present).resolve_left List.not_mem_nil

variable {link : Link}

theorem nodup_copyRelocs : link.copyRelocs.Nodup := by
  rw [copyRelocs]
  split
  · exact List.nodup_nil
  · rw [copyRelocSymbols]
    exact ((sortBy_perm _ _).map Prod.fst).nodup_iff.mpr (nodup_firstNames _)

theorem import_of_copy {id : SymbolId} (isCopy : id ∈ link.copyRelocs) :
    ∃ name res, link.numbered.lookup name = some res ∧ res.isImport = true ∧
      res.id = id := by
  rw [copyRelocs] at isCopy
  split at isCopy
  · exact absurd isCopy List.not_mem_nil
  · rcases List.mem_map.mp isCopy with ⟨entry, isEntry, rfl⟩
    rcases List.mem_flatMap.mp (mem_firstNames (mem_sortBy.mp isEntry)) with
      ⟨obj, _, collected⟩
    rcases List.mem_filterMap.mp collected with ⟨reloc, _, isReloc⟩
    rw [Copy.relocCopy] at isReloc
    split at isReloc
    · rcases Option.bind_eq_some_iff.mp isReloc with ⟨sym, _, isSym⟩
      split at isSym
      · cases isSym
      · rcases Option.bind_eq_some_iff.mp isSym with ⟨res, found, isRes⟩
        split at isRes
        · rename_i isCopyable
          cases isRes
          rw [Copy.isCopyable, Bool.and_eq_true, Bool.and_eq_true, Bool.and_eq_true]
            at isCopyable
          exact ⟨sym.name, res, found, isCopyable.1.1.1, rfl⟩
        · cases isRes
    · cases isReloc

def AreImports (ids : List SymbolId) (table : SymbolTable) : Prop :=
  ∀ id ∈ ids, ∀ name, table.nameById id = some name →
    ∃ res, table.lookup name = some res ∧ res.isImport = true

theorem areImports_modify {ids : List SymbolId} {table : SymbolTable}
    (areImports : AreImports ids table) (name : Name)
    {change : SymbolResolution → SymbolResolution}
    (sameImport : ∀ entry, (change entry).isImport = entry.isImport) :
    AreImports ids (table.modify name change) := by
  intro id isId other named
  rw [nameById_modify] at named
  rcases areImports id isId other named with ⟨res, found, isImport⟩
  rw [lookup_modify, found]
  split
  · exact ⟨change res, rfl, (sameImport res).trans isImport⟩
  · exact ⟨res, rfl, isImport⟩

theorem areImports_defineAbsolute {ids : List SymbolId} {table : SymbolTable}
    (areImports : AreImports ids table) (name : Name) (value : UInt64) :
    AreImports ids (table.defineAbsolute name value) := by
  intro id isId other named
  rcases areImports id isId other named with ⟨res, found, isImport⟩
  rw [lookup_defineAbsolute]
  split
  · rename_i same
    subst same
    rw [found]
    exact ⟨_, rfl, isImport⟩
  · exact ⟨res, found, isImport⟩

theorem areImports_copyRelocs (settled : link.numbered.Settled) {symbols : SymbolTable}
    (defined : link.defined = some symbols) : AreImports link.copyRelocs symbols := by
  have numbered : AreImports link.copyRelocs link.numbered := by
    intro id isCopy name named
    rcases import_of_copy isCopy with ⟨other, res, found, isImport, isId⟩
    rcases settled.nameById_eq_some.mp named with ⟨entry, isEntry, isNamed, sameId⟩
    have alsoNamed : link.numbered.nameById id = some other := by
      refine settled.nameById_eq_some.mpr ⟨res, found, ?_, isId⟩
      rw [isId, ← sameId]
      exact isNamed
    rw [named, Option.some.injEq] at alsoNamed
    subst alsoNamed
    exact ⟨res, found, isImport⟩
  have folds {Item : Type} {step : SymbolTable → Item → SymbolTable}
      (keeps : ∀ table item, AreImports link.copyRelocs table →
        AreImports link.copyRelocs (step table item))
      (items : List Item) (table : SymbolTable)
      (start : AreImports link.copyRelocs table) :
      AreImports link.copyRelocs (items.foldl step table) := by
    induction items generalizing table with
    | nil => exact start
    | cons item rest induction => exact induction _ (keeps table item start)
  have copied : AreImports link.copyRelocs link.copied := by
    refine folds (fun table name areImports => ?_) _ _ numbered
    refine areImports_modify areImports name fun entry => ?_
    split <;> rfl
  have indexed : AreImports link.copyRelocs link.indexed := by
    refine folds (fun table entry areImports => ?_) _ _ copied
    exact areImports_modify areImports entry.1 fun _ => rfl
  have predefined : AreImports link.copyRelocs link.predefined :=
    @predefineLinkerSymbols_keeps (AreImports link.copyRelocs)
      (fun _ name areImports => areImports_defineAbsolute areImports name 0) _ indexed
  rcases Option.map_eq_some_iff.mp defined with ⟨definitions, -, rfl⟩
  refine folds (fun table definition areImports => ?_) _ _ predefined
  exact areImports_defineAbsolute areImports definition.1 definition.2

end Link

/-! ## What asks for storage -/

namespace LayoutInput

/-- The name asks for storage: it is defined tentatively, or imported and copied. -/
inductive Asks (input : LayoutInput) (name : Name) (size align : UInt64) : Prop where
  | common (res : SymbolResolution) (declared : UInt64)
      (found : input.symbols.lookup name = some res)
      (isCommon : res.common = some (size, declared)) (isAlign : align = max declared 1)
  | copied (id : SymbolId) (res : SymbolResolution) (isCopy : id ∈ input.copySyms)
      (named : input.symbols.nameById id = some name)
      (found : input.symbols.lookup name = some res) (isSize : size = max res.size 1)
      (isAlign : align = copyRelocAlign size)

variable {input : LayoutInput}

theorem mem_commonSyms {common : SymbolId × UInt64 × UInt64} :
    common ∈ input.commonSyms ↔ ∃ name res, input.symbols.lookup name = some res ∧
      res.common = some common.2 ∧ res.id = common.1 := by
  rw [commonSyms, mem_sortBy, List.mem_filterMap]
  constructor
  · rintro ⟨⟨name, res⟩, present, isCommon⟩
    rcases Option.map_eq_some_iff.mp isCommon with ⟨pair, isPair, rfl⟩
    exact ⟨name, res, lookup_of_mem present, isPair, rfl⟩
  · rintro ⟨name, res, found, isCommon, isId⟩
    refine ⟨⟨name, res⟩, AList.mem_lookup_iff.mp found, ?_⟩
    rw [isCommon, isId]
    rfl

theorem mem_copyDemands {demand : SymbolId × UInt64} :
    demand ∈ input.copyDemands ↔ demand.1 ∈ input.copySyms ∧ ∃ name res,
      input.symbols.nameById demand.1 = some name ∧ input.symbols.lookup name = some res ∧
        demand.2 = max res.size 1 := by
  rw [copyDemands, List.mem_filterMap]
  constructor
  · rintro ⟨id, isCopy, isDemand⟩
    rcases Option.map_eq_some_iff.mp isDemand with ⟨res, isSlot, rfl⟩
    rcases Option.bind_eq_some_iff.mp isSlot with ⟨name, named, found⟩
    exact ⟨isCopy, name, res, named, found, rfl⟩
  · rintro ⟨isCopy, name, res, named, found, isSize⟩
    refine ⟨demand.1, isCopy, ?_⟩
    rw [slotResolution, named, Option.bind_some, found, Option.map_some, ← isSize]

section Settled

variable (settled : input.symbols.Settled)

include settled

theorem asks_iff {name : Name} {size align : UInt64} :
    input.Asks name size align ↔ ∃ demand ∈ input.demands,
      input.symbols.nameById demand.id = some name ∧ demand.size = size ∧
        demand.align = align := by
  simp only [demands, List.mem_append, commonDemands, copiedDemands, List.mem_map]
  constructor
  · rintro (⟨res, declared, found, isCommon, rfl⟩ | ⟨id, res, isCopy, named, found, rfl, rfl⟩)
    · refine ⟨_, .inl ⟨(res.id, size, declared),
        mem_commonSyms.mpr ⟨name, res, found, isCommon, rfl⟩, rfl⟩, ?_, rfl, rfl⟩
      exact (settled.numbered name res found (by rw [isCommon]; rfl)).2
    · exact ⟨_, .inr ⟨(id, max res.size 1),
        mem_copyDemands.mpr ⟨isCopy, name, res, named, found, rfl⟩, rfl⟩, named, rfl, rfl⟩
  · rintro ⟨_, ⟨common, present, rfl⟩ | ⟨demand, present, rfl⟩, named, rfl, rfl⟩
    · rcases mem_commonSyms.mp present with ⟨own, res, found, isCommon, isId⟩
      have ownNamed := (settled.numbered own res found (by rw [isCommon]; rfl)).2
      rw [isId, named, Option.some.injEq] at ownNamed
      subst ownNamed
      exact .common res common.2.2 found isCommon rfl
    · rcases mem_copyDemands.mp present with ⟨isCopy, own, res, ownNamed, found, isSize⟩
      rw [named, Option.some.injEq] at ownNamed
      subst ownNamed
      exact .copied demand.1 res isCopy named found isSize rfl

theorem exists_demandName {demand : Demand} (present : demand ∈ input.demands) :
    ∃ name, input.symbols.nameById demand.id = some name := by
  rcases List.mem_append.mp present with isCommon | isCopy
  · rcases List.mem_map.mp isCommon with ⟨common, among, rfl⟩
    rcases mem_commonSyms.mp among with ⟨name, res, found, commons, isId⟩
    have named := (settled.numbered name res found (by rw [commons]; rfl)).2
    rw [isId] at named
    exact ⟨name, named⟩
  · rcases List.mem_map.mp isCopy with ⟨copied, among, rfl⟩
    rcases (mem_copyDemands.mp among).2 with ⟨name, _, named, _⟩
    exact ⟨name, named⟩

/-- Different tentative definitions have different names. -/
theorem nodup_commonNames :
    (input.commonDemands.map fun demand => input.symbols.nameById demand.id).Nodup := by
  have named (entries : List SymbolTable.Entry)
      (each : ∀ entry ∈ entries, entry ∈ input.symbols.resolutions.entries) :
      ((entries.filterMap fun entry => entry.2.common.map fun common =>
        (entry.2.id, common.1, common.2)).map fun common =>
          input.symbols.nameById common.1).Sublist (entries.map fun entry =>
            some entry.1) := by
    induction entries with
    | nil => exact .slnil
    | cons entry rest induction =>
        have next := induction fun other isOther =>
          each other (List.mem_cons_of_mem _ isOther)
        rw [List.filterMap_cons, List.map_cons]
        cases isCommon : entry.2.common with
        | none => exact next.cons _
        | some common =>
            have isName := (settled.numbered entry.1 entry.2
              (lookup_of_mem (each entry List.mem_cons_self)) (by rw [isCommon]; rfl)).2
            rw [Option.map_some, List.map_cons, isName]
            exact next.cons_cons _
  have keys : (input.symbols.resolutions.entries.map fun entry =>
      some entry.1).Nodup := by
    have distinct : input.symbols.resolutions.entries.keys.Nodup :=
      input.symbols.resolutions.nodupKeys
    have mapped := distinct.map (Option.some_injective Name)
    rwa [List.keys, List.map_map] at mapped
  have unsorted := (named _ fun _ => id).nodup keys
  rw [commonDemands, List.map_map]
  refine (((sortBy_perm _ _).map _).nodup_iff).mpr ?_
  exact unsorted

theorem nodup_copiedNames (distinct : input.copySyms.Nodup) :
    (input.copiedDemands.map fun demand => input.symbols.nameById demand.id).Nodup := by
  have sublist (ids : List SymbolId) :
      ((ids.filterMap fun id => (input.slotResolution id).map fun res =>
        (id, max res.size 1)).map Prod.fst).Sublist ids := by
    induction ids with
    | nil => exact .slnil
    | cons id rest induction =>
        rw [List.filterMap_cons]
        cases input.slotResolution id with
        | none => exact induction.cons _
        | some res => exact induction.cons_cons _
  have ids : (input.copyDemands.map Prod.fst).Nodup := (sublist _).nodup distinct
  have names := ids.map_on (f := input.symbols.nameById) ?_
  · rw [List.map_map] at names
    rw [copiedDemands, List.map_map]
    exact names
  · intro first isFirst second isSecond same
    rcases List.mem_map.mp isFirst with ⟨demand, present, rfl⟩
    rcases (mem_copyDemands.mp present).2 with ⟨name, _, named, _⟩
    rw [named] at same
    rcases settled.nameById_eq_some.mp named with ⟨res, found, _, isId⟩
    rcases settled.nameById_eq_some.mp same.symm with ⟨other, isOther, _, otherId⟩
    rw [found, Option.some.injEq] at isOther
    rw [← isId, ← otherId, isOther]

theorem nodup_names (distinct : input.copySyms.Nodup)
    (areImports : Link.AreImports input.copySyms input.symbols) :
    (input.demands.map fun demand => input.symbols.nameById demand.id).Nodup := by
  rw [demands, List.map_append, List.nodup_append]
  refine ⟨nodup_commonNames settled, nodup_copiedNames settled distinct, ?_⟩
  intro name isCommon other isCopy
  rintro rfl
  rcases List.mem_map.mp isCommon with ⟨_, isDemand, rfl⟩
  rcases List.mem_map.mp isDemand with ⟨common, present, rfl⟩
  rcases mem_commonSyms.mp present with ⟨own, res, found, commons, isId⟩
  have isSome : res.common.isSome = true := by rw [commons]; rfl
  have named := (settled.numbered own res found isSome).2
  rcases List.mem_map.mp isCopy with ⟨_, isDemandToo, same⟩
  rcases List.mem_map.mp isDemandToo with ⟨demand, presentToo, rfl⟩
  dsimp only at same
  rw [← isId, named] at same
  rcases areImports demand.1 (mem_copyDemands.mp presentToo).1 own same with
    ⟨entry, isEntry, isImport⟩
  rw [found, Option.some.injEq] at isEntry
  subst isEntry
  rw [settled.plain own res found isSome] at isImport
  cases isImport

end Settled

end LayoutInput

/-! ## Finished addresses -/

namespace SymbolTable

theorem nameById_modifyAll (table : SymbolTable)
    (change : SymbolResolution → SymbolResolution) (id : SymbolId) :
    (table.modifyAll change).nameById id = table.nameById id := by
  rw [modifyAll]
  induction table.resolutions.keys generalizing table with
  | nil => rfl
  | cons name rest induction => rw [List.foldl_cons, induction, nameById_modify]

theorem nameById_modifyById (table : SymbolTable) (updates : List (SymbolId × UInt64))
    (change : UInt64 → SymbolResolution → SymbolResolution) (id : SymbolId) :
    (table.modifyById updates change).nameById id = table.nameById id := by
  rw [modifyById]
  induction updates generalizing table with
  | nil => rfl
  | cons update rest induction =>
      rw [List.foldl_cons, induction]
      split
      · exact nameById_modify _ _ _ _
      · rfl

theorem updatesOf_congr {table other : SymbolTable}
    (same : ∀ id, table.nameById id = other.nameById id)
    (updates : List (SymbolId × UInt64)) (name : Name) :
    table.updatesOf updates name = other.updatesOf updates name := by
  simp only [updatesOf, same]

theorem foldl_address (addresses : List UInt64) (entry : SymbolResolution) :
    (addresses.foldl (fun entry address => { entry with virtualAddress := address })
        entry).virtualAddress = addresses.getLast?.getD entry.virtualAddress := by
  induction addresses using List.reverseRecOn with
  | nil => rfl
  | append_singleton rest address _ =>
      rw [List.foldl_append, List.getLast?_append, List.getLast?_singleton]
      rfl

theorem virtualAddress_finalizeSymbols (symbols : SymbolTable) (layout : Layout)
    (name : Name) :
    (finalizeSymbols symbols layout).seen SymbolResolution.virtualAddress name =
      (symbols.lookup name).map fun entry =>
        (symbols.updatesOf (layout.common ++ layout.copyRelocs) name).getLast?.getD
          (placedAddress layout entry).virtualAddress := by
  rw [finalizeSymbols, seen_modifyById, seen_modifyById, seen, lookup_modifyById,
    lookup_modifyById, lookup_modifyAll, Option.map_map, Option.map_map, Option.map_map]
  · refine congrFun (congrArg Option.map (funext fun entry => ?_)) (symbols.lookup name)
    simp only [Function.comp_apply, foldl_address]
    rw [updatesOf_congr (fun id => (nameById_modifyById _ _ _ id).trans
        (nameById_modifyAll symbols _ id)),
      updatesOf_congr (fun id => nameById_modifyAll symbols _ id)]
    simp only [updatesOf, List.filter_append, List.map_append, List.getLast?_append]
    cases (List.map Prod.snd (layout.copyRelocs.filter fun update =>
      decide (symbols.nameById update.1 = some name))).getLast? <;> rfl
  · exact fun _ _ => rfl
  · exact fun _ _ => rfl

end SymbolTable

/-! ## Sound storage -/

def SymbolResolution.storage (res : SymbolResolution) (size : UInt64) : Span where
  start := res.virtualAddress.toNat
  size := size.toNat

structure StorageSound (input : LayoutInput) (layout : Layout) (final : SymbolTable) :
    Prop where
  known : ∀ name size align, input.Asks name size align →
    (final.lookup name).isSome = true
  aligned : ∀ name size align, input.Asks name size align →
    ∀ res, final.lookup name = some res → align.toNat ∣ res.virtualAddress.toNat
  inside : ∀ name size align, input.Asks name size align →
    ∀ res, final.lookup name = some res →
      ∃ s ∈ layout.outputSections, s.isLoaded = true ∧ s.name = nameOf ".bss" ∧
        s.memory.Contains (res.storage size)
  apart : ∀ name size align, input.Asks name size align →
    ∀ other otherSize otherAlign, input.Asks other otherSize otherAlign → name ≠ other →
      ∀ res, final.lookup name = some res → ∀ otherRes, final.lookup other = some otherRes →
        (res.storage size).Apart (otherRes.storage otherSize)
  contributions : ∀ name size align, input.Asks name size align →
    ∀ res, final.lookup name = some res → ∀ s ∈ layout.outputSections, s.isLoaded = true →
      ∀ c ∈ s.contributions,
        (res.storage size).Apart ⟨(s.shAddr + c.offset).toNat, c.size.toNat⟩

theorem filter_eq_singleton {Item Key : Type} [DecidableEq Key] {key : Item → Key}
    {items : List Item} (distinct : (items.map key).Nodup) {item : Item}
    (present : item ∈ items) : items.filter (fun other => key other = key item) = [item] := by
  induction items with
  | nil => exact absurd present List.not_mem_nil
  | cons first rest induction =>
      rw [List.map_cons, List.nodup_cons] at distinct
      rw [List.filter_cons]
      rcases List.mem_cons.mp present with rfl | inRest
      · rw [if_pos (decide_eq_true rfl), List.filter_eq_nil_iff.mpr]
        intro other isOther same
        rw [decide_eq_true_eq] at same
        exact distinct.1 (same ▸ List.mem_map_of_mem isOther)
      · rw [if_neg, induction distinct.2 inRest]
        rw [decide_eq_true_eq]
        intro same
        exact distinct.1 (same ▸ List.mem_map_of_mem inRest)

namespace Link

section Stored

variable {link : Link} {symbols : SymbolTable} {layout : Layout}

theorem copySyms_layoutInput :
    (link.layoutInput symbols).copySyms = [] ∨
      (link.layoutInput symbols).copySyms = link.copyRelocs := by
  rw [LayoutInput.copySyms, layoutInput, dynamic]
  split
  · exact .inr rfl
  · exact .inl rfl

theorem names_layoutInput (numbered : link.numbered.Settled) (settled : symbols.Settled)
    (defined : link.defined = some symbols) :
    ((link.layoutInput symbols).demands.map fun demand =>
      symbols.nameById demand.id).Nodup := by
  have areImports := areImports_copyRelocs numbered defined
  refine @LayoutInput.nodup_names (link.layoutInput symbols) settled ?_ ?_
  · rcases @copySyms_layoutInput link symbols with none | some
    · rw [none]
      exact List.nodup_nil
    · rw [some]
      exact nodup_copyRelocs
  · rcases @copySyms_layoutInput link symbols with none | some
    · rw [none]
      exact fun _ impossible => absurd impossible List.not_mem_nil
    · rw [some]
      exact areImports

theorem setLinkerAddresses_known (provided : List ProvidedSymbol) (table : SymbolTable)
    (layout : Layout) (name : Name) :
    ((setLinkerAddresses table layout provided).lookup name).isSome =
        (table.lookup name).isSome ∧
      ∀ id, (setLinkerAddresses table layout provided).nameById id = table.nameById id := by
  rw [setLinkerAddresses]
  induction provided generalizing table with
  | nil => exact ⟨rfl, fun _ => rfl⟩
  | cons sym rest induction =>
      rw [List.foldl_cons]
      have next := induction (table.modify sym.name fun entry =>
        { entry with value := sym.address layout, virtualAddress := sym.address layout })
      refine ⟨next.1.trans ?_, fun id => (next.2 id).trans (nameById_modify _ _ _ _)⟩
      rw [lookup_modify]
      split
      · exact Option.isSome_map
      · rfl

variable (settled : symbols.Settled)
variable (names : ((link.layoutInput symbols).demands.map fun demand =>
  symbols.nameById demand.id).Nodup)
variable (computed : LayoutInput.Computed (link.layoutInput symbols) layout)

include settled names computed

theorem exists_place_of_asks {name : Name} {size align : UInt64}
    (asks : (link.layoutInput symbols).Asks name size align) :
    ∃ place ∈ (link.layoutInput symbols).places,
      symbols.nameById place.1.id = some name ∧ place.1.size = size ∧
        place.1.align = align ∧
        (link.finalized symbols layout).seen SymbolResolution.virtualAddress name =
          some (commonBase layout.outputSections + place.2) := by
  rcases (@LayoutInput.asks_iff (link.layoutInput symbols) settled _ _ _).mp asks with
    ⟨demand, isDemand, named, isSize, isAlign⟩
  rcases Demand.exists_place isDemand 0 with ⟨offset, isPlace⟩
  refine ⟨(demand, offset), isPlace, named, isSize, isAlign, ?_⟩
  have distinct : ((link.layoutInput symbols).places.map fun place =>
      symbols.nameById place.1.id).Nodup := by
    rw [← Demand.map_places 0 (link.layoutInput symbols).demands, List.map_map] at names
    exact names
  have known : (symbols.lookup name).isSome = true := by
    rcases settled.nameById_eq_some.mp named with ⟨res, found, _⟩
    rw [found]
    rfl
  have kept := setLinkerAddresses_known link.provided symbols layout name
  rw [finalized, virtualAddress_finalizeSymbols, updatesOf_congr kept.2, updatesOf,
    LayoutInput.recorded_eq computed, List.filter_map]
  have one := filter_eq_singleton distinct isPlace
  dsimp only at one
  rw [show symbols.nameById demand.id = some name from named] at one
  rw [← kept.1, Option.isSome_iff_exists] at known
  rcases known with ⟨entry, found⟩
  rw [found, Option.map_some, Option.some.injEq]
  have same : (link.layoutInput symbols).places.filter ((fun update : SymbolId × UInt64 =>
      decide (symbols.nameById update.1 = some name)) ∘ fun place : Demand × UInt64 =>
        (place.1.id, commonBase layout.outputSections + place.2)) = [(demand, offset)] := one
  rw [same]
  rfl

theorem exists_place_of_entry {name : Name} {size align : UInt64}
    (asks : (link.layoutInput symbols).Asks name size align) {res : SymbolResolution}
    (found : (link.finalized symbols layout).lookup name = some res) :
    ∃ place ∈ (link.layoutInput symbols).places,
      symbols.nameById place.1.id = some name ∧ place.1.size = size ∧
        place.1.align = align ∧
        res.virtualAddress = commonBase layout.outputSections + place.2 := by
  rcases exists_place_of_asks settled names computed asks with
    ⟨place, isPlace, named, isSize, isAlign, address⟩
  rw [SymbolTable.seen, found, Option.map_some, Option.some.injEq] at address
  exact ⟨place, isPlace, named, isSize, isAlign, address⟩

end Stored

section Sound

variable {link : Link} {symbols : SymbolTable} {layout : Layout}
variable (settled : symbols.Settled)
variable (names : ((link.layoutInput symbols).demands.map fun demand =>
  symbols.nameById demand.id).Nodup)
variable (computed : LayoutInput.Computed (link.layoutInput symbols) layout)
variable (noWrap : (link.layoutInput symbols).NoWrap computed.pre)
variable (fits : Cursor.Fits 0 (link.layoutInput symbols).bssSlots)

include settled names computed noWrap fits

theorem storage_eq {s : OutputSection}
    (isStorage : LayoutInput.IsStorage (link.layoutInput symbols) layout s) {name : Name}
    {size align : UInt64} (asks : (link.layoutInput symbols).Asks name size align)
    {res : SymbolResolution}
    (found : (link.finalized symbols layout).lookup name = some res) :
    ∃ place ∈ (link.layoutInput symbols).places,
      symbols.nameById place.1.id = some name ∧ place.1.align = align ∧
        res.virtualAddress = s.shAddr + place.2 ∧
        res.storage size = Demand.range s.shAddr place := by
  rcases exists_place_of_entry settled names computed asks found with
    ⟨place, isPlace, named, isSize, isAlign, address⟩
  rw [isStorage.base] at address
  refine ⟨place, isPlace, named, isAlign, address, ?_⟩
  rw [SymbolResolution.storage, address,
    isStorage.toNat_address computed noWrap fits isPlace, ← isSize]
  rfl

theorem storageSound_of_isStorage (powers : (link.layoutInput symbols).CommonsAligned)
    (room : ∀ name size align, (link.layoutInput symbols).Asks name size align →
      ∃ s, LayoutInput.IsStorage (link.layoutInput symbols) layout s) :
    StorageSound (link.layoutInput symbols) layout (link.finalized symbols layout) where
  known name size align asks := by
    rcases exists_place_of_asks settled names computed asks with ⟨_, _, _, _, _, address⟩
    rcases Option.map_eq_some_iff.mp address with ⟨res, found, _⟩
    rw [found]
    rfl
  aligned name size align asks res found := by
    rcases room name size align asks with ⟨s, isStorage⟩
    rcases storage_eq settled names computed noWrap fits isStorage asks found with
      ⟨place, isPlace, _, rfl, address, _⟩
    rw [address]
    exact isStorage.dvd_address powers isPlace
  inside name size align asks res found := by
    rcases room name size align asks with ⟨s, isStorage⟩
    rcases storage_eq settled names computed noWrap fits isStorage asks found with
      ⟨place, isPlace, _, _, _, range⟩
    rw [range]
    exact ⟨s, isStorage.present, isStorage.isLoaded, isStorage.name,
      isStorage.contains fits isPlace⟩
  apart name size align asks other otherSize otherAlign asksToo different res found otherRes
      foundToo := by
    rcases room name size align asks with ⟨s, isStorage⟩
    rcases storage_eq settled names computed noWrap fits isStorage asks found with
      ⟨place, isPlace, named, _, _, range⟩
    rcases storage_eq settled names computed noWrap fits isStorage asksToo foundToo with
      ⟨second, isSecond, namedToo, _, _, rangeToo⟩
    rw [range, rangeToo]
    refine Pairwise.either (LayoutInput.IsStorage.apart fits) isPlace
      isSecond ?_
    rintro rfl
    rw [named, Option.some.injEq] at namedToo
    exact different namedToo
  contributions name size align asks res found other isOther isLoaded c among := by
    rcases room name size align asks with ⟨s, isStorage⟩
    rcases storage_eq settled names computed noWrap fits isStorage asks found with
      ⟨place, isPlace, _, _, _, range⟩
    rw [range]
    exact isStorage.apart_contribution computed noWrap fits isPlace isOther isLoaded among

theorem not_sound_of_empty
    (empty : (link.layoutInput symbols).copySpace.size.toNat = 0) {name : Name}
    {size align : UInt64} (asks : (link.layoutInput symbols).Asks name size align) :
    ¬ StorageSound (link.layoutInput symbols) layout (link.finalized symbols layout) := by
  intro sound
  rcases Option.isSome_iff_exists.mp (sound.known name size align asks) with ⟨res, found⟩
  rcases exists_place_of_entry settled names computed asks found with
    ⟨place, isPlace, _, _, _, address⟩
  have within := LayoutInput.place_within fits isPlace
  have offset : place.2 = 0 := UInt64.toNat_inj.mp (by
    change place.2.toNat = 0
    omega)
  rw [LayoutInput.commonBase_of_empty computed noWrap empty, offset] at address
  rcases sound.inside name size align asks res found with
    ⟨s, present, isLoaded, _, contains⟩
  have above := LayoutInput.pos_of_isLoaded computed noWrap present isLoaded
  have below : s.shAddr.toNat ≤ res.virtualAddress.toNat := contains.1
  rw [address] at below
  change s.shAddr.toNat ≤ 0 at below
  omega

end Sound

/-- Given that alignments are powers of two and sums do not wrap, the storage of
tentative definitions and copied imports is sound unless there are only empty ones. -/
theorem storageSound_iff {run : TableRun} {link : Link} {symbols : SymbolTable}
    {layout : Layout} (imported : run.imported = .ok link.symbols)
    (defined : link.defined = some symbols) (few : symbols.names.length < 2 ^ 32)
    (powers : (link.layoutInput symbols).CommonsAligned)
    (fits : Cursor.exact 0 (link.layoutInput symbols).bssSlots < 2 ^ 64)
    (noWrap : ∀ pre, (link.layoutInput symbols).prebuildDynamic = .ok pre →
      (link.layoutInput symbols).NoWrap pre)
    (succeeded : (link.layoutInput symbols).computeLayoutIcf = .ok layout) :
    StorageSound (link.layoutInput symbols) layout (link.finalized symbols layout) ↔
      ∀ name size align, (link.layoutInput symbols).Asks name size align →
        ∃ other otherSize otherAlign,
          (link.layoutInput symbols).Asks other otherSize otherAlign ∧ otherSize ≠ 0 := by
  rcases settled_of_run imported defined few with ⟨numbered, settled⟩
  rcases LayoutInput.computed_of_ok succeeded with ⟨computed⟩
  have names := names_layoutInput numbered settled defined
  have words := noWrap computed.pre computed.prebuilt
  have slots : Cursor.Fits 0 (link.layoutInput symbols).bssSlots := by
    refine (Cursor.fits_iff ?_).mpr fits
    intro slot present
    rw [← LayoutInput.slots_demands] at present
    rcases List.mem_map.mp present with ⟨demand, isDemand, rfl⟩
    exact slotOf_isAligned (LayoutInput.power_of_demand powers isDemand) _
  have sized : (∃ demand ∈ (link.layoutInput symbols).demands, demand.size ≠ 0) →
      ∃ other size align, (link.layoutInput symbols).Asks other size align ∧ size ≠ 0 := by
    rintro ⟨demand, isDemand, nonzero⟩
    rcases @LayoutInput.exists_demandName (link.layoutInput symbols) settled _ isDemand with
      ⟨name, named⟩
    exact ⟨name, demand.size, demand.align,
      (@LayoutInput.asks_iff (link.layoutInput symbols) settled _ _ _).mpr
        ⟨demand, isDemand, named, rfl, rfl⟩, nonzero⟩
  constructor
  · intro sound name size align asks
    rcases Nat.eq_zero_or_pos (link.layoutInput symbols).copySpace.size.toNat with
      empty | positive
    · exact absurd sound
        (not_sound_of_empty settled names computed words slots empty asks)
    · exact sized ((LayoutInput.copySpace_pos_iff slots).mp positive)
  · intro room
    refine storageSound_of_isStorage settled names computed words slots powers
      fun name size align asks => ?_
    rcases room name size align asks with ⟨other, otherSize, otherAlign, asksToo, nonzero⟩
    rcases (@LayoutInput.asks_iff (link.layoutInput symbols) settled _ _ _).mp asksToo with
      ⟨demand, isDemand, _, rfl, _⟩
    exact LayoutInput.exists_storage computed words
      ((LayoutInput.copySpace_pos_iff slots).mpr ⟨demand, isDemand, nonzero⟩)

/-! An object with two tentative definitions: one of a byte, and one with a size and an
alignment. -/

private def commonSymbol (index : Nat) (name : String) (size align : UInt64) :
    InputSymbol where
  index := index
  name := nameOf name
  binding := .global
  isUndefined := false
  isCommon := true
  isIfunc := false
  stType := sttObject
  visibility := 0
  sectionIndex := none
  value := align
  size := size

private def commonText : InputSection where
  index := 1
  name := nameOf ".text"
  kind := .text
  shType := shtProgbits
  data := .empty
  align := 16
  size := 16
  flags := shfAlloc ||| shfExecinstr
  relocs := []

private def commonStart : InputSymbol :=
  ⟨1, nameOf "_start", .global, false, false, false, 2, 0, some 1, 0, 16⟩

private def commonObject (first size align : UInt64) : InputObject :=
  .assemble "common.o" 2 4 [commonText]
    [commonStart, commonSymbol 2 "flag" first 1, commonSymbol 3 "value" size align] []

private def commonRun (first size align : UInt64) : TableRun where
  resolving := [.addObject "common.o",
    .processObjectExcluding 0 (commonObject first size align) []]
  libraries := []
  ensured := []
  late := []

private def commonTable (first size align : UInt64) : SymbolTable :=
  match (commonRun first size align).imported with
  | .ok table => table
  | .error _ => SymbolTable.new

private def commonLink (first size align : UInt64) : Link where
  args := {}
  baseAddress := 0x400000
  arena := InputArena.empty
  objects := [commonObject first size align]
  symbols := commonTable first size align

private def commonInput (first size align : UInt64) : LayoutInput :=
  (commonLink first size align).layoutInput (commonTable first size align)

private theorem imported_common {first size align : UInt64}
    (succeeds : (commonRun first size align).imported.toOption.isSome = true) :
    (commonRun first size align).imported = .ok (commonLink first size align).symbols := by
  change _ = Except.ok (commonTable first size align)
  rw [commonTable]
  cases imported : (commonRun first size align).imported with
  | ok table => rfl
  | error failure =>
      rw [imported] at succeeds
      exact nomatch succeeds

theorem storageSound_value :
    ∃ layout, (commonInput 1 8 8).computeLayoutIcf = .ok layout ∧
      StorageSound (commonInput 1 8 8) layout
        ((commonLink 1 8 8).finalized (commonTable 1 8 8) layout) := by
  rcases @LayoutInput.exists_layout (commonInput 1 8 8) (by decide +kernel) with ⟨layout, computed⟩
  refine ⟨layout, computed, (storageSound_iff (imported_common (by decide +kernel)) rfl
    (by decide +kernel) ?_ (by decide +kernel) ?_ computed).mpr ?_⟩
  · have each : ((commonInput 1 8 8).commonSyms.all fun common =>
        max common.2.2 1 == 1 || max common.2.2 1 == 8) = true := by decide +kernel
    intro common present
    rcases Bool.or_eq_true_iff.mp (List.all_eq_true.mp each common present) with
      isOne | isEight
    · exact ⟨0, by rw [beq_iff_eq.mp isOne]; rfl⟩
    · exact ⟨3, by rw [beq_iff_eq.mp isEight]; rfl⟩
  · intro pre prebuilt
    have isPre : pre = {} := (Except.ok.inj prebuilt).symm
    subst isPre
    exact LayoutInput.noWrap_of_checked (by decide +kernel)
  · intro _ _ _ _
    have isCommon : ((commonInput 1 8 8).symbols.lookup (nameOf "value")).bind
        SymbolResolution.common = some (8, 8) := by decide +kernel
    rcases Option.bind_eq_some_iff.mp isCommon with ⟨res, found, pair⟩
    exact ⟨nameOf "value", 8, 8, .common res 8 found pair (by decide), by decide⟩

/-- The second definition lies a byte behind a multiple of its alignment. -/
theorem oddValue_not_storageSound :
    ∃ layout, (commonRun 1 1 3).imported = .ok (commonLink 1 1 3).symbols ∧
      (commonLink 1 1 3).defined = some (commonTable 1 1 3) ∧
      (commonInput 1 1 3).computeLayoutIcf = .ok layout ∧
      ¬ StorageSound (commonInput 1 1 3) layout
        ((commonLink 1 1 3).finalized (commonTable 1 1 3) layout) := by
  rcases @LayoutInput.exists_layout (commonInput 1 1 3) (by decide +kernel) with
    ⟨layout, computed⟩
  refine ⟨layout, imported_common (by decide +kernel), rfl, computed, fun sound => ?_⟩
  have isCommon : ((commonInput 1 1 3).symbols.lookup (nameOf "value")).bind
      SymbolResolution.common = some (1, 3) := by decide +kernel
  rcases Option.bind_eq_some_iff.mp isCommon with ⟨entry, isEntry, pair⟩
  have misplaced : (commonInput 1 1 3).computeLayoutIcf.toOption.any (fun layout =>
      ((commonLink 1 1 3).finalized (commonTable 1 1 3) layout).lookup (nameOf "value")
        |>.any fun res => res.virtualAddress.toNat % 3 != 0) = true := by
    decide +kernel
  rw [computed] at misplaced
  have isOdd : (((commonLink 1 1 3).finalized (commonTable 1 1 3) layout).lookup
      (nameOf "value")).any (fun res => res.virtualAddress.toNat % 3 != 0) = true := misplaced
  rcases (Option.any_eq_true _ _).mp isOdd with ⟨res, found, odd⟩
  have aligned := sound.aligned (nameOf "value") 1 3
    (.common entry 3 isEntry pair (by decide)) res found
  rw [bne_iff_ne] at odd
  exact odd (Nat.mod_eq_zero_of_dvd aligned)

end Link

end Peony
