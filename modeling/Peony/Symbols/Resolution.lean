import Peony.Foundation.KeyedRun
import Peony.Symbols.Slots

namespace Peony

/-! Merging objects into the table is, name by name, a run of slots; what the
table records is therefore the precedence outcome, up to two fields. -/

/-! ## From the table to slots -/

/-- The fields of an entry that precedence is about. -/
def SymbolResolution.outcome (entry : SymbolResolution) : Outcome where
  definedIn := entry.definedIn
  sectionIndex := entry.sectionIndex
  value := entry.value
  size := entry.size
  binding := entry.binding
  visibility := entry.visibility
  stType := entry.stType
  isIfunc := entry.isIfunc
  common := entry.common
  isImport := entry.isImport

def EntryInSlot (entry : Option SymbolResolution) (slot : Slot) : Prop :=
  entry.map SymbolResolution.outcome = slot.outcome

def SymbolTable.mergeContribution
    (table : SymbolTable) (contribution : Contribution) :
    Except SymbolError SymbolTable :=
  table.mergeSymbol contribution.object contribution.symbol

namespace SymbolTable

theorem lookup_mergeSymbol_of_ne {table next : SymbolTable}
    {objId : ObjectId} {sym : InputSymbol} {other : Name}
    (merged : table.mergeSymbol objId sym = .ok next)
    (different : other ≠ sym.name) :
    next.lookup other = table.lookup other := by
  have put : ∀ (base : SymbolTable) (resolution : SymbolResolution),
      (base.put sym.name resolution).lookup other = base.lookup other :=
    fun base resolution => base.lookup_put_of_ne resolution different
  unfold mergeSymbol at merged
  split at merged
  · cases merged
    unfold mergeUndefined
    split
    · split
      · rfl
      · split
        · rw [put]
        · rfl
    · rw [put]
  · split at merged
    · cases merged
      unfold mergeCommon
      split
      · split
        · rfl
        · rw [put]
        · rw [put, lookup_pushName]
      · rw [put, lookup_pushName]
    · unfold mergeDefined at merged
      split at merged
      · split at merged
        · cases merged
          rw [put]
        · next entry _ _ =>
            cases decided : conflictAction entry objId sym
                table.objectPaths with
            | error error =>
                simp [decided, bind, Except.bind] at merged
            | ok action =>
                rw [decided] at merged
                cases action <;> cases merged <;> simp [put]
      · cases merged
        rw [put, lookup_pushName]

end SymbolTable

section Refinement

variable {table next : SymbolTable} {contribution : Contribution} {slot : Slot}

open SymbolTable

private theorem entry_absent
    (inSlot : EntryInSlot (table.lookup contribution.name) .absent) :
    table.lookup contribution.symbol.name = none := by
  simpa [EntryInSlot, Slot.outcome, Contribution.name] using inSlot

private theorem entry_present {outcome : Outcome}
    (present : slot.outcome = some outcome)
    (inSlot : EntryInSlot (table.lookup contribution.name) slot) :
    ∃ entry, table.lookup contribution.symbol.name = some entry ∧
      entry.outcome = outcome := by
  rw [EntryInSlot, present, Option.map_eq_some_iff] at inSlot
  exact inSlot

theorem mergeUndefined_inSlot
    (inSlot : EntryInSlot (table.lookup contribution.name) slot) :
    EntryInSlot
      ((table.mergeUndefined contribution.symbol).lookup contribution.name)
      (slot.mergeReference contribution) := by
  cases slot with
  | absent =>
      have missing := entry_absent inSlot
      simp [EntryInSlot, Slot.outcome, Slot.mergeReference, mergeUndefined,
        missing, Contribution.name, SymbolResolution.outcome,
        Precedence.undefinedOutcome,
        SymbolResolution.makeUndefinedResolution]
  | undefined binding =>
      obtain ⟨entry, found, fields⟩ := entry_present rfl inSlot
      simp only [Precedence.undefinedOutcome, SymbolResolution.outcome,
        Outcome.mk.injEq] at fields
      by_cases strong : contribution.symbol.binding = .global
      · simp [EntryInSlot, Slot.outcome, Slot.mergeReference, mergeUndefined,
          found, fields, strong, Contribution.strong, Contribution.name,
          SymbolResolution.outcome, Precedence.undefinedOutcome]
      · simp [EntryInSlot, Slot.outcome, Slot.mergeReference, mergeUndefined,
          found, fields, strong, Contribution.strong, Contribution.name,
          SymbolResolution.outcome, Precedence.undefinedOutcome]
  | tentative first size align =>
      obtain ⟨entry, found, fields⟩ := entry_present rfl inSlot
      have defined : entry.definedIn = some first.object :=
        congrArg Outcome.definedIn fields
      simpa [mergeUndefined, found, defined, Slot.mergeReference] using inSlot
  | definite holder replaces =>
      obtain ⟨entry, found, fields⟩ := entry_present rfl inSlot
      have defined : entry.definedIn = some holder.object :=
        congrArg Outcome.definedIn fields
      simpa [mergeUndefined, found, defined, Slot.mergeReference] using inSlot

theorem mergeCommon_inSlot
    (inSlot : EntryInSlot (table.lookup contribution.name) slot) :
    EntryInSlot
      ((table.mergeCommon contribution.object contribution.symbol).lookup
        contribution.name)
      (slot.mergeTentative contribution) := by
  cases slot with
  | absent =>
      have missing := entry_absent inSlot
      simp [EntryInSlot, Slot.outcome, Slot.mergeTentative, mergeCommon,
        missing, Contribution.name, Contribution.align,
        SymbolResolution.outcome, Precedence.tentativeOutcome,
        SymbolResolution.makeUndefinedResolution]
  | undefined binding =>
      obtain ⟨entry, found, fields⟩ := entry_present rfl inSlot
      simp only [Precedence.undefinedOutcome, SymbolResolution.outcome,
        Outcome.mk.injEq] at fields
      simp [EntryInSlot, Slot.outcome, Slot.mergeTentative, mergeCommon,
        found, fields, Contribution.name, Contribution.align,
        SymbolResolution.outcome, Precedence.tentativeOutcome]
  | tentative first size align =>
      obtain ⟨entry, found, fields⟩ := entry_present rfl inSlot
      simp only [Precedence.tentativeOutcome, SymbolResolution.outcome,
        Outcome.mk.injEq] at fields
      simp [EntryInSlot, Slot.outcome, Slot.mergeTentative, mergeCommon,
        found, fields, Contribution.name, Contribution.align,
        SymbolResolution.outcome, Precedence.tentativeOutcome]
  | definite holder replaces =>
      obtain ⟨entry, found, fields⟩ := entry_present rfl inSlot
      have defined : entry.definedIn = some holder.object :=
        congrArg Outcome.definedIn fields
      have noCommon : entry.common = none := congrArg Outcome.common fields
      simpa [mergeCommon, found, defined, noCommon, Slot.mergeTentative]
        using inSlot

theorem mergeDefined_inSlot
    (inSlot : EntryInSlot (table.lookup contribution.name) slot) :
    match table.mergeDefined contribution.object contribution.symbol,
        slot.mergeReal contribution with
    | .ok next, some slot' =>
        EntryInSlot (next.lookup contribution.name) slot'
    | .error _, none => True
    | _, _ => False := by
  cases slot with
  | absent =>
      have missing := entry_absent inSlot
      simp [EntryInSlot, Slot.outcome, Slot.mergeReal, mergeDefined,
        missing, Contribution.name, SymbolResolution.outcome,
        Precedence.realOutcome, SymbolResolution.makeUndefinedResolution]
  | undefined binding =>
      obtain ⟨entry, found, fields⟩ := entry_present rfl inSlot
      simp only [Precedence.undefinedOutcome, SymbolResolution.outcome,
        Outcome.mk.injEq] at fields
      simp [EntryInSlot, Slot.outcome, Slot.mergeReal, mergeDefined,
        conflictAction, found, fields, Contribution.name,
        SymbolResolution.outcome, Precedence.realOutcome, bind, Except.bind,
        pure, Except.pure]
  | tentative first size align =>
      obtain ⟨entry, found, fields⟩ := entry_present rfl inSlot
      simp only [Precedence.tentativeOutcome, SymbolResolution.outcome,
        Outcome.mk.injEq] at fields
      simp [EntryInSlot, Slot.outcome, Slot.mergeReal, mergeDefined,
        found, fields, Contribution.name, SymbolResolution.outcome,
        Precedence.realOutcome]
  | definite holder replaces =>
      obtain ⟨entry, found, fields⟩ := entry_present rfl inSlot
      have defined : entry.definedIn = some holder.object :=
        congrArg Outcome.definedIn fields
      have noCommon : entry.common = none := congrArg Outcome.common fields
      have bound : entry.binding = holder.symbol.binding :=
        congrArg Outcome.binding fields
      have local' : entry.isImport = false := congrArg Outcome.isImport fields
      -- The action taken on two real definitions depends on their bindings.
      cases strong : contribution.strong with
      | false =>
          have weak := Contribution.binding_of_not_strong strong
          have kept : conflictAction entry contribution.object
              contribution.symbol table.objectPaths = .ok .keepExisting := by
            cases holderStrong : holder.strong with
            | true =>
                simp [conflictAction, defined, bound, weak,
                  Contribution.binding_of_strong holderStrong]
            | false =>
                simp [conflictAction, defined, bound, weak,
                  Contribution.binding_of_not_strong holderStrong]
          simpa [mergeDefined, found, noCommon, kept, Slot.mergeReal, strong,
            bind, Except.bind, pure, Except.pure] using inSlot
      | true =>
          have global := Contribution.binding_of_strong strong
          cases holderStrong : holder.strong with
          | true =>
              simp [mergeDefined, found, noCommon, conflictAction, defined,
                bound, global, Contribution.binding_of_strong holderStrong,
                Slot.mergeReal, strong, holderStrong, bind, Except.bind]
          | false =>
              simp [EntryInSlot, mergeDefined, found, noCommon,
                conflictAction, defined, bound, global, local',
                Contribution.binding_of_not_strong holderStrong,
                Slot.mergeReal, strong, holderStrong, Slot.outcome, bind,
                Except.bind, pure, Except.pure, Contribution.name,
                SymbolResolution.outcome, Precedence.realOutcome]

theorem mergeContribution_inSlot
    (inSlot : EntryInSlot (table.lookup contribution.name) slot) :
    match table.mergeContribution contribution, slot.merge contribution with
    | .ok next, some slot' =>
        EntryInSlot (next.lookup contribution.name) slot'
    | .error _, none => True
    | _, _ => False := by
  unfold SymbolTable.mergeContribution mergeSymbol Slot.merge
  cases undefined : contribution.symbol.isUndefined with
  | true =>
      simpa [Contribution.isReference, undefined] using
        mergeUndefined_inSlot inSlot
  | false =>
      cases common : contribution.symbol.isCommon with
      | true =>
          simpa [Contribution.isReference, Contribution.isTentative,
            undefined, common] using mergeCommon_inSlot inSlot
      | false =>
          simpa [Contribution.isReference, Contribution.isTentative,
            undefined, common] using mergeDefined_inSlot inSlot

theorem mergeContribution_simulation :
    KeyedRun.Simulation SymbolTable.lookup Contribution.name
      SymbolTable.mergeContribution Slot.merge EntryInSlot where
  success := by
    intro table contribution slot next inSlot merged
    have both := mergeContribution_inSlot inSlot
    rw [merged] at both
    cases slotMerged : slot.merge contribution with
    | none => simp [slotMerged] at both
    | some slot' =>
        rw [slotMerged] at both
        exact ⟨slot', rfl, both⟩
  failure := by
    intro table contribution slot error inSlot merged
    have both := mergeContribution_inSlot inSlot
    rw [merged] at both
    cases slotMerged : slot.merge contribution with
    | none => rfl
    | some slot' => simp [slotMerged] at both
  frame := by
    intro table contribution next other merged different
    exact lookup_mergeSymbol_of_ne merged different

end Refinement

/-! ## Sequences of objects -/

/-- An object together with its input sections discarded as COMDAT copies. -/
structure ProcessedObject where
  obj : InputObject
  excluded : List Nat

namespace SymbolTable

/-- What an object contributes: its symbols that are not passed over. -/
def contributionsOf (objId : ObjectId) (obj : InputObject)
    (excluded : List Nat) : List Contribution :=
  obj.symbols.filterMap fun sym =>
    if passed : skipsSymbol excluded sym then none
    else some ⟨objId, sym, by
      simp only [skipsSymbol, Bool.or_eq_true, beq_iff_eq, not_or] at passed
      exact passed.1.1⟩

theorem processObjectExcluding_eq (table : SymbolTable) (objId : ObjectId)
    (obj : InputObject) (excluded : List Nat) :
    table.processObjectExcluding objId obj excluded =
      (contributionsOf objId obj excluded).foldlM mergeContribution table := by
  unfold processObjectExcluding contributionsOf
  induction obj.symbols generalizing table with
  | nil => rfl
  | cons sym rest induction =>
      rw [List.foldlM_cons]
      by_cases passed : skipsSymbol excluded sym = true
      · simp only [passed, if_true, List.filterMap_cons, dif_pos]
        exact induction table
      · simp only [passed, List.filterMap_cons, dif_neg, not_false_eq_true,
          List.foldlM_cons, Bool.false_eq_true, if_false]
        unfold mergeContribution
        cases table.mergeSymbol objId sym with
        | error error => rfl
        | ok next => exact induction next

def addAndProcess (table : SymbolTable) (input : ProcessedObject) :
    Except SymbolError SymbolTable :=
  (table.addObject input.obj.path).1.processObjectExcluding
    (table.addObject input.obj.path).2 input.obj input.excluded

/-- A whole sequence of objects, from the empty table. -/
def processAll (inputs : List ProcessedObject) :
    Except SymbolError SymbolTable :=
  inputs.foldlM addAndProcess new

def contributionsFrom : Nat → List ProcessedObject → List Contribution
  | _, [] => []
  | count, input :: rest =>
      contributionsOf (UInt32.ofNat count) input.obj input.excluded ++
        contributionsFrom (count + 1) rest

/-- Everything a sequence of objects says about one name, in order. -/
def contributionsTo (name : Name) (inputs : List ProcessedObject) :
    List Contribution :=
  KeyedRun.eventsOf Contribution.name name (contributionsFrom 0 inputs)

theorem objectPaths_mergeSymbol {table next : SymbolTable}
    {objId : ObjectId} {sym : InputSymbol}
    (merged : table.mergeSymbol objId sym = .ok next) :
    next.objectPaths = table.objectPaths := by
  unfold mergeSymbol at merged
  split at merged
  · cases merged
    unfold mergeUndefined
    split
    · split
      · rfl
      · split <;> rfl
    · rfl
  · split at merged
    · cases merged
      unfold mergeCommon
      split
      · split <;> rfl
      · rfl
    · unfold mergeDefined at merged
      split at merged
      · split at merged
        · cases merged
          rfl
        · next entry _ _ =>
            cases decided : conflictAction entry objId sym
                table.objectPaths with
            | error error =>
                simp [decided, bind, Except.bind] at merged
            | ok action =>
                rw [decided] at merged
                cases action <;> cases merged <;> rfl
      · cases merged
        rfl

theorem objectPaths_run {contributions : List Contribution}
    {table final : SymbolTable}
    (ran : contributions.foldlM mergeContribution table = .ok final) :
    final.objectPaths = table.objectPaths := by
  induction contributions generalizing table with
  | nil =>
      cases ran
      rfl
  | cons first rest induction =>
      rw [List.foldlM_cons] at ran
      cases merged : table.mergeContribution first with
      | error error => simp [merged, bind, Except.bind] at ran
      | ok next =>
          rw [merged] at ran
          rw [induction ran, objectPaths_mergeSymbol merged]

theorem foldlM_addAndProcess {inputs : List ProcessedObject}
    {table : SymbolTable} {slots : Name → Slot}
    (start : ∀ name, EntryInSlot (table.lookup name) (slots name)) :
    match inputs.foldlM addAndProcess table with
    | .ok final => ∀ name, ∃ slot,
        (KeyedRun.eventsOf Contribution.name name
          (contributionsFrom table.objectPaths.length inputs)).foldlM
            Slot.merge (slots name) = some slot ∧
        EntryInSlot (final.lookup name) slot
    | .error _ => ∃ name,
        (KeyedRun.eventsOf Contribution.name name
          (contributionsFrom table.objectPaths.length inputs)).foldlM
            Slot.merge (slots name) = none := by
  induction inputs generalizing table slots with
  | nil => exact fun name => ⟨slots name, rfl, start name⟩
  | cons input rest induction =>
      rw [List.foldlM_cons]
      have added : ∀ name, EntryInSlot
          ((table.addObject input.obj.path).1.lookup name) (slots name) := start
      have processed : table.addAndProcess input =
          (contributionsOf (UInt32.ofNat table.objectPaths.length) input.obj
            input.excluded).foldlM mergeContribution
              (table.addObject input.obj.path).1 :=
        processObjectExcluding_eq _ _ _ _
      simp only [contributionsFrom, KeyedRun.eventsOf_append,
        List.foldlM_append]
      cases ran : table.addAndProcess input with
      | error error =>
          rw [processed] at ran
          obtain ⟨name, failed⟩ :=
            mergeContribution_simulation.run_error added ran
          exact ⟨name, by simp [failed]⟩
      | ok next =>
          rw [processed] at ran
          have counted : next.objectPaths.length =
              table.objectPaths.length + 1 := by
            rw [objectPaths_run ran]
            simp [addObject]
          choose slots' slotRan inSlot using
            mergeContribution_simulation.run_ok added ran
          have later := @induction next _ inSlot
          rw [counted] at later
          change match rest.foldlM addAndProcess next with
            | .ok final => _
            | .error _ => _
          cases finished : rest.foldlM addAndProcess next with
          | error error =>
              rw [finished] at later
              obtain ⟨name, failed⟩ := later
              exact ⟨name, by simpa [slotRan] using failed⟩
          | ok final =>
              rw [finished] at later
              intro name
              obtain ⟨slot, restRan, finalInSlot⟩ := later name
              exact ⟨slot, by simpa [slotRan] using restRan, finalInSlot⟩

theorem processAll_run (inputs : List ProcessedObject) :
    match processAll inputs with
    | .ok final => ∀ name, ∃ slot,
        Slot.run (contributionsTo name inputs) = some slot ∧
          EntryInSlot (final.lookup name) slot
    | .error _ => ∃ name, Slot.run (contributionsTo name inputs) = none :=
  @foldlM_addAndProcess inputs new (fun _ => .absent) fun _ => rfl

/-- Two strong real definitions of one name among the symbols merged. -/
def HasDuplicate (inputs : List ProcessedObject) : Prop :=
  ∃ name, Precedence.Duplicate (contributionsTo name inputs)

theorem processAll_error_iff (inputs : List ProcessedObject) :
    (∃ error, processAll inputs = .error error) ↔ HasDuplicate inputs := by
  have ran := processAll_run inputs
  cases processed : processAll inputs with
  | error error =>
      rw [processed] at ran
      obtain ⟨name, failed⟩ := ran
      simp only [Except.error.injEq, exists_eq', true_iff]
      exact ⟨name, (Precedence.run_eq_none_iff _).mp failed⟩
  | ok final =>
      rw [processed] at ran
      simp only [reduceCtorEq, exists_false, false_iff]
      rintro ⟨name, duplicate⟩
      obtain ⟨slot, slotRan, -⟩ := ran name
      rw [(Precedence.run_eq_none_iff _).mpr duplicate] at slotRan
      cases slotRan

/-! ## The table and precedence -/

/-- Resolution is precedence: every name ends with the outcome of precedence
over all that the objects say about it, and the only error is a duplicate. -/
def FollowsPrecedence (inputs : List ProcessedObject) : Prop :=
  ((∃ error, processAll inputs = .error error) ↔ HasDuplicate inputs) ∧
    ∀ table, processAll inputs = .ok table → ∀ name,
      (table.lookup name).map SymbolResolution.outcome =
        Precedence.outcome (contributionsTo name inputs)

theorem lookup_outcome_iff {inputs : List ProcessedObject}
    {table : SymbolTable} (processed : processAll inputs = .ok table)
    (name : Name) :
    (table.lookup name).map SymbolResolution.outcome =
        Precedence.outcome (contributionsTo name inputs) ↔
      ¬ Precedence.LosesFields (contributionsTo name inputs) := by
  have ran := processAll_run inputs
  rw [processed] at ran
  obtain ⟨slot, slotRan, inSlot⟩ := ran name
  have described := Precedence.describes_run (contributionsTo name inputs)
  rw [slotRan] at described
  rw [show (table.lookup name).map SymbolResolution.outcome = slot.outcome
    from inSlot]
  exact described.outcome_eq_iff

/-- Resolution follows precedence exactly when no winner loses a field. -/
theorem followsPrecedence_iff (inputs : List ProcessedObject) :
    FollowsPrecedence inputs ↔
      (¬ HasDuplicate inputs → ∀ name,
        ¬ Precedence.LosesFields (contributionsTo name inputs)) := by
  constructor
  · rintro ⟨errs, resolved⟩ unique name
    cases processed : processAll inputs with
    | error error => exact absurd (errs.mp ⟨error, processed⟩) unique
    | ok table =>
        exact (lookup_outcome_iff processed name).mp
          (resolved table processed name)
  · intro keeps
    refine ⟨processAll_error_iff inputs, fun table processed name => ?_⟩
    have unique : ¬ HasDuplicate inputs := fun duplicate => by
      obtain ⟨error, failed⟩ := (processAll_error_iff inputs).mpr duplicate
      rw [processed] at failed
      cases failed
    exact (lookup_outcome_iff processed name).mpr (keeps unique name)

/-! The smallest loss: one object has a tentative definition of `f`, the next
defines `f` as an indirect function. -/

private def symbolF (isCommon isIfunc : Bool) (stType : UInt8)
    (sectionIndex : Option Nat) : InputSymbol where
  index := 1
  name := [102]
  binding := .global
  isUndefined := false
  isCommon := isCommon
  isIfunc := isIfunc
  stType := stType
  visibility := 0
  sectionIndex := sectionIndex
  value := 8
  size := 8

private def tentativeThenIfunc : List ProcessedObject :=
  [⟨⟨"a.o", [], [symbolF true false 1 none], default, default, []⟩, []⟩,
    ⟨⟨"b.o", [], [symbolF false true 10 (some 1)], default, default, []⟩, []⟩]

/-- The second object wins, but its indirect function is recorded as an
ordinary one. -/
theorem tentativeThenIfunc_not_followsPrecedence :
    ¬ FollowsPrecedence tentativeThenIfunc := by
  rintro ⟨-, resolved⟩
  cases processed : processAll tentativeThenIfunc with
  | error error =>
      have ok : (processAll tentativeThenIfunc).isOk = true := by decide
      simp [processed, Except.isOk, Except.toBool] at ok
  | ok table =>
      have lost : Precedence.LosesFields
          (contributionsTo [102] tentativeThenIfunc) := by decide
      exact (lookup_outcome_iff processed [102]).mp
        (resolved table processed [102]) lost

end SymbolTable

end Peony
