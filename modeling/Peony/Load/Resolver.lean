import Mathlib.Data.Finset.Basic
import Peony.Symbols.Resolution

namespace Peony

/-! The resolver threads symbol resolution and COMDAT deduplication through the
objects of a link, in the order they are added. -/

/-! ## COMDAT deduplication -/

/-- One group of an object: the first group of a signature is kept, the members
of a later one are excluded. -/
def excludeGroup (state : List Name × List Nat) (group : ComdatGroup) :
    List Name × List Nat :=
  if group.signature.isEmpty then state
  else if state.1.contains group.signature then
    (state.1, state.2 ++ group.members)
  else (group.signature :: state.1, state.2)

def comdatExcluded (seen : List Name) (obj : InputObject) :
    List Name × List Nat :=
  obj.comdatGroups.foldl excludeGroup (seen, [])

/-! ## The resolver -/

inductive LoadError where
  | io (path : Name)
  | parse (path : Name)
  | archive (path : Name)
  | symbol (path : String) (error : SymbolError)
deriving DecidableEq, Repr

structure Resolver where
  objects : List InputObject
  symbols : SymbolTable
  seenComdat : List Name
  excluded : List (Nat × Nat)

namespace Resolver

def empty : Resolver := ⟨[], SymbolTable.new, [], []⟩

def resolve (resolver : Resolver) (obj : InputObject) :
    Except LoadError Resolver :=
  let added := resolver.symbols.addObject obj.path
  let comdat := comdatExcluded resolver.seenComdat obj
  match added.1.processObjectExcluding added.2 obj comdat.2 with
  | .error error => .error (.symbol obj.path error)
  | .ok symbols => .ok {
      objects := resolver.objects ++ [obj]
      symbols := symbols
      seenComdat := comdat.1
      excluded := resolver.excluded ++
        comdat.2.map fun member => (added.2.toNat, member) }

def resolveAll (resolver : Resolver) (objects : List InputObject) :
    Except LoadError Resolver :=
  objects.foldlM resolve resolver

end Resolver

/-! ## Defined and strongly undefined names -/

namespace SymbolTable

def isDefined (table : SymbolTable) (name : Name) : Bool :=
  (table.lookup name).any SymbolResolution.isDefined

/-- A strong reference that nothing satisfies yet. -/
def stronglyUndefined (table : SymbolTable) (name : Name) : Bool :=
  (table.lookup name).any fun resolution =>
    !resolution.isDefined && resolution.binding == .global

end SymbolTable

/-! ## What slots say about demand -/

namespace Slot

def isDefined : Slot → Bool
  | .tentative _ _ _ | .definite _ _ => true
  | _ => false

def stronglyUndefined : Slot → Bool
  | .undefined binding => binding == .global
  | _ => false

/-- The slot after `-u` names it. -/
def force : Slot → Slot
  | .absent | .undefined _ => .undefined .global
  | held => held

theorem merge_demand {slot next : Slot} {contribution : Contribution}
    (merged : slot.merge contribution = some next) :
    next.isDefined = (slot.isDefined || !contribution.isReference) ∧
      next.stronglyUndefined =
        (!next.isDefined && (slot.stronglyUndefined || contribution.strong)) := by
  unfold merge at merged
  split at merged
  · next reference =>
      cases merged
      cases slot <;>
        simp [mergeReference, isDefined, stronglyUndefined, reference,
          Contribution.strong]
      split <;> simp_all
  · next notReference =>
      have defines : contribution.isReference = false := by
        simpa using notReference
      split at merged
      · cases merged
        cases slot <;>
          simp [mergeTentative, isDefined, stronglyUndefined, defines]
      · cases slot with
        | definite holder replaces =>
            obtain ⟨holder', replaces', rfl⟩ : ∃ holder' replaces',
                next = .definite holder' replaces' := by
              simp only [mergeReal] at merged
              split at merged
              · exact ⟨_, _, (Option.some.inj merged).symm⟩
              · split at merged
                · cases merged
                · exact ⟨_, _, (Option.some.inj merged).symm⟩
            simp [isDefined, stronglyUndefined]
        | absent | undefined _ | tentative _ _ _ =>
            cases merged
            simp [isDefined, stronglyUndefined, defines]

theorem run_demand {contributions : List Contribution} {slot final : Slot}
    (ran : contributions.foldlM merge slot = some final) :
    final.isDefined = (slot.isDefined ||
        contributions.any fun contribution => !contribution.isReference) ∧
      final.stronglyUndefined = (!final.isDefined &&
        (slot.stronglyUndefined || contributions.any Contribution.strong)) := by
  induction contributions generalizing slot with
  | nil =>
      obtain rfl : slot = final := Option.some.inj ran
      cases slot <;> simp [isDefined, stronglyUndefined]
  | cons contribution rest induction =>
      rw [List.foldlM_cons] at ran
      cases merged : slot.merge contribution with
      | none => simp [merged] at ran
      | some next =>
          rw [merged] at ran
          obtain ⟨defined, strong⟩ := induction ran
          obtain ⟨nextDefined, nextStrong⟩ := merge_demand merged
          rw [nextDefined] at defined nextStrong
          refine ⟨by simp [defined, Bool.or_assoc], ?_⟩
          rw [strong, nextStrong, defined]
          cases slot.isDefined <;> cases contribution.isReference <;>
            cases rest.any fun contribution => !contribution.isReference <;>
              simp [Bool.or_assoc]

end Slot

namespace EntryInSlot

variable {table : SymbolTable} {name : Name} {slot : Slot}

theorem isDefined (inSlot : EntryInSlot (table.lookup name) slot) :
    table.isDefined name = slot.isDefined := by
  unfold EntryInSlot at inSlot
  unfold SymbolTable.isDefined
  cases found : table.lookup name with
  | none =>
      rw [found] at inSlot
      cases slot <;> simp_all [Slot.outcome, Slot.isDefined]
  | some entry =>
      rw [found] at inSlot
      cases slot <;>
        simp_all [Slot.outcome, Slot.isDefined, SymbolResolution.outcome,
          SymbolResolution.isDefined, Precedence.undefinedOutcome,
          Precedence.tentativeOutcome, Precedence.realOutcome]

theorem stronglyUndefined (inSlot : EntryInSlot (table.lookup name) slot) :
    table.stronglyUndefined name = slot.stronglyUndefined := by
  unfold EntryInSlot at inSlot
  unfold SymbolTable.stronglyUndefined
  cases found : table.lookup name with
  | none =>
      rw [found] at inSlot
      cases slot <;> simp_all [Slot.outcome, Slot.stronglyUndefined]
  | some entry =>
      rw [found] at inSlot
      cases slot <;>
        simp_all [Slot.outcome, Slot.stronglyUndefined,
          SymbolResolution.outcome, SymbolResolution.isDefined,
          Precedence.undefinedOutcome, Precedence.tentativeOutcome,
          Precedence.realOutcome]

theorem forceUndefined (inSlot : EntryInSlot (table.lookup name) slot) :
    EntryInSlot ((table.forceUndefined name).lookup name) slot.force := by
  unfold EntryInSlot at *
  unfold SymbolTable.forceUndefined
  cases found : table.lookup name with
  | none =>
      rw [found] at inSlot
      cases slot <;>
        simp_all [Slot.outcome, Slot.force, SymbolResolution.outcome,
          SymbolResolution.makeUndefinedResolution,
          SymbolResolution.isDefined, Precedence.undefinedOutcome]
  | some entry =>
      rw [found] at inSlot
      cases slot <;>
        simp_all [Slot.outcome, Slot.force, SymbolResolution.outcome,
          SymbolResolution.isDefined, Precedence.undefinedOutcome,
          Precedence.tentativeOutcome, Precedence.realOutcome]

end EntryInSlot

/-! ## What an object defines and demands -/

namespace ProcessedObject

def merges (input : ProcessedObject) (name : Name) (sym : InputSymbol) :
    Bool :=
  !SymbolTable.skipsSymbol input.excluded sym && sym.name == name

def defines (input : ProcessedObject) (name : Name) : Bool :=
  input.obj.symbols.any fun sym => input.merges name sym && !sym.isUndefined

def stronglyReferences (input : ProcessedObject) (name : Name) : Bool :=
  input.obj.symbols.any fun sym =>
    input.merges name sym && (sym.isUndefined && sym.binding == .global)

/-- A strong symbol, whether reference or definition. -/
def namesStrongly (input : ProcessedObject) (name : Name) : Bool :=
  input.obj.symbols.any fun sym =>
    input.merges name sym && sym.binding == .global

theorem namesStrongly_eq {input : ProcessedObject} {name : Name}
    (undefined : input.defines name = false) :
    input.namesStrongly name = input.stronglyReferences name := by
  unfold namesStrongly stronglyReferences defines at *
  rw [List.any_eq_false] at undefined
  rw [Bool.eq_iff_iff, List.any_eq_true, List.any_eq_true]
  constructor
  · rintro ⟨sym, member, strong⟩
    have reference := undefined sym member
    refine ⟨sym, member, ?_⟩
    simp_all
  · rintro ⟨sym, member, strong⟩
    exact ⟨sym, member, by simp_all⟩

end ProcessedObject

namespace SymbolTable

theorem any_contributionsOf (objId : ObjectId) (input : ProcessedObject)
    (name : Name) (holds : InputSymbol → Bool) :
    (KeyedRun.eventsOf Contribution.name name
        (contributionsOf objId input.obj input.excluded)).any
          (fun contribution => holds contribution.symbol) =
      input.obj.symbols.any fun sym =>
        input.merges name sym && holds sym := by
  rw [Bool.eq_iff_iff, List.any_eq_true, List.any_eq_true]
  constructor
  · rintro ⟨contribution, member, held⟩
    obtain ⟨contributed, named⟩ := KeyedRun.mem_eventsOf.mp member
    obtain ⟨sym, symMember, chosen⟩ := List.mem_filterMap.mp contributed
    split at chosen
    · cases chosen
    · next merged =>
        cases chosen
        refine ⟨sym, symMember, ?_⟩
        simp_all [ProcessedObject.merges, Contribution.name]
  · rintro ⟨sym, symMember, held⟩
    simp only [ProcessedObject.merges, Bool.and_eq_true, Bool.not_eq_true',
      beq_iff_eq] at held
    obtain ⟨⟨merged, named⟩, held⟩ := held
    refine ⟨⟨objId, sym, ?_⟩, ?_, held⟩
    · rintro bound
      simp [skipsSymbol, bound] at merged
    · refine KeyedRun.mem_eventsOf.mpr ⟨?_, named⟩
      exact List.mem_filterMap.mpr ⟨sym, symMember, by simp [merged]⟩

end SymbolTable

/-! ## Accounting for the table -/

/-- Add an object to those processed, after the signatures seen so far. -/
def includeNext (state : List Name × List ProcessedObject)
    (obj : InputObject) : List Name × List ProcessedObject :=
  ((comdatExcluded state.1 obj).1,
    state.2 ++ [⟨obj, (comdatExcluded state.1 obj).2⟩])

/-- The signatures seen in a list of objects, and the objects with the sections
each of them loses to an earlier one. -/
def processed (objects : List InputObject) :
    List Name × List ProcessedObject :=
  objects.foldl includeNext ([], [])

theorem processed_snoc (objects : List InputObject) (obj : InputObject) :
    processed (objects ++ [obj]) = includeNext (processed objects) obj := by
  simp [processed]

theorem processed_append (front back : List InputObject) :
    ∃ added, (processed (front ++ back)).2 = (processed front).2 ++ added := by
  induction back using List.reverseRecOn with
  | nil => exact ⟨[], by simp⟩
  | append_singleton back obj induction =>
      rcases induction with ⟨added, same⟩
      rw [← List.append_assoc, processed_snoc, includeNext, same, List.append_assoc]
      exact ⟨_, rfl⟩

namespace Resolver

theorem objects_resolve {resolver next : Resolver} {obj : InputObject}
    (resolved : resolver.resolve obj = .ok next) :
    next.objects = resolver.objects ++ [obj] := by
  simp only [resolve] at resolved
  split at resolved
  · exact nomatch resolved
  · cases resolved
    rfl

theorem lookup_resolve_of_unmerged {resolver next : Resolver} {obj : InputObject}
    (resolved : resolver.resolve obj = .ok next) {name : Name}
    (unmerged : ∀ sym ∈ obj.symbols, sym.binding ≠ .local → sym.name.isEmpty = false →
      name ≠ sym.name) :
    next.symbols.lookup name = resolver.symbols.lookup name := by
  simp only [resolve] at resolved
  split at resolved
  · cases resolved
  · rename_i symbols processedOk
    cases resolved
    rw [SymbolTable.processObjectExcluding_eq] at processedOk
    refine mergeContribution_simulation.run_frame processedOk fun contribution present => ?_
    rcases List.mem_filterMap.mp present with ⟨sym, isSym, chosen⟩
    split at chosen
    · cases chosen
    · rename_i merged
      cases chosen
      simp only [SymbolTable.skipsSymbol, Bool.or_eq_true, beq_iff_eq, not_or] at merged
      exact unmerged sym isSym merged.1.1 (Bool.not_eq_true _ ▸ merged.1.2)

/-- A property that resolving keeps. -/
def Stable (sound : Resolver → Prop) : Prop :=
  ∀ {resolver next : Resolver} {obj : InputObject}, sound resolver →
    resolver.resolve obj = .ok next → sound next

/-- The objects of the link, each with its excluded sections. -/
def included (resolver : Resolver) : List ProcessedObject :=
  (processed resolver.objects).2

structure Accounts (forced : List Name) (resolver : Resolver) : Prop where
  seen : resolver.seenComdat = (processed resolver.objects).1
  inSlot : ∀ name, ∃ slot,
    EntryInSlot (resolver.symbols.lookup name) slot
  defined : ∀ name, resolver.symbols.isDefined name =
    resolver.included.any fun input => input.defines name
  strong : ∀ name, resolver.symbols.stronglyUndefined name =
    (!resolver.symbols.isDefined name && (forced.contains name ||
      resolver.included.any fun input => input.namesStrongly name))

theorem accounts_empty : Accounts [] empty where
  seen := rfl
  inSlot := fun _ => ⟨.absent, rfl⟩
  defined := fun _ => rfl
  strong := fun _ => rfl

structure Resolved (resolver : Resolver) (obj : InputObject)
    (next : Resolver) : Prop where
  objects : next.objects = resolver.objects ++ [obj]
  included : next.included = resolver.included ++
    [⟨obj, (comdatExcluded resolver.seenComdat obj).2⟩]
  defined : ∀ name, next.symbols.isDefined name =
    (resolver.symbols.isDefined name || ProcessedObject.defines
      ⟨obj, (comdatExcluded resolver.seenComdat obj).2⟩ name)
  strong : ∀ name, next.symbols.stronglyUndefined name =
    (!next.symbols.isDefined name &&
      (resolver.symbols.stronglyUndefined name ||
        ProcessedObject.namesStrongly
          ⟨obj, (comdatExcluded resolver.seenComdat obj).2⟩ name))

theorem Accounts.resolve {forced : List Name} {resolver next : Resolver}
    {obj : InputObject} (accounts : Accounts forced resolver)
    (resolved : resolver.resolve obj = .ok next) :
    Accounts forced next ∧ Resolved resolver obj next := by
  simp only [Resolver.resolve] at resolved
  split at resolved
  · cases resolved
  · next symbols processedOk =>
      cases resolved
      choose slots start using accounts.inSlot
      rw [SymbolTable.processObjectExcluding_eq] at processedOk
      have added : ∀ name, EntryInSlot
          ((resolver.symbols.addObject obj.path).1.lookup name)
          (slots name) := start
      choose slots' ran inSlot using
        mergeContribution_simulation.run_ok added processedOk
      have step : Resolved resolver obj
          { objects := resolver.objects ++ [obj]
            symbols := symbols
            seenComdat := (comdatExcluded resolver.seenComdat obj).1
            excluded := resolver.excluded ++
              (comdatExcluded resolver.seenComdat obj).2.map fun member =>
                ((resolver.symbols.addObject obj.path).2.toNat, member) } := by
        constructor
        · rfl
        · simp [included, processed_snoc, includeNext, accounts.seen]
        · intro name
          obtain ⟨defined, -⟩ := Slot.run_demand (ran name)
          rw [(inSlot name).isDefined, defined, (start name).isDefined]
          exact congrArg _ (SymbolTable.any_contributionsOf _
            ⟨obj, (comdatExcluded resolver.seenComdat obj).2⟩ name
            fun sym => !sym.isUndefined)
        · intro name
          obtain ⟨-, strong⟩ := Slot.run_demand (ran name)
          rw [(inSlot name).stronglyUndefined, strong,
            (start name).stronglyUndefined, (inSlot name).isDefined]
          exact congrArg _ (congrArg _ (SymbolTable.any_contributionsOf _
            ⟨obj, (comdatExcluded resolver.seenComdat obj).2⟩ name
            fun sym => sym.binding == .global))
      refine ⟨⟨?_, fun name => ⟨_, inSlot name⟩, ?_, ?_⟩, step⟩
      · simp [processed_snoc, includeNext, accounts.seen]
      · intro name
        rw [step.defined, step.included, List.any_append, accounts.defined]
        simp
      · intro name
        rw [step.strong, step.included, List.any_append, accounts.strong,
          step.defined]
        cases resolver.symbols.isDefined name <;> simp [Bool.or_assoc]

theorem stable_accounts (forced : List Name) : Stable (Accounts forced) :=
  fun accounts resolved => (accounts.resolve resolved).1

theorem included_of_objects {resolver next : Resolver}
    (objects : ∃ added, next.objects = resolver.objects ++ added) :
    ∃ added, next.included = resolver.included ++ added := by
  rcases objects with ⟨added, same⟩
  rw [included, included, same]
  exact processed_append resolver.objects added

end Resolver

end Peony
