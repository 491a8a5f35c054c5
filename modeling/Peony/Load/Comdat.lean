import Mathlib.Order.WellFounded
import Peony.Load.Load

namespace Peony

/-! Which copies of a COMDAT group the resolver keeps, and where the symbols that it
resolves lie. -/

/-! ## Copies -/

def IsCopy (objects : List InputObject) (objId place : Nat) (group : ComdatGroup) : Prop :=
  ∃ obj, objects[objId]? = some obj ∧ obj.comdatGroups[place]? = some group

def IsLaterCopy (objects : List InputObject) (objId place : Nat) (group : ComdatGroup) :
    Prop :=
  IsCopy objects objId place group ∧ group.signature ≠ [] ∧
    ∃ earlier before other, IsCopy objects earlier before other ∧
      (earlier < objId ∨ earlier = objId ∧ before < place) ∧
      other.signature = group.signature

theorem existsUnique_first {objects : List InputObject} {signature : Name}
    (named : signature ≠ []) (copied : ∃ objId place group,
      IsCopy objects objId place group ∧ group.signature = signature) :
    ∃! position : Nat × Nat, ∃ group, IsCopy objects position.1 position.2 group ∧
      group.signature = signature ∧ ¬ IsLaterCopy objects position.1 position.2 group := by
  have wellFounded : WellFounded
      (Prod.Lex (fun a b : Nat => a < b) fun a b : Nat => a < b) :=
    WellFounded.prod_lex Nat.lt_wfRel.wf Nat.lt_wfRel.wf
  rcases copied with ⟨objId, place, group, isCopy, hasSignature⟩
  rcases wellFounded.has_min
    {position : Nat × Nat | ∃ group, IsCopy objects position.1 position.2 group ∧
      group.signature = signature} ⟨(objId, place), group, isCopy, hasSignature⟩ with
    ⟨least, ⟨first, isFirst, firstSignature⟩, minimal⟩
  refine ⟨least, ⟨first, isFirst, firstSignature, ?_⟩, ?_⟩
  · rintro ⟨_, _, earlier, before, other, isEarlier, precedes, same⟩
    exact minimal (earlier, before) ⟨other, isEarlier, same.trans firstSignature⟩
      (Prod.lex_def.mpr precedes)
  · rintro position ⟨other, isOther, otherSignature, notLater⟩
    by_contra differs
    have named' : other.signature ≠ [] := otherSignature ▸ named
    have notBefore : ¬ (least.1 < position.1 ∨ least.1 = position.1 ∧ least.2 < position.2) :=
      fun precedes => notLater ⟨isOther, named', least.1, least.2, first, isFirst, precedes,
        firstSignature.trans otherSignature.symm⟩
    refine minimal position ⟨other, isOther, otherSignature⟩ (Prod.lex_def.mpr ?_)
    have apart : ¬ (position.1 = least.1 ∧ position.2 = least.2) :=
      fun both => differs (Prod.ext both.1 both.2)
    omega

/-! ## One object -/

section Groups

variable (groups : List ComdatGroup) (seen : List Name)

theorem mem_seen_excludeGroup {signature : Name} :
    signature ∈ (groups.foldl excludeGroup (seen, [])).1 ↔
      signature ∈ seen ∨ signature ≠ [] ∧ ∃ group ∈ groups, group.signature = signature := by
  induction groups using List.reverseRecOn with
  | nil => simp
  | append_singleton front group induction =>
      rw [List.foldl_append, List.foldl_cons, List.foldl_nil, excludeGroup]
      split
      · rename_i nameless
        rw [List.isEmpty_iff] at nameless
        rw [induction]
        simp only [List.mem_append, List.mem_singleton]
        constructor
        · rintro (old | ⟨named, other, isOther, same⟩)
          · exact Or.inl old
          · exact Or.inr ⟨named, other, Or.inl isOther, same⟩
        · rintro (old | ⟨named, other, isOther | rfl, same⟩)
          · exact Or.inl old
          · exact Or.inr ⟨named, other, isOther, same⟩
          · exact absurd (same.symm.trans nameless) named
      · rename_i named
        rw [List.isEmpty_iff] at named
        split
        · rename_i isSeen
          rw [List.contains_iff_mem] at isSeen
          dsimp only
          rw [induction]
          simp only [List.mem_append, List.mem_singleton]
          constructor
          · rintro (old | ⟨isNamed, other, isOther, same⟩)
            · exact Or.inl old
            · exact Or.inr ⟨isNamed, other, Or.inl isOther, same⟩
          · rintro (old | ⟨isNamed, other, isOther | rfl, same⟩)
            · exact Or.inl old
            · exact Or.inr ⟨isNamed, other, isOther, same⟩
            · exact induction.mp (same ▸ isSeen)
        · rw [List.mem_cons, induction]
          simp only [List.mem_append, List.mem_singleton]
          constructor
          · rintro (rfl | old | ⟨isNamed, other, isOther, same⟩)
            · exact Or.inr ⟨named, group, Or.inr rfl, rfl⟩
            · exact Or.inl old
            · exact Or.inr ⟨isNamed, other, Or.inl isOther, same⟩
          · rintro (old | ⟨isNamed, other, isOther | rfl, same⟩)
            · exact Or.inr (Or.inl old)
            · exact Or.inr (Or.inr ⟨isNamed, other, isOther, same⟩)
            · exact Or.inl same.symm

theorem mem_excluded_excludeGroup {member : Nat} :
    member ∈ (groups.foldl excludeGroup (seen, [])).2 ↔
      ∃ (place : Nat) (group : ComdatGroup), groups[place]? = some group ∧
        group.signature ≠ [] ∧
        (group.signature ∈ seen ∨
          ∃ before < place, ∃ other, groups[before]? = some other ∧
            other.signature = group.signature) ∧
        member ∈ group.members := by
  induction groups using List.reverseRecOn with
  | nil => simp
  | append_singleton front group induction =>
      have later : (∃ (place : Nat) (group' : ComdatGroup),
          (front ++ [group])[place]? = some group' ∧ group'.signature ≠ [] ∧
          (group'.signature ∈ seen ∨
            ∃ before < place, ∃ other, (front ++ [group])[before]? = some other ∧
              other.signature = group'.signature) ∧
          member ∈ group'.members) ↔
          member ∈ (front.foldl excludeGroup (seen, [])).2 ∨
            group.signature ≠ [] ∧
              group.signature ∈ (front.foldl excludeGroup (seen, [])).1 ∧
              member ∈ group.members := by
        rw [induction, mem_seen_excludeGroup]
        constructor
        · rintro ⟨place, group', isGroup, named, isLater, isMember⟩
          by_cases inside : place < front.length
          · rw [List.getElem?_append_left inside] at isGroup
            refine Or.inl ⟨place, group', isGroup, named, isLater.imp_right ?_, isMember⟩
            rintro ⟨before, isBefore, other, isOther, same⟩
            rw [List.getElem?_append_left (Nat.lt_trans isBefore inside)] at isOther
            exact ⟨before, isBefore, other, isOther, same⟩
          · rw [List.getElem?_append_right (Nat.not_lt.mp inside)] at isGroup
            have isLast := List.mem_singleton.mp (List.mem_of_getElem? isGroup)
            subst isLast
            refine Or.inr ⟨named, isLater.imp_right ?_, isMember⟩
            rintro ⟨before, isBefore, other, isOther, same⟩
            have bound : place ≤ front.length := by
              have short := (List.getElem?_eq_some_iff.mp isGroup).1
              rw [List.length_singleton] at short
              omega
            rw [List.getElem?_append_left (Nat.lt_of_lt_of_le isBefore bound)] at isOther
            exact ⟨named, other, List.mem_of_getElem? isOther, same⟩
        · rintro (⟨place, group', isGroup, named, isLater, isMember⟩ |
            ⟨named, isSeen, isMember⟩)
          · have inside := (List.getElem?_eq_some_iff.mp isGroup).1
            refine ⟨place, group', by rw [List.getElem?_append_left inside, isGroup], named,
              isLater.imp_right ?_, isMember⟩
            rintro ⟨before, isBefore, other, isOther, same⟩
            exact ⟨before, isBefore, other, by
              rw [List.getElem?_append_left (Nat.lt_trans isBefore inside), isOther], same⟩
          · refine ⟨front.length, group, by simp, named, isSeen.imp_right ?_, isMember⟩
            rintro ⟨_, other, isOther, same⟩
            rcases List.mem_iff_getElem?.mp isOther with ⟨before, isBefore⟩
            have inside := (List.getElem?_eq_some_iff.mp isBefore).1
            exact ⟨before, inside, other, by
              rw [List.getElem?_append_left inside, isBefore], same⟩
      rw [later, List.foldl_append, List.foldl_cons, List.foldl_nil, excludeGroup]
      split
      · rename_i nameless
        rw [List.isEmpty_iff] at nameless
        exact (or_iff_left fun impossible => impossible.1 nameless).symm
      · rename_i named
        rw [List.isEmpty_iff] at named
        split
        · rename_i isSeen
          rw [List.contains_iff_mem] at isSeen
          rw [List.mem_append]
          exact or_congr Iff.rfl ⟨fun isMember => ⟨named, isSeen, isMember⟩, fun both => both.2.2⟩
        · rename_i unseen
          rw [List.contains_iff_mem] at unseen
          exact (or_iff_left fun impossible => unseen impossible.2.1).symm

end Groups

/-! ## All objects -/

section Objects

variable (objects : List InputObject)

theorem mem_seen_processed {signature : Name} :
    signature ∈ (processed objects).1 ↔ signature ≠ [] ∧
      ∃ obj ∈ objects, ∃ group ∈ obj.comdatGroups, group.signature = signature := by
  induction objects using List.reverseRecOn with
  | nil => simp [processed]
  | append_singleton front obj induction =>
      rw [processed_snoc, includeNext]
      dsimp only
      rw [comdatExcluded, mem_seen_excludeGroup, induction, ← and_or_left]
      simp only [List.mem_append, List.mem_singleton, or_and_right, exists_or,
        exists_eq_left]

theorem length_processed : (processed objects).2.length = objects.length := by
  induction objects using List.reverseRecOn with
  | nil => rfl
  | append_singleton front obj induction =>
      rw [processed_snoc, includeNext, List.length_append, List.length_append, induction]
      rfl

variable {objects}

theorem getElem?_processed {objId : Nat} {obj : InputObject}
    (isObject : objects[objId]? = some obj) :
    (processed objects).2[objId]? =
      some ⟨obj, (comdatExcluded (processed (objects.take objId)).1 obj).2⟩ := by
  induction objects using List.reverseRecOn with
  | nil => exact nomatch isObject
  | append_singleton front last induction =>
      rw [processed_snoc, includeNext]
      by_cases inside : objId < front.length
      · rw [List.getElem?_append_left inside] at isObject
        rw [List.getElem?_append_left (by rw [length_processed]; exact inside),
          induction isObject, List.take_append_of_le_length inside.le]
      · have isLast : objId = front.length := by
          have short := (List.getElem?_eq_some_iff.mp isObject).1
          rw [List.length_append, List.length_singleton] at short
          omega
        subst isLast
        rw [List.getElem?_append_right le_rfl, Nat.sub_self] at isObject
        have same := List.mem_singleton.mp (List.mem_of_getElem? isObject)
        subst same
        rw [List.getElem?_append_right (length_processed front).le, length_processed,
          Nat.sub_self, List.take_append_of_le_length le_rfl, List.take_length]
        rfl

theorem mem_excluded_processed {objId : Nat} {obj : InputObject}
    (isObject : objects[objId]? = some obj) {member : Nat} :
    member ∈ (comdatExcluded (processed (objects.take objId)).1 obj).2 ↔
      ∃ place group, IsLaterCopy objects objId place group ∧ member ∈ group.members := by
  rw [comdatExcluded, mem_excluded_excludeGroup]
  refine exists_congr fun place => exists_congr fun group => ?_
  rw [← and_assoc, ← and_assoc]
  refine and_congr_left fun _ => ?_
  rw [mem_seen_processed, IsLaterCopy, and_assoc]
  refine and_congr ⟨fun isGroup => ⟨obj, isObject, isGroup⟩, ?_⟩
    (and_congr_right fun named => ⟨?_, ?_⟩)
  · rintro ⟨other, isOther, isGroup⟩
    rw [isObject, Option.some.injEq] at isOther
    exact isOther ▸ isGroup
  · rintro (⟨_, earlierObj, isEarlier, other, isOther, same⟩ |
      ⟨before, isBefore, other, isOther, same⟩)
    · rcases List.mem_iff_getElem?.mp isEarlier with ⟨earlier, found⟩
      rw [List.getElem?_take] at found
      split at found
      · rename_i inside
        rcases List.mem_iff_getElem?.mp isOther with ⟨before, isBefore⟩
        exact ⟨earlier, before, other, ⟨earlierObj, found, isBefore⟩, Or.inl inside, same⟩
      · exact nomatch found
    · exact ⟨objId, before, other, ⟨obj, isObject, isOther⟩, Or.inr ⟨rfl, isBefore⟩, same⟩
  · rintro ⟨earlier, before, other, ⟨earlierObj, found, isOther⟩, precedes, same⟩
    rcases precedes with inside | ⟨rfl, isBefore⟩
    · refine Or.inl ⟨named, earlierObj, List.mem_iff_getElem?.mpr ⟨earlier, ?_⟩, other,
        List.mem_of_getElem? isOther, same⟩
      rw [List.getElem?_take, if_pos inside, found]
    · rw [isObject, Option.some.injEq] at found
      exact Or.inr ⟨before, isBefore, other, found ▸ isOther, same⟩

end Objects

/-! ## Where symbols lie -/

namespace SymbolTable

def PointsInto (table : SymbolTable) (name : Name) (objId : ObjectId)
    (sectionIndex : Nat) : Prop :=
  ∃ res, table.lookup name = some res ∧ res.definedIn = some objId ∧
    res.sectionIndex = some sectionIndex

/-- No name lies where it did not lie before. -/
def PointsNoMore (before after : SymbolTable) : Prop :=
  ∀ name owner sectionIndex, after.PointsInto name owner sectionIndex →
    before.PointsInto name owner sectionIndex

namespace PointsNoMore

variable {before middle after : SymbolTable}

theorem refl (table : SymbolTable) : PointsNoMore table table :=
  fun _ _ _ => id

theorem trans (first : PointsNoMore before middle) (second : PointsNoMore middle after) :
    PointsNoMore before after :=
  fun name owner sectionIndex points =>
    first name owner sectionIndex (second name owner sectionIndex points)

theorem foldl {Item : Type*} {step : SymbolTable → Item → SymbolTable}
    (each : ∀ table item, PointsNoMore table (step table item)) (items : List Item)
    (table : SymbolTable) : PointsNoMore table (items.foldl step table) := by
  induction items generalizing table with
  | nil => exact refl table
  | cons item rest induction => exact (each table item).trans (induction _)

theorem put (table : SymbolTable) {key : Name} {entry : SymbolResolution}
    (origin : (∃ old, table.lookup key = some old ∧
        entry.definedIn = old.definedIn ∧ entry.sectionIndex = old.sectionIndex) ∨
      entry.definedIn = none ∨ entry.sectionIndex = none) :
    PointsNoMore table (table.put key entry) := by
  rintro name owner sectionIndex ⟨res, found, isDefined, inSection⟩
  by_cases same : name = key
  · subst same
    rw [lookup_put_self, Option.some.injEq] at found
    subst found
    rcases origin with ⟨old, isOld, sameDefined, sameSection⟩ | nowhere | nowhere
    · exact ⟨old, isOld, sameDefined ▸ isDefined, sameSection ▸ inSection⟩
    · rw [nowhere] at isDefined
      exact nomatch isDefined
    · rw [nowhere] at inSection
      exact nomatch inSection
  · rw [lookup_put_of_ne _ _ same] at found
    exact ⟨res, found, isDefined, inSection⟩

end PointsNoMore

theorem pointsNoMore_forceUndefined (table : SymbolTable) (name : Name) :
    PointsNoMore table (table.forceUndefined name) := by
  rw [forceUndefined]
  refine PointsNoMore.put table ?_
  cases found : table.lookup name with
  | none => exact Or.inr (Or.inr rfl)
  | some old =>
      rw [Option.getD_some]
      refine Or.inl ⟨old, rfl, ?_⟩
      split <;> exact ⟨rfl, rfl⟩

section Origin

variable {table next : SymbolTable} {objId owner : ObjectId} {sym : InputSymbol}
variable {name : Name} {sectionIndex : Nat}

private theorem points_put (table : SymbolTable) {entry : SymbolResolution}
    (points : (table.put sym.name entry).PointsInto name owner sectionIndex)
    (origin : (∃ old, table.lookup sym.name = some old ∧
        entry.definedIn = old.definedIn ∧ entry.sectionIndex = old.sectionIndex) ∨
      entry.definedIn = some objId ∧ entry.sectionIndex = sym.sectionIndex ∨
      entry.sectionIndex = none) :
    table.PointsInto name owner sectionIndex ∨
      owner = objId ∧ sym.sectionIndex = some sectionIndex := by
  rcases origin with old | ⟨here, own⟩ | nowhere
  · exact Or.inl (PointsNoMore.put table (Or.inl old) name owner sectionIndex points)
  · rcases points with ⟨res, found, isDefined, inSection⟩
    by_cases same : name = sym.name
    · subst same
      rw [lookup_put_self, Option.some.injEq] at found
      subst found
      rw [here, Option.some.injEq] at isDefined
      exact Or.inr ⟨isDefined.symm, own ▸ inSection⟩
    · rw [lookup_put_of_ne _ _ same] at found
      exact Or.inl ⟨res, found, isDefined, inSection⟩
  · exact Or.inl
      (PointsNoMore.put table (Or.inr (Or.inr nowhere)) name owner sectionIndex points)

theorem points_mergeSymbol (merged : table.mergeSymbol objId sym = .ok next)
    (points : next.PointsInto name owner sectionIndex) :
    table.PointsInto name owner sectionIndex ∨
      owner = objId ∧ sym.sectionIndex = some sectionIndex := by
  rw [mergeSymbol] at merged
  split at merged
  · cases merged
    rw [mergeUndefined] at points
    cases found : table.lookup sym.name with
    | none =>
        rw [found] at points
        exact points_put table points (Or.inr (Or.inr rfl))
    | some entry =>
        rw [found] at points
        dsimp only at points
        split at points
        · exact Or.inl points
        · split at points
          · exact points_put table points (Or.inl ⟨entry, found, rfl, rfl⟩)
          · exact Or.inl points
  · split at merged
    · cases merged
      rw [mergeCommon] at points
      cases found : table.lookup sym.name with
      | none =>
          rw [found] at points
          exact points_put (table.pushName sym.name) points (Or.inr (Or.inr rfl))
      | some entry =>
          rw [found] at points
          dsimp only at points
          split at points
          · exact Or.inl points
          · exact points_put table points (Or.inl ⟨entry, found, rfl, rfl⟩)
          · exact points_put (table.pushName sym.name) points (Or.inr (Or.inr rfl))
    · rw [mergeDefined] at merged
      cases found : table.lookup sym.name with
      | none =>
          rw [found, Except.ok.injEq] at merged
          subst merged
          exact points_put (table.pushName sym.name) points
            (Or.inr (Or.inl ⟨rfl, rfl⟩))
      | some entry =>
          rw [found] at merged
          change (if _ then _ else _ : Except _ _) = _ at merged
          split at merged
          · cases merged
            exact points_put table points (Or.inr (Or.inl ⟨rfl, rfl⟩))
          · cases action : conflictAction entry objId sym table.objectPaths with
            | error failure =>
                rw [action] at merged
                cases merged
            | ok chosen =>
                rw [action] at merged
                cases chosen with
                | satisfyUndef =>
                    cases merged
                    exact points_put (table.pushName sym.name) points
                      (Or.inr (Or.inl ⟨rfl, rfl⟩))
                | upgrade =>
                    cases merged
                    exact points_put table points (Or.inr (Or.inl ⟨rfl, rfl⟩))
                | keepExisting =>
                    cases merged
                    exact Or.inl points
                | warnLocal =>
                    cases merged
                    exact Or.inl points

theorem points_processObjectExcluding {obj : InputObject} {excluded : List Nat}
    (processed : table.processObjectExcluding objId obj excluded = .ok next)
    (points : next.PointsInto name owner sectionIndex) :
    table.PointsInto name owner sectionIndex ∨
      owner = objId ∧ ∃ sym ∈ obj.symbols, skipsSymbol excluded sym = false ∧
        sym.sectionIndex = some sectionIndex := by
  rw [processObjectExcluding] at processed
  generalize obj.symbols = symbols at processed ⊢
  induction symbols generalizing table with
  | nil =>
      cases processed
      exact Or.inl points
  | cons sym rest induction =>
      rw [List.foldlM_cons] at processed
      have later {middle : SymbolTable} (ran : rest.foldlM
          (fun table sym => if skipsSymbol excluded sym then .ok table
            else table.mergeSymbol objId sym) middle = .ok next) :
          middle.PointsInto name owner sectionIndex ∨
            owner = objId ∧ ∃ other ∈ sym :: rest, skipsSymbol excluded other = false ∧
              other.sectionIndex = some sectionIndex := by
        refine (induction ran).imp_right fun ⟨same, other, isOther, rest⟩ => ?_
        exact ⟨same, other, List.mem_cons_of_mem _ isOther, rest⟩
      by_cases skipped : skipsSymbol excluded sym = true
      · rw [if_pos skipped] at processed
        exact later processed
      · rw [if_neg skipped] at processed
        cases merged : table.mergeSymbol objId sym with
        | error failure =>
            rw [merged] at processed
            exact nomatch processed
        | ok middle =>
            rw [merged] at processed
            rcases later processed with early | isLater
            · refine (points_mergeSymbol merged early).imp_right fun ⟨same, inSection⟩ => ?_
              exact ⟨same, sym, List.mem_cons_self, Bool.eq_false_iff.mpr skipped, inSection⟩
            · exact Or.inr isLater

end Origin

end SymbolTable

/-! ## The resolver -/

namespace Resolver

/-- What resolving objects one after the other makes of the groups and the symbols: each
object loses the members of its later copies, and no symbol lies in them. -/
structure Deduplicated (resolver : Resolver) : Prop where
  objectPaths : resolver.symbols.objectPaths.length = resolver.objects.length
  seen : resolver.seenComdat = (processed resolver.objects).1
  excluded : resolver.excluded = resolver.included.zipIdx.flatMap fun numbered =>
    numbered.1.excluded.map fun member => ((UInt32.ofNat numbered.2).toNat, member)
  points : ∀ name owner sectionIndex,
    resolver.symbols.PointsInto name owner sectionIndex →
    ∃ (place : Nat) (input : ProcessedObject), resolver.included[place]? = some input ∧
      owner = UInt32.ofNat place ∧ ∃ sym ∈ input.obj.symbols,
        SymbolTable.skipsSymbol input.excluded sym = false ∧
          sym.sectionIndex = some sectionIndex

theorem deduplicated_empty : Deduplicated empty where
  objectPaths := rfl
  seen := rfl
  excluded := rfl
  points := by
    rintro name owner sectionIndex ⟨res, impossible, _⟩
    exact nomatch impossible

theorem length_included (resolver : Resolver) :
    resolver.included.length = resolver.objects.length :=
  length_processed resolver.objects

theorem Deduplicated.resolve {resolver next : Resolver} {obj : InputObject}
    (deduplicated : resolver.Deduplicated) (resolved : resolver.resolve obj = .ok next) :
    next.Deduplicated := by
  simp only [Resolver.resolve] at resolved
  split at resolved
  · cases resolved
  · rename_i symbols processedOk
    cases resolved
    have included : (processed (resolver.objects ++ [obj])).2 = resolver.included ++
        [⟨obj, (comdatExcluded resolver.seenComdat obj).2⟩] := by
      rw [processed_snoc, includeNext, deduplicated.seen]
      rfl
    have id : (resolver.symbols.addObject obj.path).2 =
        UInt32.ofNat resolver.included.length := by
      rw [length_included, ← deduplicated.objectPaths]
      rfl
    constructor
    · rw [SymbolTable.processObjectExcluding_eq] at processedOk
      dsimp only
      rw [SymbolTable.objectPaths_run processedOk, List.length_append,
        ← deduplicated.objectPaths, SymbolTable.addObject, List.length_append]
      rfl
    · dsimp only
      rw [processed_snoc, includeNext, deduplicated.seen]
    · dsimp only
      rw [Resolver.included, included, List.zipIdx_append, List.flatMap_append,
        ← deduplicated.excluded, id]
      simp
    · intro name owner sectionIndex points
      rw [Resolver.included, included]
      rcases SymbolTable.points_processObjectExcluding processedOk points with
        early | ⟨rfl, sym, isSym, merges, inSection⟩
      · have old : resolver.symbols.PointsInto name owner sectionIndex := early
        rcases deduplicated.points name owner sectionIndex old with
          ⟨place, input, isInput, rest⟩
        have inside := (List.getElem?_eq_some_iff.mp isInput).1
        exact ⟨place, input, by rw [List.getElem?_append_left inside, isInput], rest⟩
      · refine ⟨resolver.included.length, ⟨obj, (comdatExcluded resolver.seenComdat obj).2⟩,
          ?_, id, sym, isSym, merges, inSection⟩
        rw [List.getElem?_append_right le_rfl, Nat.sub_self]
        rfl

theorem Deduplicated.forceUndefined {resolver : Resolver}
    (deduplicated : resolver.Deduplicated) (names : List Name) :
    (resolver.forceUndefined names).Deduplicated where
  objectPaths := by
    have same : (names.foldl SymbolTable.forceUndefined resolver.symbols).objectPaths =
        resolver.symbols.objectPaths := by
      induction names using List.reverseRecOn with
      | nil => rfl
      | append_singleton front name induction =>
          rw [List.foldl_append]
          exact induction
    exact (congrArg List.length same).trans deduplicated.objectPaths
  seen := deduplicated.seen
  excluded := deduplicated.excluded
  points name owner sectionIndex points := by
    refine deduplicated.points name owner sectionIndex ?_
    exact SymbolTable.PointsNoMore.foldl SymbolTable.pointsNoMore_forceUndefined names _ _ _ _
      points

inductive Reachable : Resolver → Prop
  | empty : Reachable empty
  | resolve {resolver next : Resolver} (obj : InputObject) (reachable : Reachable resolver)
      (resolved : resolver.resolve obj = .ok next) : Reachable next
  | forceUndefined {resolver : Resolver} (names : List Name)
      (reachable : Reachable resolver) : Reachable (resolver.forceUndefined names)

/-! ### Loading -/

section Loading

variable {sound : Resolver → Prop} (stable : Stable sound)

include stable

theorem Stable.resolveAll {resolver next : Resolver} {objects : List InputObject}
    (isSound : sound resolver) (resolved : resolver.resolveAll objects = .ok next) :
    sound next := by
  rw [Resolver.resolveAll] at resolved
  induction objects generalizing resolver with
  | nil =>
      cases resolved
      exact isSound
  | cons obj rest induction =>
      rw [List.foldlM_cons] at resolved
      cases first : resolver.resolve obj with
      | error failure =>
          rw [first] at resolved
          exact nomatch resolved
      | ok middle =>
          rw [first] at resolved
          exact induction (stable isSound first) resolved

theorem Stable.includeWholeArchives {files : Files} {resolver next : Resolver}
    {paths : List Path} (isSound : sound resolver)
    (included : paths.foldlM (includeWholeArchive files) resolver = .ok next) :
    sound next := by
  induction paths generalizing resolver with
  | nil =>
      cases included
      exact isSound
  | cons path rest induction =>
      rw [List.foldlM_cons] at included
      cases first : includeWholeArchive files resolver path with
      | error failure =>
          rw [first] at included
          exact nomatch included
      | ok middle =>
          rw [first] at included
          refine induction ?_ included
          rw [includeWholeArchive] at first
          cases read : files.readArchive path with
          | error failure =>
              rw [read] at first
              exact nomatch first
          | ok file =>
              rw [read] at first
              exact stable.resolveAll isSound first

theorem Stable.pullLazyMembers {members : List Member} {resolver : Resolver}
    {undefined : Finset Name} {state : LazyState} {count : Nat} (isSound : sound resolver)
    (pulled : pullLazyMembers members resolver undefined = .ok (state, count)) :
    sound state.resolver := by
  induction members generalizing resolver undefined state count with
  | nil =>
      cases pulled
      exact isSound
  | cons member rest induction =>
      have later {middle : Resolver} {names : Finset Name} (isMiddle : sound middle)
          {chosen : Member} {more : Nat}
          (ran : (do
            let result ← Peony.pullLazyMembers rest middle names
            return ({ result.1 with members := chosen :: result.1.members }, result.2 + more)) =
            Except.ok (state, count)) : sound state.resolver := by
        cases rested : Peony.pullLazyMembers rest middle names with
        | error failure =>
            rw [rested] at ran
            cases ran
        | ok result =>
            rw [rested] at ran
            have isLast : sound result.1.resolver := induction isMiddle rested
            cases ran
            exact isLast
      rw [Peony.pullLazyMembers] at pulled
      split at pulled
      · exact @later resolver undefined isSound member 0 pulled
      · split at pulled
        · exact @later resolver undefined isSound member 0 pulled
        · rename_i obj _ _
          cases resolved : resolver.resolve obj with
          | error failure =>
              rw [resolved] at pulled
              cases pulled
          | ok middle =>
              rw [resolved] at pulled
              exact later (stable isSound resolved) pulled

theorem Stable.startLibLoop {fuel : Nat} {before after : LazyState}
    (isSound : sound before.resolver) (looped : startLibLoop fuel before = .ok after) :
    sound after.resolver := by
  induction fuel generalizing before with
  | zero =>
      cases looped
      exact isSound
  | succ fuel induction =>
      rw [Peony.startLibLoop] at looped
      split at looped
      · cases looped
        exact isSound
      · cases pulled : Peony.pullLazyMembers before.members before.resolver
          before.undefined with
        | error failure =>
            rw [pulled] at looped
            exact nomatch looped
        | ok result =>
            rw [pulled] at looped
            have isNext := stable.pullLazyMembers isSound pulled
            change (if _ then _ else _ : Except _ _) = _ at looped
            split at looped
            · cases looped
              exact isNext
            · exact induction isNext looped

theorem Stable.archiveLoop {files : Files} {fuel : Nat} {before after : ArchiveState}
    (isSound : sound before.lazy.resolver)
    (looped : archiveLoop files fuel before = .ok after) :
    sound after.lazy.resolver := by
  induction fuel generalizing before with
  | zero =>
      cases looped
      exact isSound
  | succ fuel induction =>
      rw [Peony.archiveLoop] at looped
      split at looped
      · cases looped
        exact isSound
      · cases ran : archiveRound files before with
        | error failure =>
            rw [ran] at looped
            exact nomatch looped
        | ok result =>
            rw [ran] at looped
            rcases result with ⟨next, goesOn⟩
            rcases archiveRound_cases ran with ⟨scan, lazy, count, _, pulled, rfl, _⟩
            have isNext := stable.pullLazyMembers isSound pulled
            change (if _ then _ else _ : Except _ _) = _ at looped
            split at looped
            · exact induction isNext looped
            · cases looped
              exact isNext

end Loading

theorem reachable_loadObjects {files : Files} {classify : Path → FileKind}
    {inputs : List ResolvedInput} {forcedUndefined : List Name} {loaded : Loaded}
    (loads : loadObjects files classify inputs forcedUndefined = .ok loaded) :
    loaded.resolver.Reachable := by
  have stable : Stable Reachable := fun reachable resolved => reachable.resolve _ resolved
  simp only [loadObjects, bind, Except.bind] at loads
  split at loads
  · exact nomatch loads
  split at loads
  · exact nomatch loads
  rename_i bareOk
  split at loads
  · exact nomatch loads
  rename_i wholeOk
  split at loads
  · exact nomatch loads
  split at loads
  · exact nomatch loads
  rename_i startOk
  split at loads
  · exact nomatch loads
  rename_i archivedOk
  cases loads
  have bare := stable.resolveAll Reachable.empty bareOk
  have whole := stable.includeWholeArchives (bare.forceUndefined forcedUndefined) wholeOk
  rw [includeStartLibMembers] at startOk
  rw [includeArchiveMembers] at archivedOk
  have started := stable.startLibLoop whole startOk
  exact stable.archiveLoop started archivedOk

theorem Reachable.deduplicated {resolver : Resolver} (reachable : resolver.Reachable) :
    resolver.Deduplicated := by
  induction reachable with
  | empty => exact deduplicated_empty
  | resolve obj reachable resolved induction => exact induction.resolve resolved
  | forceUndefined names reachable induction => exact induction.forceUndefined names

section Few

variable {resolver : Resolver} (deduplicated : resolver.Deduplicated)

include deduplicated

theorem Deduplicated.mem_excluded_mod {key : Nat × Nat} :
    key ∈ resolver.excluded ↔ ∃ objId place group,
      IsLaterCopy resolver.objects objId place group ∧ key.1 = objId % 2 ^ 32 ∧
        key.2 ∈ group.members := by
  rw [deduplicated.excluded, List.mem_flatMap]
  constructor
  · rintro ⟨⟨input, objId⟩, isInput, inMembers⟩
    rcases List.mem_map.mp inMembers with ⟨member, isMember, rfl⟩
    have found := List.mem_zipIdx_iff_getElem?.mp isInput
    have inside := (List.getElem?_eq_some_iff.mp found).1
    rw [length_included] at inside
    have isObject := List.getElem?_eq_getElem inside
    rw [included, getElem?_processed isObject, Option.some.injEq] at found
    rw [← found] at isMember
    rcases (mem_excluded_processed isObject).mp isMember with ⟨place, group, isLater, among⟩
    exact ⟨objId, place, group, isLater, UInt32.toNat_ofNat', among⟩
  · rintro ⟨objId, place, group, isLater, isId, among⟩
    rcases isLater.1 with ⟨obj, isObject, _⟩
    refine ⟨(⟨obj, _⟩, objId),
      List.mem_zipIdx_iff_getElem?.mpr (getElem?_processed isObject), ?_⟩
    refine List.mem_map.mpr ⟨key.2,
      (mem_excluded_processed isObject).mpr ⟨place, group, isLater, among⟩, ?_⟩
    exact Prod.ext (UInt32.toNat_ofNat'.trans isId.symm) rfl

variable (few : resolver.objects.length ≤ 2 ^ 32)

include few

omit deduplicated in
theorem lt_of_isLaterCopy {objId place : Nat} {group : ComdatGroup}
    (isLater : IsLaterCopy resolver.objects objId place group) : objId < 2 ^ 32 := by
  rcases isLater.1 with ⟨obj, isObject, _⟩
  exact Nat.lt_of_lt_of_le (List.getElem?_eq_some_iff.mp isObject).1 few

theorem Deduplicated.mem_excluded {key : Nat × Nat} :
    key ∈ resolver.excluded ↔ ∃ place group,
      IsLaterCopy resolver.objects key.1 place group ∧ key.2 ∈ group.members := by
  rw [deduplicated.mem_excluded_mod]
  constructor
  · rintro ⟨objId, place, group, isLater, isId, among⟩
    rw [Nat.mod_eq_of_lt (lt_of_isLaterCopy few isLater)] at isId
    exact ⟨place, group, isId ▸ isLater, among⟩
  · rintro ⟨place, group, isLater, among⟩
    exact ⟨key.1, place, group, isLater,
      (Nat.mod_eq_of_lt (lt_of_isLaterCopy few isLater)).symm, among⟩

theorem Deduplicated.points_kept {name : Name} {owner : ObjectId} {sectionIndex : Nat}
    (points : resolver.symbols.PointsInto name owner sectionIndex) :
    (∃ obj, resolver.objects[owner.toNat]? = some obj ∧
      ∃ sym ∈ obj.symbols, sym.sectionIndex = some sectionIndex) ∧
    (owner.toNat, sectionIndex) ∉ resolver.excluded := by
  rcases deduplicated.points name owner sectionIndex points with
    ⟨objId, input, isInput, rfl, sym, isSym, merges, inSection⟩
  have inside := (List.getElem?_eq_some_iff.mp isInput).1
  rw [length_included] at inside
  have isObject := List.getElem?_eq_getElem inside
  rw [included, getElem?_processed isObject, Option.some.injEq] at isInput
  have isId : (UInt32.ofNat objId).toNat = objId := by
    rw [UInt32.toNat_ofNat']
    exact Nat.mod_eq_of_lt (Nat.lt_of_lt_of_le inside few)
  rw [isId]
  subst isInput
  refine ⟨⟨_, isObject, sym, isSym, inSection⟩, fun isExcluded => ?_⟩
  have lost := (mem_excluded_processed isObject).mpr
    ((deduplicated.mem_excluded few).mp isExcluded)
  simp only [SymbolTable.skipsSymbol, inSection, Bool.or_eq_false_iff] at merges
  exact Bool.eq_false_iff.mp merges.2 (List.contains_iff_mem.mpr lost)

end Few

end Resolver

end Peony
