import Peony.Symbols.Resolution
import Peony.Symbols.Updates

namespace Peony

/-! Resolution numbers what it defines: as long as the ids suffice, the id of a
tentative definition names it. -/

namespace SymbolTable

structure Numbers (table next : SymbolTable) : Prop where
  length_le : table.names.length ≤ next.names.length
  keeps : next.names.length ≤ 2 ^ 32 → table.Numbered → next.Numbered

namespace Numbers

theorem refl (table : SymbolTable) : Numbers table table := ⟨Nat.le_refl _, fun _ => id⟩

theorem trans {first second third : SymbolTable} (isFirst : Numbers first second)
    (isSecond : Numbers second third) : Numbers first third where
  length_le := Nat.le_trans isFirst.length_le isSecond.length_le
  keeps few numbered := isSecond.keeps few
    (isFirst.keeps (Nat.le_trans isSecond.length_le few) numbered)

/-- Write an entry that is not a tentative definition. -/
theorem put_plain {table : SymbolTable} (name : Name) {entry : SymbolResolution}
    (plain : entry.common = none) : Numbers table (table.put name entry) :=
  ⟨Nat.le_refl _, fun _ numbered => numbered.put fun isCommon => by
    rw [plain] at isCommon
    exact nomatch isCommon⟩

theorem pushName (table : SymbolTable) (name : Name) :
    Numbers table (table.pushName name) :=
  ⟨by rw [SymbolTable.pushName, List.length_append]; exact Nat.le_add_right _ _,
    fun _ numbered => numbered.pushName name⟩

theorem put_next {table : SymbolTable} (name : Name) {entry : SymbolResolution}
    (isNext : entry.id = table.nextId) (defined : entry.definedIn.isSome) :
    Numbers table ((table.pushName name).put name entry) where
  length_le := (pushName table name).length_le
  keeps few numbered := (numbered.pushName name).put fun _ => by
    refine ⟨defined, ?_⟩
    change (table.names ++ [name]).length ≤ 2 ^ 32 at few
    rw [List.length_append, List.length_singleton] at few
    have isIndex : (UInt32.ofNat table.names.length).toNat = table.names.length := by
      rw [UInt32.toNat_ofNat']
      exact Nat.mod_eq_of_lt (by omega)
    rw [isNext, nextId, nameById, isIndex, SymbolTable.pushName,
      List.getElem?_append_right (Nat.le_refl _), Nat.sub_self, List.getElem?_cons_zero]

theorem mergeUndefined (table : SymbolTable) (sym : InputSymbol) :
    Numbers table (table.mergeUndefined sym) := by
  rw [SymbolTable.mergeUndefined]
  cases found : table.lookup sym.name with
  | none => exact put_plain _ rfl
  | some entry =>
      change Numbers table (if _ then _ else if _ then _ else _ : SymbolTable)
      split
      · exact refl table
      · split
        · exact ⟨Nat.le_refl _, fun _ numbered =>
            numbered.put (numbered sym.name entry found)⟩
        · exact refl table

theorem mergeCommon (table : SymbolTable) (objId : ObjectId) (sym : InputSymbol) :
    Numbers table (table.mergeCommon objId sym) := by
  rw [SymbolTable.mergeCommon]
  cases found : table.lookup sym.name with
  | none => exact put_next _ rfl rfl
  | some entry =>
      dsimp only
      split
      · exact refl table
      · rename_i isCommon
        exact ⟨Nat.le_refl _, fun _ numbered => numbered.put fun _ =>
          numbered sym.name entry found (by rw [isCommon]; rfl)⟩
      · exact put_next _ rfl rfl

theorem mergeDefined {table next : SymbolTable} {objId : ObjectId} {sym : InputSymbol}
    (merged : table.mergeDefined objId sym = .ok next) : Numbers table next := by
  rw [SymbolTable.mergeDefined] at merged
  cases found : table.lookup sym.name with
  | none =>
      rw [found, Except.ok.injEq] at merged
      subst merged
      exact (pushName table sym.name).trans (put_plain _ rfl)
  | some entry =>
      rw [found] at merged
      change (if _ then _ else _ : Except _ _) = _ at merged
      split at merged
      · rw [Except.ok.injEq] at merged
        subst merged
        exact put_plain _ rfl
      · rename_i notCommon
        have plain : entry.common = none := Option.not_isSome_iff_eq_none.mp notCommon
        cases decided : conflictAction entry objId sym table.objectPaths with
        | error failure =>
            rw [decided] at merged
            cases merged
        | ok action =>
            rw [decided] at merged
            cases action with
            | satisfyUndef =>
                cases merged
                exact (pushName table sym.name).trans (put_plain _ plain)
            | upgrade =>
                cases merged
                exact put_plain _ plain
            | keepExisting =>
                cases merged
                exact refl table
            | warnLocal =>
                cases merged
                exact refl table

theorem mergeSymbol {table next : SymbolTable} {objId : ObjectId} {sym : InputSymbol}
    (merged : table.mergeSymbol objId sym = .ok next) : Numbers table next := by
  rw [SymbolTable.mergeSymbol] at merged
  split at merged
  · cases merged
    exact mergeUndefined table sym
  · split at merged
    · cases merged
      exact mergeCommon table objId sym
    · exact mergeDefined merged

theorem foldlM {Item : Type} {step : SymbolTable → Item → Except SymbolError SymbolTable}
    (numbers : ∀ {table next : SymbolTable} {item : Item},
      step table item = .ok next → Numbers table next)
    {items : List Item} {table next : SymbolTable}
    (ran : items.foldlM step table = .ok next) : Numbers table next := by
  induction items generalizing table with
  | nil =>
      cases ran
      exact refl _
  | cons item rest induction =>
      rw [List.foldlM_cons] at ran
      cases stepped : step table item with
      | error failure =>
          rw [stepped] at ran
          exact nomatch ran
      | ok middle =>
          rw [stepped] at ran
          exact (numbers stepped).trans (induction ran)

theorem addAndProcess {table next : SymbolTable} {input : ProcessedObject}
    (processed : addAndProcess table input = .ok next) : Numbers table next := by
  have added : Numbers table (table.addObject input.obj.path).1 :=
    ⟨Nat.le_refl _, fun _ => id⟩
  refine added.trans (foldlM (fun {table next sym} merged => ?_) processed)
  split at merged
  · cases merged
    exact refl _
  · exact mergeSymbol merged

end Numbers

theorem numbered_processAll {inputs : List ProcessedObject} {table : SymbolTable}
    (processed : processAll inputs = .ok table) (few : table.names.length ≤ 2 ^ 32) :
    table.Numbered :=
  (Numbers.foldlM Numbers.addAndProcess processed).keeps few
    fun _ _ found _ => nomatch found

end SymbolTable

end Peony
