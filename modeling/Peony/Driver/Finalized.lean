import Peony.Driver.Link

namespace Peony

/-! What finalization makes of the entries of the symbol table: it writes addresses into
them and keeps the rest. -/

namespace SymbolTable

/-! ## Rewriting entries -/

@[simp] theorem nameById_modify (table : SymbolTable) (name : Name)
    (change : SymbolResolution → SymbolResolution) (id : SymbolId) :
    (table.modify name change).nameById id = table.nameById id := by
  rw [modify]
  split <;> rfl

theorem lookup_modify (table : SymbolTable) (name other : Name)
    (change : SymbolResolution → SymbolResolution) :
    (table.modify name change).lookup other =
      if other = name then (table.lookup other).map change else table.lookup other := by
  rw [modify]
  by_cases same : other = name
  · subst same
    rw [if_pos rfl]
    cases found : table.lookup other with
    | none => exact found
    | some entry => exact lookup_put_self table other (change entry)
  · rw [if_neg same]
    split
    · exact lookup_put_of_ne _ _ same
    · rfl

theorem lookup_modifyAll (table : SymbolTable) (name : Name)
    (change : SymbolResolution → SymbolResolution) :
    (table.modifyAll change).lookup name = (table.lookup name).map change := by
  have each (keys : List Name) (distinct : keys.Nodup) (table : SymbolTable) :
      (keys.foldl (fun table name => table.modify name change) table).lookup name =
        if name ∈ keys then (table.lookup name).map change else table.lookup name := by
    induction keys generalizing table with
    | nil => rfl
    | cons key rest induction =>
        rcases List.nodup_cons.mp distinct with ⟨fresh, restDistinct⟩
        rw [List.foldl_cons, induction restDistinct, lookup_modify]
        by_cases same : name = key
        · subst same
          rw [if_neg fresh, if_pos rfl, if_pos List.mem_cons_self]
        · simp only [List.mem_cons, same, false_or, if_false]
  have distinct : table.resolutions.keys.Nodup := table.resolutions.nodupKeys
  rw [modifyAll, each table.resolutions.keys distinct]
  split
  · rfl
  · rename_i absent
    have unknown : table.lookup name = none := AList.lookup_eq_none.mpr absent
    rw [unknown]
    rfl

/-- The updates that a name gets, one after the other. -/
def updatesOf (table : SymbolTable) (updates : List (SymbolId × UInt64)) (name : Name) :
    List UInt64 :=
  (updates.filter fun update => table.nameById update.1 = some name).map Prod.snd

theorem lookup_modifyById (table : SymbolTable) (updates : List (SymbolId × UInt64))
    (name : Name) (change : UInt64 → SymbolResolution → SymbolResolution) :
    (table.modifyById updates change).lookup name =
      (table.lookup name).map fun entry =>
        (table.updatesOf updates name).foldl (fun entry address => change address entry)
          entry := by
  rw [modifyById, updatesOf]
  induction updates generalizing table with
  | nil => exact Option.map_id'.symm
  | cons update rest induction =>
      rw [List.foldl_cons, List.filter_cons]
      cases isNamed : table.nameById update.1 with
      | none =>
          rw [if_neg (by rintro ⟨⟩)]
          exact induction table
      | some named =>
          dsimp only
          rw [induction, lookup_modify]
          simp only [nameById_modify]
          by_cases same : name = named
          · subst same
            rw [if_pos rfl, if_pos (decide_eq_true rfl), Option.map_map]
            rfl
          · rw [if_neg same, if_neg]
            rw [decide_eq_true_eq, Option.some.injEq]
            exact fun other => same other.symm

/-! ## What is kept -/

section Kept

variable {View : Type} (view : SymbolResolution → View)

def seen (table : SymbolTable) (name : Name) : Option View := (table.lookup name).map view

theorem seen_modify (table : SymbolTable) (name other : Name)
    {change : SymbolResolution → SymbolResolution}
    (keeps : ∀ entry, view (change entry) = view entry) :
    (table.modify name change).seen view other = table.seen view other := by
  rw [seen, seen, lookup_modify]
  split
  · rw [Option.map_map]
    exact congrFun (congrArg Option.map (funext keeps)) (table.lookup other)
  · rfl

theorem seen_modifyAll (table : SymbolTable) (name : Name)
    {change : SymbolResolution → SymbolResolution}
    (keeps : ∀ entry, view (change entry) = view entry) :
    (table.modifyAll change).seen view name = table.seen view name := by
  rw [seen, seen, lookup_modifyAll, Option.map_map]
  exact congrFun (congrArg Option.map (funext keeps)) (table.lookup name)

theorem seen_modifyById (table : SymbolTable) (updates : List (SymbolId × UInt64))
    (name : Name) {change : UInt64 → SymbolResolution → SymbolResolution}
    (keeps : ∀ address entry, view (change address entry) = view entry) :
    (table.modifyById updates change).seen view name = table.seen view name := by
  rw [modifyById]
  induction updates generalizing table with
  | nil => rfl
  | cons update rest induction =>
      rw [List.foldl_cons, induction]
      split
      · exact seen_modify view table _ name (keeps update.2)
      · rfl

end Kept

end SymbolTable

theorem Link.seen_finalized {View : Type} (view : SymbolResolution → View)
    (keeps : ∀ entry value address got plt, view { entry with
      value := value, virtualAddress := address, gotAddress := got, pltAddress := plt } =
        view entry)
    (link : Link) (symbols : SymbolTable) (layout : Layout) (name : Name) :
    (link.finalized symbols layout).seen view name = symbols.seen view name := by
  have provides (syms : List ProvidedSymbol) (table : SymbolTable) :
      (setLinkerAddresses table layout syms).seen view name = table.seen view name := by
    rw [setLinkerAddresses]
    induction syms generalizing table with
    | nil => rfl
    | cons sym rest induction =>
        rw [List.foldl_cons, induction]
        exact SymbolTable.seen_modify view table _ name fun entry => keeps entry _ _
          entry.gotAddress entry.pltAddress
  rw [finalized, finalizeSymbols]
  rw [SymbolTable.seen_modifyById view, SymbolTable.seen_modifyById view,
    SymbolTable.seen_modifyById view, SymbolTable.seen_modifyById view,
    SymbolTable.seen_modifyAll view, provides]
  · intro entry
    rw [placedAddress]
    split
    · split
      · split
        · exact keeps entry entry.value _ entry.gotAddress entry.pltAddress
        · rfl
      · exact keeps entry entry.value _ entry.gotAddress entry.pltAddress
    · rfl
  · exact fun address entry => keeps entry entry.value address entry.gotAddress entry.pltAddress
  · exact fun address entry => keeps entry entry.value address entry.gotAddress entry.pltAddress
  · exact fun address entry =>
      keeps entry entry.value entry.virtualAddress address entry.pltAddress
  · exact fun address entry =>
      keeps entry entry.value entry.virtualAddress entry.gotAddress address

end Peony
