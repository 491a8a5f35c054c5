import Peony.Driver.Relative
import Peony.Driver.Storage

namespace Peony

/-! The addresses that finalization gives to the symbols of sections, and those of their slots
in `.got`. -/

namespace Link

section

variable {link : Link} {table : SymbolTable} {layout : Layout}

/-- What finalization keeps of an entry for a symbol in a section. -/
def placeOf (res : SymbolResolution) :
    Option ObjectId × Option Nat × Option (UInt64 × UInt64) × Bool :=
  (res.definedIn, res.sectionIndex, res.common, res.isImport)

theorem lookup_setLinkerAddresses {provided : List ProvidedSymbol} {name : Name}
    (others : ∀ sym ∈ provided, sym.name ≠ name) (symbols : SymbolTable) :
    (setLinkerAddresses symbols layout provided).lookup name = symbols.lookup name := by
  rw [setLinkerAddresses]
  induction provided generalizing symbols with
  | nil => rfl
  | cons sym rest induction =>
      rw [List.foldl_cons, induction fun other among => others other (List.mem_cons_of_mem _ among),
        SymbolTable.lookup_modify, if_neg (others sym List.mem_cons_self).symm]

theorem value_finalizeSymbols (symbols : SymbolTable) (name : Name) :
    (finalizeSymbols symbols layout).seen SymbolResolution.value name =
      symbols.seen SymbolResolution.value name := by
  rw [finalizeSymbols, SymbolTable.seen_modifyById, SymbolTable.seen_modifyById,
    SymbolTable.seen_modifyById, SymbolTable.seen_modifyById, SymbolTable.seen_modifyAll]
  · intro entry
    rw [placedAddress]
    split
    · split
      · split <;> rfl
      · rfl
    · rfl
  all_goals exact fun _ _ => rfl

variable (defined : link.defined = some table) (numbered : link.numbered.Settled)
variable (settled : table.Settled)
variable (computed : LayoutInput.Computed (link.layoutInput table) layout)

include defined numbered settled computed

theorem virtualAddress_of_section {name : Name} {res : SymbolResolution}
    (found : (link.finalized table layout).lookup name = some res) {objId : ObjectId}
    {sectionIndex : Nat} (isDefined : res.definedIn = some objId)
    (isSection : res.sectionIndex = some sectionIndex) (uncommon : res.common = none)
    (notImport : res.isImport = false) {address : UInt64}
    (isAddress : layout.addressOf objId.toNat sectionIndex = some address) :
    res.virtualAddress = address + res.value := by
  have kept := link.seen_finalized placeOf (fun _ _ _ _ _ => rfl) table layout name
  rw [SymbolTable.seen, found, Option.map_some, SymbolTable.seen, eq_comm,
    Option.map_eq_some_iff] at kept
  rcases kept with ⟨old, isOld, same⟩
  simp only [placeOf, Prod.mk.injEq, isDefined, isSection, uncommon, notImport] at same
  rcases same with ⟨oldDefined, oldSection, oldCommon, oldImport⟩
  have others : ∀ sym ∈ link.provided, sym.name ≠ name := by
    intro sym isProvided isName
    rcases provided_definedNowhere defined isProvided with ⟨other, isOther, _, nowhere⟩
    rw [isName, isOld, Option.some.injEq] at isOther
    rw [← isOther, oldSection] at nowhere
    cases nowhere
  have before : (setLinkerAddresses table layout link.provided).lookup name = some old :=
    (lookup_setLinkerAddresses others table).trans isOld
  have ids := (setLinkerAddresses_known link.provided table layout name).2
  have value := @value_finalizeSymbols layout
    (setLinkerAddresses table layout link.provided) name
  rw [SymbolTable.seen, SymbolTable.seen, before] at value
  rw [finalized] at found
  rw [found, Option.map_some, Option.map_some, Option.some.injEq] at value
  have written := SymbolTable.virtualAddress_finalizeSymbols
    (setLinkerAddresses table layout link.provided) layout name
  rw [SymbolTable.seen, found, before, Option.map_some, Option.map_some,
    Option.some.injEq, SymbolTable.updatesOf_congr ids] at written
  have unstored : table.updatesOf (layout.common ++ layout.copyRelocs) name = [] := by
    rw [SymbolTable.updatesOf, LayoutInput.recorded_eq computed, List.map_eq_nil_iff,
      List.filter_eq_nil_iff]
    intro update among named
    rw [decide_eq_true_eq] at named
    rcases List.mem_map.mp among with ⟨place, isPlace, rfl⟩
    have isDemand := Demand.mem_demands isPlace
    have asks := (@LayoutInput.asks_iff (link.layoutInput table) settled name place.1.size
      place.1.align).mpr ⟨place.1, isDemand, named, rfl, rfl⟩
    cases asks with
    | common res declared isRes isCommon =>
        have same := Option.some.inj (isOld.symm.trans isRes)
        rw [← same, oldCommon] at isCommon
        cases isCommon
    | copied id res isCopy isNamed =>
        rcases @copySyms_layoutInput link table with none | some
        · rw [none] at isCopy
          exact absurd isCopy List.not_mem_nil
        · rw [some] at isCopy
          rcases areImports_copyRelocs numbered defined id isCopy name isNamed with
            ⟨entry, isRes, imported⟩
          have same := Option.some.inj (isOld.symm.trans isRes)
          rw [← same, oldImport] at imported
          cases imported
  rw [unstored, List.getLast?_nil, Option.getD_none, placedAddress, oldDefined, oldCommon] at written
  dsimp only at written
  rw [oldSection] at written
  dsimp only at written
  rw [isAddress] at written
  rw [written, value]

omit defined numbered settled computed in
/-- The last slot that is written stays. -/
theorem foldl_gotAddress (addresses : List UInt64) (entry : SymbolResolution) :
    (addresses.foldl (fun entry address => { entry with gotAddress := address })
        entry).gotAddress = addresses.getLast?.getD entry.gotAddress := by
  induction addresses using List.reverseRecOn with
  | nil => rfl
  | append_singleton rest address _ =>
      rw [List.foldl_append, List.getLast?_append, List.getLast?_singleton]
      rfl

omit defined numbered settled computed in
theorem gotAddress_modifyById (symbols : SymbolTable) (updates : List (SymbolId × UInt64))
    (name : Name) :
    (symbols.modifyById updates fun address entry =>
        { entry with gotAddress := address }).seen SymbolResolution.gotAddress name =
      (symbols.seen SymbolResolution.gotAddress name).map
        ((symbols.updatesOf updates name).getLast?.getD ·) := by
  rw [SymbolTable.seen, SymbolTable.lookup_modifyById, SymbolTable.seen, Option.map_map,
    Option.map_map]
  exact congrFun (congrArg Option.map (funext fun entry => foldl_gotAddress _ entry))
    (symbols.lookup name)

omit defined numbered settled computed in
theorem gotAddress_finalizeSymbols (symbols : SymbolTable) (name : Name) :
    (finalizeSymbols symbols layout).seen SymbolResolution.gotAddress name =
      (symbols.seen SymbolResolution.gotAddress name).map
        ((symbols.updatesOf (slotAddresses layout.gotBase 8 layout.gotSlots) name).getLast?.getD
          ·) := by
  rw [finalizeSymbols, SymbolTable.seen_modifyById, gotAddress_modifyById,
    SymbolTable.seen_modifyById, SymbolTable.seen_modifyById, SymbolTable.seen_modifyAll,
    SymbolTable.updatesOf_congr fun id => (SymbolTable.nameById_modifyById _ _ _ id).trans
      ((SymbolTable.nameById_modifyById _ _ _ id).trans
        (SymbolTable.nameById_modifyAll symbols _ id))]
  · intro entry
    rw [placedAddress]
    split
    · split
      · split <;> rfl
      · rfl
    · rfl
  all_goals exact fun _ _ => rfl

omit defined numbered settled computed in
theorem nameById_finalized (id : SymbolId) :
    (link.finalized table layout).nameById id = table.nameById id := by
  rw [finalized, finalizeSymbols, SymbolTable.nameById_modifyById,
    SymbolTable.nameById_modifyById, SymbolTable.nameById_modifyById,
    SymbolTable.nameById_modifyById, SymbolTable.nameById_modifyAll]
  exact (setLinkerAddresses_known link.provided table layout []).2 id

omit defined numbered settled computed in
theorem exists_slot {name : Name} {res : SymbolResolution}
    (found : (link.finalized table layout).lookup name = some res)
    (hasSlot : ∃ id ∈ layout.gotSlots, table.nameById id = some name) :
    ∃ place id, layout.gotSlots[place]? = some id ∧ table.nameById id = some name ∧
      res.gotAddress = layout.gotBase + UInt64.ofNat place * 8 := by
  have ids := (setLinkerAddresses_known link.provided table layout name).2
  rw [finalized] at found
  have written := @gotAddress_finalizeSymbols layout
    (setLinkerAddresses table layout link.provided) name
  rw [SymbolTable.seen, found, Option.map_some, SymbolTable.updatesOf_congr ids, eq_comm,
    Option.map_eq_some_iff] at written
  rcases written with ⟨before, _, last⟩
  rcases hasSlot with ⟨own, isOwn, named⟩
  have update (entry : SymbolId × UInt64) :
      entry ∈ slotAddresses layout.gotBase 8 layout.gotSlots ↔
        ∃ place, layout.gotSlots[place]? = some entry.1 ∧
          entry.2 = layout.gotBase + UInt64.ofNat place * 8 := by
    rw [slotAddresses, List.mem_map]
    constructor
    · rintro ⟨⟨id, place⟩, among, rfl⟩
      exact ⟨place, List.mem_zipIdx_iff_getElem?.mp among, rfl⟩
    · rintro ⟨place, among, isAddress⟩
      exact ⟨(entry.1, place), List.mem_zipIdx_iff_getElem?.mpr among, Prod.ext rfl isAddress.symm⟩
  rcases List.mem_iff_getElem?.mp isOwn with ⟨place, isPlace⟩
  have nonempty : table.updatesOf (slotAddresses layout.gotBase 8 layout.gotSlots) name ≠ [] := by
    apply List.ne_nil_of_mem
    exact List.mem_map_of_mem (List.mem_filter.mpr
      ⟨(update (own, layout.gotBase + UInt64.ofNat place * 8)).mpr ⟨place, isPlace, rfl⟩,
        decide_eq_true named⟩)
  rw [List.getLast?_eq_some_getLast nonempty, Option.getD_some] at last
  have isLast := List.getLast_mem nonempty
  rw [last] at isLast
  rcases List.mem_map.mp isLast with ⟨entry, isEntry, isAddress⟩
  rcases List.mem_filter.mp isEntry with ⟨among, isNamed⟩
  rcases (update entry).mp among with ⟨other, isOther, address⟩
  exact ⟨other, entry.1, isOther, of_decide_eq_true isNamed, isAddress.symm.trans address⟩

end

end Link

end Peony
