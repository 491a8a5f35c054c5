import Peony.Foundation.Reduction
import Peony.Reloc.Dynamic

namespace Peony

/-! The passes over the absolute references that look for one class of entries each,
and the counts taken one by one. -/

section Collecting

variable (symbols : SymbolTable) (layout : Layout)

/-- The address a reference to the image takes, and whether it is that of a resolver. -/
def dataTarget (objId : Nat) (sym : InputSymbol) : Option (UInt64 × Bool) :=
  if sym.binding = .local then
    match sym.sectionIndex.bind (layout.addressOf objId) with
    | some va => some (va + sym.value, sym.isIfunc)
    | none => none
  else
    match symbols.lookup sym.name with
    | some res =>
        if res.isDefined && (!res.isImport || res.copyReloc) then
          some (res.virtualAddress, res.isIfunc)
        else none
    | none => none

/-- The lists that the pass over the references to the image fills. -/
structure DataRelocs where
  relative : List (UInt64 × UInt64) := []
  irelative : List (UInt64 × UInt64) := []

namespace DataRelocs

def pushRelative (found : DataRelocs) (site value : UInt64) : DataRelocs :=
  { found with relative := found.relative ++ [(site, value)] }

def pushIrelative (found : DataRelocs) (site resolver : UInt64) : DataRelocs :=
  { found with irelative := found.irelative ++ [(site, resolver)] }

def sorted (found : DataRelocs) : DataRelocs where
  relative := sortBy comparePair found.relative
  irelative := sortBy comparePair found.irelative

end DataRelocs

def pushDataReloc (objId : Nat) (obj : InputObject) (sec : InputSection)
    (found : DataRelocs) (reloc : InputReloc) : DataRelocs :=
  if reloc.rType ≠ RelocType.r64.code then found
  else
    match obj.symbolByIndex reloc.symbol with
    | none => found
    | some sym =>
        match dataTarget symbols layout objId sym with
        | none => found
        | some (target, isIfunc) =>
            match layout.addressOf objId sec.index with
            | none => found
            | some siteVa =>
                let site := siteVa + reloc.offset
                if isIfunc then found.pushIrelative site target
                else found.pushRelative site (target + reloc.addend.toUInt64)

def pushSlotReloc (found : DataRelocs) (slot : SymbolId × Nat) : DataRelocs :=
  match symbols.nameById slot.1 with
  | none => found
  | some name =>
      match symbols.lookup name with
      | none => found
      | some res =>
          if (res.isImport && !res.copyReloc) || !res.isDefined then found
          else
            let site := layout.gotBase + UInt64.ofNat slot.2 * 8
            if res.isIfunc then found.pushIrelative site res.virtualAddress
            else found.pushRelative site res.virtualAddress

def collectDynamicDataRelocs (objects : List InputObject) : DataRelocs :=
  let inputs := objects.zipIdx.foldl (fun found obj =>
    (obj.1.sections.filter InputSection.isAlloc).foldl (fun found sec =>
      sec.relocs.foldl (pushDataReloc symbols layout obj.2 obj.1 sec) found) found) {}
  (layout.gotSlots.zipIdx.foldl (pushSlotReloc symbols layout) inputs).sorted

def pushSymbolic (objId : Nat) (obj : InputObject) (sec : InputSection)
    (found : List (UInt64 × UInt32 × Int64)) (reloc : InputReloc) :
    List (UInt64 × UInt32 × Int64) :=
  if reloc.rType ≠ RelocType.r64.code then found
  else
    match obj.symbolByIndex reloc.symbol with
    | none => found
    | some sym =>
        if sym.binding = .local then found
        else
          match symbols.lookup sym.name with
          | none => found
          | some res =>
              if !res.isImport || res.copyReloc || res.dynsymIndex == 0 then found
              else
                match layout.addressOf objId sec.index with
                | none => found
                | some siteVa =>
                    found ++ [(siteVa + reloc.offset, res.dynsymIndex, reloc.addend)]

def collectSymbolicDataRelocs (objects : List InputObject) :
    List (UInt64 × UInt32 × Int64) :=
  sortBy compareSymbolic (objects.zipIdx.foldl (fun found obj =>
    (obj.1.sections.filter InputSection.isAlloc).foldl (fun found sec =>
      sec.relocs.foldl (pushSymbolic symbols layout obj.2 obj.1 sec) found) found) [])

end Collecting

/-! ## What one pass adds to its lists -/

def DataRelocs.extend (found : DataRelocs) (sites : List DynamicSite) : DataRelocs where
  relative := found.relative ++ sites.filterMap DynamicSite.relative?
  irelative := found.irelative ++ sites.filterMap DynamicSite.irelative?

namespace DataRelocs

variable (found : DataRelocs)

@[simp] theorem extend_nil : found.extend [] = found := by
  simp [extend]

theorem extend_append (sites others : List DynamicSite) :
    found.extend (sites ++ others) = (found.extend sites).extend others := by
  simp [extend]

@[simp] theorem extend_relative (site value : UInt64) :
    found.extend [.relative site value] = found.pushRelative site value := by
  simp [extend, pushRelative, DynamicSite.relative?, DynamicSite.irelative?]

@[simp] theorem extend_irelative (site resolver : UInt64) :
    found.extend [.irelative site resolver] = found.pushIrelative site resolver := by
  simp [extend, pushIrelative, DynamicSite.relative?, DynamicSite.irelative?]

@[simp] theorem extend_symbolic (site : UInt64) (index : UInt32) (addend : Int64) :
    found.extend [.symbolic site index addend] = found := by
  change DataRelocs.mk (found.relative ++ []) (found.irelative ++ []) = found
  rw [List.append_nil, List.append_nil]

end DataRelocs

section Fused

variable (symbols : SymbolTable) (layout : Layout)

def placedSite (objId : Nat) (obj : InputObject) (sec : InputSection)
    (reloc : InputReloc) : List DynamicSite :=
  match layout.addressOf objId sec.index with
  | none => []
  | some siteVa => (relocSite symbols layout objId obj siteVa reloc).toList

theorem sectionSites_eq_flatMap (objId : Nat) (obj : InputObject) (sec : InputSection) :
    sectionSites symbols layout objId obj sec =
      sec.relocs.flatMap (placedSite symbols layout objId obj sec) := by
  unfold sectionSites
  cases placed : layout.addressOf objId sec.index with
  | none => simp [placedSite, placed]
  | some siteVa =>
      have same : placedSite symbols layout objId obj sec =
          fun reloc => (relocSite symbols layout objId obj siteVa reloc).toList := by
        funext reloc
        rw [placedSite, placed]
      rw [same]
      exact List.filterMap_eq_flatMap_toList _ _

theorem extend_symSite (objId : Nat) (sym : InputSymbol) (site : UInt64) (addend : Int64)
    (found : DataRelocs) :
    found.extend (symSite symbols layout objId site addend sym).toList =
      match dataTarget symbols layout objId sym with
      | none => found
      | some (target, true) => found.pushIrelative site target
      | some (target, false) => found.pushRelative site (target + addend.toUInt64) := by
  unfold symSite dataTarget
  split
  · cases sym.sectionIndex.bind (layout.addressOf objId) with
    | none => simp
    | some va => cases sym.isIfunc <;> simp
  · cases symbols.lookup sym.name with
    | none => simp
    | some res =>
        by_cases inImage : (res.isDefined && (!res.isImport || res.copyReloc)) = true
        · simp only [inImage, if_true]
          cases res.isIfunc <;> simp
        · simp only [inImage, Bool.false_eq_true, if_false]
          split <;> simp

theorem pushDataReloc_eq (objId : Nat) (obj : InputObject) (sec : InputSection)
    (found : DataRelocs) (reloc : InputReloc) :
    pushDataReloc symbols layout objId obj sec found reloc =
      found.extend (placedSite symbols layout objId obj sec reloc) := by
  unfold pushDataReloc placedSite relocSite
  by_cases other : reloc.rType ≠ RelocType.r64.code
  · cases layout.addressOf objId sec.index <;> simp [other]
  · simp only [other, if_false]
    cases obj.symbolByIndex reloc.symbol with
    | none => cases layout.addressOf objId sec.index <;> simp
    | some sym =>
        simp only [Option.bind_some]
        cases layout.addressOf objId sec.index with
        | none =>
            cases dataTarget symbols layout objId sym with
            | none => exact found.extend_nil.symm
            | some target => exact found.extend_nil.symm
        | some siteVa =>
            rw [extend_symSite]
            cases dataTarget symbols layout objId sym with
            | none => rfl
            | some target =>
                rcases target with ⟨address, isIfunc⟩
                cases isIfunc <;> rfl

theorem pushSlotReloc_eq (found : DataRelocs) (slot : SymbolId × Nat) :
    pushSlotReloc symbols layout found slot =
      found.extend (slotSite symbols layout slot.2 slot.1).toList := by
  unfold pushSlotReloc slotSite SymbolTable.byId
  cases symbols.nameById slot.1 with
  | none => simp
  | some name =>
      cases found : symbols.lookup name with
      | none => simp [found]
      | some res =>
          simp only [Option.bind_some, found]
          split
          · simp
          · cases res.isIfunc <;> simp

theorem symbolic_symSite (objId : Nat) (sym : InputSymbol) (site : UInt64)
    (addend : Int64) :
    (symSite symbols layout objId site addend sym).toList.filterMap
        DynamicSite.symbolic? =
      if sym.binding = .local then []
      else
        match symbols.lookup sym.name with
        | none => []
        | some res =>
            if !res.isImport || res.copyReloc || res.dynsymIndex == 0 then []
            else [(site, res.dynsymIndex, addend)] := by
  unfold symSite
  split
  · cases sym.sectionIndex.bind (layout.addressOf objId) with
    | none => rfl
    | some va => cases sym.isIfunc <;> rfl
  · cases symbols.lookup sym.name with
    | none => rfl
    | some res =>
        by_cases outside : (res.isImport && !res.copyReloc) = true
        · rcases Bool.and_eq_true_iff.mp outside with ⟨imported, notCopied⟩
          have copied : res.copyReloc = false := by simpa using notCopied
          by_cases index : res.dynsymIndex = 0
          · simp [imported, copied, index]
          · simp [imported, copied, index, DynamicSite.symbolic?]
        · have inside : (!res.isImport || res.copyReloc) = true := by
            cases imported : res.isImport <;> cases copied : res.copyReloc <;>
              simp_all
          simp only [inside, outside, Bool.and_true, Bool.false_and, Bool.true_or,
            Bool.false_eq_true, if_false, if_true]
          split
          · cases res.isIfunc <;> rfl
          · rfl

theorem pushSymbolic_eq (objId : Nat) (obj : InputObject) (sec : InputSection)
    (found : List (UInt64 × UInt32 × Int64)) (reloc : InputReloc) :
    pushSymbolic symbols layout objId obj sec found reloc =
      found ++ (placedSite symbols layout objId obj sec reloc).filterMap
        DynamicSite.symbolic? := by
  unfold pushSymbolic placedSite relocSite
  by_cases other : reloc.rType ≠ RelocType.r64.code
  · cases layout.addressOf objId sec.index <;> simp [other]
  · simp only [other, if_false]
    cases obj.symbolByIndex reloc.symbol with
    | none => cases layout.addressOf objId sec.index <;> simp
    | some sym =>
        simp only [Option.bind_some]
        cases layout.addressOf objId sec.index with
        | none =>
            split
            · simp
            · split
              · simp
              · split <;> simp
        | some siteVa =>
            dsimp only
            rw [symbolic_symSite]
            split
            · simp
            · cases symbols.lookup sym.name with
              | none => simp
              | some res =>
                  dsimp only
                  split <;> simp

theorem inputs_pushed (objects : List InputObject) {σ : Type} (extend : σ → List DynamicSite → σ)
    (extend_nil : ∀ found, extend found [] = found)
    (extend_append : ∀ found sites others,
      extend found (sites ++ others) = extend (extend found sites) others)
    (push : Nat → InputObject → InputSection → σ → InputReloc → σ)
    (adds : ∀ objId obj sec found reloc, push objId obj sec found reloc =
      extend found (placedSite symbols layout objId obj sec reloc)) (found : σ) :
    objects.zipIdx.foldl (fun found obj =>
        (obj.1.sections.filter InputSection.isAlloc).foldl (fun found sec =>
          sec.relocs.foldl (push obj.2 obj.1 sec) found) found) found =
      extend found (inputSites objects symbols layout) := by
  refine List.foldl_eq_flatMap extend_nil extend_append (fun obj _ found => ?_) found
  refine List.foldl_eq_flatMap extend_nil extend_append (fun sec _ found => ?_) found
  rw [sectionSites_eq_flatMap]
  exact List.foldl_eq_flatMap extend_nil extend_append
    (fun reloc _ found => adds obj.2 obj.1 sec found reloc) found

end Fused

/-- The two lists of references to the image are those of the single pass. -/
theorem collectDynamicDataRelocs_eq (objects : List InputObject) (symbols : SymbolTable)
    (layout : Layout) :
    collectDynamicDataRelocs symbols layout objects =
      { relative := (collectDataAndSymbolicRelocs objects symbols layout).relative
        irelative := (collectDataAndSymbolicRelocs objects symbols layout).irelative } := by
  have slots (found : DataRelocs) :
      layout.gotSlots.zipIdx.foldl (pushSlotReloc symbols layout) found =
        found.extend (gotSites symbols layout) := by
    rw [gotSites, List.filterMap_eq_flatMap_toList]
    exact List.foldl_eq_flatMap DataRelocs.extend_nil DataRelocs.extend_append
      (fun slot _ found => pushSlotReloc_eq symbols layout found slot) found
  rw [collectDynamicDataRelocs, slots, inputs_pushed symbols layout objects
    DataRelocs.extend DataRelocs.extend_nil DataRelocs.extend_append _
    (pushDataReloc_eq symbols layout), ← DataRelocs.extend_append]
  rfl

theorem collectSymbolicDataRelocs_eq (objects : List InputObject)
    (symbols : SymbolTable) (layout : Layout) :
    collectSymbolicDataRelocs symbols layout objects =
      (collectDataAndSymbolicRelocs objects symbols layout).symbolic := by
  rw [collectSymbolicDataRelocs, inputs_pushed symbols layout objects
    (fun found sites => found ++ sites.filterMap DynamicSite.symbolic?)
    (fun found => List.append_nil found) (fun found sites others => by simp) _
    (pushSymbolic_eq symbols layout)]
  have noSlots : (gotSites symbols layout).filterMap DynamicSite.symbolic? = [] := by
    rw [List.filterMap_eq_nil_iff]
    intro site present
    rcases List.mem_filterMap.mp present with ⟨slot, -, isSite⟩
    unfold slotSite at isSite
    split at isSite
    · cases isSite
    · split at isSite
      · cases isSite
      · dsimp only at isSite
        split at isSite <;> cases isSite <;> rfl
  simp only [collectDataAndSymbolicRelocs, List.filterMap_append, noSlots, List.append_nil,
    List.nil_append]

/-! ## Counting one class -/

namespace DynamicRelocCounts

theorem add_eq (first second : DynamicRelocCounts) : first + second =
    ⟨first.relativeTotal + second.relativeTotal, first.irelative + second.irelative,
      first.symbolicData + second.symbolicData, first.tls + second.tls⟩ := rfl

instance : Zero DynamicRelocCounts := ⟨{}⟩

theorem zero_eq : (0 : DynamicRelocCounts) = ⟨0, 0, 0, 0⟩ := rfl

instance : AddMonoid DynamicRelocCounts where
  add_assoc first second third := by simp only [add_eq, Nat.add_assoc]
  zero_add counts := by simp only [add_eq, zero_eq, Nat.zero_add]
  add_zero counts := by simp only [add_eq, zero_eq, Nat.add_zero]
  nsmul := nsmulRec

/-- The number of entries that hold an address of the image. -/
def relativeTotals : DynamicRelocCounts →+ Nat where
  toFun := relativeTotal
  map_zero' := rfl
  map_add' _ _ := rfl

def irelatives : DynamicRelocCounts →+ Nat where
  toFun := irelative
  map_zero' := rfl
  map_add' _ _ := rfl

end DynamicRelocCounts

section Counting

variable (objects : List InputObject) (symbols : SymbolTable)

def InputObject.imageRelocs (obj : InputObject) : List InputReloc :=
  (obj.sections.filter InputSection.isAlloc).flatMap InputSection.relocs

/-- An absolute reference to the image. -/
def countsRelative (obj : InputObject) (reloc : InputReloc) : Bool :=
  if reloc.rType ≠ RelocType.r64.code then false
  else
    match obj.symbolByIndex reloc.symbol with
    | none => false
    | some sym =>
        if sym.binding = .local then sym.sectionIndex.isSome
        else (symbols.lookup sym.name).any fun res =>
          res.isDefined && (!res.isImport || res.copyReloc)

def countRelative : Nat :=
  (objects.map fun obj => obj.imageRelocs.countP (countsRelative symbols obj)).sum

def countGotRelative (gotSyms : List SymbolId) : Nat :=
  gotSyms.countP fun id => ((symbols.nameById id).bind symbols.lookup).any fun res =>
    (!res.isImport || res.copyReloc) && res.isDefined

/-- An absolute reference to a resolver of the image. -/
def countsIrelative (obj : InputObject) (reloc : InputReloc) : Bool :=
  if reloc.rType ≠ RelocType.r64.code then false
  else
    match obj.symbolByIndex reloc.symbol with
    | none => false
    | some sym =>
        if sym.binding = .local then sym.sectionIndex.isSome && sym.isIfunc
        else (symbols.lookup sym.name).any fun res =>
          res.isDefined && !res.isImport && res.isIfunc

def countIrelative (gotSyms : List SymbolId) : Nat :=
  (objects.map fun obj => obj.imageRelocs.countP (countsIrelative symbols obj)).sum +
    gotSyms.countP fun id => ((symbols.nameById id).bind symbols.lookup).any fun res =>
      !res.isImport && res.isDefined && res.isIfunc

def countDynamicRelocsShared (shares : Shares InputObject) (gotSyms : List SymbolId)
    (tls : TlsGotInfo) (shared : Bool) : DynamicRelocCounts :=
  let inputs := shares.reduce (countObject symbols)
  let counts := gotSyms.foldl (fun counts id => counts + countSlot symbols id) inputs
  { counts with tls := countTlsRelocs symbols tls shared }

end Counting

theorem List.sum_toNat {α : Type*} (counted : α → Bool) (items : List α) :
    (items.map fun item => (counted item).toNat).sum = items.countP counted := by
  induction items with
  | nil => rfl
  | cons item rest induction =>
      rw [List.map_cons, List.sum_cons, induction, List.countP_cons, Nat.add_comm]
      cases counted item <;> rfl

section Totals

variable (symbols : SymbolTable)

theorem relativeTotals_countReloc (obj : InputObject) (reloc : InputReloc) :
    (countReloc symbols obj reloc).relativeTotal =
      (countsRelative symbols obj reloc).toNat := by
  unfold countReloc countsRelative
  split
  · rfl
  · cases obj.symbolByIndex reloc.symbol with
    | none => rfl
    | some sym =>
        dsimp only
        unfold countSym
        split
        · cases sym.sectionIndex <;> rfl
        · cases symbols.lookup sym.name with
          | none => rfl
          | some res =>
              rw [Option.any_some]
              dsimp only
              cases res.isImport <;> cases res.copyReloc <;> cases res.isDefined <;> rfl

theorem irelatives_countReloc (obj : InputObject) (reloc : InputReloc) :
    (countReloc symbols obj reloc).irelative =
      (countsIrelative symbols obj reloc).toNat := by
  unfold countReloc countsIrelative
  split
  · rfl
  · cases obj.symbolByIndex reloc.symbol with
    | none => rfl
    | some sym =>
        dsimp only
        unfold countSym
        split
        · cases sym.sectionIndex <;> cases sym.isIfunc <;> rfl
        · cases symbols.lookup sym.name with
          | none => rfl
          | some res =>
              rw [Option.any_some]
              dsimp only
              cases res.isImport <;> cases res.copyReloc <;> cases res.isDefined <;>
                cases res.isIfunc <;> rfl

theorem relativeTotals_countSlot (id : SymbolId) :
    (countSlot symbols id).relativeTotal =
      (((symbols.nameById id).bind symbols.lookup).any fun res =>
        (!res.isImport || res.copyReloc) && res.isDefined).toNat := by
  unfold countSlot SymbolTable.byId
  cases (symbols.nameById id).bind symbols.lookup with
  | none => rfl
  | some res =>
      rw [Option.any_some]
      dsimp only
      cases res.isImport <;> cases res.copyReloc <;> cases res.isDefined <;> rfl

theorem irelatives_countSlot (id : SymbolId) :
    (countSlot symbols id).irelative =
      (((symbols.nameById id).bind symbols.lookup).any fun res =>
        !res.isImport && res.isDefined && res.isIfunc).toNat := by
  unfold countSlot SymbolTable.byId
  cases (symbols.nameById id).bind symbols.lookup with
  | none => rfl
  | some res =>
      rw [Option.any_some]
      dsimp only
      cases res.isImport <;> cases res.copyReloc <;> cases res.isDefined <;>
        cases res.isIfunc <;> rfl

theorem counted_total (kind : DynamicRelocCounts →+ Nat)
    {ofReloc : InputObject → InputReloc → Bool} {ofSlot : SymbolId → Bool}
    (relocs : ∀ obj reloc, kind (countReloc symbols obj reloc) = (ofReloc obj reloc).toNat)
    (slots : ∀ id, kind (countSlot symbols id) = (ofSlot id).toNat)
    (shares : Shares InputObject) (gotSyms : List SymbolId) :
    kind (gotSyms.foldl (fun counts id => counts + countSlot symbols id)
        (shares.reduce (countObject symbols))) =
      (shares.items.map fun obj => obj.imageRelocs.countP (ofReloc obj)).sum +
        gotSyms.countP ofSlot := by
  have object (obj : InputObject) :
      kind (countObject symbols obj) = obj.imageRelocs.countP (ofReloc obj) := by
    rw [countObject]
    change kind (List.foldl _ 0 _) = _
    rw [List.foldl_add_value, zero_add, map_list_sum, List.map_map, ← List.sum_toNat]
    exact congrArg List.sum (List.map_congr_left fun reloc _ => relocs obj reloc)
  rw [List.foldl_add_value, Shares.reduce_eq_sum, map_add, map_list_sum, map_list_sum,
    List.map_map, List.map_map, ← List.sum_toNat]
  congr 2
  · exact List.map_congr_left fun obj _ => object obj
  · exact List.map_congr_left fun id _ => slots id

theorem countDynamicRelocsShared_eq (shares : Shares InputObject)
    (gotSyms : List SymbolId) (tls : TlsGotInfo) (shared : Bool) :
    countDynamicRelocsShared symbols shares gotSyms tls shared =
      countDynamicRelocs shares.items symbols gotSyms tls shared := by
  have serial : shares.items.foldl (fun counts obj => counts + countObject symbols obj) {} =
      shares.reduce (countObject symbols) := by
    rw [Shares.reduce_eq_sum]
    change List.foldl _ 0 _ = _
    rw [List.foldl_add_value, zero_add]
  rw [countDynamicRelocs, serial]
  rfl

end Totals

/-- The single pass finds what the separate passes find, and its counts are those
taken one by one, however the objects are shared between workers. -/
theorem singlePass_eq_separate (symbols : SymbolTable) :
    (∀ objects layout,
      let found := collectDataAndSymbolicRelocs objects symbols layout
      let data := collectDynamicDataRelocs symbols layout objects
      found.relative = data.relative ∧ found.irelative = data.irelative ∧
        found.symbolic = collectSymbolicDataRelocs symbols layout objects) ∧
    (∀ (shares : Shares InputObject) gotSyms tls shared,
      let counts := countDynamicRelocsShared symbols shares gotSyms tls shared
      counts = countDynamicRelocs shares.items symbols gotSyms tls shared ∧
        counts.relativeTotal =
          countRelative shares.items symbols + countGotRelative symbols gotSyms ∧
        counts.irelative = countIrelative shares.items symbols gotSyms) := by
  constructor
  · intro objects layout found data
    have same : data = { relative := found.relative, irelative := found.irelative } :=
      collectDynamicDataRelocs_eq objects symbols layout
    rw [same]
    exact ⟨rfl, rfl, (collectSymbolicDataRelocs_eq objects symbols layout).symm⟩
  · intro shares gotSyms tls shared counts
    refine ⟨countDynamicRelocsShared_eq symbols shares gotSyms tls shared, ?_, ?_⟩
    · exact counted_total symbols DynamicRelocCounts.relativeTotals
        (relativeTotals_countReloc symbols) (relativeTotals_countSlot symbols) shares gotSyms
    · exact counted_total symbols DynamicRelocCounts.irelatives
        (irelatives_countReloc symbols) (irelatives_countSlot symbols) shares gotSyms

end Peony
