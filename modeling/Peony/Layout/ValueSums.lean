import Peony.Layout.IntegerPlaces

namespace Peony

/-! The sums of an address and the value of a symbol, and of the start of a section
and the offset of a relocation: in words and in the integers. -/

namespace LayoutInput

variable (input : LayoutInput)

/-! ## Symbol values -/

section Sums

variable {Address : Type} (addresses fileAddresses : List (SectionKey × Address))
variable (inBlock : Address → Address)

/-- The address and the value that give a local symbol its value in `.symtab`. -/
def localSum (entry : Nat × InputSymbol) : Option (Address × UInt64) :=
  let (objId, sym) := entry
  if sym.binding != .local || sym.isUndefined || sym.isCommon ||
      sym.name.isEmpty then none
  else do
    let si ← sym.sectionIndex
    let secVa ← addresses.lookup (objId, si)
    return (if tlsAtPosition input.objects objId si then inBlock secVa else secVa,
      sym.value)

def tlsGlobalSum (res : SymbolResolution) : Option (Address × UInt64) := do
  let si ← res.sectionIndex
  let objId ← res.definedIn
  let secVa ← addresses.lookup (objId.toNat, si)
  if tlsAtPosition input.objects objId.toNat si then
    return (inBlock secVa, res.value)
  else none

def exportSum (res : SymbolResolution) : Option (Address × UInt64) := do
  let si ← res.sectionIndex
  let key := ((res.definedIn.map UInt32.toNat).getD 0, si)
  let _ ← addresses.lookup key
  let va ← fileAddresses.lookup key
  return (va, res.value)

def entrySum : Option (Address × UInt64) := do
  let res ← (input.symbols.lookup input.config.entrySymbol).filter
    SymbolResolution.isDefined
  let si ← res.sectionIndex
  let objId ← res.definedIn
  let va ← fileAddresses.lookup (objId.toNat, si)
  return (va, res.value)

def sumsOfValues (pre : DynPrebuild) : List (Address × UInt64) :=
  (if input.config.strip then []
    else
      (input.objects.zipIdx.flatMap fun numbered =>
        numbered.1.symbols.filterMap fun sym =>
          input.localSum addresses inBlock (numbered.2, sym)) ++
        input.definedGlobals.filterMap fun entry =>
          input.tlsGlobalSum addresses inBlock entry.2) ++
    (pre.exportPatch.filterMap fun entry =>
      (input.symbols.lookup entry.1).bind (exportSum addresses fileAddresses)) ++
    (input.entrySum fileAddresses).toList

end Sums

def inTlsBlock (sections : List OutputSection) (va : UInt64) : UInt64 :=
  saturatingSub va ((tlsBaseVa sections).getD va)

variable (pre : DynPrebuild) (ordered : Builders)

def valueSums : List (UInt64 × UInt64) :=
  input.sumsOfValues (input.placement ordered).addresses
    (input.fileCursor ordered).addresses
    (inTlsBlock (input.placement ordered).sections) pre

def integerValueSums : List (Nat × UInt64) :=
  let base := integerTlsBase ((input.integerSections ordered).map fun placed =>
    (placed.1.kind, placed.1.shFlags, placed.2))
  input.sumsOfValues (input.integerPlacement ordered) (input.integerAddresses ordered)
    (fun va => va - base.getD va) pre

/-! ## Relocation offsets -/

def offsetsFrom {Start : Type} (start : Start) (sec : InputSection) :
    List (Start × UInt64) :=
  sec.relocs.map fun reloc => (start, reloc.offset)

def takesRelocs (source : SecSource) (flags : UInt64) : Bool :=
  source == .input && flags &&& shfAlloc != 0

def relocSums (sections : List OutputSection) : List (UInt64 × UInt64) :=
  if input.config.emitRelocs && !input.config.strip then
    (sections.filter fun s => takesRelocs s.source s.shFlags).flatMap fun s =>
      s.contributions.flatMap fun c =>
        match input.contributionSection c with
        | some (_, sec) => offsetsFrom c.offset sec
        | none => []
  else []

def integerRelocSums : List (Nat × UInt64) :=
  if input.config.emitRelocs && !input.config.strip then
    ((input.integerSections ordered).filter fun placed =>
        takesRelocs placed.1.source placed.1.shFlags).flatMap fun placed =>
      (input.integerContents placed.1).flatMap fun member =>
        offsetsFrom member.2 member.1.sec
  else []

/-! ## The sums are those that are computed -/

theorem addLocal_known (ordered : Builders) (plan : SymtabPlan)
    (entry : Nat × InputSymbol) :
    (input.addLocal (input.placement ordered) plan entry).entries.map SymEntry.known =
      plan.entries.map SymEntry.known ++
        (input.localSum (input.placement ordered).addresses
          (inTlsBlock (input.placement ordered).sections) entry).toList.map fun sum =>
          some (sum.1 + sum.2, entry.2.size) := by
  rcases entry with ⟨objId, sym⟩
  rw [addLocal, localSum]
  split
  · simp
  · cases sym.sectionIndex with
    | none => simp
    | some si =>
        have found := input.isSome_secToOut ordered (objId, si)
        cases isOut : (input.placement ordered).secToOut.lookup (objId, si) <;>
          cases isPlaced : (input.placement ordered).addresses.lookup (objId, si) <;>
          rw [isOut, isPlaced] at found
        · simp [isOut, isPlaced]
        · cases found
        · cases found
        · simp [isOut, isPlaced, SymtabPlan.push, tlsValue, inTlsBlock]
          split <;> rfl

theorem exportPlace_value (ordered : Builders) (res : SymbolResolution) :
    (exportPlace (input.placement ordered) (input.fileCursor ordered).addresses res).2 =
      ((exportSum (input.placement ordered).addresses
        (input.fileCursor ordered).addresses res).map fun sum => sum.1 + sum.2).getD
          res.value := by
  unfold exportPlace exportSum
  cases res.sectionIndex with
  | none => rfl
  | some si =>
      have found := input.isSome_secToOut ordered
        ((res.definedIn.map UInt32.toNat).getD 0, si)
      simp only [Option.bind_eq_bind, Option.bind_some]
      generalize ((res.definedIn.map UInt32.toNat).getD 0, si) = key at found ⊢
      rcases input.fileCursor_extends ordered with ⟨more, _, _, addresses⟩
      cases isOut : (input.placement ordered).secToOut.lookup key <;>
        cases isPlaced : (input.placement ordered).addresses.lookup key <;>
        rw [isOut, isPlaced] at found
      · rfl
      · cases found
      · cases found
      · rw [addresses, List.lookup_append, isPlaced]
        cases (more.flatMap OutputSection.places).reverse.lookup key <;> rfl

/-! ## The sums in words and in the integers -/

def toInteger (sum : UInt64 × UInt64) : Nat × UInt64 := (sum.1.toNat, sum.2)

theorem toNat_inTlsBlock (sections : List OutputSection) (va : UInt64) :
    (inTlsBlock sections va).toNat =
      va.toNat - ((tlsBaseVa sections).map UInt64.toNat).getD va.toNat := by
  have saturates (first second : UInt64) :
      (saturatingSub first second).toNat = first.toNat - second.toNat := by
    rw [saturatingSub]
    split
    · rename_i below
      rw [UInt64.lt_iff_toNat_lt] at below
      exact (Nat.sub_eq_zero_of_le below.le).symm
    · rename_i above
      exact UInt64.toNat_sub_of_le _ _ (UInt64.not_lt.mp above)
  rw [inTlsBlock, saturates]
  cases tlsBaseVa sections <;> rfl

section Values

variable {input} {addresses fileAddresses : List (SectionKey × UInt64)}
variable {inBlock : UInt64 → UInt64} {inBlockInt : Nat → Nat}
variable (blocks : ∀ va, (inBlock va).toNat = inBlockInt va.toNat)

include blocks

theorem map_localSum (entry : Nat × InputSymbol) :
    (input.localSum addresses inBlock entry).map toInteger =
      input.localSum (toIntegers addresses) inBlockInt entry := by
  rcases entry with ⟨objId, sym⟩
  unfold localSum
  simp only
  split
  · rfl
  · cases sym.sectionIndex with
    | none => rfl
    | some si =>
        simp only [Option.bind_eq_bind, Option.bind_some, lookup_toIntegers]
        cases addresses.lookup (objId, si) with
        | none => rfl
        | some va =>
            simp only [Option.bind_some, Option.map_some]
            split
            · exact congrArg (fun va => some (va, sym.value)) (blocks va)
            · rfl

theorem map_tlsGlobalSum (res : SymbolResolution) :
    (input.tlsGlobalSum addresses inBlock res).map toInteger =
      input.tlsGlobalSum (toIntegers addresses) inBlockInt res := by
  unfold tlsGlobalSum
  cases res.sectionIndex with
  | none => rfl
  | some si =>
      cases res.definedIn with
      | none => rfl
      | some objId =>
          simp only [Option.bind_eq_bind, Option.bind_some, lookup_toIntegers]
          cases addresses.lookup (objId.toNat, si) with
          | none => rfl
          | some va =>
              simp only [Option.bind_some, Option.map_some]
              split
              · exact congrArg (fun va => some (va, res.value)) (blocks va)
              · rfl

omit blocks in
theorem map_exportSum (res : SymbolResolution) :
    (exportSum addresses fileAddresses res).map toInteger =
      exportSum (toIntegers addresses) (toIntegers fileAddresses) res := by
  unfold exportSum
  cases res.sectionIndex with
  | none => rfl
  | some si =>
      simp only [Option.bind_eq_bind, Option.bind_some, lookup_toIntegers]
      cases addresses.lookup ((res.definedIn.map UInt32.toNat).getD 0, si) with
      | none => rfl
      | some _ =>
          cases fileAddresses.lookup ((res.definedIn.map UInt32.toNat).getD 0, si) <;>
            rfl

omit blocks in
theorem map_entrySum :
    (input.entrySum fileAddresses).map toInteger =
      input.entrySum (toIntegers fileAddresses) := by
  unfold entrySum
  cases (input.symbols.lookup input.config.entrySymbol).filter
      SymbolResolution.isDefined with
  | none => rfl
  | some res =>
      simp only [Option.bind_eq_bind, Option.bind_some]
      cases res.sectionIndex with
      | none => rfl
      | some si =>
          cases res.definedIn with
          | none => rfl
          | some objId =>
              simp only [Option.bind_some, lookup_toIntegers]
              cases fileAddresses.lookup (objId.toNat, si) <;> rfl

theorem map_sumsOfValues :
    (input.sumsOfValues addresses fileAddresses inBlock pre).map toInteger =
      input.sumsOfValues (toIntegers addresses) (toIntegers fileAddresses) inBlockInt
        pre := by
  have locals : ∀ numbered : InputObject × Nat, List.map toInteger
      (numbered.1.symbols.filterMap fun sym =>
        input.localSum addresses inBlock (numbered.2, sym)) =
      numbered.1.symbols.filterMap fun sym =>
        input.localSum (toIntegers addresses) inBlockInt (numbered.2, sym) := by
    intro numbered
    rw [List.map_filterMap]
    exact List.filterMap_congr fun sym _ => map_localSum blocks _
  rw [sumsOfValues, sumsOfValues, List.map_append, List.map_append,
    ← map_entrySum, List.map_filterMap]
  refine congrArg₂ (· ++ ·) (congrArg₂ (· ++ ·) ?_ ?_) ?_
  · split
    · rfl
    · rw [List.map_append, List.map_flatMap, List.map_filterMap]
      simp only [locals, map_tlsGlobalSum blocks]
  · refine List.filterMap_congr fun entry _ => ?_
    cases input.symbols.lookup entry.1 with
    | none => rfl
    | some res => exact map_exportSum res
  · cases input.entrySum fileAddresses <;> rfl

end Values

section Powers

variable {input pre} (powers : input.AlignmentsArePowers)
variable (noWrap : input.NoWrap pre)

include powers noWrap

theorem map_valueSums :
    (input.valueSums pre (input.ordered pre)).map toInteger =
      input.integerValueSums pre (input.ordered pre) := by
  have sums := @map_sumsOfValues input pre
    (input.placement (input.ordered pre)).addresses
    (input.fileCursor (input.ordered pre)).addresses _
    (fun va => va - ((tlsBaseVa (input.placement (input.ordered pre)).sections).map
      UInt64.toNat).getD va) (toNat_inTlsBlock _)
  rw [toIntegers_placement powers noWrap, toIntegers_fileCursor powers noWrap,
    toNat_tlsBase powers noWrap] at sums
  exact sums

theorem map_relocSums_loaded :
    (input.relocSums (input.loaded pre)).map toInteger =
      input.integerRelocSums (input.ordered pre) := by
  have sums : ∀ member c, (member.1 ∈ input.contributors ∧ StartsAt member c) →
      (match input.contributionSection c with
        | some (_, sec) => offsetsFrom c.offset sec
        | none => []).map toInteger = offsetsFrom member.2 member.1.sec := by
    rintro ⟨member, start⟩ c ⟨isMember, startsAt⟩
    have isInput := mem_inputSections.mp (mem_contributors.mp isMember).1
    rcases Prod.mk.inj startsAt.identity with ⟨key, pos⟩
    have objectId : c.objectId = member.objId := congrArg Prod.fst key
    rw [contributionSection, objectId, isInput.1, pos]
    simp only [Option.bind_eq_bind, Option.bind_some, isInput.2]
    have isStart : c.offset.toNat = start := startsAt.start
    rw [← isStart]
    exact List.map_map
  have members : ∀ b, ∀ member ∈ input.integerContents b,
      member.1 ∈ input.contributors := by
    intro b member present
    rw [integerContents] at present
    split at present
    · exact absurd present List.not_mem_nil
    · exact (mem_membersOf.mp (List.of_mem_zip present).1).1
  have each : ∀ placed s, (input.Suits placed ∧ OutputSection.IsAt input.base placed s) →
      takesRelocs s.source s.shFlags = takesRelocs placed.1.source placed.1.shFlags ∧
        (s.contributions.flatMap fun c =>
          match input.contributionSection c with
          | some (_, sec) => offsetsFrom c.offset sec
          | none => []).map toInteger =
        (input.integerContents placed.1).flatMap fun member =>
          offsetsFrom member.2 member.1.sec := by
    rintro placed _ ⟨suits, shAddr, rfl, _⟩
    refine ⟨rfl, ?_⟩
    have pairs := (List.forall₂_and_left _ _).mpr ⟨members placed.1, suits.contents⟩
    rw [List.map_flatMap, List.flatMap_def, List.flatMap_def]
    exact congrArg List.flatten (Pairwise.map_eq pairs sums)
  have pairs := (List.forall₂_and_left _ _).mpr
    ⟨suits_sections powers noWrap, loaded_isAt powers noWrap.addresses⟩
  rw [relocSums, integerRelocSums]
  split
  · rw [List.map_flatMap, List.flatMap_def, List.flatMap_def]
    exact congrArg List.flatten
      (Pairwise.map_filter_eq pairs fun placed _ s both => each placed s both)
  · rfl

end Powers

end LayoutInput

end Peony
