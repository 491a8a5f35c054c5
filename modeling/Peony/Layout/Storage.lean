import Peony.Layout.Relro
import Peony.Layout.Sums

namespace Peony

/-! The storage that a layout gives to tentative definitions and to copied imports. -/

open Spans

theorem alignUp_zero (align : UInt64) : alignUp 0 align = 0 := by
  rw [alignUp, UInt64.zero_add]
  exact UInt64.and_not_self

/-! ## Demands -/

structure Demand where
  id : SymbolId
  size : UInt64
  align : UInt64

namespace Demand

def slot (demand : Demand) : Cursor.Slot := slotOf demand.align demand.size

def places : UInt64 → List Demand → List (Demand × UInt64)
  | _, [] => []
  | cursor, demand :: rest =>
      (demand, alignUp cursor demand.align) ::
        places (alignUp cursor demand.align + demand.size) rest

def range (base : UInt64) (place : Demand × UInt64) : Span where
  start := base.toNat + place.2.toNat
  size := place.1.size.toNat

variable {cursor : UInt64} {demands : List Demand}

theorem map_places (cursor : UInt64) (demands : List Demand) :
    (places cursor demands).map Prod.fst = demands := by
  induction demands generalizing cursor with
  | nil => rfl
  | cons demand rest induction => exact congrArg (demand :: ·) (induction _)

theorem mem_demands {place : Demand × UInt64} (present : place ∈ places cursor demands) :
    place.1 ∈ demands := by
  rw [← map_places cursor demands]
  exact List.mem_map_of_mem present

theorem exists_place {demand : Demand} (present : demand ∈ demands) (cursor : UInt64) :
    ∃ offset, (demand, offset) ∈ places cursor demands := by
  rw [← map_places cursor demands] at present
  rcases List.mem_map.mp present with ⟨⟨_, offset⟩, isPlace, rfl⟩
  exact ⟨offset, isPlace⟩

theorem places_append (cursor : UInt64) (first second : List Demand) :
    places cursor (first ++ second) =
      places cursor first ++ places (Cursor.finish cursor (first.map slot)) second := by
  induction first generalizing cursor with
  | nil => rfl
  | cons demand rest induction =>
      rw [List.cons_append, places, induction, places, List.cons_append, List.map_cons]
      have moved : alignUp cursor demand.align + demand.size =
          (slot demand).advance cursor := (advance_slotOf _ _ _).symm
      rw [moved]
      rfl

theorem ranges_places (cursor : UInt64) (demands : List Demand) :
    (places cursor demands).map (range 0) = Cursor.spans cursor (demands.map slot) := by
  induction demands generalizing cursor with
  | nil => rfl
  | cons demand rest induction =>
      have moved : alignUp cursor demand.align + demand.size =
          (slot demand).advance cursor := (advance_slotOf _ _ _).symm
      rw [places, List.map_cons, induction, moved, List.map_cons, Cursor.spans,
        Cursor.Slot.span, range]
      congr 2
      exact (Nat.zero_add _).trans (congrArg UInt64.toNat (place_slotOf _ _ _).symm)

theorem dvd_places {place : Demand × UInt64} (present : place ∈ places cursor demands)
    (power : place.1.align.toNat.isPowerOfTwo) :
    place.1.align.toNat ∣ place.2.toNat := by
  induction demands generalizing cursor with
  | nil => exact absurd present List.not_mem_nil
  | cons demand rest induction =>
      rcases List.mem_cons.mp present with rfl | inRest
      · exact dvd_alignUp power cursor
      · exact induction inRest

theorem foldl_allot (demands : List Demand) (space : BssSpace) :
    (demands.foldl (fun space demand => space.allot demand.id demand.size demand.align)
        space).offsets =
      space.offsets ++
        (places space.size demands).map fun place => (place.1.id, place.2) := by
  induction demands generalizing space with
  | nil => exact (List.append_nil _).symm
  | cons demand rest induction =>
      rw [List.foldl_cons, induction, places, List.map_cons, BssSpace.allot]
      exact List.append_assoc _ _ _

theorem le_align (demands : List Demand) (space : BssSpace) :
    space.align.toNat ≤ (demands.foldl (fun space demand =>
        space.allot demand.id demand.size demand.align) space).align.toNat ∧
      ∀ demand ∈ demands, demand.align.toNat ≤ (demands.foldl (fun space demand =>
        space.allot demand.id demand.size demand.align) space).align.toNat := by
  induction demands generalizing space with
  | nil => exact ⟨le_rfl, fun _ impossible => absurd impossible List.not_mem_nil⟩
  | cons demand rest induction =>
      have next := induction (space.allot demand.id demand.size demand.align)
      have larger : (space.allot demand.id demand.size demand.align).align.toNat =
          max space.align.toNat demand.align.toNat := toNat_max _ _
      rw [larger, max_le_iff] at next
      refine ⟨next.1.1, fun other isOther => ?_⟩
      rcases List.mem_cons.mp isOther with rfl | inRest
      · exact next.1.2
      · exact next.2 other inRest

end Demand

namespace LayoutInput

/-- The tentative definitions. -/
def commonDemands (input : LayoutInput) : List Demand :=
  input.commonSyms.map fun common => ⟨common.1, common.2.1, max common.2.2 1⟩

def copiedDemands (input : LayoutInput) : List Demand :=
  input.copyDemands.map fun demand => ⟨demand.1, demand.2, copyRelocAlign demand.2⟩

def demands (input : LayoutInput) : List Demand := input.commonDemands ++ input.copiedDemands

/-- Where all demands are stored in the synthetic `.bss`. -/
def places (input : LayoutInput) : List (Demand × UInt64) := Demand.places 0 input.demands

variable {input : LayoutInput}

theorem slots_demands : input.demands.map Demand.slot = input.bssSlots := by
  rw [demands, commonDemands, copiedDemands, List.map_append, List.map_map, List.map_map]
  rfl

theorem offsets_eq :
    input.commonSpace.offsets ++ input.copySpace.offsets =
      input.places.map fun place => (place.1.id, place.2) := by
  have commons : input.commonSpace.offsets =
      (Demand.places 0 input.commonDemands).map fun place => (place.1.id, place.2) := by
    have folded := Demand.foldl_allot input.commonDemands {}
    rw [commonDemands, List.foldl_map] at folded
    exact folded
  have copies : input.copySpace.offsets =
      (Demand.places input.commonSpace.size input.copiedDemands).map
        fun place => (place.1.id, place.2) := by
    have folded := Demand.foldl_allot input.copiedDemands
      { input.commonSpace with offsets := [] }
    rw [copiedDemands, List.foldl_map] at folded
    exact folded
  have size : input.commonSpace.size =
      Cursor.finish 0 (input.commonDemands.map Demand.slot) := by
    rw [commonSpace_run.1, commonSlots, commonDemands, List.map_map]
    rfl
  rw [places, demands, Demand.places_append, List.map_append, commons, copies, size]

/-- All alignments of tentative definitions are powers of two, or 0. -/
def CommonsAligned (input : LayoutInput) : Prop :=
  ∀ common ∈ input.commonSyms, (max common.2.2 1).toNat.isPowerOfTwo

theorem power_of_demand (powers : input.CommonsAligned) {demand : Demand}
    (present : demand ∈ input.demands) : demand.align.toNat.isPowerOfTwo := by
  rcases List.mem_append.mp present with isCommon | isCopy
  · rcases List.mem_map.mp isCommon with ⟨common, among, rfl⟩
    exact powers common among
  · rcases List.mem_map.mp isCopy with ⟨_, _, rfl⟩
    exact copyRelocAlign_power _

theorem align_le_copySpace {demand : Demand} (present : demand ∈ input.demands) :
    demand.align.toNat ≤ input.copySpace.align.toNat := by
  have folded := @Demand.le_align input.copiedDemands
    { input.commonSpace with offsets := [] }
  have first := @Demand.le_align input.commonDemands {}
  rw [copiedDemands, List.foldl_map] at folded
  rw [commonDemands, List.foldl_map] at first
  rcases List.mem_append.mp present with isCommon | isCopy
  · exact (first.2 demand isCommon).trans folded.1
  · exact folded.2 demand isCopy

/-! ## The synthetic section -/

/-- The demands of which the storage is one after the other. -/
theorem places_laid (fits : Cursor.Fits 0 input.bssSlots) :
    Laid 0 (input.places.map (Demand.range 0)) input.copySpace.size.toNat := by
  rw [places, Demand.ranges_places, slots_demands, copySpace_size]
  exact fits.laid

theorem place_within (fits : Cursor.Fits 0 input.bssSlots) {place : Demand × UInt64}
    (present : place ∈ input.places) :
    place.2.toNat + place.1.size.toNat ≤ input.copySpace.size.toNat := by
  have stop := ((places_laid fits).within (List.mem_map_of_mem present)).2
  have start : (Demand.range 0 place).start = place.2.toNat := Nat.zero_add _
  rwa [Span.stop, start] at stop

theorem copySpace_pos_iff (fits : Cursor.Fits 0 input.bssSlots) :
    0 < input.copySpace.size.toNat ↔ ∃ demand ∈ input.demands, demand.size ≠ 0 := by
  constructor
  · intro positive
    by_contra empty
    have none : ∀ demand ∈ input.demands, demand.size = 0 := by
      intro demand present
      by_contra sized
      exact empty ⟨demand, present, sized⟩
    have stays (demands : List Demand) (each : ∀ demand ∈ demands, demand.size = 0) :
        Cursor.finish 0 (demands.map Demand.slot) = 0 := by
      induction demands with
      | nil => rfl
      | cons demand rest induction =>
          have moved : (Demand.slot demand).advance 0 = 0 := by
            rw [Demand.slot, advance_slotOf, each demand List.mem_cons_self,
              UInt64.add_zero, alignUp_zero]
          rw [List.map_cons]
          change Cursor.finish ((Demand.slot demand).advance 0) _ = 0
          rw [moved]
          exact induction fun other isOther => each other (List.mem_cons_of_mem _ isOther)
    rw [copySpace_size, ← slots_demands, stays input.demands none] at positive
    exact absurd positive (Nat.lt_irrefl 0)
  · rintro ⟨demand, present, sized⟩
    rcases Demand.exists_place present 0 with ⟨offset, isPlace⟩
    have within := place_within fits isPlace
    have positive : 0 < demand.size.toNat :=
      Nat.pos_of_ne_zero fun isZero => sized (UInt64.toNat_inj.mp isZero)
    change offset.toNat + demand.size.toNat ≤ _ at within
    omega

/-! ### The builder -/

/-- The section that the linker adds for the demands. -/
def storageBuilder (input : LayoutInput) : Builder :=
  Builder.synthesized (nameOf ".bss") .bss (shfAlloc ||| shfWrite) shtNobits
    input.copySpace.align input.copySpace.size .rw true

theorem isNobits_of_source {b : Builder} (isBss : b.source = .bss) : b.isNobits = true := by
  rw [Builder.source] at isBss
  cases found : synthesizedSources.lookup b.name with
  | none =>
      rw [found, Option.getD_none] at isBss
      split at isBss
      · assumption
      · cases isBss
  | some source =>
      rw [found, Option.getD_some] at isBss
      have each : ∀ entry ∈ synthesizedSources, entry.2 ≠ .bss := by decide
      exact absurd isBss (each _ (Assoc.mem_of_lookup found))

theorem contributions_groups {b : Builder} (isGroup : b ∈ input.groups) :
    b.contributions ≠ [] := by
  rcases mem_groups.mp isGroup with ⟨first, rest, _, isCollected⟩
  have extents := (@collect_extents input first (first :: rest)).2
  rw [← isCollected, List.map_cons, Cursor.spans] at extents
  intro none
  rw [none] at extents
  cases extents

/-- No other section without bytes in the file is without contributions. -/
theorem eq_storageBuilder {pre : DynPrebuild} {b : Builder}
    (isPlaced : b ∈ (input.ordered pre).all) (isNobits : b.isNobits = true)
    (bare : b.contributions = []) : b = input.storageBuilder :=
  @forall_ordered input pre
    (fun b => b.isNobits = true → b.contributions = [] → b = input.storageBuilder)
    (fun _ isGroup _ bare => absurd bare (contributions_groups isGroup))
    (fun _ _ _ _ _ impossible => nomatch impossible)
    (fun _ _ _ impossible => nomatch impossible) (fun _ _ => rfl)
    (fun _ impossible => nomatch impossible) b isPlaced isNobits bare

/-- It is there just when there is something to store. -/
theorem pos_of_storageBuilder {pre : DynPrebuild}
    (isPlaced : input.storageBuilder ∈ (input.ordered pre).all) :
    0 < input.copySpace.size.toNat := by
  have classified := input.classified_ordered pre input.groups
  have among : input.storageBuilder ∈ (input.ordered pre).rwBss := by
    rcases List.mem_append.mp isPlaced with inCode | inRw
    · rcases List.mem_append.mp inCode with inRo | inRx
      · exact nomatch (classified.ro.only _ inRo).1
      · exact nomatch (classified.rx.only _ inRx).1
    · rcases List.mem_append.mp inRw with inPb | inBss
      · exact nomatch (classified.rwPb.only _ inPb).1
      · exact inBss
  rcases mem_rwBss.mp among with isGroup | isAdded
  · exact absurd rfl (contributions_groups isGroup.1)
  · rw [addedBss, Builder.mem_only, decide_eq_true_eq] at isAdded
    exact UInt64.lt_iff_toNat_lt.mp isAdded.1

section Computed

variable {layout : Layout} (computed : Computed input layout)

include computed

theorem exists_storage_of_loaded {s : OutputSection}
    (isLoaded : s ∈ input.loaded computed.pre) (isBss : s.source = .bss)
    (bare : s.contributions = []) :
    0 < input.copySpace.size.toNat ∧
    ∃ shAddr align, s = ({ input.storageBuilder with align := align } : Builder).output
        input.base shAddr ∧
      (input.copySpace.align.toNat.isPowerOfTwo →
        input.copySpace.align.toNat ∣ shAddr.toNat) := by
  rcases Pairwise.exists_left (input.placeAll_of (input.ordered computed.pre)).sections
    isLoaded with ⟨raised, isRaised, output⟩
  rcases exists_unraised ((input.classified_ordered computed.pre
    input.groups).tls_powers (groups_aligned computed.aligned)) isRaised with
    ⟨b, isPlaced, align, rfl, suits⟩
  rcases output with ⟨shAddr, rfl, multiple⟩
  have isBuilder : b = input.storageBuilder :=
    eq_storageBuilder isPlaced (isNobits_of_source isBss) bare
  subst isBuilder
  refine ⟨pos_of_storageBuilder isPlaced, shAddr, align, rfl, fun power => ?_⟩
  exact (suits power).2.trans (multiple (suits power).1)

theorem recorded_eq :
    layout.common ++ layout.copyRelocs = input.places.map fun place =>
      (place.1.id, commonBase layout.outputSections + place.2) := by
  have offsets := congrArg (rebase (commonBase layout.outputSections)) (@offsets_eq input)
  rw [rebase, List.map_append, rebase, List.map_map] at offsets
  have common := congrArg Layout.common computed.assembled
  have copies := congrArg Layout.copyRelocs computed.assembled
  have sections := congrArg Layout.outputSections computed.assembled
  rw [common, copies]
  rw [sections] at offsets ⊢
  exact offsets

structure IsStorage (input : LayoutInput) (layout : Layout) (s : OutputSection) : Prop where
  present : s ∈ layout.outputSections
  name : s.name = nameOf ".bss"
  isLoaded : s.isLoaded = true
  contributions : s.contributions = []
  base : commonBase layout.outputSections = s.shAddr
  size : s.shSize = input.copySpace.size
  aligned : input.copySpace.align.toNat.isPowerOfTwo →
    input.copySpace.align.toNat ∣ s.shAddr.toNat

variable (noWrap : input.NoWrap computed.pre)

include noWrap

theorem exists_storage (positive : 0 < input.copySpace.size.toNat) :
    ∃ s, IsStorage input layout s := by
  rcases split_sections computed noWrap with ⟨placed, others, split, isPlaced, _⟩
  rcases exists_added computed (List.mem_append_right _ (List.mem_append_right _
    (mem_bss computed.pre (UInt64.lt_iff_toNat_lt.mpr positive)))) with
    ⟨added, isLoaded, isBss, bare, _⟩
  rcases Pairwise.exists_right isPlaced isLoaded with ⟨last, inPlaced, isFinished⟩
  have taken : (last.source == .bss && last.contributions.isEmpty) = true := by
    rw [isFinished.source, isFinished.contributions, isBss, bare]
    rfl
  have isSome : (placed.find? fun s =>
      s.source == .bss && s.contributions.isEmpty).isSome = true := by
    rw [List.find?_isSome]
    exact ⟨last, inPlaced, taken⟩
  rcases Option.isSome_iff_exists.mp isSome with ⟨s, found⟩
  have synthetic : syntheticBss layout.outputSections = some s := by
    rw [syntheticBss, split, List.find?_append, found]
    rfl
  have isTaken := List.find?_some found
  rw [Bool.and_eq_true, beq_iff_eq, List.isEmpty_iff] at isTaken
  have among : s ∈ placed := List.mem_of_find?_eq_some found
  rcases Pairwise.exists_left isPlaced among with ⟨before, isBefore, finished⟩
  rw [finished.source, finished.contributions] at isTaken
  rcases exists_storage_of_loaded computed isBefore isTaken.1 isTaken.2 with
    ⟨_, shAddr, align, rfl, multiple⟩
  have others := source_placed isBefore
  refine ⟨s, split ▸ List.mem_append_left _ among, ?_, ?_, ?_, ?_, ?_, ?_⟩
  · rcases finished with ⟨_, _, _, _, _, rfl, _⟩
    rfl
  · rw [finished.isLoaded]
    exact (by decide : ((shfAlloc ||| shfWrite) &&& shfAlloc != 0) = true)
  · exact finished.contributions.trans isTaken.2
  · rw [commonBase, synthetic]
    rfl
  · exact finished.shSize others
  · rw [finished.shAddr]
    exact multiple

/-- Without anything to store there is no such section. -/
theorem commonBase_of_empty (empty : input.copySpace.size.toNat = 0) :
    commonBase layout.outputSections = 0 := by
  rcases split_sections computed noWrap with ⟨placed, others, split, isPlaced, unloaded⟩
  cases found : syntheticBss layout.outputSections with
  | none => rw [commonBase, found]; rfl
  | some s =>
      rw [commonBase, found]
      change s.shAddr = 0
      have present := List.mem_of_find?_eq_some found
      rw [split] at present
      rcases List.mem_append.mp present with among | isOther
      · have isTaken := List.find?_some found
        rw [Bool.and_eq_true, beq_iff_eq, List.isEmpty_iff] at isTaken
        rcases Pairwise.exists_left isPlaced among with ⟨before, isBefore, finished⟩
        rw [finished.source, finished.contributions] at isTaken
        have positive := (exists_storage_of_loaded computed isBefore isTaken.1 isTaken.2).1
        omega
      · exact (unloaded s isOther).1

/-! ### What is stored -/

namespace IsStorage

variable {s : OutputSection} (isStorage : IsStorage input layout s)
variable (fits : Cursor.Fits 0 input.bssSlots)

include isStorage fits

theorem toNat_address {place : Demand × UInt64} (present : place ∈ input.places) :
    (s.shAddr + place.2).toNat = s.shAddr.toNat + place.2.toNat := by
  have sum := section_end computed noWrap isStorage.present
  rw [isStorage.size] at sum
  have below : place.2.toNat ≤ input.copySpace.size.toNat :=
    (Nat.le_add_right _ _).trans (place_within fits present)
  rw [sumExact_iff] at sum
  rw [UInt64.toNat_add]
  exact Nat.mod_eq_of_lt (by omega)

omit computed noWrap fits in
theorem dvd_address (powers : input.CommonsAligned) {place : Demand × UInt64}
    (present : place ∈ input.places) :
    place.1.align.toNat ∣ (s.shAddr + place.2).toNat := by
  have isDemand := Demand.mem_demands present
  have power := power_of_demand powers isDemand
  have total := copySpace_align powers
  refine dvd_add power ?_ (Demand.dvd_places present power)
  exact (Alignment.dvd_of_le power total (align_le_copySpace isDemand)).trans
    (isStorage.aligned total)

omit computed noWrap in
/-- The storage is in the section. -/
theorem contains {place : Demand × UInt64} (present : place ∈ input.places) :
    s.memory.Contains (Demand.range s.shAddr place) := by
  refine ⟨Nat.le_add_right _ _, ?_⟩
  have within := place_within fits present
  have size : s.memory.size = input.copySpace.size.toNat :=
    congrArg UInt64.toNat isStorage.size
  change s.shAddr.toNat + place.2.toNat + place.1.size.toNat ≤
    s.shAddr.toNat + s.memory.size
  omega

omit computed noWrap isStorage in
theorem apart : input.places.Pairwise fun first second =>
    (Demand.range s.shAddr first).stop ≤ (Demand.range s.shAddr second).start := by
  have laid := (places_laid fits).pairwise
  rw [List.pairwise_map] at laid
  refine laid.imp fun {first second} below => ?_
  change 0 + first.2.toNat + first.1.size.toNat ≤ 0 + second.2.toNat at below
  change s.shAddr.toNat + first.2.toNat + first.1.size.toNat ≤
    s.shAddr.toNat + second.2.toNat
  omega

theorem apart_contribution {place : Demand × UInt64} (present : place ∈ input.places)
    {other : OutputSection} (isOther : other ∈ layout.outputSections)
    (isLoaded : other.isLoaded = true) {c : SectionContribution}
    (among : c ∈ other.contributions) :
    Span.Apart (Demand.range s.shAddr place)
      ⟨(other.shAddr + c.offset).toNat, c.size.toNat⟩ := by
  have different : s ≠ other := by
    rintro rfl
    rw [isStorage.contributions] at among
    exact absurd among List.not_mem_nil
  have sections : layout.outputSections.filter OutputSection.isLoaded |>.Pairwise
      fun first second => first.memory.stop ≤ second.memory.start :=
    List.pairwise_map.mp (loaded_laid computed noWrap).pairwise
  have inside := (contributions_laid computed noWrap isOther).within
    (List.mem_map_of_mem among)
  have stop : c.offset.toNat + c.size.toNat ≤ other.shSize.toNat := inside.2
  have sum := sumExact_iff.mp (section_end computed noWrap isOther)
  have start : (other.shAddr + c.offset).toNat = other.shAddr.toNat + c.offset.toNat := by
    rw [UInt64.toNat_add]
    exact Nat.mod_eq_of_lt (by omega)
  have contains := isStorage.contains fits present
  have first : s.memory.start ≤ (Demand.range s.shAddr place).start := contains.1
  have last : (Demand.range s.shAddr place).stop ≤ s.memory.stop := contains.2
  have own : other.memory.start = other.shAddr.toNat ∧
      other.memory.stop = other.shAddr.toNat + other.shSize.toNat := ⟨rfl, rfl⟩
  rcases Pairwise.either sections
    (List.mem_filter.mpr ⟨isStorage.present, isStorage.isLoaded⟩)
    (List.mem_filter.mpr ⟨isOther, isLoaded⟩) different with before | after
  · left
    change _ ≤ (other.shAddr + c.offset).toNat
    omega
  · right
    change (other.shAddr + c.offset).toNat + c.size.toNat ≤ _
    omega

end IsStorage

theorem pos_of_isLoaded {s : OutputSection} (present : s ∈ layout.outputSections)
    (isLoaded : s.isLoaded = true) : 0 < s.shAddr.toNat := by
  have inImage := (loaded_laid computed noWrap).within
    (List.mem_map_of_mem (List.mem_filter.mpr ⟨present, isLoaded⟩))
  have header := (partsLaid noWrap.addresses).header
  rw [headerSize_toNat] at header
  have size : ehdrSize.toNat = 64 := rfl
  have start : s.memory.start = s.shAddr.toNat := rfl
  omega

end Computed

end LayoutInput

end Peony
