import Peony.Gc.Kept
import Peony.Layout.Addresses

namespace Peony

/-! Folding and the section filter are computed apart from each other and meet in
the layout. Which sections have an address then. -/

def Layout.LaidOutAt (layout : Layout) (member : Contributor)
    (address : UInt64) : Prop :=
  ∃ s ∈ layout.outputSections, s.shFlags &&& shfAlloc ≠ 0 ∧
    ∃ c ∈ s.contributions, c.key = member.label ∧ c.sectionPos = member.pos ∧
      c.size = member.sec.size ∧ address = s.shAddr + c.offset

def LiveFilter.asFilter : LiveFilter → SectionFilter
  | .all => .all
  | .only live => .onlyLive live
  | .except dead => .except dead

namespace LayoutInput

variable {input : LayoutInput}

/-- Every emitted section has an address, where its own bytes are laid out or
those of the section that it is folded onto, and the address suits it. -/
def AddressesHold (input : LayoutInput) (layout : Layout) : Prop :=
  ∀ member ∈ inputSections input.objects, input.emits member = true →
    ∃ address, layout.addressOf member.objId member.sec.index = some address ∧
      member.align.toNat ∣ address.toNat ∧
      ∃ host ∈ inputSections input.objects,
        (host = member ∨ input.foldsTo member.label = some host.label) ∧
          layout.LaidOutAt host address

/-- The folds suit the filter: what an emitted section is folded onto is emitted
too, at least as aligned, and no emitted section shares its name with one that
is passed through to the file. -/
structure FoldsSuitFilter (input : LayoutInput) : Prop where
  emits : ∀ dup ∈ inputSections input.objects,
    ∀ canon ∈ inputSections input.objects, input.emits dup = true →
      input.foldsTo dup.label = some canon.label → input.emits canon = true
  aligned : ∀ dup ∈ inputSections input.objects,
    ∀ canon ∈ inputSections input.objects, input.emits dup = true →
      input.foldsTo dup.label = some canon.label →
        dup.align.toNat ∣ canon.align.toNat
  unpassed : ∀ member, input.emits member = true → ¬ input.IsPassedThrough member

section Computed

variable (parsed : ∀ obj ∈ input.objects, obj.Parsed)

include parsed

variable {layout : Layout} (computed : Computed input layout)

include computed

theorem exists_address (folding : input.Folding) {host : Contributor}
    (contributes : host ∈ input.contributors) {key : SectionKey}
    (leads : key = host.label ∨ input.foldsTo key = some host.label)
    (kept : ∀ member, input.IsPassedThrough member → member.label ≠ key) :
    ∃ address, layout.addresses.lookup key = some address ∧
      host.align.toNat ∣ address.toNat ∧ layout.LaidOutAt host address := by
  rcases exists_place computed.aligned computed.pre contributes with
    ⟨s, isLoaded, c, place⟩
  have placed := lookup_placed computed.aligned computed.pre parsed isLoaded place
  rcases @mem_outputSections input computed.pre _ computed.entry s isLoaded with
    ⟨finished, present, isFinished⟩
  refine ⟨s.shAddr + c.offset, ?_, place.aligned, finished, ?_, ?_, c, ?_,
    place.key, place.pos, place.size, ?_⟩
  · rw [computed.assembled]
    change (input.fileCursor _).addresses.lookup key = _
    rw [lookup_fileCursor kept, lookup_placement folding parsed]
    rcases leads with rfl | folds
    · have own := (mem_contributors.mp contributes).2
      rw [LayoutInput.contributes, Bool.and_eq_true, Option.isNone_iff_eq_none]
        at own
      rw [own.2]
      exact placed
    · rw [folds]
      change (List.lookup host.label _).or _ = _
      rw [placed, Option.some_or]
  · rw [computed.assembled]
    exact present
  · rw [isFinished.shFlags]
    exact place.isAlloc
  · rw [isFinished.contributions]
    exact place.present
  · rw [isFinished.shAddr]

theorem contributes_of_laidOut {host : Contributor} {address : UInt64}
    (isHost : host ∈ inputSections input.objects)
    (laidOut : layout.LaidOutAt host address) :
    host ∈ input.contributors := by
  rcases laidOut with ⟨finished, present, isAlloc, c, among, key, _⟩
  rw [computed.assembled] at present
  rcases input.exists_placed_of_isAlloc present isAlloc with
    ⟨s, isLoaded, isFinished⟩
  rw [isFinished.contributions] at among
  rcases exists_contributor computed.aligned computed.pre isLoaded among with
    ⟨member, contributes, place⟩
  have same := eq_of_label parsed (mem_contributors.mp contributes).1 isHost
    (place.key.symm.trans key)
  rwa [← same]

theorem addressesHold_of_suits (folding : input.Folding)
    (suits : input.FoldsSuitFilter) : input.AddressesHold layout := by
  intro member isMember emitted
  have kept (other : Contributor) (passed : input.IsPassedThrough other) :
      other.label ≠ member.label := by
    intro same
    rw [eq_of_label parsed passed.isInput isMember same] at passed
    exact suits.unpassed member emitted passed
  cases folds : input.foldsTo member.label with
  | none =>
      have contributes : member ∈ input.contributors := by
        rw [mem_contributors, LayoutInput.contributes, emitted, folds]
        exact ⟨isMember, rfl⟩
      rcases exists_address parsed computed folding contributes (.inl rfl) kept
        with ⟨address, found, suited, laidOut⟩
      exact ⟨address, found, suited, member, isMember, .inl rfl, laidOut⟩
  | some key =>
      rcases foldsOnto_of_foldsTo folding parsed folds with
        ⟨_, canon, _, rfl, folded⟩
      have isCanon : canon ∈ inputSections input.objects := by
        rcases folded.keyed with ⟨_, _, first⟩
        exact Representatives.first_mem first
      have contributes : canon ∈ input.contributors := by
        rw [mem_contributors, LayoutInput.contributes,
          suits.emits member isMember canon isCanon emitted folds,
          foldsTo_canonical folding parsed folds]
        exact ⟨isCanon, rfl⟩
      rcases exists_address parsed computed folding contributes (.inr folds) kept
        with ⟨address, found, suited, laidOut⟩
      exact ⟨address, found,
        (suits.aligned member isMember canon isCanon emitted folds).trans suited,
        canon, isCanon, .inr rfl, laidOut⟩

theorem emits_of_addressesHold (holds : input.AddressesHold layout)
    {dup canon : Contributor} (isDup : dup ∈ inputSections input.objects)
    (isCanon : canon ∈ inputSections input.objects)
    (emitted : input.emits dup = true)
    (folds : input.foldsTo dup.label = some canon.label) :
    input.emits canon = true := by
  rcases holds dup isDup emitted with ⟨_, _, _, host, isHost, leads, laidOut⟩
  have contributes := contributes_of_laidOut parsed computed isHost laidOut
  have own := (mem_contributors.mp contributes).2
  rw [LayoutInput.contributes, Bool.and_eq_true] at own
  rcases leads with rfl | hostFolds
  · rw [folds] at own
    exact absurd own.2 (by simp)
  · rw [folds, Option.some.injEq] at hostFolds
    rw [eq_of_label parsed isCanon isHost hostFolds]
    exact own.1

theorem isSome_lookup_placement (folding : input.Folding) {key : SectionKey} :
    ((input.placement (input.ordered computed.pre)).addresses.lookup key).isSome = true ↔
      ∃ host ∈ input.contributors, key = host.label ∨ input.foldsTo key = some host.label := by
  have isPlaced {key : SectionKey} :
      ((input.placeAll (input.ordered computed.pre)).placement.addresses.lookup key).isSome =
        true ↔ ∃ host ∈ input.contributors, host.label = key := by
    rw [← List.mem_map]
    constructor
    · intro found
      by_contra absent
      rw [lookup_unplaced computed.aligned computed.pre absent] at found
      cases found
    · intro present
      rcases List.mem_map.mp present with ⟨host, contributes, rfl⟩
      rcases exists_place computed.aligned computed.pre contributes with
        ⟨s, isLoaded, c, place⟩
      rw [lookup_placed computed.aligned computed.pre parsed isLoaded place]
      rfl
  rw [lookup_placement folding parsed]
  cases folds : input.foldsTo key with
  | none =>
      dsimp only
      rw [isPlaced]
      refine exists_congr fun host => and_congr_right fun _ => ?_
      exact ⟨fun same => Or.inl same.symm, fun either => (either.resolve_right (Option.some_ne_none _).symm).symm⟩
  | some canon =>
      dsimp only
      rw [Option.isSome_or, Bool.or_eq_true, isPlaced, isPlaced, or_iff_left]
      · refine exists_congr fun host => and_congr_right fun contributes => ?_
        constructor
        · intro same
          exact Or.inr (congrArg some same.symm)
        · rintro (rfl | same)
          · have own := (mem_contributors.mp contributes).2
            rw [LayoutInput.contributes, folds, Bool.and_eq_true] at own
            cases own.2
          · exact (Option.some.inj same).symm
      · rintro ⟨host, contributes, rfl⟩
        have own := (mem_contributors.mp contributes).2
        rw [LayoutInput.contributes, folds, Bool.and_eq_true] at own
        cases own.2

theorem isSome_addressOf (folding : input.Folding) {key : SectionKey} :
    (layout.addressOf key.1 key.2).isSome = true ↔
      (∃ member, input.IsPassedThrough member ∧ member.label = key) ∨
        ∃ host ∈ input.contributors,
          key = host.label ∨ input.foldsTo key = some host.label := by
  have assembled : layout.addressOf key.1 key.2 =
      (input.fileCursor (input.ordered computed.pre)).addresses.lookup key :=
    congrArg (fun laid : Layout => laid.addresses.lookup key) computed.assembled
  rw [assembled, ← isSome_lookup_placement parsed computed folding]
  rcases input.fileCursor_extends (input.ordered computed.pre) with
    ⟨more, each, sections, addresses⟩
  rw [addresses, List.lookup_append, Option.isSome_or, Bool.or_eq_true]
  refine or_congr ?_ Iff.rfl
  rw [← not_iff_not, Bool.not_eq_true, Option.isSome_eq_false_iff,
    Option.isNone_iff_eq_none, Assoc.lookup_eq_none, not_iff_not, List.map_reverse,
    List.mem_reverse, List.map_flatMap, List.mem_flatMap]
  constructor
  · rintro ⟨s, isFileOnly, inKeys⟩
    rw [OutputSection.places, List.map_map] at inKeys
    rcases List.mem_map.mp inKeys with ⟨c, present, same⟩
    rcases (each s isFileOnly).members present with ⟨member, passed, isKey⟩
    exact ⟨member, passed, isKey.symm.trans same⟩
  · rintro ⟨member, passed, rfl⟩
    rcases exists_passed input passed (input.ordered computed.pre) with
      ⟨s, present, flags, c, isContribution, isKey⟩
    rw [sections] at present
    rcases List.mem_append.mp present with isLoaded | isFileOnly
    · rcases exists_contributor computed.aligned computed.pre isLoaded isContribution with
        ⟨host, _, place⟩
      have isAlloc := place.isAlloc
      rw [flags] at isAlloc
      exact absurd rfl isAlloc
    · refine ⟨s, isFileOnly, ?_⟩
      rw [OutputSection.places, List.map_map]
      exact List.mem_map.mpr ⟨c, isContribution, isKey⟩

theorem isSome_addressOf_iff (folding : input.Folding) {member : Contributor}
    (isMember : member ∈ inputSections input.objects) (emitted : input.emits member = true) :
    (layout.addressOf member.objId member.sec.index).isSome = true ↔
      (∃ passed, input.IsPassedThrough passed ∧ passed.label = member.label) ∨
        ∀ canon ∈ inputSections input.objects,
          input.foldsTo member.label = some canon.label → input.emits canon = true := by
  rw [show layout.addressOf member.objId member.sec.index =
    layout.addressOf member.label.1 member.label.2 from rfl,
    isSome_addressOf parsed computed folding]
  refine or_congr Iff.rfl ?_
  constructor
  · rintro ⟨host, contributes, either⟩ canon isCanon folds
    rcases mem_contributors.mp contributes with ⟨isHost, own⟩
    rw [LayoutInput.contributes, Bool.and_eq_true] at own
    rcases either with same | hostFolds
    · rw [← same, folds] at own
      cases own.2
    · rw [folds, Option.some.injEq] at hostFolds
      rw [eq_of_label parsed isCanon isHost hostFolds]
      exact own.1
  · intro suits
    cases folds : input.foldsTo member.label with
    | none =>
        refine ⟨member, mem_contributors.mpr ⟨isMember, ?_⟩, Or.inl rfl⟩
        rw [LayoutInput.contributes, emitted, folds]
        rfl
    | some key =>
        rcases foldsOnto_of_foldsTo folding parsed folds with
          ⟨_, canon, _, rfl, folded⟩
        have isCanon : canon ∈ inputSections input.objects := by
          rcases folded.keyed with ⟨_, _, first⟩
          exact Representatives.first_mem first
        refine ⟨canon, mem_contributors.mpr ⟨isCanon, ?_⟩, Or.inr rfl⟩
        rw [LayoutInput.contributes, suits canon isCanon folds,
          foldsTo_canonical folding parsed folds]
        rfl

end Computed

/-- Every emitted section has an address when the folds suit the filter, and it
has none when it is folded onto a section that the filter drops. -/
theorem addresses_compose (parsed : ∀ obj ∈ input.objects, obj.Parsed)
    (folding : input.Folding) {layout : Layout}
    (succeeded : input.computeLayoutIcf = .ok layout) :
    (input.FoldsSuitFilter → input.AddressesHold layout) ∧
      (input.AddressesHold layout →
        ∀ dup ∈ inputSections input.objects,
          ∀ canon ∈ inputSections input.objects, input.emits dup = true →
            input.foldsTo dup.label = some canon.label →
              input.emits canon = true) := by
  rcases computed_of_ok succeeded with ⟨computed⟩
  exact ⟨addressesHold_of_suits parsed computed folding,
    fun holds _ isDup _ isCanon => emits_of_addressesHold parsed computed holds
      isDup isCanon⟩

/-! Two objects with equal hidden functions. Only the function of the second
object is called, so the collection of garbage drops the section that it is
folded onto. -/

private def twinArena : InputArena where
  mmaps := []
  owned := [[0x31, 0xc0, 0xc3], [0xe8, 0, 0, 0, 0, 0xc3], []]

private def twinSection (index : Nat) (name : String) (kind : SectionKind)
    (shType : UInt32) (owned len : UInt32) (relocs : List InputReloc) :
    InputSection where
  index := index
  name := nameOf name
  kind := kind
  shType := shType
  data := ⟨.owned owned, 0, len⟩
  align := 1
  size := len.toUInt64
  flags := if kind = .text then 6 else 0
  relocs := relocs

private def twinSymbol (index : Nat) (name : String) (sectionIndex : Nat) :
    InputSymbol where
  index := index
  name := nameOf name
  binding := .global
  isUndefined := false
  isCommon := false
  isIfunc := false
  stType := 2
  visibility := 2
  sectionIndex := some sectionIndex
  value := 0
  size := 3

private def unusedObject : InputObject :=
  InputObject.assemble "unused.o" 2 1
    [twinSection 1 ".text.f" .text 1 0 3 [],
      twinSection 2 ".llvm_addrsig" .other Icf.shtLlvmAddrsig 2 0 []]
    [twinSymbol 1 "f" 1] []

private def startObject : InputObject :=
  InputObject.assemble "start.o" 3 2
    [twinSection 1 ".text._start" .text 1 1 6 [⟨1, 4, 2, -4⟩],
      twinSection 2 ".text.g" .text 1 0 3 [],
      twinSection 3 ".llvm_addrsig" .other Icf.shtLlvmAddrsig 2 0 []]
    [twinSymbol 1 "_start" 1, twinSymbol 2 "g" 2] []

private def twinObjects : List InputObject :=
  [unusedObject, startObject]

private def twinTable : SymbolTable :=
  match SymbolTable.processAll
      [⟨unusedObject, []⟩, ⟨startObject, []⟩] with
  | .ok table => table
  | .error _ => SymbolTable.new

private def twinInput (gc : Bool) : LayoutInput where
  arena := twinArena
  objects := twinObjects
  symbols := twinTable
  live := (computeLive twinObjects gc
    (gcSectionsRootedWithStats twinObjects twinTable (nameOf "_start") false)
    [] none).asFilter
  foldMap := some (Icf.computeFoldMap twinArena twinObjects)

private theorem twinObjects_parsed : ∀ obj ∈ twinObjects, obj.Parsed := by
  intro obj present
  rw [twinObjects, List.mem_cons, List.mem_singleton] at present
  rcases present with rfl | rfl <;>
    exact InputObject.assemble_parsed _ _ _ _ _ _ (by decide) (by decide)
      (by decide) (by decide)

theorem addresses_compose_twinInput :
    ∃ layout, (twinInput false).computeLayoutIcf = .ok layout ∧
      (twinInput false).AddressesHold layout := by
  rcases @exists_layout (twinInput false) (by decide +kernel) with
    ⟨layout, computed⟩
  have folding : (twinInput false).Folding := by
    intro foldMap isMap
    exact (Option.some.inj isMap).symm
  refine ⟨layout, computed,
    (addresses_compose twinObjects_parsed folding computed).1 ⟨?_, ?_, ?_⟩⟩
  · decide +kernel
  · decide +kernel
  · rintro member _ ⟨name, listed, _⟩
    have none : (twinInput false).passthroughNames = [] := by decide +kernel
    rw [none] at listed
    exact absurd listed List.not_mem_nil

/-- The called function is emitted and has no address. -/
theorem droppedTwin_without_address :
    ∃ layout, (twinInput true).computeLayoutIcf = .ok layout ∧
      ¬ (twinInput true).AddressesHold layout := by
  rcases @exists_layout (twinInput true) (by decide +kernel) with
    ⟨layout, computed⟩
  refine ⟨layout, computed, fun holds => ?_⟩
  have isMember : (⟨1, startObject, 1,
      twinSection 2 ".text.g" .text 1 0 3 []⟩ : Contributor) ∈
      inputSections twinObjects := mem_inputSections.mpr ⟨rfl, rfl⟩
  rcases holds _ isMember (by decide +kernel) with ⟨address, found, _⟩
  have unplaced : (twinInput true).computeLayoutIcf.toOption.bind
      (fun layout => layout.addressOf 1 2) = none := by decide +kernel
  rw [computed] at unplaced
  exact nomatch unplaced.symm.trans found

end LayoutInput

end Peony
