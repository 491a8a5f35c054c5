import Peony.Foundation.Pairwise
import Peony.Foundation.Sorting
import Peony.Verification.LayoutChecker

namespace Peony

/-! What the checker of a layout accepts is sound where the segments map the sections
that they hold at the image base. -/

/-! ## Ranges that do not meet -/

instance : Std.TransCmp NamedRange.cmp :=
  inferInstanceAs (Std.TransCmp (compareLex _ _))

theorem checkNeighbours_chain {kind : String} {prior : Option NamedRange}
    {ranges : List NamedRange} (checked : checkNeighbours kind prior ranges = .ok ()) :
    (prior.toList ++ ranges).IsChain fun first second =>
      first.range.stop.toNat ≤ second.range.start.toNat := by
  induction ranges generalizing prior with
  | nil => cases prior <;> simp
  | cons second rest induction =>
      cases prior with
      | none => exact induction checked
      | some first =>
          rw [checkNeighbours] at checked
          split at checked
          · exact nomatch checked
          · rename_i apart
            refine List.isChain_cons_cons.mpr ⟨?_, induction checked⟩
            rw [gt_iff_lt, UInt64.lt_iff_toNat_lt] at apart
            exact Nat.le_of_not_lt apart

/-- Ranges that pass share no offset. -/
theorem allApart_of_nonOverlapping {kind : String} {ranges : List NamedRange}
    (checked : checkNonOverlapping kind ranges = .ok ()) :
    AllApart (fun named => named.range) ranges := by
  have sorted : (sortBy NamedRange.cmp ranges).Pairwise fun first second =>
      first.range.start.toNat ≤ second.range.start.toNat := by
    refine (Sorting.pairwise ranges).imp ?_
    intro first second inOrder
    apply Nat.le_of_not_lt
    intro isAfter
    apply inOrder
    have order : compare first.range.start second.range.start = .gt :=
      Std.compare_eq_gt.mpr (UInt64.lt_iff_toNat_lt.mpr isAfter)
    rw [NamedRange.cmp, compareLex, compareOn, order]
    rfl
  have neighbours : (sortBy NamedRange.cmp ranges).IsChain
      (Sweep.Follows (fun named : NamedRange => named.range.start.toNat)
        fun named => named.range.stop.toNat) :=
    Sweep.follows_of_sorted sorted (checkNeighbours_chain checked)
  have apart := Sweep.pairwise_of_neighbours neighbours
  refine ((List.perm_insertionSort _ ranges).pairwise_iff ?_).mp apart
  intro first second disjoint place both
  exact disjoint place both.symm

theorem allApart_of_listed {Item : Type} {range : Item → RangeBounds}
    {listed : Item → Option NamedRange} {items : List Item}
    (lists : ∀ item ∈ items, ∀ place, (range item).Has place →
      ∃ named, listed item = some named ∧ named.range = range item)
    (apart : AllApart (fun named => named.range) (items.filterMap listed)) :
    AllApart range items := by
  have pairs := List.pairwise_filterMap.mp apart
  refine pairs.imp_of_mem ?_
  intro item other present otherPresent disjoint place both
  rcases lists item present place both.1 with ⟨named, isListed, same⟩
  rcases lists other otherPresent place both.2 with ⟨next, isNext, sameNext⟩
  rw [← same, ← sameNext] at both
  exact disjoint named isListed next isNext place both

theorem RangeBounds.Has.nonempty {range : RangeBounds} {place : Nat}
    (has : range.Has place) : range.isEmpty = false :=
  RangeBounds.isEmpty_eq_false_iff.mpr (has.1.trans_lt has.2)

/-! ## Segments -/

theorem checkSegment_ok {fileSize : UInt64} {segment : LayoutSegmentWitness}
    (checked : checkSegment fileSize segment = .ok ()) :
    segment.range.file.len.toNat ≤ segment.range.va.len.toNat := by
  rcases bind_ok checked with ⟨_, _, later⟩
  rcases bind_ok later with ⟨_, _, sizes⟩
  split at sizes
  · exact nomatch sizes
  · rename_i atMost
    rw [gt_iff_lt, UInt64.lt_iff_toNat_lt] at atMost
    exact Nat.le_of_not_lt atMost

structure LayoutWitness.SegmentsSound (witness : LayoutWitness) : Prop where
  files : AllApart (fun segment => segment.range.file) witness.loadSegments
  addresses : AllApart (fun segment => segment.range.va) witness.loadSegments
  sizes : ∀ segment ∈ witness.loadSegments,
    segment.range.file.len.toNat ≤ segment.range.va.len.toNat

theorem checkSegments_ok {witness : LayoutWitness} {loads : List LayoutSegmentWitness}
    (checked : checkSegments witness = .ok loads) :
    loads = witness.loadSegments ∧ witness.SegmentsSound := by
  rcases bind_ok checked with ⟨_, each, later⟩
  rcases bind_ok later with ⟨_, files, others⟩
  rcases bind_ok others with ⟨_, addresses, result⟩
  cases result
  refine ⟨rfl, ?_, ?_, ?_⟩
  · refine allApart_of_listed ?_ (allApart_of_nonOverlapping files)
    intro segment _ place has
    refine ⟨⟨segmentOwner segment, segment.range.file⟩, ?_, rfl⟩
    rw [LayoutSegmentWitness.fileRange, has.nonempty, if_neg Bool.false_ne_true]
  · refine allApart_of_listed ?_ (allApart_of_nonOverlapping addresses)
    intro segment _ place has
    refine ⟨⟨segmentOwner segment, segment.range.va⟩, ?_, rfl⟩
    rw [LayoutSegmentWitness.vaRange, has.nonempty, if_neg Bool.false_ne_true]
  · intro segment isLoad
    exact checkSegment_ok (forM_ok_iff.mp each segment (List.mem_of_mem_filter isLoad))

/-! ## Contributions -/

theorem checkContributionRange_ok {sec : LayoutWindowWitness}
    {contribution : ContributionOwnerWitness} {sectionSize : UInt64}
    (checked : checkContributionRange sec contribution sectionSize = .ok ()) :
    contribution.range.stop ≤ sectionSize := by
  rcases bind_ok checked with ⟨_, _, later⟩
  split at later
  · exact nomatch later
  · split at later
    · rename_i inside
      exact inside
    · exact nomatch later

theorem checkContributionOrder_ok {prior : Option ContributionOwnerWitness}
    {contribution : ContributionOwnerWitness}
    (checked : checkContributionOrder prior contribution = .ok ()) :
    ∀ previous ∈ prior,
      previous.range.stop.toNat ≤ contribution.range.start.toNat := by
  rintro previous rfl
  rw [checkContributionOrder] at checked
  split at checked
  · rename_i isBehind
    exact UInt64.le_iff_toNat_le.mp isBehind
  · exact nomatch checked

/-- Contributions that pass end inside of the section, follow each other, and have
owners of their own. -/
theorem checkContributionsFrom_ok {sec : LayoutWindowWitness}
    {prior : Option ContributionOwnerWitness} {owners out : List SectionRefWitness}
    {contributions : List ContributionOwnerWitness}
    (checked : checkContributionsFrom sec prior owners contributions = .ok out) :
    (∀ contribution ∈ contributions, contribution.range.stop ≤ sec.size) ∧
      (prior.toList ++ contributions).IsChain (fun first second =>
        first.range.stop.toNat ≤ second.range.start.toNat) ∧
      out = (contributions.map fun contribution => contribution.sec).reverse ++ owners ∧
      (owners.Nodup → out.Nodup) := by
  induction contributions generalizing prior owners with
  | nil =>
      cases checked
      refine ⟨nofun, ?_, rfl, id⟩
      cases prior <;> simp
  | cons contribution rest induction =>
      rcases bind_ok checked with ⟨_, inside, later⟩
      rcases bind_ok later with ⟨_, ordered, others⟩
      split at others
      · exact nomatch others
      · rename_i isNew
        rcases induction others with ⟨restInside, chain, rfl, unique⟩
        refine ⟨List.forall_mem_cons.mpr
          ⟨checkContributionRange_ok inside, restInside⟩, ?_, ?_, ?_⟩
        · cases prior with
          | none => exact chain
          | some previous =>
              exact .cons_cons (checkContributionOrder_ok ordered previous rfl) chain
        · simp
        · exact fun isUnique => unique (List.nodup_cons.mpr ⟨isNew, isUnique⟩)

/-- Contributions in order share no offset. -/
theorem allApart_of_chain {contributions : List ContributionOwnerWitness}
    (chain : contributions.IsChain fun first second =>
      first.range.stop.toNat ≤ second.range.start.toNat) :
    AllApart (fun contribution => contribution.range) contributions := by
  apply Sweep.pairwise_of_neighbours
  refine chain.imp ?_
  intro first second isBehind
  exact ⟨first.range.start_le_stop.trans isBehind, isBehind⟩

/-! ## Output sections -/

section Windows

variable {witness : LayoutWitness} {loads : List LayoutSegmentWitness}
variable {sec : LayoutWindowWitness}

theorem checkSectionWindow_notLoaded
    (checked : checkSectionWindow witness loads sec = .ok ())
    (notLoaded : sec.isAlloc = false) : sec.range.va.isEmpty = true := by
  rcases bind_ok checked with ⟨_, _, later⟩
  rcases bind_ok later with ⟨_, _, aligned⟩
  rcases bind_ok aligned with ⟨_, _, window⟩
  rw [notLoaded, if_neg Bool.false_ne_true, checkNonAllocVirtualRange] at window
  split at window
  · rename_i isEmpty
    exact isEmpty
  · exact nomatch window

theorem checkSectionWindow_loaded
    (checked : checkSectionWindow witness loads sec = .ok ())
    (isLoaded : sec.isAlloc = true) :
    sec.range.va.start.toNat =
        witness.imageBase.toNat + sec.range.file.start.toNat ∧
      (sec.range.file.isEmpty = false →
        ∃ segment ∈ loads, segment.range.file.contains sec.range.file = true) := by
  rcases bind_ok checked with ⟨_, _, later⟩
  rcases bind_ok later with ⟨_, _, aligned⟩
  rcases bind_ok aligned with ⟨_, _, window⟩
  rw [if_pos isLoaded] at window
  rcases bind_ok window with ⟨_, _, placed⟩
  split at placed
  · exact nomatch placed
  · rename_i atBase
    rw [not_or, not_ne_iff] at atBase
    split at placed
    · rename_i contained
      constructor
      · have atLeast := UInt64.not_lt.mp atBase.1
        have difference := congrArg UInt64.toNat atBase.2
        rw [UInt64.toNat_sub_of_le _ _ atLeast] at difference
        have least := UInt64.le_iff_toNat_le.mp atLeast
        omega
      · intro nonempty
        rw [sectionIsInLoadSegments, nonempty, Bool.false_or, Bool.and_eq_true,
          List.any_eq_true, List.any_eq_true] at contained
        exact contained.2
    · exact nomatch placed

end Windows

structure LayoutWitness.SectionsSound (witness : LayoutWitness) : Prop where
  files : AllApart (fun sec => sec.range.file) witness.outputSections
  addresses : AllApart (fun sec => sec.range.va) witness.outputSections
  contributionsApart : ∀ sec ∈ witness.outputSections,
    AllApart (fun contribution => contribution.range) sec.contributions
  contributionsInside : ∀ sec ∈ witness.outputSections,
    ∀ contribution ∈ sec.contributions, contribution.range.stop ≤ sec.size
  ownedOnce : (witness.outputSections.flatMap fun sec =>
    sec.contributions.map fun contribution => contribution.sec).Nodup
  window : ∀ sec ∈ witness.outputSections,
    checkSectionWindow witness witness.loadSegments sec = .ok ()

theorem checkOutputSection_fold {witness : LayoutWitness}
    {loads : List LayoutSegmentWitness} {owners out : List SectionRefWitness}
    {sections : List LayoutWindowWitness}
    (checked : sections.foldlM (checkOutputSection witness loads) owners = .ok out) :
    (∀ sec ∈ sections, checkSectionWindow witness loads sec = .ok () ∧
      (∀ contribution ∈ sec.contributions, contribution.range.stop ≤ sec.size) ∧
      AllApart (fun contribution => contribution.range) sec.contributions) ∧
      (owners.Nodup → out.Nodup) ∧
      out.Perm (owners ++ sections.flatMap fun sec =>
        sec.contributions.map fun contribution => contribution.sec) := by
  induction sections generalizing owners with
  | nil =>
      cases checked
      exact ⟨nofun, id, by simp⟩
  | cons sec rest induction =>
      rcases bind_ok checked with ⟨next, first, later⟩
      rcases bind_ok first with ⟨_, window, contributions⟩
      rcases checkContributionsFrom_ok contributions with ⟨inside, chain, rfl, unique⟩
      rcases induction later with ⟨others, restUnique, restPerm⟩
      refine ⟨List.forall_mem_cons.mpr ⟨⟨window, inside, allApart_of_chain chain⟩,
        others⟩, restUnique ∘ unique, restPerm.trans ?_⟩
      rw [List.flatMap_cons, ← List.append_assoc]
      apply List.Perm.append_right
      exact (List.perm_append_comm).trans
        (List.Perm.append_left owners (List.reverse_perm _))

theorem checkOutputSections_ok {witness : LayoutWitness}
    (checked : checkOutputSections witness witness.loadSegments = .ok ()) :
    witness.SectionsSound := by
  rcases bind_ok checked with ⟨owners, each, later⟩
  rcases bind_ok later with ⟨_, files, addresses⟩
  rcases checkOutputSection_fold each with ⟨sections, unique, perm⟩
  refine ⟨?_, ?_, fun sec present => (sections sec present).2.2,
    fun sec present => (sections sec present).2.1, ?_,
    fun sec present => (sections sec present).1⟩
  · refine allApart_of_listed ?_ (allApart_of_nonOverlapping files)
    intro sec _ place has
    refine ⟨⟨sec.outputSectionName, sec.range.file⟩, ?_, rfl⟩
    rw [LayoutWindowWitness.fileRange, has.nonempty, if_neg Bool.false_ne_true]
  · refine allApart_of_listed ?_ (allApart_of_nonOverlapping addresses)
    intro sec present place has
    refine ⟨⟨sec.outputSectionName, sec.range.va⟩, ?_, rfl⟩
    cases isLoaded : sec.isAlloc with
    | true => rw [LayoutWindowWitness.vaRange, isLoaded, has.nonempty]; rfl
    | false =>
        have isEmpty := checkSectionWindow_notLoaded (sections sec present).1 isLoaded
        exact nomatch isEmpty.symm.trans has.nonempty
  · exact perm.nodup_iff.mp (unique List.nodup_nil)

/-! ## Sections in segments -/

namespace LayoutSegmentWitness

variable {segment : LayoutSegmentWitness} {sec : LayoutWindowWitness}

theorem Loads.ends (loads : segment.Loads sec)
    (nonempty : sec.range.file.isEmpty = false) :
    sec.range.file.start.toNat = segment.fileOffset sec.range.va.start.toNat ∧
      sec.range.file.stop.toNat + sec.range.va.start.toNat =
        sec.range.va.stop.toNat + sec.range.file.start.toNat := by
  have inside := (RangeBounds.contains_iff.mp loads.addresses).1
  rw [RangeBounds.isEmpty_eq_false_iff] at nonempty
  have onto := loads.onto
  simp only [RangeBounds.has_iff, fileOffset] at onto ⊢
  rcases (onto sec.range.file.start.toNat).mp ⟨le_rfl, nonempty⟩ with
    ⟨first, isFirst, atFirst⟩
  rcases (onto (sec.range.file.stop.toNat - 1)).mp (by omega) with
    ⟨last, isLast, atLast⟩
  have lowest := (onto _).mpr ⟨sec.range.va.start.toNat, by omega, rfl⟩
  have highest := (onto _).mpr ⟨sec.range.va.stop.toNat - 1, by omega, rfl⟩
  omega

theorem loads_of_atBase {base : Nat}
    (bytes : segment.range.file.contains sec.range.file = true)
    (sizes : segment.range.file.len.toNat ≤ segment.range.va.len.toNat)
    (sameSize : sec.range.va.len = sec.range.file.len)
    (atBase : segment.range.va.start.toNat = base + segment.range.file.start.toNat)
    (placed : sec.range.va.start.toNat = base + sec.range.file.start.toNat) :
    segment.Loads sec := by
  have sameLength := congrArg UInt64.toNat sameSize
  rw [RangeBounds.toNat_len, RangeBounds.toNat_len] at sameLength sizes
  have inside := RangeBounds.contains_iff.mp bytes
  have fileOrdered := sec.range.file.start_le_stop
  have vaOrdered := sec.range.va.start_le_stop
  have outerFile := segment.range.file.start_le_stop
  have outerVa := segment.range.va.start_le_stop
  refine ⟨RangeBounds.contains_iff.mpr (by omega), bytes, fun place => ?_⟩
  rw [RangeBounds.has_iff]
  constructor
  · intro has
    refine ⟨base + place, ?_, ?_⟩
    · rw [RangeBounds.has_iff]
      omega
    · rw [fileOffset]
      omega
  · rintro ⟨address, has, rfl⟩
    rw [RangeBounds.has_iff] at has
    rw [fileOffset]
    omega

end LayoutSegmentWitness

namespace LayoutWitness

variable {witness : LayoutWitness}

theorem SegmentsSound.unique (segments : witness.SegmentsSound) {range : RangeBounds}
    (nonempty : range.isEmpty = false) {segment other : LayoutSegmentWitness}
    (isLoad : segment ∈ witness.loadSegments)
    (otherIsLoad : other ∈ witness.loadSegments)
    (bytes : segment.range.file.contains range = true)
    (otherBytes : other.range.file.contains range = true) : segment = other := by
  rw [RangeBounds.isEmpty_eq_false_iff] at nonempty
  rw [RangeBounds.contains_iff] at bytes otherBytes
  by_contra different
  have has : segment.range.file.Has range.start.toNat :=
    ⟨bytes.1, nonempty.trans_le bytes.2⟩
  have otherHas : other.range.file.Has range.start.toNat :=
    ⟨otherBytes.1, nonempty.trans_le otherBytes.2⟩
  rcases Pairwise.either segments.files isLoad otherIsLoad different with apart | apart
  · exact apart _ ⟨has, otherHas⟩
  · exact apart _ ⟨otherHas, has⟩

/-- What is loaded with the bytes of a section is mapped where the section is placed. -/
theorem mapsAtBase_of_sound (checked : checkLayoutWitness witness = .ok ())
    (sound : witness.Sound) : witness.MapsAtBase := by
  rcases bind_ok checked with ⟨loads, segmentsChecked, sectionsChecked⟩
  rcases checkSegments_ok segmentsChecked with ⟨rfl, segments⟩
  have sections := checkOutputSections_ok sectionsChecked
  intro sec present isLoaded nonempty
  have placed := (checkSectionWindow_loaded (sections.window sec present) isLoaded).1
  rcases sound.loaded sec present isLoaded nonempty with ⟨segment, isLoad, loads⟩
  rcases loads.ends nonempty with ⟨first, last⟩
  have addresses := RangeBounds.contains_iff.mp loads.addresses
  have bytes := RangeBounds.contains_iff.mp loads.bytes
  rw [LayoutSegmentWitness.fileOffset] at first
  constructor
  · rw [← UInt64.toNat_inj, RangeBounds.toNat_len, RangeBounds.toNat_len]
    omega
  · intro other otherIsLoad contained
    cases segments.unique nonempty isLoad otherIsLoad loads.bytes contained
    omega

theorem sound_of_mapsAtBase (checked : checkLayoutWitness witness = .ok ())
    (atBase : witness.MapsAtBase) : witness.Sound := by
  rcases bind_ok checked with ⟨loads, segmentsChecked, sectionsChecked⟩
  rcases checkSegments_ok segmentsChecked with ⟨rfl, segments⟩
  have sections := checkOutputSections_ok sectionsChecked
  refine ⟨sections.files, sections.addresses, segments.files, segments.addresses,
    sections.contributionsApart, sections.contributionsInside, sections.ownedOnce, ?_⟩
  intro sec present isLoaded nonempty
  rcases checkSectionWindow_loaded (sections.window sec present) isLoaded with
    ⟨placed, contained⟩
  rcases contained nonempty with ⟨segment, isLoad, bytes⟩
  rcases atBase sec present isLoaded nonempty with ⟨sameSize, mapped⟩
  exact ⟨segment, isLoad, LayoutSegmentWitness.loads_of_atBase bytes
    (segments.sizes segment isLoad) sameSize (mapped segment isLoad bytes) placed⟩

/-- A layout that passes is sound exactly when each section with bytes that is loaded
has as many addresses, and is in a segment that is mapped at the image base. -/
theorem layoutSound_iff (checked : checkLayoutWitness witness = .ok ()) :
    witness.Sound ↔ witness.MapsAtBase :=
  ⟨mapsAtBase_of_sound checked, sound_of_mapsAtBase checked⟩

/-! A section of two contributions, and the segments that are to load it. -/

private def withSegments (segments : List LayoutSegmentWitness) : LayoutWitness where
  imageBase := 0x400000
  fileSize := 0x3000
  outputSections := [
    { outputSectionName := ".text"
      flags := shfAlloc
      range := ⟨⟨0x1000, 0x1010, by decide⟩, ⟨0x401000, 0x401010, by decide⟩⟩
      alignment := 16
      contributions :=
        [⟨⟨0, 1⟩, 0, 8, ⟨0, 8, by decide⟩⟩, ⟨⟨1, 1⟩, 8, 8, ⟨8, 16, by decide⟩⟩] }]
  segments := segments

private def oneSegment : LayoutWitness := withSegments [
  ⟨0, ptLoad, ⟨⟨0x1000, 0x1010, by decide⟩, ⟨0x401000, 0x401010, by decide⟩⟩, 0x1000⟩]

/-- The addresses of the section are in the first segment, its bytes in the second. -/
private def twoSegments : LayoutWitness := withSegments [
  ⟨0, ptLoad, ⟨⟨0x2000, 0x2010, by decide⟩, ⟨0x401000, 0x401010, by decide⟩⟩, 0x1000⟩,
  ⟨1, ptLoad, ⟨⟨0x1000, 0x1010, by decide⟩, ⟨0x800000, 0x800010, by decide⟩⟩, 0x1000⟩]

theorem layoutSound_oneSegment : oneSegment.Sound ↔ oneSegment.MapsAtBase :=
  layoutSound_iff (by decide +kernel)

theorem not_layoutSound :
    ¬ ∀ witness, checkLayoutWitness witness = .ok () → witness.Sound := by
  intro sound
  have checked : checkLayoutWitness twoSegments = .ok () := by decide +kernel
  have atBase := mapsAtBase_of_sound checked (sound twoSegments checked) _
    (List.mem_singleton.mpr rfl) (by decide) (by decide)
  have mapped := atBase.2 _ (List.mem_cons_of_mem _ (List.mem_singleton.mpr rfl))
    (by decide)
  exact absurd mapped (by decide)

end LayoutWitness

end Peony
