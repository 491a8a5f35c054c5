import Peony.Layout.Sections

namespace Peony

/-! Which address a section of the link has, with and without folding. -/

namespace LayoutInput

variable {input : LayoutInput}

/-! ## Contributors -/

theorem contributor_isAlloc {member : Contributor}
    (present : member ∈ input.contributors) : member.sec.isAlloc = true := by
  have contributes := (mem_contributors.mp present).2
  simp only [LayoutInput.contributes, emits, isAllocatable,
    Bool.and_eq_true] at contributes
  exact contributes.1.1.1.1.1

theorem contributors_nodup (parsed : ∀ obj ∈ input.objects, obj.Parsed) :
    (input.contributors.map Icf.Place.label).Nodup :=
  (label_nodup_inputSections parsed).sublist
    (List.Sublist.map _ List.filter_sublist)

theorem keys_groups :
    (input.groups.flatMap Builder.keys).Perm
      (input.contributors.map Icf.Place.label) :=
  input.grouping.pieces_gather Builder.keys Icf.Place.label (fun _ => rfl)
    (fun _ _ => by simp [Builder.keys, grouping, Builder.add]; rfl) _

private theorem and_flagMask_alloc (flags : UInt64) :
    (flags &&& flagMask) &&& shfAlloc = flags &&& shfAlloc := by
  rw [UInt64.and_assoc]
  rfl

theorem groups_isAlloc {b : Builder} (isGroup : b ∈ input.groups) :
    b.shFlags &&& shfAlloc ≠ 0 := by
  rcases mem_groups.mp isGroup with ⟨first, rest, ofName, rfl⟩
  have among : first ∈ input.contributors := by
    have present : first ∈ first :: rest := List.mem_cons_self
    rw [← ofName] at present
    exact (List.mem_filter.mp present).1
  rw [collect_shape]
  change (first.sec.flags &&& flagMask) &&& shfAlloc ≠ 0
  rw [and_flagMask_alloc]
  exact bne_iff_ne.mp (contributor_isAlloc among)

/-! ## Loaded sections -/

structure IsPlaceOf (s : OutputSection) (c : SectionContribution)
    (member : Contributor) : Prop where
  present : c ∈ s.contributions
  key : c.key = member.label
  pos : c.sectionPos = member.pos
  size : c.size = member.sec.size
  isAlloc : s.shFlags &&& shfAlloc ≠ 0
  aligned : member.align.toNat ∣ (s.shAddr + c.offset).toNat

variable (aligned : ∀ member ∈ input.contributors,
  member.align.toNat.isPowerOfTwo)
variable (pre : DynPrebuild)

private theorem isPlaceOf_of_holds {b raised : Builder} {s : OutputSection}
    {member : Contributor} {c : SectionContribution}
    (power : member.align.toNat.isPowerOfTwo)
    (bPower : b.align.toNat.isPowerOfTwo)
    (below : member.align.toNat ≤ b.align.toNat)
    (isAlloc : b.shFlags &&& shfAlloc ≠ 0)
    (raises : b.RaisedTo raised) (output : raised.OutputAt input.base s)
    (holds : Holds b member c) : IsPlaceOf s c member := by
  rcases raises with ⟨align, rfl, suits⟩
  rcases output with ⟨shAddr, rfl, multiple⟩
  rcases holds with ⟨present, key, pos, size, offset⟩
  refine ⟨present, key, pos, size, isAlloc, dvd_add power ?_ offset⟩
  exact ((Alignment.dvd_of_le power bPower below).trans (suits bPower).2).trans
    (multiple (suits bPower).1)

def loaded (input : LayoutInput) (pre : DynPrebuild) : List OutputSection :=
  (input.placeAll (input.ordered pre)).placement.sections

include aligned

theorem exists_place {member : Contributor}
    (present : member ∈ input.contributors) :
    ∃ s ∈ input.loaded pre, ∃ c, IsPlaceOf s c member := by
  rcases exists_group aligned present with
    ⟨b, isGroup, c, holds, bPower, below⟩
  rcases (input.classified_ordered pre input.groups).exists_placed
    (groups_aligned aligned) isGroup with ⟨raised, isPlaced, raises⟩
  rcases Pairwise.exists_right (input.placeAll_of (input.ordered pre)).sections
    isPlaced with ⟨s, isLoaded, output⟩
  exact ⟨s, isLoaded, c, isPlaceOf_of_holds (aligned member present) bPower below
    (groups_isAlloc isGroup) raises output holds⟩

theorem exists_contributor {s : OutputSection} (isLoaded : s ∈ input.loaded pre)
    {c : SectionContribution} (present : c ∈ s.contributions) :
    ∃ member ∈ input.contributors, IsPlaceOf s c member := by
  rcases Pairwise.exists_left (input.placeAll_of (input.ordered pre)).sections
    isLoaded with ⟨raised, isPlaced, output⟩
  rcases (input.classified_ordered pre input.groups).exists_origin
    (groups_aligned aligned) isPlaced with ⟨b, origin, raises⟩
  have inBuilder : c ∈ b.contributions := by
    rcases raises with ⟨align, rfl, _⟩
    rcases output with ⟨shAddr, rfl, _⟩
    exact present
  rcases origin with isGroup | bare
  · rcases groups_held aligned isGroup inBuilder with
      ⟨member, isContributor, holds, _, below⟩
    exact ⟨member, isContributor, isPlaceOf_of_holds
      (aligned member isContributor) (groups_aligned aligned b isGroup) below
      (groups_isAlloc isGroup) raises output holds⟩
  · rw [bare.1] at inBuilder
    exact absurd inBuilder List.not_mem_nil

theorem keys_loaded :
    ((input.loaded pre).flatMap fun s =>
      s.contributions.map SectionContribution.key).Perm
      (input.contributors.map Icf.Place.label) := by
  have same {builders : List Builder} {sections : List OutputSection}
      (pairs : List.Forall₂ (Builder.OutputAt input.base) builders sections) :
      (sections.flatMap fun s => s.contributions.map SectionContribution.key) =
        builders.flatMap Builder.keys := by
    induction pairs with
    | nil => rfl
    | cons output _ induction =>
        rcases output with ⟨shAddr, rfl, _⟩
        rw [List.flatMap_cons, List.flatMap_cons, induction]
        rfl
  rw [loaded, same (input.placeAll_of (input.ordered pre)).sections]
  exact ((input.classified_ordered pre input.groups).keys_relroOrder
    (groups_aligned aligned)).trans keys_groups

/-! ## Lookups -/

theorem keys_placed :
    (((input.placeAll (input.ordered pre)).placement.addresses).map
      Prod.fst).Perm (input.contributors.map Icf.Place.label) := by
  rw [(input.placeAll_of (input.ordered pre)).addresses, List.map_reverse,
    List.map_flatMap]
  refine (List.reverse_perm _).trans ?_
  have keys := keys_loaded aligned pre
  simp only [OutputSection.places, List.map_map, Function.comp_def]
  exact keys

theorem lookup_placed (parsed : ∀ obj ∈ input.objects, obj.Parsed)
    {s : OutputSection} (isLoaded : s ∈ input.loaded pre)
    {c : SectionContribution} {member : Contributor}
    (place : IsPlaceOf s c member) :
    (input.placeAll (input.ordered pre)).placement.addresses.lookup
      member.label = some (s.shAddr + c.offset) := by
  have distinct := (keys_placed aligned pre).nodup_iff.mpr
    (contributors_nodup parsed)
  rw [Assoc.lookup_eq_some distinct,
    (input.placeAll_of (input.ordered pre)).addresses, List.mem_reverse,
    List.mem_flatMap]
  refine ⟨s, isLoaded, List.mem_map.mpr ⟨c, place.present, ?_⟩⟩
  rw [place.key]

theorem lookup_unplaced {key : SectionKey}
    (absent : key ∉ input.contributors.map Icf.Place.label) :
    (input.placeAll (input.ordered pre)).placement.addresses.lookup key = none := by
  rw [Assoc.lookup_eq_none, (keys_placed aligned pre).mem_iff]
  exact absent

omit aligned

/-- The folds of the input are those that identical code folding finds. -/
def Folding (input : LayoutInput) : Prop :=
  ∀ foldMap, input.foldMap = some foldMap →
    foldMap = Icf.computeFoldMap input.arena input.objects

theorem foldsOnto_of_foldsTo (folding : input.Folding)
    (parsed : ∀ obj ∈ input.objects, obj.Parsed) {dup canon : SectionKey}
    (folds : input.foldsTo dup = some canon) :
    ∃ dupPlace canonPlace, dupPlace.label = dup ∧ canonPlace.label = canon ∧
      Icf.FoldsOnto input.arena input.objects dupPlace canonPlace := by
  rcases Option.bind_eq_some_iff.mp folds with ⟨foldMap, isMap, found⟩
  rw [folding foldMap isMap, Icf.computeFoldMap_eq] at found
  exact Representatives.folded_of_lookup _
    (List.Nodup.of_map _ (label_nodup_inputSections parsed)) found

theorem foldsTo_canonical (folding : input.Folding)
    (parsed : ∀ obj ∈ input.objects, obj.Parsed) {dup canon : SectionKey}
    (folds : input.foldsTo dup = some canon) : input.foldsTo canon = none := by
  rcases foldsOnto_of_foldsTo folding parsed folds with
    ⟨dupPlace, canonPlace, _, rfl, folded⟩
  rw [foldsTo, Option.bind_eq_none_iff]
  intro foldMap isMap
  rw [folding foldMap isMap, Icf.computeFoldMap_eq]
  exact Representatives.representative_unfolded
    (label_nodup_inputSections parsed) folded

def foldPairs (foldMap : Icf.FoldMap) : List (SectionKey × SectionKey) :=
  foldMap.entries.map fun entry => (entry.1, entry.2)

theorem keys_foldPairs (foldMap : Icf.FoldMap) :
    (foldPairs foldMap).map Prod.fst = foldMap.keys := by
  rw [foldPairs, List.map_map]
  rfl

theorem lookup_foldPairs (foldMap : Icf.FoldMap) (key : SectionKey) :
    (foldPairs foldMap).lookup key = foldMap.lookup key := by
  have each (entries : List ((_ : SectionKey) × SectionKey)) :
      (entries.map fun entry => (entry.1, entry.2)).lookup key =
        entries.dlookup key := by
    induction entries with
    | nil => rfl
    | cons entry rest induction =>
        rw [List.map_cons, Assoc.lookup_cons]
        by_cases same : key = entry.1
        · subst same
          rw [if_pos rfl]
          exact (List.dlookup_cons_eq rest entry.1 entry.2).symm
        · rw [if_neg same, induction, List.dlookup_cons_ne _ _ same]
  exact each foldMap.entries

theorem addresses_aliasFolds {foldMap : Icf.FoldMap}
    (isMap : input.foldMap = some foldMap) (placed : Placement) :
    (input.aliasFolds placed).addresses =
      Assoc.copyAll placed.addresses (foldPairs foldMap) := by
  have each (entries : List ((_ : SectionKey) × SectionKey))
      (placed : Placement) :
      (entries.foldl (fun placed entry => aliasOne placed entry.1 entry.2)
        placed).addresses =
        Assoc.copyAll placed.addresses
          (entries.map fun entry => (entry.1, entry.2)) := by
    induction entries generalizing placed with
    | nil => rfl
    | cons entry rest induction =>
        exact induction (aliasOne placed entry.1 entry.2)
  rw [aliasFolds, isMap]
  exact each foldMap.entries placed

theorem lookup_placement (folding : input.Folding)
    (parsed : ∀ obj ∈ input.objects, obj.Parsed) (ordered : Builders)
    (key : SectionKey) :
    (input.placement ordered).addresses.lookup key =
      match input.foldsTo key with
      | some canon =>
          ((input.placeAll ordered).placement.addresses.lookup canon).or
            ((input.placeAll ordered).placement.addresses.lookup key)
      | none => (input.placeAll ordered).placement.addresses.lookup key := by
  cases isMap : input.foldMap with
  | none => simp [placement, aliasFolds, foldsTo, isMap]
  | some foldMap =>
      have lookups (other : SectionKey) :
          (foldPairs foldMap).lookup other = input.foldsTo other := by
        rw [lookup_foldPairs, foldsTo, isMap]
        rfl
      rw [placement, addresses_aliasFolds isMap, Assoc.lookup_copyAll, lookups]
      · cases input.foldsTo key <;> rfl
      · rw [keys_foldPairs]
        exact foldMap.nodupKeys
      · intro pair present inKeys
        have distinct : ((foldPairs foldMap).map Prod.fst).Nodup := by
          rw [keys_foldPairs]
          exact foldMap.nodupKeys
        have folds : input.foldsTo pair.1 = some pair.2 := by
          rw [← lookups, Assoc.lookup_eq_some distinct]
          exact present
        have unfolded := foldsTo_canonical folding parsed folds
        rw [← lookups, Assoc.lookup_eq_none] at unfolded
        exact unfolded inKeys

theorem lookup_fileCursor {ordered : Builders} {key : SectionKey}
    (kept : ∀ member, input.IsPassedThrough member → member.label ≠ key) :
    (input.fileCursor ordered).addresses.lookup key =
      (input.placement ordered).addresses.lookup key := by
  rcases input.fileCursor_extends ordered with ⟨more, each, _, addresses⟩
  rw [addresses, List.lookup_append, Assoc.lookup_eq_none.mpr, Option.none_or]
  rw [List.map_reverse, List.mem_reverse, List.map_flatMap, List.mem_flatMap]
  rintro ⟨s, isFileOnly, inKeys⟩
  rw [OutputSection.places, List.map_map] at inKeys
  rcases List.mem_map.mp inKeys with ⟨c, present, same⟩
  rcases (each s isFileOnly).members present with ⟨member, passed, isKey⟩
  exact kept member passed (isKey.symm.trans same)

end LayoutInput

end Peony
