import Peony.Layout.Ranges

namespace Peony

/-! The geometry of a layout as a whole. -/

open Spans

/-! ## Contributions -/

theorem Icf.Place.align_eq (member : Contributor) :
    Icf.Place.align member = max member.sec.align 1 := by
  rw [Icf.Place.align]
  apply UInt64.toNat_inj.mp
  rw [toNat_max]
  split
  · rename_i isZero
    rw [beq_iff_eq.mp isZero]
    rfl
  · rename_i notZero
    have positive : member.sec.align.toNat ≠ 0 :=
      fun none => notZero (beq_iff_eq.mpr (UInt64.toNat_inj.mp none))
    exact (max_eq_left (Nat.one_le_iff_ne_zero.mpr positive)).symm

namespace LayoutInput

variable {input : LayoutInput}

theorem passthrough_aligned {members : List Contributor} {c : SectionContribution}
    (present : c ∈ (members.foldl Passthrough.add {}).contributions) :
    ∃ member ∈ members, c.key = member.label ∧
      (member.align.toNat.isPowerOfTwo → member.align.toNat ∣ c.offset.toNat) := by
  induction members using List.reverseRecOn with
  | nil => exact absurd present List.not_mem_nil
  | append_singleton members last induction =>
      rw [List.foldl_append, List.foldl_cons, List.foldl_nil, Passthrough.add,
        List.mem_append] at present
      rcases present with before | isLast
      · rcases induction before with ⟨member, isMember, aligned⟩
        exact ⟨member, List.mem_append_left _ isMember, aligned⟩
      · rw [List.mem_singleton.mp isLast]
        refine ⟨last, List.mem_append_right _ List.mem_cons_self, rfl, fun power => ?_⟩
        rw [Icf.Place.align_eq] at power ⊢
        exact dvd_alignUp power _

section Computed

variable {layout : Layout} (computed : Computed input layout)

include computed

theorem section_cases {s : OutputSection} (present : s ∈ layout.outputSections) :
    (∃ load ∈ input.loads (input.ordered computed.pre), ∃ placed ∈ load.sections,
        placed.Finished s) ∨
      (∃ fileOnly, input.FileOnly fileOnly ∧ fileOnly.Finished s) ∨
      s.contributions = [] := by
  rw [computed.assembled] at present
  rcases Pairwise.exists_left (input.finished_assemble _ _ _) present with
    ⟨before, among, isFinished⟩
  rcases input.fileCursor_extends (input.ordered computed.pre) with
    ⟨more, each, sections, _⟩
  rw [sections, ← sections_loads] at among
  rcases List.mem_append.mp among with inFile | isNames
  · rcases List.mem_append.mp inFile with inLoads | isFileOnly
    · rcases List.mem_flatMap.mp inLoads with ⟨load, isLoad, isPlaced⟩
      exact .inl ⟨load, isLoad, before, isPlaced, isFinished⟩
    · exact .inr (.inl ⟨before, each before isFileOnly, isFinished⟩)
  · refine .inr (.inr ?_)
    rw [isFinished.contributions, List.mem_singleton.mp isNames]
    rfl

theorem contributions_laid (noWrap : input.NoWrap computed.pre) {s : OutputSection}
    (present : s ∈ layout.outputSections) :
    Laid 0 (s.contributions.map SectionContribution.extent) s.shSize.toNat := by
  rcases section_cases computed present with
    ⟨load, isLoad, placed, isPlaced, isFinished⟩ |
    ⟨fileOnly, isFileOnly, isFinished⟩ | none
  · have isSection : placed ∈ (input.placeAll
        (input.ordered computed.pre)).placement.sections := by
      rw [← sections_loads]
      exact List.mem_flatMap.mpr ⟨load, isLoad, isPlaced⟩
    have other := source_placed isSection
    rw [isFinished.contributions, isFinished.shSize other]
    rcases Pairwise.exists_left (load_outputs isLoad) isPlaced with
      ⟨raised, isRaised, shAddr, rfl, _⟩
    rcases load_origin (input.classified_ordered computed.pre input.groups)
      (groups_aligned computed.aligned) isLoad isRaised with
      ⟨b, origin, ⟨align, rfl, _⟩, _⟩
    change Laid 0 (b.contributions.map SectionContribution.extent) b.size.toNat
    rcases origin with isGroup | bare
    · rcases mem_groups.mp isGroup with ⟨first, rest, ofName, isCollected⟩
      have fits := noWrap.grouped b.name
      rw [show input.membersOf b.name = first :: rest from ofName] at fits
      have extents := @collect_extents input first (first :: rest)
      rw [← isCollected] at extents
      rw [extents.1, extents.2]
      exact fits.laid
    · rw [bare.1]
      exact .nil (Nat.zero_le _)
  · rw [isFinished.contributions, isFinished.shSize isFileOnly.source]
    rcases isFileOnly.contents with none | ⟨name, listed, contributions, size⟩
    · rw [none]
      exact .nil (Nat.zero_le _)
    · have extents := passthrough_extents (input.passthroughMembers name)
      rw [contributions, size, passthrough, extents.1, extents.2]
      exact (noWrap.passed name listed).laid
  · rw [none]
    exact .nil (Nat.zero_le _)

theorem offset_add_base (noWrap : input.NoWrap computed.pre) {s : OutputSection}
    (present : s ∈ layout.outputSections) (isLoaded : s.isLoaded = true) :
    s.shOffset.toNat + input.base.toNat = s.shAddr.toNat := by
  have laid := partsLaid noWrap.addresses
  rcases exists_loaded computed present isLoaded with
    ⟨load, isLoad, placed, isPlaced, _, memory, inFile⟩
  have inImage := (loaded_laid computed noWrap).within
    (List.mem_map_of_mem (List.mem_filter.mpr ⟨present, isLoaded⟩))
  have above : input.base.toNat ≤ s.shAddr.toNat :=
    laid.base_le_start.trans inImage.1
  have same : s.inFile.start = s.memory.start - input.base.toNat := by
    rw [inFile, memory]
    rcases Pairwise.exists_left (load_outputs isLoad) isPlaced with
      ⟨b, _, shAddr, rfl, _⟩
    have aboveToo : input.base.toNat ≤ shAddr.toNat := by
      have start : s.shAddr.toNat = shAddr.toNat := congrArg Span.start memory
      rwa [start] at above
    exact UInt64.toNat_sub_of_le _ _ (UInt64.le_iff_toNat_le.mpr aboveToo)
  change s.shOffset.toNat = s.shAddr.toNat - _ at same
  omega

theorem contributions_aligned (parsed : ∀ obj ∈ input.objects, obj.Parsed)
    (passed : ∀ member, input.IsPassedThrough member →
      member.align.toNat.isPowerOfTwo) {s : OutputSection}
    (present : s ∈ layout.outputSections) {c : SectionContribution}
    (among : c ∈ s.contributions) {member : Contributor}
    (isMember : member ∈ inputSections input.objects) (key : c.key = member.label) :
    member.align.toNat ∣ (s.shAddr + c.offset).toNat := by
  rcases section_cases computed present with
    ⟨load, isLoad, placed, isPlaced, isFinished⟩ |
    ⟨fileOnly, isFileOnly, isFinished⟩ | none
  · rw [isFinished.contributions] at among
    have inImage : placed ∈ input.loaded computed.pre := by
      rw [loaded, ← sections_loads]
      exact List.mem_flatMap.mpr ⟨load, isLoad, isPlaced⟩
    rcases exists_contributor computed.aligned computed.pre inImage among with
      ⟨other, contributes, place⟩
    have same := eq_of_label parsed (mem_contributors.mp contributes).1 isMember
      (place.key.symm.trans key)
    subst same
    rw [isFinished.shAddr]
    exact place.aligned
  · rw [isFinished.contributions] at among
    rw [isFinished.shAddr, isFileOnly.address, UInt64.zero_add]
    rcases isFileOnly.contents with none | ⟨name, listed, contributions, _⟩
    · rw [none] at among
      exact absurd among List.not_mem_nil
    · rw [contributions, passthrough] at among
      rcases passthrough_aligned among with ⟨other, isOther, otherKey, aligned⟩
      have isPassed : input.IsPassedThrough other := ⟨name, listed, isOther⟩
      have same := eq_of_label parsed isPassed.isInput isMember
        (otherKey.symm.trans key)
      subst same
      exact aligned (passed other isPassed)
  · rw [none] at among
    exact absurd among List.not_mem_nil

end Computed

/-- The alignments with which the cursors of a layout round up are powers of two:
the page size and the alignments of what is passed through to the file. -/
structure PowerAligned (input : LayoutInput) : Prop where
  page : input.page.toNat.isPowerOfTwo
  passed : ∀ member, input.IsPassedThrough member →
    member.align.toNat.isPowerOfTwo

/-- The ranges of a layout are in order when no sum wraps and all alignments are
powers of two. -/
theorem geometry_of_powerAligned (parsed : ∀ obj ∈ input.objects, obj.Parsed)
    (atPage : input.page.toNat ∣ input.base.toNat)
    (noWrap : ∀ pre, input.prebuildDynamic = .ok pre → input.NoWrap pre)
    {layout : Layout} (succeeded : input.computeLayoutIcf = .ok layout)
    (powers : input.PowerAligned) : Geometry input layout := by
  rcases computed_of_ok succeeded with ⟨computed⟩
  have fits := noWrap computed.pre computed.prebuilt
  have laid := partsLaid fits.addresses
  have file := fileRanges_laid computed fits
  constructor
  · exact (loaded_laid computed fits).apart
  · exact file.apart
  · exact fun range present => (file.within present).2
  · exact fun s present isLoaded _ =>
      offset_add_base computed fits present isLoaded
  · intro s present
    have inOrder := contributions_laid computed fits present
    exact ⟨inOrder.apart, fun c among =>
      (inOrder.within (List.mem_map_of_mem among)).2⟩
  · exact fun s present c among member isMember key =>
      contributions_aligned computed parsed powers.passed present among isMember key
  · exact fun s present isLoaded => exists_header computed fits present isLoaded
  · rw [loadHeaders_eq computed]
    exact laid.increasing
  · intro header present
    rw [loadHeaders_eq computed] at present
    rcases List.mem_map.mp present with ⟨load, isLoad, rfl⟩
    exact congruent_loads powers.page atPage isLoad
  · rw [loadHeaders_eq computed]
    exact laid.pages powers.page

/-! Two objects with a comment of one byte each, which is passed through to the
file at an alignment. -/

private def noteSection (index : Nat) (name : String) (flags align : UInt64) :
    InputSection where
  index := index
  name := nameOf name
  kind := if flags = 0 then .other else .text
  shType := 1
  data := ⟨.owned 0, 0, 1⟩
  align := align
  size := 1
  flags := flags
  relocs := []

private def entrySymbol : InputSymbol where
  index := 1
  name := nameOf "_start"
  binding := .global
  isUndefined := false
  isCommon := false
  isIfunc := false
  stType := 2
  visibility := 0
  sectionIndex := some 1
  value := 0
  size := 1

private def codeObject (align : UInt64) : InputObject :=
  InputObject.assemble "code.o" 2 1
    [noteSection 1 ".text" (shfAlloc ||| shfExecinstr) 1,
      noteSection 2 ".comment" 0 align] [entrySymbol] []

private def noteObject (align : UInt64) : InputObject :=
  InputObject.assemble "note.o" 1 0 [noteSection 1 ".comment" 0 align] [] []

private def noteInput (align : UInt64) : LayoutInput where
  arena := { mmaps := [], owned := [[0]] }
  objects := [codeObject align, noteObject align]
  symbols :=
    match SymbolTable.processAll [⟨codeObject align, []⟩, ⟨noteObject align, []⟩] with
    | .ok table => table
    | .error _ => SymbolTable.new

private theorem noteInput_parsed (align : UInt64) :
    ∀ obj ∈ (noteInput align).objects, obj.Parsed := by
  intro obj present
  rw [noteInput, List.mem_cons, List.mem_singleton] at present
  rcases present with rfl | rfl <;>
    exact InputObject.assemble_parsed _ _ _ _ _ _ (by simp [noteSection])
      (by simp [entrySymbol]) (by simp [noteSection]) (by simp [entrySymbol])

/-- The sums of the contributions are checked for one name after another. -/
theorem grouped_of_contributors (each : ∀ member ∈ input.contributors,
    Cursor.Fits 0 ((input.membersOf (input.outName member.sec.name)).map
      Icf.Place.slot)) (name : Name) :
    Cursor.Fits 0 ((input.membersOf name).map Icf.Place.slot) := by
  cases ofName : input.membersOf name with
  | nil => exact trivial
  | cons first rest =>
      have present : first ∈ input.membersOf name := ofName ▸ List.mem_cons_self
      have fits := each first (mem_membersOf.mp present).1
      rwa [(mem_membersOf.mp present).2, ofName] at fits

theorem noWrap_of_checked {pre : DynPrebuild}
    (checked : (∀ member ∈ input.contributors, Cursor.Fits 0
        ((input.membersOf (input.outName member.sec.name)).map Icf.Place.slot)) ∧
      (∀ name ∈ input.passthroughNames,
        Cursor.Fits 0 ((input.passthroughMembers name).map Icf.Place.passedSlot)) ∧
      Cursor.Fits input.base (input.addressRun (input.ordered pre)) ∧
      Cursor.Fits (input.contentEnd (input.ordered pre))
        (input.fileRun pre (input.ordered pre)) ∧
      ((input.fileEnd pre (input.ordered pre)).sections.length + 1) * shdrSize.toNat <
        2 ^ 64) :
    input.NoWrap pre := by
  rcases checked with ⟨grouped, passed, addresses, file, headers⟩
  exact ⟨grouped_of_contributors grouped, passed, addresses, file, headers⟩

private theorem noteInput_noWrap {align : UInt64} (small : align = 2 ∨ align = 3) :
    ∀ pre, (noteInput align).prebuildDynamic = .ok pre →
      (noteInput align).NoWrap pre := by
  intro pre prebuilt
  have isPre : pre = {} := (Except.ok.inj prebuilt).symm
  subst isPre
  rcases small with rfl | rfl <;> exact noWrap_of_checked (by decide +kernel)

theorem geometry_evenComments :
    ∃ layout, (noteInput 2).computeLayoutIcf = .ok layout ∧
      Geometry (noteInput 2) layout := by
  rcases @exists_layout (noteInput 2) (by decide +kernel) with ⟨layout, computed⟩
  refine ⟨layout, computed, geometry_of_powerAligned (noteInput_parsed 2)
    (by decide +kernel) (noteInput_noWrap (.inl rfl)) computed ⟨⟨12, rfl⟩, ?_⟩⟩
  rintro member ⟨name, _, among⟩
  have each : ∀ member ∈ inputSections (noteInput 2).objects,
      member.align = 1 ∨ member.align = 2 := by decide +kernel
  rcases each member (List.mem_filter.mp among).1 with isOne | isTwo
  · exact ⟨0, by rw [isOne]; rfl⟩
  · exact ⟨1, by rw [isTwo]; rfl⟩

/-- The second comment lies at offset 1 although its alignment is 3. -/
theorem oddComments_not_geometry :
    ∃ layout, (noteInput 3).computeLayoutIcf = .ok layout ∧
      (noteInput 3).page.toNat ∣ (noteInput 3).base.toNat ∧
      (∀ pre, (noteInput 3).prebuildDynamic = .ok pre → (noteInput 3).NoWrap pre) ∧
      ¬ Geometry (noteInput 3) layout := by
  rcases @exists_layout (noteInput 3) (by decide +kernel) with ⟨layout, computed⟩
  refine ⟨layout, computed, by decide +kernel, noteInput_noWrap (.inr rfl),
    fun geometry => ?_⟩
  have misplaced : (noteInput 3).computeLayoutIcf.toOption.any
      (fun layout => layout.outputSections.any fun s =>
        s.contributions.any fun c =>
          c.key == (1, 1) && (s.shAddr + c.offset).toNat == 1) = true := by
    decide +kernel
  rw [computed] at misplaced
  rcases List.any_eq_true.mp misplaced with ⟨s, present, found⟩
  rcases List.any_eq_true.mp found with ⟨c, among, isPlace⟩
  rw [Bool.and_eq_true, beq_iff_eq, beq_iff_eq] at isPlace
  have isMember : (⟨1, noteObject 3, 0, noteSection 1 ".comment" 0 3⟩ :
      Contributor) ∈ inputSections (noteInput 3).objects :=
    mem_inputSections.mpr ⟨rfl, rfl⟩
  have aligned := geometry.aligned s present c among _ isMember isPlace.1
  rw [isPlace.2] at aligned
  revert aligned
  decide

end LayoutInput

end Peony
