import Peony.Layout.Extents
import Peony.Layout.Permissions

namespace Peony

/-! The ranges of a layout in memory and in the file. -/

open Spans

structure LayoutInput.NoWrap (input : LayoutInput) (pre : DynPrebuild) : Prop where
  grouped : ∀ name, Cursor.Fits 0 ((input.membersOf name).map Icf.Place.slot)
  passed : ∀ name ∈ input.passthroughNames,
    Cursor.Fits 0 ((input.passthroughMembers name).map Icf.Place.passedSlot)
  addresses : Cursor.Fits input.base (input.addressRun (input.ordered pre))
  file : Cursor.Fits (input.contentEnd (input.ordered pre))
    (input.fileRun pre (input.ordered pre))
  headers : ((input.fileEnd pre (input.ordered pre)).sections.length + 1) *
    shdrSize.toNat < 2 ^ 64

def OutputSection.isLoaded (s : OutputSection) : Bool :=
  s.shFlags &&& shfAlloc != 0

def OutputSection.isFileBacked (s : OutputSection) : Bool := s.shType != shtNobits

namespace OutputSection.Finished

variable {s finished : OutputSection}

theorem isLoaded (isFinished : s.Finished finished) :
    finished.isLoaded = s.isLoaded := by
  rw [OutputSection.isLoaded, OutputSection.isLoaded, isFinished.shFlags]

theorem isFileBacked (isFinished : s.Finished finished) :
    finished.isFileBacked = s.isFileBacked := by
  rw [OutputSection.isFileBacked, OutputSection.isFileBacked, isFinished.shType]

theorem memory (isFinished : s.Finished finished) (other : s.source ≠ .shStrTab) :
    finished.memory = s.memory := by
  rw [OutputSection.memory, OutputSection.memory, isFinished.shAddr,
    isFinished.shSize other]

theorem inFile (isFinished : s.Finished finished) (other : s.source ≠ .shStrTab) :
    finished.inFile = s.inFile := by
  rw [OutputSection.inFile, OutputSection.inFile, isFinished.shOffset,
    isFinished.shSize other]

end OutputSection.Finished

def ProgramHeader.memory (header : ProgramHeader) : Span where
  start := header.pVaddr.toNat
  size := header.pMemsz.toNat

def Layout.loadHeaders (layout : Layout) : List ProgramHeader :=
  layout.segments.filter fun header => header.pType == ptLoad

/-- The ranges of the file: the file header with the program headers, the
sections that have bytes in the file, and the section headers. -/
def Layout.fileRanges (layout : Layout) : List Span :=
  [⟨0, layout.phoff.toNat + layout.phnum.toNat * phdrSize.toNat⟩] ++
    (layout.outputSections.filter OutputSection.isFileBacked).map
      OutputSection.inFile ++
    [⟨layout.shoff.toNat, layout.shnum.toNat * shdrSize.toNat⟩]

/-- The two ranges have no page in common. -/
def PagesApart (page : Nat) (first second : Span) : Prop :=
  ∀ x y, first.start ≤ x → x < first.stop → second.start ≤ y → y < second.stop →
    x / page ≠ y / page

/-- The ranges that a layout gives to sections, contributions and segments. An
empty section may also lie at the border of another segment. -/
structure Geometry (input : LayoutInput) (layout : Layout) : Prop where
  memory : ((layout.outputSections.filter OutputSection.isLoaded).map
    OutputSection.memory).Pairwise Span.Apart
  file : layout.fileRanges.Pairwise Span.Apart
  inside : ∀ range ∈ layout.fileRanges, range.stop ≤ layout.fileSize
  offsets : ∀ s ∈ layout.outputSections, s.isLoaded = true →
    s.isFileBacked = true →
      s.shOffset.toNat + input.base.toNat = s.shAddr.toNat
  contributions : ∀ s ∈ layout.outputSections,
    (s.contributions.map SectionContribution.extent).Pairwise Span.Apart ∧
      ∀ c ∈ s.contributions, c.extent.stop ≤ s.shSize.toNat
  aligned : ∀ s ∈ layout.outputSections, ∀ c ∈ s.contributions,
    ∀ member ∈ inputSections input.objects, c.key = member.label →
      member.align.toNat ∣ (s.shAddr + c.offset).toNat
  loaded : ∀ s ∈ layout.outputSections, s.isLoaded = true →
    ∃ header ∈ layout.loadHeaders, header.memory.Contains s.memory ∧
      ∀ other ∈ layout.loadHeaders, other.memory.Contains s.memory →
        s.shSize ≠ 0 → other = header
  increasing : layout.loadHeaders.Pairwise fun first second =>
    first.memory.stop ≤ second.memory.start
  congruent : ∀ header ∈ layout.loadHeaders,
    header.pOffset.toNat % input.page.toNat = header.pVaddr.toNat % input.page.toNat
  pages : layout.loadHeaders.Pairwise fun first second =>
    PagesApart input.page.toNat first.memory second.memory

/-! ## The image in memory and in the file -/

namespace LayoutInput

variable {input : LayoutInput} {ordered : Builders}

variable (input ordered) in
/-- The end of the loaded bytes of the file, as an address. -/
def contentStop : UInt64 :=
  if hasRw ordered then (input.dataPart ordered).stop else input.codeEnd ordered

variable (input ordered) in
def imageStop : UInt64 :=
  if hasRw ordered then (input.bssPart ordered).stop else input.codeEnd ordered

variable (input ordered) in
/-- The placed sections in front of those that have no bytes in the file. -/
def contentSections : List OutputSection :=
  (input.roPart ordered).sections input.base ++
    (input.rxPart ordered).sections input.base ++
    ((input.relroPart ordered).sections input.base ++
      (input.dataPart ordered).sections input.base)

theorem contentEnd_eq :
    input.contentEnd ordered = input.contentStop ordered - input.base := by
  rcases input.placeAll_eq ordered with ⟨_, roEnd, rx, rw'⟩
  rw [contentEnd, Placed.fileContentEnd, rw', rx, roEnd, contentStop, codeEnd]
  cases hasRw ordered with
  | true => rfl
  | false =>
      rw [hasRx]
      cases ordered.rx.isEmpty <;> rfl

theorem placed_eq :
    (input.placeAll ordered).placement.sections =
      input.contentSections ordered ++
        (input.bssPart ordered).sections input.base := by
  rw [(input.placeAll_eq ordered).1, rwSections, contentSections]
  simp only [List.append_assoc]

namespace PartsLaid

variable (laid : input.PartsLaid ordered)

include laid

theorem code :
    Laid (input.roPart ordered).start.toNat
      (((input.roPart ordered).sections input.base ++
        (input.rxPart ordered).sections input.base).map OutputSection.memory)
      (input.codeEnd ordered).toNat := by
  cases withRx : hasRx ordered with
  | false =>
      have noRx : ordered.rx.isEmpty = true := by
        rwa [hasRx, Bool.not_eq_false'] at withRx
      rw [input.rxPart_sections ordered withRx, List.append_nil, codeEnd,
        if_pos noRx]
      exact laid.ro
  | true =>
      have someRx : ¬ ordered.rx.isEmpty = true := by
        rw [hasRx, Bool.not_eq_true'] at withRx
        rw [withRx]
        exact Bool.false_ne_true
      rw [List.map_append, codeEnd, if_neg someRx]
      exact laid.ro.append ((laid.rx withRx).2.widen (laid.rx withRx).1 le_rfl)

theorem content :
    Laid (input.roPart ordered).start.toNat
      ((input.contentSections ordered).map OutputSection.memory)
      (input.contentStop ordered).toNat := by
  rw [contentSections, List.map_append, contentStop]
  cases withRw : hasRw ordered with
  | false =>
      have none := input.rwSections_eq_nil ordered withRw
      rw [rwSections, List.append_eq_nil_iff] at none
      rw [none.1, List.map_nil, List.append_nil]
      exact laid.code
  | true =>
      exact laid.code.append ((laid.rw withRw).2.1.widen (laid.rw withRw).1 le_rfl)

theorem image :
    Laid (input.roPart ordered).start.toNat
      ((input.placeAll ordered).placement.sections.map OutputSection.memory)
      (input.imageStop ordered).toNat := by
  rw [placed_eq, List.map_append]
  cases withRw : hasRw ordered with
  | false =>
      have none := input.rwSections_eq_nil ordered withRw
      rw [rwSections, List.append_eq_nil_iff] at none
      rw [none.2, List.map_nil, List.append_nil]
      have content := laid.content
      rw [contentStop, withRw] at content
      rw [imageStop, withRw]
      exact content
  | true =>
      have content := laid.content
      rw [contentStop, withRw] at content
      rw [imageStop, withRw]
      exact content.append (laid.rw withRw).2.2

theorem base_le_start : input.base.toNat ≤ (input.roPart ordered).start.toNat := by
  rw [laid.header]
  exact Nat.le_add_right _ _

end PartsLaid

theorem inFile_placed {part : Part} {s : OutputSection}
    (present : s ∈ part.sections input.base) (above : input.base.toNat ≤ s.shAddr.toNat) :
    s.inFile = ⟨s.memory.start - input.base.toNat, s.memory.size⟩ := by
  rcases Pairwise.exists_left (part.sections_at input.base) present with
    ⟨b, _, shAddr, rfl, _⟩
  change input.base.toNat ≤ shAddr.toNat at above
  change Span.mk (shAddr - input.base).toNat b.size.toNat = _
  rw [UInt64.toNat_sub_of_le _ _ (UInt64.le_iff_toNat_le.mpr above)]
  rfl

/-! ## Sections without bytes in the file -/

theorem groups_nobits {b : Builder} (isGroup : b ∈ input.groups)
    (isNobits : b.isNobits = true) : b.shType = shtNobits := by
  rcases mem_groups.mp isGroup with ⟨first, rest, _, rfl⟩
  rw [collect_shape] at isNobits ⊢
  change Builder.isNobitsKind first.sec.kind = true at isNobits
  change Builder.shTypeOf _ first.sec = shtNobits
  rw [Builder.shTypeOf, if_pos isNobits]

/-- The sections behind the loaded bytes of the file have none there. -/
theorem bssPart_nobits (pre : DynPrebuild) :
    ∀ b ∈ (input.bssPart (input.ordered pre)).builders, b.shType = shtNobits := by
  intro raised present
  have origin : ∃ b ∈ (input.ordered pre).rwBss, b.shType = raised.shType := by
    rw [bssPart, relroOrder] at present
    have sorted {b : Builder} (inSorted : b ∈ sortBy Builder.compareTbss
        (input.ordered pre).rwBss) : b ∈ (input.ordered pre).rwBss :=
      mem_sortBy.mp inSorted
    have first (raises : Builder → Bool) (align : UInt64) (builders : List Builder)
        (inRaised : raised ∈ raiseFirst raises align builders) :
        ∃ b ∈ builders, b.shType = raised.shType := by
      induction builders with
      | nil => exact absurd inRaised List.not_mem_nil
      | cons b rest induction =>
          rw [raiseFirst] at inRaised
          split at inRaised
          · rcases List.mem_cons.mp inRaised with rfl | inRest
            · exact ⟨b, List.mem_cons_self, rfl⟩
            · exact ⟨raised, List.mem_cons_of_mem _ inRest, rfl⟩
          · rcases List.mem_cons.mp inRaised with rfl | inRest
            · exact ⟨_, List.mem_cons_self, rfl⟩
            · rcases induction inRest with ⟨other, isMember, same⟩
              exact ⟨other, List.mem_cons_of_mem _ isMember, same⟩
    simp only at present
    split at present
    · split at present
      · exact ⟨raised, sorted present, rfl⟩
      · rcases first _ _ _ present with ⟨b, isMember, same⟩
        exact ⟨b, sorted isMember, same⟩
    · exact ⟨raised, sorted present, rfl⟩
  rcases origin with ⟨b, isMember, same⟩
  rw [← same]
  rw [ordered, orderedBuilders, scriptOrder, mem_sortBuildersByScript] at isMember
  have inFound : b ∈ (input.synthesize (bucket input.groups)).rwBss := by
    rw [synthesizeDynamic] at isMember
    split at isMember <;> exact isMember
  rw [synthesize, List.mem_append] at inFound
  rcases inFound with inBucket | isBss
  · rw [bucket, mem_sortBy, List.mem_filter, Bool.and_eq_true] at inBucket
    exact groups_nobits inBucket.1 inBucket.2.2
  · split at isBss
    · rw [List.mem_singleton.mp isBss]
      rfl
    · exact absurd isBss List.not_mem_nil

/-! ## The sections of the layout -/

theorem builder_source (b : Builder) : b.source ≠ .shStrTab := by
  rw [Builder.source]
  cases found : synthesizedSources.lookup b.name with
  | none => cases b.isNobits <;> decide
  | some source =>
      have present := Assoc.mem_of_lookup found
      have each : ∀ entry ∈ synthesizedSources, entry.2 ≠ .shStrTab := by decide
      exact each _ present

theorem source_placed {s : OutputSection}
    (present : s ∈ (input.placeAll ordered).placement.sections) :
    s.source ≠ .shStrTab := by
  rcases Pairwise.exists_left (input.placeAll_of ordered).sections present with
    ⟨b, _, shAddr, rfl, _⟩
  exact builder_source b

/-- The sections of a layout: the placed ones, those that are only in the file
and the section names, all with finished headers. -/
structure Sections (input : LayoutInput) (pre : DynPrebuild) (ordered : Builders)
    (more placed fileOnly : List OutputSection) (names : OutputSection) : Prop where
  fileOnly_of : ∀ s ∈ more, input.FileOnly s
  placed_of : List.Forall₂ OutputSection.Finished
    (input.placeAll ordered).placement.sections placed
  others_of : List.Forall₂ OutputSection.Finished more fileOnly
  names_of : (shstrtabSection (input.fileCursor ordered)).Finished names
  names_size : names.shSize = input.namesSize pre ordered

theorem exists_sections {pre : DynPrebuild} {entry : UInt64}
    {more : List OutputSection}
    (added : (input.fileCursor ordered).sections =
      (input.placement ordered).sections ++ more) :
    ∃ placed fileOnly names,
      (input.assemble pre ordered entry).outputSections =
        placed ++ (fileOnly ++ [names]) ∧
      Sections input pre ordered more placed fileOnly names := by
  rcases input.fileCursor_extends ordered with ⟨others, each, sections, _⟩
  rw [sections_placement] at added
  have same : others = more := List.append_cancel_left (sections.symm.trans added)
  subst same
  have pairs := input.finished_finishFile pre (input.fileCursor ordered)
  rw [sections, List.append_assoc] at pairs
  rcases Pairwise.exists_append pairs with ⟨placed, rest, split, isPlaced, isRest⟩
  rcases Pairwise.exists_append isRest with
    ⟨fileOnly, last, splitRest, isFileOnly, isLast⟩
  rcases List.forall₂_cons_left_iff.mp isLast with ⟨names, nothing, isNames, isNil, rfl⟩
  rw [List.forall₂_nil_left_iff.mp isNil] at splitRest
  refine ⟨placed, fileOnly, names, ?_, each, isPlaced.imp fun _ _ both => both.1,
    isFileOnly.imp fun _ _ both => both.1, isNames.1, isNames.2 rfl⟩
  rw [← splitRest]
  exact split

/-! ## Ranges in memory -/

private theorem add_toNat_sub {start stop : UInt64}
    (ordered : start.toNat ≤ stop.toNat) :
    start.toNat + (stop - start).toNat = stop.toNat := by
  rw [UInt64.toNat_sub_of_le _ _ (UInt64.le_iff_toNat_le.mpr ordered)]
  omega

namespace PartsLaid

variable (laid : input.PartsLaid ordered)

include laid

/-- The sections of a segment lie in its range, one after another. -/
theorem load {load : Load} (isLoad : load ∈ input.loads ordered) :
    Laid load.header.memory.start (load.sections.map OutputSection.memory)
      load.header.memory.stop := by
  rcases mem_loads.mp isLoad with rfl | ⟨isRx, rfl⟩ | ⟨isRw, rfl⟩
  · have above := laid.base_le_start
    refine laid.ro.widen above ?_
    exact (add_toNat_sub (above.trans laid.ro.le)).ge
  · have rx := (laid.rx isRx).2
    exact rx.widen le_rfl (add_toNat_sub rx.le).ge
  · rcases laid.rw isRw with ⟨_, content, bss⟩
    have whole := content.append bss
    rw [← List.map_append] at whole
    exact whole.widen le_rfl (add_toNat_sub whole.le).ge

theorem roLoad_stop :
    (input.roLoad ordered).header.memory.stop = (input.roPart ordered).stop.toNat :=
  add_toNat_sub (laid.base_le_start.trans laid.ro.le)

theorem rxLoad_stop (isRx : hasRx ordered = true) :
    (input.rxLoad ordered).header.memory.stop = (input.rxPart ordered).stop.toNat :=
  add_toNat_sub (laid.rx isRx).2.le

theorem load_stop_lt {load : Load} (isLoad : load ∈ input.loads ordered) :
    load.header.memory.stop < 2 ^ 64 := by
  rcases mem_loads.mp isLoad with rfl | ⟨isRx, rfl⟩ | ⟨isRw, rfl⟩
  · rw [laid.roLoad_stop]
    exact UInt64.toNat_lt _
  · rw [laid.rxLoad_stop isRx]
    exact UInt64.toNat_lt _
  · rcases laid.rw isRw with ⟨_, content, bss⟩
    exact (add_toNat_sub (content.append bss).le).trans_lt (UInt64.toNat_lt _)

omit laid in
theorem codeEnd_rx (isRx : hasRx ordered = true) :
    input.codeEnd ordered = (input.rxPart ordered).stop := by
  rw [hasRx, Bool.not_eq_true'] at isRx
  rw [codeEnd, isRx]
  rfl

theorem roStop_le_codeEnd :
    (input.roPart ordered).stop.toNat ≤ (input.codeEnd ordered).toNat := by
  cases withRx : hasRx ordered with
  | false =>
      rw [hasRx, Bool.not_eq_false'] at withRx
      rw [codeEnd, if_pos withRx]
  | true =>
      rw [codeEnd_rx withRx]
      exact (laid.rx withRx).1.trans (laid.rx withRx).2.le

/-- A segment is as far from the start of the file as from the base. -/
theorem offset_add_base {load : Load} (isLoad : load ∈ input.loads ordered) :
    load.header.pOffset.toNat + input.base.toNat = load.header.pVaddr.toNat := by
  have moved {va : UInt64} (above : input.base.toNat ≤ va.toNat) :
      (va - input.base).toNat + input.base.toNat = va.toNat := by
    rw [Nat.add_comm]
    exact add_toNat_sub above
  have start := laid.base_le_start.trans laid.ro.le
  rcases mem_loads.mp isLoad with rfl | ⟨isRx, rfl⟩ | ⟨isRw, rfl⟩
  · exact Nat.zero_add _
  · exact moved (start.trans (laid.rx isRx).1)
  · exact moved ((start.trans laid.roStop_le_codeEnd).trans (laid.rw isRw).1)

theorem pairwise_headers {related : ProgramHeader → ProgramHeader → Prop}
    (related_of : ∀ first second : Load, second.header.memory.start =
          ((alignUp (input.roPart ordered).stop input.page).toNat) ∨
        second.header.memory.start =
          (alignUp (input.codeEnd ordered) input.page).toNat →
      first.header.memory.stop ≤ second.header.memory.start →
        related first.header second.header) :
    ((input.loads ordered).map Load.header).Pairwise related := by
  rw [loads]
  have roRx (isRx : hasRx ordered = true) :
      related (input.roLoad ordered).header (input.rxLoad ordered).header := by
    refine related_of _ _ (.inl rfl) ?_
    rw [roLoad_stop laid]
    exact (laid.rx isRx).1
  have roRw (isRw : hasRw ordered = true) :
      related (input.roLoad ordered).header (input.rwLoad ordered).header := by
    refine related_of _ _ (.inr rfl) ?_
    rw [roLoad_stop laid]
    exact (roStop_le_codeEnd laid).trans (laid.rw isRw).1
  have rxRw (isRx : hasRx ordered = true) (isRw : hasRw ordered = true) :
      related (input.rxLoad ordered).header (input.rwLoad ordered).header := by
    refine related_of _ _ (.inr rfl) ?_
    rw [rxLoad_stop laid isRx, ← codeEnd_rx isRx]
    exact (laid.rw isRw).1
  cases withRx : hasRx ordered <;> cases withRw : hasRw ordered
  · exact List.pairwise_singleton _ _
  · exact List.pairwise_pair.mpr (roRw withRw)
  · exact List.pairwise_pair.mpr (roRx withRx)
  · change List.Pairwise related [(input.roLoad ordered).header,
      (input.rxLoad ordered).header, (input.rwLoad ordered).header]
    refine .cons ?_ (List.pairwise_pair.mpr (rxRw withRx withRw))
    intro header present
    rcases List.mem_cons.mp present with rfl | isLast
    · exact roRx withRx
    · rw [List.mem_singleton.mp isLast]
      exact roRw withRw

theorem increasing :
    ((input.loads ordered).map Load.header).Pairwise fun first second =>
      first.memory.stop ≤ second.memory.start :=
  pairwise_headers laid fun _ _ _ below => below

theorem pages (power : input.page.toNat.isPowerOfTwo) :
    ((input.loads ordered).map Load.header).Pairwise fun first second =>
      PagesApart input.page.toNat first.memory second.memory := by
  refine pairwise_headers laid fun first second atPage below => ?_
  have isPage : input.page.toNat ∣ second.header.memory.start := by
    rcases atPage with atRx | atRw
    · rw [atRx]
      exact dvd_alignUp power _
    · rw [atRw]
      exact dvd_alignUp power _
  intro x y _ inFirst inSecond _ same
  rcases isPage with ⟨count, isStart⟩
  have positive : 0 < input.page.toNat := by
    rcases power with ⟨bits, isPower⟩
    rw [isPower]
    exact Nat.two_pow_pos bits
  have lower : x / input.page.toNat < count := by
    rw [Nat.div_lt_iff_lt_mul positive, Nat.mul_comm, ← isStart]
    omega
  have upper : count ≤ y / input.page.toNat := by
    rw [Nat.le_div_iff_mul_le positive, Nat.mul_comm, ← isStart]
    exact inSecond
  omega

end PartsLaid

/-- The segments begin at pages, in the file as in memory. -/
theorem congruent_loads (power : input.page.toNat.isPowerOfTwo)
    (atPage : input.page.toNat ∣ input.base.toNat)
    {load : Load} (isLoad : load ∈ input.loads ordered) :
    load.header.pOffset.toNat % input.page.toNat =
      load.header.pVaddr.toNat % input.page.toNat := by
  have moved (va : UInt64) (isPage : input.page.toNat ∣ va.toNat) :
      (va - input.base).toNat % input.page.toNat = va.toNat % input.page.toNat := by
    have parts : va - input.base = va + (0 - input.base) := by
      rw [UInt64.sub_eq_add_neg, UInt64.sub_eq_add_neg, UInt64.zero_add]
    have negative : input.page.toNat ∣ (0 - input.base).toNat := by
      have divides : input.page.toNat ∣ 2 ^ 64 := by
        rcases power with ⟨bits, isPower⟩
        rw [isPower]
        refine Nat.pow_dvd_pow 2 ?_
        by_contra large
        have bigger : 2 ^ 65 ≤ 2 ^ bits :=
          Nat.pow_le_pow_right (by decide) (by omega)
        have small := input.page.toNat_lt
        omega
      rw [UInt64.toNat_sub]
      refine (Nat.dvd_mod_iff divides).mpr ?_
      rw [UInt64.toNat_zero, Nat.add_zero]
      exact Nat.dvd_sub divides atPage
    rw [parts, Nat.mod_eq_zero_of_dvd (dvd_add power isPage negative),
      Nat.mod_eq_zero_of_dvd isPage]
  rcases mem_loads.mp isLoad with rfl | ⟨_, rfl⟩ | ⟨_, rfl⟩
  · change (0 : UInt64).toNat % _ = input.base.toNat % _
    rw [Nat.mod_eq_zero_of_dvd atPage]
    rfl
  · exact moved _ (dvd_alignUp power _)
  · exact moved _ (dvd_alignUp power _)

/-! ## Ranges in the file -/

theorem phnum_small : (input.phnum ordered).toNat ≤ 12 := by
  have one (condition : Prop) [Decidable condition] :
      (if condition then 1 else 0) ≤ 1 := by
    split <;> omega
  have interp : (if input.dynamic.isSome then
      if input.config.shared then 1 else 2 else 0) ≤ 2 := by
    split
    · split <;> omega
    · omega
  have rx : (if ordered.rx.isEmpty then 0 else 1) ≤ 1 := by
    split <;> omega
  have rw' : (if ordered.rwPb.isEmpty && ordered.rwBss.isEmpty then 0 else 1) ≤ 1 := by
    split <;> omega
  have note := one (input.config.buildId = true)
  have tls := one (hasTls ordered = true)
  have frames := one (input.nFdes > 0)
  have property := one ((ordered.ro.any fun b => b.name == propertyName) = true)
  have relro := one (input.dynamic.isSome = true)
  rw [phnum, UInt64.toNat_ofNat']
  refine (Nat.mod_le _ _).trans ?_
  omega

theorem headerSize_toNat :
    (input.headerSize ordered).toNat =
      ehdrSize.toNat + (input.phnum ordered).toNat * phdrSize.toNat := by
  have small := @phnum_small input ordered
  have size : ehdrSize.toNat = 64 ∧ phdrSize.toNat = 56 := ⟨rfl, rfl⟩
  rw [headerSize, UInt64.toNat_add, UInt64.toNat_mul, size.1, size.2]
  omega

namespace PartsLaid

variable (laid : input.PartsLaid ordered)

include laid

theorem loadedInFile :
    Laid 0 (⟨0, (input.headerSize ordered).toNat⟩ ::
        (input.contentSections ordered).map OutputSection.inFile)
      (input.contentEnd ordered).toNat := by
  have shifted := laid.content.shift laid.base_le_start
  have start : (input.roPart ordered).start.toNat - input.base.toNat =
      (input.headerSize ordered).toNat := by
    rw [laid.header]
    omega
  have stop : (input.contentEnd ordered).toNat =
      (input.contentStop ordered).toNat - input.base.toNat := by
    rw [contentEnd_eq, UInt64.toNat_sub_of_le]
    exact UInt64.le_iff_toNat_le.mpr (laid.base_le_start.trans laid.content.le)
  have same : (input.contentSections ordered).map OutputSection.inFile =
      ((input.contentSections ordered).map OutputSection.memory).map fun span =>
        ⟨span.start - input.base.toNat, span.size⟩ := by
    rw [List.map_map]
    refine List.map_congr_left fun s present => ?_
    have above : input.base.toNat ≤ s.shAddr.toNat :=
      laid.base_le_start.trans
        (laid.content.within (List.mem_map_of_mem present)).1
    rw [contentSections, List.mem_append, List.mem_append, List.mem_append]
      at present
    rcases present with (isRo | isRx) | (isRelro | isData)
    · exact inFile_placed isRo above
    · exact inFile_placed isRx above
    · exact inFile_placed isRelro above
    · exact inFile_placed isData above
  rw [start, ← stop, ← same] at shifted
  refine .cons le_rfl ?_
  rw [Span.stop, Nat.zero_add]
  exact shifted

end PartsLaid

section Computed

variable {layout : Layout} (computed : Computed input layout)
variable (noWrap : input.NoWrap computed.pre)

include noWrap

theorem fileRanges_laid :
    Laid 0 layout.fileRanges layout.fileSize := by
  have laid := partsLaid noWrap.addresses
  rcases laid_fileRun noWrap.file with ⟨more, added, tail⟩
  rcases @exists_sections input _ computed.pre computed.entry more added with
    ⟨placed, fileOnly, names, split, shape⟩
  have whole := laid.loadedInFile.append tail
  have isOutput : layout.outputSections = placed ++ (fileOnly ++ [names]) :=
    (congrArg Layout.outputSections computed.assembled).trans split
  have header : layout.phoff.toNat + layout.phnum.toNat * phdrSize.toNat =
      (input.headerSize (input.ordered computed.pre)).toNat := by
    have phoff : layout.phoff = ehdrSize :=
      congrArg Layout.phoff computed.assembled
    have phnum : layout.phnum = input.phnum (input.ordered computed.pre) :=
      congrArg Layout.phnum computed.assembled
    rw [headerSize_toNat, phoff, phnum]
  have table : layout.shnum.toNat * shdrSize.toNat =
      (input.headersSize computed.pre (input.ordered computed.pre)).toNat := by
    have bound := noWrap.headers
    have count : ((input.fileEnd computed.pre
        (input.ordered computed.pre)).sections.length + 1) < 2 ^ 64 := by
      rw [show shdrSize.toNat = 64 from rfl] at bound
      omega
    have shnum : layout.shnum = UInt64.ofNat ((input.fileEnd computed.pre
        (input.ordered computed.pre)).sections.length + 1) :=
      congrArg Layout.shnum computed.assembled
    rw [shnum, headersSize, UInt64.toNat_mul, UInt64.toNat_ofNat',
      Nat.mod_eq_of_lt count, Nat.mod_eq_of_lt bound]
  have shoff : layout.shoff = (input.fileEnd computed.pre
      (input.ordered computed.pre)).shoff :=
    congrArg Layout.shoff computed.assembled
  have fileSize : layout.fileSize = (input.fileEnd computed.pre
      (input.ordered computed.pre)).fileSize.toNat :=
    congrArg Layout.fileSize computed.assembled
  rw [Layout.fileRanges, header, table, shoff, fileSize, isOutput,
    List.filter_append, List.filter_append, List.map_append, List.map_append]
  refine whole.sublist ?_
  have isPlaced : (placed.filter OutputSection.isFileBacked).map
      OutputSection.inFile = ((input.contentSections
        (input.ordered computed.pre)).filter OutputSection.isFileBacked).map
          OutputSection.inFile := by
    have same := Pairwise.map_filter_eq shape.placed_of
      fun s present finished isFinished => And.intro isFinished.isFileBacked
        (isFinished.inFile (source_placed present))
    rw [same, placed_eq, List.filter_append]
    have none : ((input.bssPart (input.ordered computed.pre)).sections
        input.base).filter OutputSection.isFileBacked = [] := by
      rw [List.filter_eq_nil_iff]
      intro s present
      rcases Pairwise.exists_left (Part.sections_at _ _) present with
        ⟨b, isBuilder, shAddr, rfl, _⟩
      rw [OutputSection.isFileBacked]
      change ¬ (b.shType != shtNobits) = true
      rw [bssPart_nobits computed.pre b isBuilder]
      decide
    rw [none, List.append_nil]
  have isFileOnly : (fileOnly.filter OutputSection.isFileBacked).map
      OutputSection.inFile =
        (more.filter OutputSection.isFileBacked).map OutputSection.inFile :=
    Pairwise.map_filter_eq shape.others_of fun s present finished isFinished =>
      And.intro isFinished.isFileBacked
        (isFinished.inFile (shape.fileOnly_of s present).source)
  have isNames : names.inFile = ⟨(shstrtabSection (input.fileCursor
      (input.ordered computed.pre))).shOffset.toNat,
        (input.namesSize computed.pre (input.ordered computed.pre)).toNat⟩ := by
    rw [OutputSection.inFile, shape.names_of.shOffset, shape.names_size]
  rw [isPlaced, isFileOnly, ← isNames]
  simp only [List.append_assoc, List.cons_append, List.nil_append]
  refine .cons_cons _ (.append ?_ (.append ?_ ?_))
  · exact List.filter_sublist.map _
  · exact List.filter_sublist.map _
  · have last : ([names].filter OutputSection.isFileBacked).Sublist [names] :=
      List.filter_sublist
    exact (last.map OutputSection.inFile).append_right _

theorem loaded_laid :
    Laid (input.roPart (input.ordered computed.pre)).start.toNat
      ((layout.outputSections.filter OutputSection.isLoaded).map
        OutputSection.memory)
      (input.imageStop (input.ordered computed.pre)).toNat := by
  rcases laid_fileRun noWrap.file with ⟨more, added, _⟩
  rcases @exists_sections input _ computed.pre computed.entry more added with
    ⟨placed, fileOnly, names, split, shape⟩
  have isOutput : layout.outputSections = placed ++ (fileOnly ++ [names]) :=
    (congrArg Layout.outputSections computed.assembled).trans split
  have unloaded : (fileOnly ++ [names]).filter OutputSection.isLoaded = [] := by
    rw [List.filter_eq_nil_iff]
    intro s present
    have flags : s.shFlags = 0 := by
      rcases List.mem_append.mp present with isFileOnly | isNames
      · rcases Pairwise.exists_left shape.others_of isFileOnly with
          ⟨other, isMember, isFinished⟩
        rw [isFinished.shFlags]
        exact (shape.fileOnly_of other isMember).flags
      · rw [List.mem_singleton.mp isNames, shape.names_of.shFlags]
        rfl
    rw [OutputSection.isLoaded, flags]
    decide
  have same := Pairwise.map_filter_eq shape.placed_of
    fun s present finished isFinished => And.intro isFinished.isLoaded
      (isFinished.memory (source_placed present))
  rw [isOutput, List.filter_append, unloaded, List.append_nil, same]
  exact (partsLaid noWrap.addresses).image.sublist (List.filter_sublist.map _)

omit noWrap in
theorem exists_loaded {s : OutputSection} (present : s ∈ layout.outputSections)
    (isLoaded : s.isLoaded = true) :
    ∃ load ∈ input.loads (input.ordered computed.pre), ∃ placed ∈ load.sections,
      placed.Finished s ∧ s.memory = placed.memory ∧ s.inFile = placed.inFile := by
  have inAssembled : s ∈ (input.assemble computed.pre
      (input.ordered computed.pre) computed.entry).outputSections := by
    rw [← computed.assembled]
    exact present
  rcases input.exists_placed_of_isAlloc inAssembled (bne_iff_ne.mp isLoaded) with
    ⟨placed, isPlaced, isFinished⟩
  have other := source_placed isPlaced
  rw [← sections_loads] at isPlaced
  rcases List.mem_flatMap.mp isPlaced with ⟨load, isLoad, inLoad⟩
  exact ⟨load, isLoad, placed, inLoad, isFinished, isFinished.memory other,
    isFinished.inFile other⟩

omit noWrap in
theorem loadHeaders_eq :
    layout.loadHeaders =
      (input.loads (input.ordered computed.pre)).map Load.header := by
  have headers := input.ptLoad_segments (input.ordered computed.pre)
    computed.pre computed.entry
  rw [← computed.assembled] at headers
  exact headers

theorem exists_header {s : OutputSection} (present : s ∈ layout.outputSections)
    (isLoaded : s.isLoaded = true) :
    ∃ header ∈ layout.loadHeaders, header.memory.Contains s.memory ∧
      ∀ other ∈ layout.loadHeaders, other.memory.Contains s.memory →
        s.shSize ≠ 0 → other = header := by
  have laid := partsLaid noWrap.addresses
  rcases exists_loaded computed present isLoaded with
    ⟨load, isLoad, placed, isPlaced, _, memory, _⟩
  have inside := (laid.load isLoad).within (List.mem_map_of_mem isPlaced)
  rw [loadHeaders_eq computed]
  refine ⟨load.header, List.mem_map_of_mem isLoad, memory ▸ inside, ?_⟩
  intro other isOther covers nonempty
  have bytes : 0 < s.memory.size := by
    rw [Nat.pos_iff_ne_zero]
    exact fun none => nonempty (UInt64.toNat_inj.mp none)
  rw [← memory] at inside
  have upper : s.memory.start < s.memory.stop := Nat.lt_add_of_pos_right bytes
  by_contra apart
  have order := List.pairwise_iff_getElem.mp laid.increasing
  rcases List.getElem_of_mem isOther with ⟨place, inList, rfl⟩
  rcases List.getElem_of_mem (List.mem_map_of_mem isLoad) with
    ⟨own, ownInList, isOwn⟩
  have notSame : place ≠ own := by
    rintro rfl
    exact apart isOwn
  rw [← isOwn] at inside
  rcases Nat.lt_or_gt_of_ne notSame with before | after
  · have below := order place own inList ownInList before
    have first := covers.2
    have second := inside.1
    omega
  · have below := order own place ownInList inList after
    have first := covers.1
    have second := inside.2
    omega

end Computed

end LayoutInput

end Peony
