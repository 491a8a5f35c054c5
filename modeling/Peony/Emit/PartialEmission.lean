import Peony.Emit.Contributed

namespace Peony

/-! What an emission of some parts leaves of a file that an earlier link has written. -/

/-- The file after an emission; there is none when the output must have its size already and
has not. -/
def emitWithFilterInto (arena : InputArena) (objects : List InputObject) (symbols : SymbolTable)
    (layout : Layout) (filter : SectionWriteFilter) (requireExistingSize : Bool)
    (existing : Option (List UInt8)) : Except EmitFault (Option (List UInt8)) :=
  let canOverwrite := existing.any fun bytes => bytes.length == layout.fileSize
  if requireExistingSize && !canOverwrite then .ok none
  else
    let opened := openOutputMap existing layout.fileSize
    (emitWrites arena objects symbols layout filter opened).map
      fun writes => some (Buffer.applyAll opened writes)

/-- The file after a link that may have a plan for a part. What the plan cannot be carried out
for is emitted as a whole. -/
def emitOutput (arena : InputArena) (objects : List InputObject) (symbols : SymbolTable)
    (layout : Layout) (plan : Option SectionWriteFilter) (existing : Option (List UInt8)) :
    Except EmitFault (List UInt8) :=
  match plan with
  | none => emitFull arena objects symbols layout existing
  | some filter => do
      match ← emitWithFilterInto arena objects symbols layout filter true existing with
      | some file => return file
      | none => emitFull arena objects symbols layout existing

inductive Left (objects : List InputObject) (symbols : SymbolTable) (layout : Layout)
    (filter : SectionWriteFilter) (image : List UInt8) : Nat → Prop
  /-- Headers and synthetic sections are left too, but for the table of the frames and the
  build id. -/
  | minimal {place : Nat} (isMinimal : filter.isMinimal = true)
      (items : ∀ item ∈ collectInputWorkItems layout objects filter, ¬ item.Covers place)
      (table : ∀ patch ∈ writeEhFrameHdr image layout, ¬ patch.Covers place)
      (descriptor : ∀ note, layout.firstOf .noteBuildId = some note →
        ∀ patch ∈ zeroWrites layout.fileSize (note.shOffset + 16) 16, ¬ patch.Covers place) :
      Left objects symbols layout filter image place
  | unwritten {place : Nat} (whole : filter.isMinimal = false)
      (unwritten : ¬ Written objects symbols layout place) :
      Left objects symbols layout filter image place
  /-- All of an input section that is not collected. -/
  | green {s : OutputSection} {place : Nat} (whole : filter.isMinimal = false)
      (present : s ∈ layout.outputSections) (isInput : s.source = .input)
      (notCollected : filter.collectsOutputSection s.name = false)
      (inside : s.HasPlace place) : Left objects symbols layout filter image place

section

variable {arena : InputArena} {objects : List InputObject} {symbols : SymbolTable}
variable {layout : Layout} {filter : SectionWriteFilter} {bufLen place : Nat}
variable {patch : Buffer.Patch UInt8} {s : OutputSection}
variable {all data : List (Buffer.Patch UInt8)} {image old clean : List UInt8}

/-! ## The data of a part -/

/-- What can be emitted as a whole can be emitted in part. -/
theorem exists_data (filter : SectionWriteFilter)
    (isAll : dataWrites arena objects symbols layout .all bufLen = .ok all) :
    ∃ data, dataWrites arena objects symbols layout filter bufLen = .ok data := by
  rcases dataWrites_ok isAll with ⟨copied, isCopied, _⟩
  rcases exists_copied filter isCopied with ⟨part, isPart⟩
  rw [dataWrites, writeSectionData, isPart]
  exact ⟨_, rfl⟩

theorem emitWithFilterInto_of_data {requireExistingSize : Bool}
    (isData : dataWrites arena objects symbols layout filter layout.fileSize = .ok data)
    (sized : old.length = layout.fileSize) :
    emitWithFilterInto arena objects symbols layout filter requireExistingSize (some old) =
      .ok (some (Buffer.applyAll old
        (data ++ imageWrites layout filter (Buffer.applyAll old data)))) := by
  have opened : openOutputMap (some old) layout.fileSize = old := by
    rw [openOutputMap, if_pos sized]
  have overwrites : ((some old).any fun bytes => bytes.length == layout.fileSize) = true :=
    beq_iff_eq.mpr sized
  rw [← sized] at isData
  rw [emitWithFilterInto, overwrites, Bool.not_true, Bool.and_false, opened]
  change (emitWrites arena objects symbols layout filter old).map
    (fun writes => some (Buffer.applyAll old writes)) = _
  rw [emitWrites_of_data isData]
  rfl

theorem collects_of_whole (whole : filter.isMinimal = false) (name : Name) (objectId : Nat) :
    filter.zeroesGaps name = filter.collectsOutputSection name ∧
      filter.writesContribution objectId = true := by
  cases filter with
  | all => exact ⟨rfl, rfl⟩
  | redOnly red => exact ⟨rfl, rfl⟩
  | changedObjects changed => cases whole

theorem collects_of_minimal (minimal : filter.isMinimal = true) (name : Name) :
    filter.collectsOutputSection name = true := by
  cases filter with
  | all => rfl
  | redOnly red => cases minimal
  | changedObjects changed => rfl

theorem notBss_of_sectionWrites
    (isPatch : patch ∈ sectionWrites symbols layout filter bufLen s) : s.source ≠ .bss := by
  intro isBss
  have notInput : s.source ≠ .input := by
    rw [isBss]
    exact SecSource.noConfusion
  have notWritten : syntheticSectionIsWritten layout s = false := by
    rw [syntheticSectionIsWritten, isBss]
  rw [sectionWrites, if_neg notInput, notWritten] at isPatch
  exact absurd isPatch List.not_mem_nil

theorem region_of_image (separate : layout.Separate objects)
    (sized : image.length = layout.fileSize) (isPatch : patch ∈ imageWrites layout filter image)
    (covers : patch.Covers place) :
    (∃ s ∈ layout.outputSections, (s.source = .ehFrameHdr ∨ s.source = .noteBuildId) ∧
      s.HasPlace place) ∨ layout.shoff.toNat ≤ place := by
  rw [imageWrites, List.mem_append, List.mem_append] at isPatch
  rcases isPatch with (isTable | isHeader) | isDescriptor
  · rcases (covers_writeEhFrameHdr_iff image layout place).mp ⟨patch, isTable, covers⟩ with
      ⟨hdr, eh, isHdr, _, _, _, above, below⟩
    rcases firstOf_spec isHdr with ⟨present, isSource⟩
    rw [frameTableStop] at below
    exact .inl ⟨hdr, present, .inl isSource, above, by omega⟩
  · split at isHeader
    · exact absurd isHeader List.not_mem_nil
    · exact .inr (covers_sectionHeaderWrites isHeader covers).1
  · rcases (covers_finalizeBuildId_iff _ layout place).mp ⟨patch, isDescriptor, covers⟩ with
      ⟨note, isNote, cleared, isCleared, covered⟩
    rw [Buffer.length_applyAll, sized] at isCleared
    rcases firstOf_spec isNote with ⟨present, isSource⟩
    exact .inl ⟨note, present, .inr isSource,
      separate.hasPlace_of_descriptor isNote isCleared covered⟩

theorem section_outside_image (separate : layout.Separate objects)
    (present : s ∈ layout.outputSections) (notBss : s.source ≠ .bss)
    (notTable : s.source ≠ .ehFrameHdr) (notNote : s.source ≠ .noteBuildId)
    (inside : s.HasPlace place) (sized : image.length = layout.fileSize) :
    ∀ patch ∈ imageWrites layout filter image, ¬ patch.Covers place := by
  intro patch isPatch covers
  rcases region_of_image separate sized isPatch covers with
    ⟨other, isOther, isSource, inOther⟩ | behind
  · have otherNotBss : other.source ≠ .bss := by
      rcases isSource with isHdr | isNote
      · rw [isHdr]
        exact SecSource.noConfusion
      · rw [isNote]
        exact SecSource.noConfusion
    have same := separate.eq_of_hasPlace present notBss isOther otherNotBss inside inOther
    rw [← same] at isSource
    rcases isSource with isTable | isNote
    · exact notTable isTable
    · exact notNote isNote
  · have before := (separate.within_headers present notBss).2
    have below := inside.2
    omega

theorem input_outside_image (separate : layout.Separate objects)
    (present : s ∈ layout.outputSections) (isInput : s.source = .input)
    (inside : s.HasPlace place) (sized : image.length = layout.fileSize) :
    ∀ patch ∈ imageWrites layout filter image, ¬ patch.Covers place := by
  apply section_outside_image separate present (notBss_of_input isInput) _ _ inside sized
  · rw [isInput]
    exact SecSource.noConfusion
  · rw [isInput]
    exact SecSource.noConfusion

theorem section_outside_headers (separate : layout.Separate objects)
    (present : s ∈ layout.outputSections) (notBss : s.source ≠ .bss)
    (inside : s.HasPlace place) :
    ∀ patch ∈ sectionHeaderWrites bufLen layout, ¬ patch.Covers place := by
  intro patch isHeader covers
  have above := (covers_sectionHeaderWrites isHeader covers).1
  have before := (separate.within_headers present notBss).2
  have below := inside.2
  omega

theorem outside_descriptor (sized : image.length = layout.fileSize)
    (cleared : ∀ note, layout.firstOf .noteBuildId = some note →
      ∀ patch ∈ zeroWrites layout.fileSize (note.shOffset + 16) 16, ¬ patch.Covers place) :
    ∀ patch ∈ finalizeBuildId image layout, ¬ patch.Covers place := by
  intro patch isDescriptor covers
  rcases (covers_finalizeBuildId_iff image layout place).mp ⟨patch, isDescriptor, covers⟩ with
    ⟨note, isNote, zeros, isCleared, covered⟩
  rw [sized] at isCleared
  exact cleared note isNote zeros isCleared covered

theorem outside_data_of_minimal
    (isData : dataWrites arena objects symbols layout filter layout.fileSize = .ok data)
    (minimal : filter.isMinimal = true)
    (items : ∀ item ∈ collectInputWorkItems layout objects filter, ¬ item.Covers place) :
    ∀ patch ∈ data, ¬ patch.Covers place := by
  intro patch isPatch covers
  rcases dataWrites_ok isData with ⟨copied, isCopied, rfl⟩
  simp only [minimal, if_true, List.nil_append, List.append_nil] at isPatch
  rcases (covers_copied_iff isCopied place).mp ⟨patch, isPatch, covers⟩ with
    ⟨item, isItem, inItem⟩
  exact items item isItem inItem

theorem framesIn_final (separate : layout.Separate objects)
    (sized : image.length = layout.fileSize) {eh : OutputSection}
    (isEh : layout.ehFrame = some eh) :
    framesIn (Buffer.applyAll image (imageWrites layout filter image)) eh =
      framesIn image eh := by
  apply congrArg iterFdes
  apply Buffer.window_congr
  intro index inside
  apply Buffer.getElem?_applyAll_of_not_covers
  exact input_outside_image separate (List.mem_of_find?_eq_some isEh) (separate.frames eh isEh)
    ⟨Nat.le_add_right _ _, Nat.add_lt_add_left inside _⟩ sized

theorem writeEhFrameHdr_eq {first second : List UInt8} (same : first.length = second.length)
    (frames : ∀ eh, layout.ehFrame = some eh → framesIn first eh = framesIn second eh) :
    writeEhFrameHdr first layout = writeEhFrameHdr second layout := by
  rw [writeEhFrameHdr, writeEhFrameHdr]
  cases layout.firstOf .ehFrameHdr with
  | none => rfl
  | some hdr =>
      cases isEh : layout.ehFrame with
      | none => rfl
      | some eh =>
          dsimp only
          rw [frames eh isEh, same]

theorem writeEhFrameHdr_final (separate : layout.Separate objects)
    (sized : image.length = layout.fileSize) :
    writeEhFrameHdr (Buffer.applyAll image (imageWrites layout filter image)) layout =
      writeEhFrameHdr image layout :=
  writeEhFrameHdr_eq (Buffer.length_applyAll _ _)
    fun _ isEh => framesIn_final separate sized isEh

/-! ## What is left -/

theorem written_of_image (separate : layout.Separate objects)
    (sized : image.length = layout.fileSize) (isPatch : patch ∈ imageWrites layout filter image)
    (covers : patch.Covers place) : Written objects symbols layout place := by
  rw [imageWrites, List.mem_append, List.mem_append] at isPatch
  rcases isPatch with (isTable | isHeader) | isDescriptor
  · rcases (covers_writeEhFrameHdr_iff image layout place).mp ⟨patch, isTable, covers⟩ with
      ⟨hdr, eh, isHdr, _, _, _, above, below⟩
    rcases firstOf_spec isHdr with ⟨present, isSource⟩
    have isWritten : syntheticSectionIsWritten layout hdr = true := by
      rw [syntheticSectionIsWritten, isSource]
    rw [frameTableStop] at below
    exact .cleared present isWritten (separate.framesApart.frameTable hdr isHdr)
      ⟨above, by omega⟩
  · split at isHeader
    · exact absurd isHeader List.not_mem_nil
    · rw [sized] at isHeader
      exact .sectionHeader isHeader covers
  · rcases (covers_finalizeBuildId_iff _ layout place).mp ⟨patch, isDescriptor, covers⟩ with
      ⟨note, isNote, cleared, isCleared, covered⟩
    rw [Buffer.length_applyAll, sized] at isCleared
    exact .descriptor isNote isCleared covered

theorem green_outside_data (separate : layout.Separate objects)
    (isData : dataWrites arena objects symbols layout filter layout.fileSize = .ok data)
    (whole : filter.isMinimal = false) (present : s ∈ layout.outputSections)
    (isInput : s.source = .input) (notCollected : filter.collectsOutputSection s.name = false)
    (inside : s.HasPlace place) : ∀ patch ∈ data, ¬ patch.Covers place := by
  intro patch isPatch covers
  rcases dataWrites_ok isData with ⟨copied, isCopied, rfl⟩
  simp only [whole, Bool.false_eq_true, if_false, List.mem_append, List.mem_flatMap] at isPatch
  have notBss := notBss_of_input isInput
  rcases isPatch with (isHeader | ⟨other, isOther, isSection⟩ | isCopy) | isSlot
  · have below := separate.lt_of_header isHeader covers
    have above := (separate.within_headers present notBss).1
    have start := inside.1
    omega
  · have same := separate.eq_of_hasPlace present notBss isOther
      (notBss_of_sectionWrites isSection) inside
      (separate.hasPlace_of_section isOther isSection covers)
    subst same
    rw [sectionWrites, if_pos isInput, (collects_of_whole whole s.name 0).1, notCollected]
      at isSection
    exact absurd isSection List.not_mem_nil
  · rcases (covers_copied_iff isCopied place).mp ⟨patch, isCopy, covers⟩ with
      ⟨item, isItem, inItem⟩
    rcases separate.section_of_item isItem inItem with
      ⟨other, isOther, otherInput, collected, inOther⟩
    have same := separate.eq_of_hasPlace present notBss isOther (notBss_of_input otherInput)
      inside inOther
    rw [← same, notCollected] at collected
    cases collected
  · exact separate.slot_outside_input present isInput inside patch isSlot covers

theorem sameAt_data (separate : layout.Separate objects)
    (isAll : dataWrites arena objects symbols layout .all layout.fileSize = .ok all)
    (isData : dataWrites arena objects symbols layout filter layout.fileSize = .ok data)
    (whole : filter.isMinimal = false)
    (outside : ∀ s ∈ layout.outputSections, s.source = .input →
      filter.collectsOutputSection s.name = false → ¬ s.HasPlace place) :
    Buffer.SameAt place data all := by
  rcases dataWrites_ok isAll with ⟨copiedAll, areCopied, rfl⟩
  rcases dataWrites_ok isData with ⟨copied, isCopied, rfl⟩
  have allWhole : SectionWriteFilter.all.isMinimal = false := rfl
  simp only [whole, allWhole, Bool.false_eq_true, if_false]
  apply Buffer.SameAt.append
  · apply Buffer.SameAt.append (Buffer.SameAt.refl _)
    apply Buffer.SameAt.append
    · apply Buffer.SameAt.flatMap
      intro s present
      rw [sectionWrites, sectionWrites]
      split
      · rename_i isInput
        have zeroesAll : SectionWriteFilter.all.zeroesGaps s.name = true := rfl
        rw [(collects_of_whole whole s.name 0).1, zeroesAll]
        cases collected : filter.collectsOutputSection s.name with
        | true => exact Buffer.SameAt.refl _
        | false =>
            apply Buffer.SameAt.nil_of_outside
            intro patch isGap covers
            exact outside s present isInput collected
              (separate.hasPlace_of_gap present isInput isGap covers)
      · exact Buffer.SameAt.refl _
    · apply sameAt_copied areCopied isCopied
      intro s present isInput c inContributions dropped item isItem covers
      apply outside s present isInput _
        (separate.hasPlace_of_item present isInput inContributions isItem covers)
      rw [SectionWriteFilter.keeps, (collects_of_whole whole s.name c.objectId).2,
        Bool.and_true] at dropped
      exact dropped
  · exact Buffer.SameAt.refl _

theorem left_of_unwritten (separate : layout.Separate objects)
    (sized : image.length = layout.fileSize) (unwritten : ¬ Written objects symbols layout place) :
    Left objects symbols layout filter image place := by
  cases minimal : filter.isMinimal with
  | false => exact .unwritten minimal unwritten
  | true =>
      refine .minimal minimal ?_ ?_ ?_
      · intro item present covers
        exact unwritten (.item ((collected_sublist layout objects filter).subset present) covers)
      · intro patch isTable covers
        have isImage : patch ∈ imageWrites layout filter image := by
          rw [imageWrites, List.append_assoc]
          exact List.mem_append_left _ isTable
        exact unwritten (written_of_image separate sized isImage covers)
      · intro note isNote patch isDescriptor covers
        exact unwritten (.descriptor isNote isDescriptor covers)

theorem written_of_data
    (isAll : dataWrites arena objects symbols layout .all layout.fileSize = .ok all)
    (isData : dataWrites arena objects symbols layout filter layout.fileSize = .ok data)
    (whole : filter.isMinimal = false) (isPatch : patch ∈ data) (covers : patch.Covers place) :
    Written objects symbols layout place := by
  apply (written_iff isAll place).mpr
  apply Or.inl
  apply (covers_dataWrites_iff isAll place).mpr
  rcases dataWrites_ok isData with ⟨copied, isCopied, rfl⟩
  simp only [whole, Bool.false_eq_true, if_false, List.mem_append, List.mem_flatMap] at isPatch
  rcases isPatch with (isHeader | ⟨s, present, isSection⟩ | isCopy) | isSlot
  · exact .inl ⟨patch, isHeader, covers⟩
  · refine .inr (.inl ⟨s, present, patch, ?_, covers⟩)
    rw [sectionWrites] at isSection ⊢
    split at isSection
    · rename_i isInput
      rw [if_pos isInput]
      split at isSection
      · exact isSection
      · exact absurd isSection List.not_mem_nil
    · rename_i notInput
      rw [if_neg notInput]
      exact isSection
  · rcases (covers_copied_iff isCopied place).mp ⟨patch, isCopy, covers⟩ with
      ⟨item, isItem, inItem⟩
    exact .inr (.inr (.inl ⟨item, (collected_sublist layout objects filter).subset isItem,
      inItem⟩))
  · exact .inr (.inr (.inr ⟨patch, isSlot, covers⟩))

theorem left_outside (separate : layout.Separate objects)
    (isAll : dataWrites arena objects symbols layout .all layout.fileSize = .ok all)
    (isData : dataWrites arena objects symbols layout filter layout.fileSize = .ok data)
    (sized : old.length = layout.fileSize)
    (left : Left objects symbols layout filter (Buffer.applyAll old
      (data ++ imageWrites layout filter (Buffer.applyAll old data))) place) :
    (Buffer.applyAll old
      (data ++ imageWrites layout filter (Buffer.applyAll old data)))[place]? = old[place]? := by
  have imageSized : (Buffer.applyAll old data).length = layout.fileSize :=
    (Buffer.length_applyAll _ _).trans sized
  apply Buffer.getElem?_applyAll_of_not_covers
  intro patch isPatch covers
  cases left with
  | minimal minimal items table descriptor =>
      rw [Buffer.applyAll_append, writeEhFrameHdr_final separate imageSized] at table
      rcases List.mem_append.mp isPatch with isCopy | isLate
      · exact outside_data_of_minimal isData minimal items patch isCopy covers
      · rw [imageWrites, minimal, if_pos rfl, List.append_nil, List.mem_append] at isLate
        rcases isLate with isTable | isDescriptor
        · exact table patch isTable covers
        · exact outside_descriptor ((Buffer.length_applyAll _ _).trans imageSized) descriptor
            patch isDescriptor covers
  | unwritten whole unwritten =>
      rcases List.mem_append.mp isPatch with inData | isLate
      · exact unwritten (written_of_data isAll isData whole inData covers)
      · exact unwritten (written_of_image separate imageSized isLate covers)
  | green whole present isInput notCollected inside =>
      rcases List.mem_append.mp isPatch with inData | isLate
      · exact green_outside_data separate isData whole present isInput notCollected inside patch
          inData covers
      · exact input_outside_image separate present isInput inside imageSized patch isLate covers

/-! ## A part with headers -/

theorem applyAll_data_of_whole (separate : layout.Separate objects)
    (isAll : dataWrites arena objects symbols layout .all layout.fileSize = .ok all)
    (isData : dataWrites arena objects symbols layout filter layout.fileSize = .ok data)
    (whole : filter.isMinimal = false) (sized : old.length = layout.fileSize)
    (agree : ∀ s ∈ layout.outputSections, s.source = .input →
      filter.collectsOutputSection s.name = false → ∀ place, s.HasPlace place →
        old[place]? = (Buffer.applyAll old
          (all ++ imageWrites layout .all (Buffer.applyAll old all)))[place]?) :
    Buffer.applyAll old data = Buffer.applyAll old all := by
  apply List.ext_getElem?
  intro place
  by_cases green : ∃ s ∈ layout.outputSections, s.source = .input ∧
      filter.collectsOutputSection s.name = false ∧ s.HasPlace place
  · rcases green with ⟨s, present, isInput, notCollected, inside⟩
    rw [Buffer.getElem?_applyAll_of_not_covers
      (green_outside_data separate isData whole present isInput notCollected inside),
      agree s present isInput notCollected place inside, Buffer.applyAll_append]
    apply Buffer.getElem?_applyAll_of_not_covers
    exact input_outside_image separate present isInput inside
      ((Buffer.length_applyAll _ _).trans sized)
  · apply Buffer.SameAt.getElem?_applyAll _ rfl
    apply sameAt_data separate isAll isData whole
    intro s present isInput notCollected inside
    exact green ⟨s, present, isInput, notCollected, inside⟩

/-! ## A part without headers -/

theorem getElem?_data_of_minimal (separate : layout.Separate objects)
    (isAll : dataWrites arena objects symbols layout .all layout.fileSize = .ok all)
    (isData : dataWrites arena objects symbols layout filter layout.fileSize = .ok data)
    (minimal : filter.isMinimal = true) {item : WorkItem}
    (isItem : item ∈ collectInputWorkItems layout objects filter) (covers : item.Covers place) :
    (Buffer.applyAll old data)[place]? = (Buffer.applyAll old all)[place]? := by
  rcases dataWrites_ok isAll with ⟨copiedAll, areCopied, rfl⟩
  rcases dataWrites_ok isData with ⟨copied, isCopied, rfl⟩
  have allWhole : SectionWriteFilter.all.isMinimal = false := rfl
  simp only [minimal, allWhole, Bool.false_eq_true, if_false, if_true, List.nil_append,
    List.append_nil]
  rcases separate.section_of_item isItem covers with ⟨s, present, isInput, _, inside⟩
  have slots := separate.slot_outside_input present isInput inside
  have sameAt : Buffer.SameAt place copied copiedAll := by
    apply sameAt_copied areCopied isCopied
    intro other isOther otherInput c inContributions dropped dropItem isDropped inDropped
    rcases copyInputSections_ok_iff.mp areCopied with ⟨fit, _, _⟩
    rcases exists_contribution isItem with ⟨own, _, _, _, contribution, _, written, isOwn⟩
    have different : item ≠ dropItem := by
      intro same
      have objects := objId_of_item isOwn
      rw [same, objId_of_item isDropped] at objects
      rw [SectionWriteFilter.keeps, collects_of_minimal minimal, Bool.true_and, objects, written]
        at dropped
      cases dropped
    have symmetric : Std.Symm fun first second : WorkItem =>
        ∀ place, ¬ (first.Covers place ∧ second.Covers place) :=
      ⟨fun _ _ apart place both => apart place both.symm⟩
    have apart := fit.disjoint.forall ((collected_sublist layout objects filter).subset isItem)
      (item_of_contribution .all isOther otherInput rfl inContributions rfl isDropped)
      different
    exact apart place ⟨covers, inDropped⟩
  have covered := (covers_copied_iff isCopied place).mpr ⟨item, isItem, covers⟩
  rw [Buffer.applyAll_append, Buffer.getElem?_applyAll_of_not_covers slots,
    Buffer.applyAll_append, Buffer.applyAll_append]
  rw [← sameAt.getElem?_applyAll rfl]
  apply Buffer.getElem?_applyAll_of_covers covered
  rw [Buffer.length_applyAll, Buffer.length_applyAll]

theorem getElem?_input_of_minimal (separate : layout.Separate objects)
    (isAll : dataWrites arena objects symbols layout .all layout.fileSize = .ok all)
    (isData : dataWrites arena objects symbols layout filter layout.fileSize = .ok data)
    (minimal : filter.isMinimal = true) (sized : old.length = layout.fileSize)
    {full : List UInt8}
    (isFull : full = Buffer.applyAll old
      (all ++ imageWrites layout .all (Buffer.applyAll old all)))
    (agree : ∀ place, Left objects symbols layout filter full place →
      old[place]? = full[place]?)
    (present : s ∈ layout.outputSections) (isInput : s.source = .input)
    (inside : s.HasPlace place) :
    (Buffer.applyAll old data)[place]? = (Buffer.applyAll old all)[place]? := by
  by_cases kept : ∃ item ∈ collectInputWorkItems layout objects filter, item.Covers place
  · rcases kept with ⟨item, isItem, covers⟩
    exact getElem?_data_of_minimal separate isAll isData minimal isItem covers
  have items : ∀ item ∈ collectInputWorkItems layout objects filter, ¬ item.Covers place :=
    fun item isItem covers => kept ⟨item, isItem, covers⟩
  have fullSized : full.length = layout.fileSize := by
    rw [isFull, Buffer.length_applyAll, sized]
  have outside : ∀ patch ∈ imageWrites layout filter full, ¬ patch.Covers place :=
    input_outside_image separate present isInput inside fullSized
  have left : Left objects symbols layout filter full place := by
    refine .minimal minimal items ?_ ?_
    · intro patch isTable covers
      apply outside patch _ covers
      rw [imageWrites, List.append_assoc]
      exact List.mem_append_left _ isTable
    · intro note isNote patch isDescriptor covers
      have same := separate.eq_of_firstOf isNote SecSource.noConfusion present
        (notBss_of_input isInput) inside
        (separate.hasPlace_of_descriptor isNote isDescriptor covers)
      rw [same, (firstOf_spec isNote).2] at isInput
      cases isInput
  rw [Buffer.getElem?_applyAll_of_not_covers (outside_data_of_minimal isData minimal items), agree place left, isFull,
    Buffer.applyAll_append]
  apply Buffer.getElem?_applyAll_of_not_covers
  exact input_outside_image separate present isInput inside
    ((Buffer.length_applyAll _ _).trans sized)

theorem applyAll_of_minimal (separate : layout.Separate objects)
    (isAll : dataWrites arena objects symbols layout .all layout.fileSize = .ok all)
    (isData : dataWrites arena objects symbols layout filter layout.fileSize = .ok data)
    (minimal : filter.isMinimal = true) (sized : old.length = layout.fileSize)
    {full : List UInt8}
    (isFull : full = Buffer.applyAll old
      (all ++ imageWrites layout .all (Buffer.applyAll old all)))
    (agree : ∀ place, Left objects symbols layout filter full place →
      old[place]? = full[place]?) :
    Buffer.applyAll old (data ++ imageWrites layout filter (Buffer.applyAll old data)) =
      full := by
  have imageSized : (Buffer.applyAll old data).length = layout.fileSize :=
    (Buffer.length_applyAll _ _).trans sized
  have allSized : (Buffer.applyAll old all).length = layout.fileSize :=
    (Buffer.length_applyAll _ _).trans sized
  have input {s : OutputSection} {place : Nat} (present : s ∈ layout.outputSections)
      (isInput : s.source = .input) (inside : s.HasPlace place) :=
    getElem?_input_of_minimal separate isAll isData minimal sized isFull agree present isInput
      inside
  have table : writeEhFrameHdr (Buffer.applyAll old data) layout =
      writeEhFrameHdr (Buffer.applyAll old all) layout := by
    apply writeEhFrameHdr_eq (imageSized.trans allSized.symm)
    intro eh isEh
    apply congrArg iterFdes
    apply Buffer.window_congr
    intro index inside
    exact input (List.mem_of_find?_eq_some isEh) (separate.frames eh isEh)
      ⟨Nat.le_add_right _ _, Nat.add_lt_add_left inside _⟩
  have fullTable : writeEhFrameHdr full layout =
      writeEhFrameHdr (Buffer.applyAll old all) layout := by
    rw [isFull, Buffer.applyAll_append]
    exact writeEhFrameHdr_final separate allSized
  have allWhole : SectionWriteFilter.all.isMinimal = false := rfl
  rw [isFull, imageWrites, imageWrites, table, minimal, allWhole, if_pos rfl,
    if_neg Bool.false_ne_true, List.append_nil, Buffer.applyAll_append old data,
    Buffer.applyAll_append old all, Buffer.applyAll_append (Buffer.applyAll old data),
    Buffer.applyAll_append (Buffer.applyAll old all)]
  apply applyAll_finalizeBuildId_eq
  · simp only [Buffer.length_applyAll]
  intro place cleared
  rw [Buffer.length_applyAll, imageSized] at cleared
  by_cases inTable : ∃ patch ∈ writeEhFrameHdr (Buffer.applyAll old all) layout,
      patch.Covers place
  · rcases (covers_writeEhFrameHdr_iff _ layout place).mp inTable with
      ⟨hdr, eh, isHdr, _, _, _, above, below⟩
    rcases firstOf_spec isHdr with ⟨present, isSource⟩
    rw [frameTableStop] at below
    have notBss : hdr.source ≠ .bss := by
      rw [isSource]
      exact SecSource.noConfusion
    rw [Buffer.applyAll_append, Buffer.getElem?_applyAll_of_not_covers
      (section_outside_headers separate present notBss ⟨above, by omega⟩)]
    exact Buffer.getElem?_applyAll_of_covers inTable (imageSized.trans allSized.symm)
  have noTable : ∀ patch ∈ writeEhFrameHdr (Buffer.applyAll old all) layout,
      ¬ patch.Covers place :=
    fun patch isTable covers => inTable ⟨patch, isTable, covers⟩
  rw [Buffer.getElem?_applyAll_of_not_covers noTable]
  by_cases kept : ∃ item ∈ collectInputWorkItems layout objects filter, item.Covers place
  · rcases kept with ⟨item, isItem, covers⟩
    rcases separate.section_of_item isItem covers with ⟨s, present, isInput, _, inside⟩
    rw [Buffer.applyAll_append, Buffer.getElem?_applyAll_of_not_covers
      (section_outside_headers separate present (notBss_of_input isInput) inside),
      Buffer.getElem?_applyAll_of_not_covers noTable]
    exact input present isInput inside
  have items : ∀ item ∈ collectInputWorkItems layout objects filter, ¬ item.Covers place :=
    fun item isItem covers => kept ⟨item, isItem, covers⟩
  -- What is neither kept nor in the table nor in the descriptor is left.
  have left : Left objects symbols layout filter full place := by
    refine .minimal minimal items ?_ cleared
    rw [fullTable]
    exact noTable
  rw [Buffer.getElem?_applyAll_of_not_covers (outside_data_of_minimal isData minimal items), agree place left, isFull,
    imageWrites, allWhole, if_neg Bool.false_ne_true, Buffer.applyAll_append old all,
    Buffer.applyAll_append (Buffer.applyAll old all)]
  apply Buffer.getElem?_applyAll_of_not_covers
  exact outside_descriptor ((Buffer.length_applyAll _ _).trans allSized) cleared

/-! ## The file -/

theorem applyAll_clean (separate : layout.Separate objects)
    (isAll : dataWrites arena objects symbols layout .all layout.fileSize = .ok all)
    (isData : dataWrites arena objects symbols layout filter layout.fileSize = .ok data)
    (sized : old.length = layout.fileSize)
    (isClean : clean = Buffer.applyAll (List.replicate layout.fileSize 0)
      (all ++ imageWrites layout .all
        (Buffer.applyAll (List.replicate layout.fileSize 0) all)))
    (agree : ∀ place, Left objects symbols layout filter clean place →
      old[place]? = clean[place]?) :
    Buffer.applyAll old (data ++ imageWrites layout filter (Buffer.applyAll old data)) =
      clean := by
  have zerosSized : (List.replicate layout.fileSize (0 : UInt8)).length = layout.fileSize :=
    List.length_replicate
  have cleanSized : clean.length = layout.fileSize := by
    rw [isClean, Buffer.length_applyAll, zerosSized]
  have unwritten : AgreeUnwritten objects symbols layout old
      (List.replicate layout.fileSize 0) := by
    intro place notWritten
    rw [agree place (left_of_unwritten separate cleanSized notWritten), isClean]
    apply Buffer.getElem?_applyAll_of_not_covers
    intro patch isPatch covers
    exact notWritten (written_of_covers separate.framesApart isAll zerosSized isPatch covers)
  have isFull := isClean.trans
    (applyAll_emission_eq separate.framesApart isAll sized zerosSized unwritten).symm
  cases minimal : filter.isMinimal with
  | true => exact applyAll_of_minimal separate isAll isData minimal sized isFull agree
  | false =>
      have same : Buffer.applyAll old data = Buffer.applyAll old all := by
        apply applyAll_data_of_whole separate isAll isData minimal sized
        intro s present isInput notCollected place inside
        rw [← isFull]
        exact agree place (.green minimal present isInput notCollected inside)
      have late : imageWrites layout filter (Buffer.applyAll old data) =
          imageWrites layout .all (Buffer.applyAll old all) := by
        have allWhole : SectionWriteFilter.all.isMinimal = false := rfl
        rw [same, imageWrites, imageWrites, minimal, allWhole]
      rw [isFull, late, Buffer.applyAll_append, Buffer.applyAll_append old all, same]

theorem applyAll_eq_clean_iff (separate : layout.Separate objects)
    (isAll : dataWrites arena objects symbols layout .all layout.fileSize = .ok all)
    (isData : dataWrites arena objects symbols layout filter layout.fileSize = .ok data)
    (isClean : emitFull arena objects symbols layout none = .ok clean)
    (sized : old.length = layout.fileSize) :
    Buffer.applyAll old (data ++ imageWrites layout filter (Buffer.applyAll old data)) =
        clean ↔
      ∀ place, Left objects symbols layout filter clean place →
        old[place]? = clean[place]? := by
  rw [emitFull_of_data isAll] at isClean
  constructor
  · intro same place left
    rw [← same] at left ⊢
    exact (left_outside separate isAll isData sized left).symm
  · exact applyAll_clean separate isAll isData sized (Except.ok.inj isClean).symm

theorem emitFull_unsized {existing : Option (List UInt8)}
    (other : ∀ old ∈ existing, old.length ≠ layout.fileSize) :
    emitFull arena objects symbols layout existing =
      emitFull arena objects symbols layout none := by
  have opened : openOutputMap existing layout.fileSize = openOutputMap none layout.fileSize := by
    cases existing with
    | none => rfl
    | some old => exact if_neg (other old rfl)
  rw [emitFull, emitFull, opened]

theorem emitWithFilter_unsized {existing : Option (List UInt8)}
    (other : ∀ old ∈ existing, old.length ≠ layout.fileSize) :
    emitWithFilterInto arena objects symbols layout filter true existing = .ok none := by
  have cannot : (existing.any fun bytes => bytes.length == layout.fileSize) = false := by
    cases existing with
    | none => rfl
    | some old => exact beq_eq_false_iff_ne.mpr (other old rfl)
  rw [emitWithFilterInto, cannot]
  rfl

end

/-- A link leaves the file that a link into a new one leaves, if and only if a file of the same
size was there already that holds those bytes in all that the plan leaves as it is. -/
theorem emitOutput_eq_clean_iff {arena : InputArena} {objects : List InputObject}
    {symbols : SymbolTable} {layout : Layout} {clean : List UInt8}
    (separate : layout.Separate objects)
    (isClean : emitFull arena objects symbols layout none = .ok clean)
    (plan : Option SectionWriteFilter) (existing : Option (List UInt8)) :
    emitOutput arena objects symbols layout plan existing = .ok clean ↔
      ∀ old ∈ existing, old.length = layout.fileSize →
        ∀ place, Left objects symbols layout (plan.getD .all) clean place →
          old[place]? = clean[place]? := by
  rcases data_of_emitFull isClean with ⟨all, isAll⟩
  by_cases sized : ∃ old ∈ existing, old.length = layout.fileSize
  · rcases sized with ⟨old, isOld, sized⟩
    cases Option.mem_def.mp isOld
    rcases exists_data (plan.getD .all) isAll with ⟨data, isData⟩
    have emitted : emitOutput arena objects symbols layout plan (some old) =
        .ok (Buffer.applyAll old (data ++ imageWrites layout (plan.getD .all)
          (Buffer.applyAll old data))) := by
      cases plan with
      | none =>
          have opened : openOutputMap (some old) layout.fileSize = old := if_pos sized
          have emission := emitFull_of_data isData (some old)
          rw [opened] at emission
          exact emission
      | some filter =>
          rw [Option.getD_some] at isData ⊢
          rw [emitOutput, emitWithFilterInto_of_data isData sized]
          rfl
    rw [emitted]
    have decided := applyAll_eq_clean_iff separate isAll isData isClean sized
    constructor
    · intro same other isOther _
      cases Option.mem_def.mp isOther
      exact decided.mp (Except.ok.inj same)
    · intro agree
      rw [decided.mpr (agree old rfl sized)]
  · have other : ∀ old ∈ existing, old.length ≠ layout.fileSize :=
      fun old isOld same => sized ⟨old, isOld, same⟩
    have emitted : emitOutput arena objects symbols layout plan existing = .ok clean := by
      cases plan with
      | none => exact (emitFull_unsized other).trans isClean
      | some filter =>
          rw [emitOutput, emitWithFilter_unsized other]
          exact (emitFull_unsized other).trans isClean
    exact ⟨fun _ old isOld isSized => absurd isSized (other old isOld), fun _ => emitted⟩

end Peony
