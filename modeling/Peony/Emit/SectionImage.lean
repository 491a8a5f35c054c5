import Peony.Emit.PartialEmission

namespace Peony

/-! The bytes of the sections in an output that is written into a new file. -/

/-- The relocated bytes of an item; none when a relocation fails. -/
def DispatchCtx.rendered (ctx : DispatchCtx) (item : WorkItem) : List UInt8 :=
  match ctx.sectionBytes item with
  | .ok bytes => bytes
  | .error _ => []

def DispatchCtx.localItem (ctx : DispatchCtx) (c : SectionContribution) (item : WorkItem) :
    List (Buffer.Patch UInt8) :=
  if item.isec.data.len = 0 then [] else [⟨c.offset.toNat, ctx.rendered item⟩]

/-- What the contributions put into their section, from its start on. -/
def DispatchCtx.localItems (ctx : DispatchCtx) (objects : List InputObject)
    (s : OutputSection) : List (Buffer.Patch UInt8) :=
  s.contributions.flatMap fun c =>
    (workItemOf objects s c).toList.flatMap (ctx.localItem c)

def Layout.localSlots (layout : Layout) (got : OutputSection) : List (Buffer.Patch UInt8) :=
  layout.tlsGotWrites.flatMap fun slot =>
    if slot.1 < got.shAddr ∨ got.shAddr + got.shSize < slot.1 + 8 then []
    else [⟨slot.1.toNat - got.shAddr.toNat, toLeBytes slot.2⟩]

/-- All that is put into a section, from its start on. -/
def DispatchCtx.localWrites (ctx : DispatchCtx) (objects : List InputObject)
    (symbols : SymbolTable) (layout : Layout) (s : OutputSection) :
    List (Buffer.Patch UInt8) :=
  match s.source with
  | .input => ctx.localItems objects s
  | .got => layout.localContents symbols .got ++
      if layout.firstOf .got = some s then layout.localSlots s else []
  | source => layout.localContents symbols source

/-- The bytes of a section, which are 0 where nothing is put. -/
def sectionImage (arena : InputArena) (objects : List InputObject) (symbols : SymbolTable)
    (layout : Layout) (s : OutputSection) : List UInt8 :=
  Buffer.applyAll (List.replicate s.shSize.toNat 0)
    ((emitCtx arena objects symbols layout).localWrites objects symbols layout s)

section

variable {arena : InputArena} {objects : List InputObject} {symbols : SymbolTable}
variable {layout : Layout} {filter : SectionWriteFilter} {bufLen place index : Nat}
variable {patch : Buffer.Patch UInt8} {s : OutputSection} {item : WorkItem}
variable {all : List (Buffer.Patch UInt8)} {clean : List UInt8}

/-! ## What is put into a section -/

theorem placed_eq_moved {ctx : DispatchCtx} {c : SectionContribution}
    (isItem : workItemOf objects s c = some item)
    (small : s.shOffset.toNat + c.offset.toNat < 2 ^ 64)
    (fits : item.fileLen ≠ 0 → item.Fits bufLen)
    (succeeds : ∃ writes, ctx.itemWrites bufLen (item, item.range 0) = .ok writes) :
    ctx.placed bufLen item =
      (ctx.localItem c item).map (Buffer.Patch.moved s.shOffset.toNat) := by
  rcases succeeds with ⟨writes, isWrites⟩
  rw [placed_of_ok isWrites, DispatchCtx.localItem]
  have whole : item.fileLen.toNat = item.isec.data.len.toNat := by
    rw [fileLen_of_item isItem, UInt32.toNat_toUInt64]
  have start : item.fileOff.toNat = s.shOffset.toNat + c.offset.toNat := by
    rw [fileOff_of_item isItem, toNat_saturatingAdd_of_lt small]
  rw [DispatchCtx.itemWrites, WorkItem.range] at isWrites
  by_cases empty : item.isec.data.len = 0
  · rw [if_pos empty]
    have none : item.fileLen = 0 := by
      apply UInt64.toNat_inj.mp
      rw [whole, empty]
      rfl
    rw [if_pos none] at isWrites
    cases isWrites
    rfl
  · rw [if_neg empty]
    have positive : item.isec.data.len.toNat ≠ 0 :=
      fun none => empty (UInt32.toNat_inj.mp none)
    have nonempty : item.fileLen ≠ 0 := by
      intro none
      rw [none] at whole
      exact positive whole.symm
    have fit := fits nonempty
    have inFile := fit.inside
    have noWrap := fit.noOverflow
    rw [whole] at inFile noWrap
    rw [if_neg nonempty] at isWrites
    dsimp only at isWrites
    rw [if_neg (by rw [WorkRange.contains, whole]; simp; omega)] at isWrites
    rw [DispatchCtx.rendered]
    cases isBytes : ctx.sectionBytes item with
    | error fault =>
        rw [isBytes] at isWrites
        cases isWrites
    | ok bytes =>
        rw [isBytes] at isWrites
        cases isWrites
        rw [List.map_singleton, Buffer.Patch.moved, start]

theorem copied_by_section {copied : List (Buffer.Patch UInt8)}
    (isCopied : copyInputSections arena objects symbols layout .all bufLen = .ok copied) :
    copied = layout.outputSections.flatMap fun s =>
      if s.source = .input then
        s.contributions.flatMap fun c => (workItemOf objects s c).toList.flatMap
          ((emitCtx arena objects symbols layout).placed bufLen)
      else [] := by
  rcases copyInputSections_ok_iff.mp isCopied with ⟨_, _, rfl⟩
  rw [collectInputWorkItems_eq, List.flatMap_assoc]
  induction layout.outputSections with
  | nil => rfl
  | cons s rest induction =>
      rw [List.filter_cons, List.flatMap_cons]
      by_cases isInput : s.source = .input
      · rw [if_pos (beq_iff_eq.mpr isInput), if_pos isInput, List.flatMap_cons, induction,
          List.flatMap_assoc]
        rfl
      · have other : ¬ (s.source == SecSource.input) = true := mt beq_iff_eq.mp isInput
        rw [if_neg other, if_neg isInput, induction, List.nil_append]

theorem sameAt_section (separate : layout.Separate objects) (present : s ∈ layout.outputSections)
    (notBss : s.source ≠ .bss) (inside : s.HasPlace place)
    {write : OutputSection → List (Buffer.Patch UInt8)}
    (within : ∀ other ∈ layout.outputSections, ∀ patch ∈ write other, patch.Covers place →
      other.source ≠ .bss ∧ other.HasPlace place) :
    Buffer.SameAt place (layout.outputSections.flatMap write) (write s) := by
  rcases separate.exists_split present notBss inside with ⟨before, after, split, apart⟩
  have outside {others : List OutputSection}
      (among : ∀ other ∈ others, other ∈ layout.outputSections ∧ other ∈ before ++ after) :
      Buffer.SameAt place (others.flatMap write) [] := by
    apply Buffer.SameAt.of_outside
    · intro patch isPatch covers
      rcases List.mem_flatMap.mp isPatch with ⟨other, isOther, isPatch⟩
      have inOther := within other (among other isOther).1 patch isPatch covers
      exact apart other (among other isOther).2 inOther.1 inOther.2
    · exact fun _ absent => absurd absent List.not_mem_nil
  have first : Buffer.SameAt place (before.flatMap write) [] := by
    apply outside
    intro other isBefore
    rw [split]
    exact ⟨List.mem_append_left _ isBefore, List.mem_append_left _ isBefore⟩
  have last : Buffer.SameAt place (after.flatMap write) [] := by
    apply outside
    intro other isAfter
    rw [split]
    exact ⟨List.mem_append_right _ (List.mem_cons_of_mem _ isAfter),
      List.mem_append_right _ isAfter⟩
  have all := first.append ((Buffer.SameAt.refl (write s)).append last)
  rw [List.append_nil, List.nil_append] at all
  rw [split, List.flatMap_append, List.flatMap_cons]
  exact all

theorem finalAt_zeros {patches : List (Buffer.Patch UInt8)}
    (zeros : ∀ patch ∈ patches, ∀ byte ∈ patch.data, byte = 0) (place : Nat) :
    Buffer.finalAt patches place 0 = 0 := by
  induction patches with
  | nil => rfl
  | cons patch rest induction =>
      have first : patch.at place 0 = 0 := by
        rw [Buffer.Patch.at]
        split
        · cases isByte : patch.data[place - patch.offset]? with
          | none => rfl
          | some byte => exact zeros patch List.mem_cons_self byte (List.mem_of_getElem? isByte)
        · rfl
      have later := induction fun other present =>
        zeros other (List.mem_cons_of_mem _ present)
      rw [Buffer.finalAt, List.foldl_cons, first]
      exact later

theorem zeros_of_zeroWrites {off size : UInt64} (isPatch : patch ∈ zeroWrites bufLen off size) :
    ∀ byte ∈ patch.data, byte = 0 := by
  rcases mem_checkedWrite.mp isPatch with ⟨_, rfl⟩
  intro byte present
  exact List.eq_of_mem_replicate present

theorem contentsOf_of_not_written (notInput : s.source ≠ .input)
    (notWritten : syntheticSectionIsWritten layout s = false) :
    layout.localContents symbols s.source = [⟨0, []⟩] := by
  rw [syntheticSectionIsWritten] at notWritten
  cases isSource : s.source with
  | input => exact absurd isSource notInput
  | bss => rfl
  | relaEmit number =>
      rw [isSource] at notWritten
      have none : layout.emitRelocs[number]? = none :=
        Option.isNone_iff_eq_none.mp (Option.isSome_eq_false_iff.mp notWritten)
      change [(⟨0, layout.emitRelocs[number]?.getD []⟩ : Buffer.Patch UInt8)] = _
      rw [none, Option.getD_none]
  | _ =>
      rw [isSource] at notWritten
      cases notWritten

/-- What is written for one section leaves what is put into it. -/
theorem finalAt_sectionWrites (separate : layout.Separate objects)
    (present : s ∈ layout.outputSections) (notBss : s.source ≠ .bss) (index : Nat) :
    Buffer.finalAt (sectionWrites symbols layout .all layout.fileSize s)
        (s.shOffset.toNat + index) 0 =
      Buffer.finalAt (if s.source = .input then [] else layout.localContents symbols s.source)
        index 0 := by
  rw [sectionWrites]
  by_cases isInput : s.source = .input
  · have zeroes : SectionWriteFilter.all.zeroesGaps s.name = true := rfl
    rw [if_pos isInput, if_pos isInput, if_pos zeroes, finalAt_zeros]
    · rfl
    · intro patch isGap
      rcases List.mem_flatMap.mp isGap with ⟨gap, _, isPatch⟩
      exact zeros_of_zeroWrites isPatch
  rw [if_neg isInput, if_neg isInput]
  cases isWritten : syntheticSectionIsWritten layout s with
  | true =>
      rw [if_pos rfl, Buffer.finalAt_append, Function.comp_apply,
        finalAt_zeros (fun patch isPatch => zeros_of_zeroWrites isPatch),
        separate.contentWrites_eq present notBss, Buffer.finalAt_moved]
  | false =>
      rw [if_neg Bool.false_ne_true, contentsOf_of_not_written isInput isWritten]
      have empty : ∀ patch ∈ [(⟨0, []⟩ : Buffer.Patch UInt8)], ¬ patch.Covers index := by
        intro patch isPatch covers
        rw [List.mem_singleton.mp isPatch] at covers
        exact absurd covers.2 (Nat.not_lt_zero _)
      rw [Buffer.finalAt_of_not_covers empty]
      rfl

theorem placed_of_section (separate : layout.Separate objects)
    {copied : List (Buffer.Patch UInt8)}
    (isCopied : copyInputSections arena objects symbols layout .all layout.fileSize =
      .ok copied) (present : s ∈ layout.outputSections) (isInput : s.source = .input) :
    (s.contributions.flatMap fun c => (workItemOf objects s c).toList.flatMap
        ((emitCtx arena objects symbols layout).placed layout.fileSize)) =
      ((emitCtx arena objects symbols layout).localItems objects s).map
        (Buffer.Patch.moved s.shOffset.toNat) := by
  rcases copyInputSections_ok_iff.mp isCopied with ⟨fit, succeed, _⟩
  rw [DispatchCtx.localItems, List.map_flatMap]
  apply List.flatMap_congr
  intro c inContributions
  rw [List.map_flatMap]
  apply List.flatMap_congr
  intro item isItem
  rw [Option.mem_toList] at isItem
  have collected := item_of_contribution .all present isInput rfl inContributions rfl
    isItem
  have extent : c.offset.toNat + c.size.toNat ≤ s.shSize.toNat :=
    separate.extents s present c inContributions
  have small := separate.stop_lt present (notBss_of_input isInput)
  exact placed_eq_moved isItem (by omega) (fit.fits item collected) (succeed item collected)

/-! ## Slots of thread-local storage -/

theorem writeTlsGot_eq (separate : layout.Separate objects)
    (isGot : layout.firstOf .got = some s) :
    writeTlsGot layout.fileSize layout =
      (layout.localSlots s).map (Buffer.Patch.moved s.shOffset.toNat) := by
  rcases firstOf_spec isGot with ⟨present, isSource⟩
  have notBss : s.source ≠ .bss := by
    rw [isSource]
    exact SecSource.noConfusion
  have small := separate.stop_lt present notBss
  have inFile := separate.stop_le present notBss
  have addresses := separate.slots.1 s isGot
  have eight : (8 : UInt64).toNat = 8 := rfl
  have stop : (s.shAddr + s.shSize).toNat = s.shAddr.toNat + s.shSize.toNat := by
    rw [UInt64.toNat_add, Nat.mod_eq_of_lt addresses]
  rw [writeTlsGot, isGot, Layout.localSlots, List.map_flatMap]
  apply List.flatMap_congr
  intro slot isSlot
  have slotStop : (slot.1 + 8).toNat = slot.1.toNat + 8 := by
    rw [UInt64.toNat_add, eight, Nat.mod_eq_of_lt (separate.slots.2 slot isSlot)]
  rw [tlsSlotWrites]
  split
  · rfl
  · rename_i inside
    rw [not_or, UInt64.lt_iff_toNat_lt, UInt64.lt_iff_toNat_lt, stop, slotStop] at inside
    have distance := UInt64.toNat_sub_of_le _ _
      (UInt64.le_iff_toNat_le.mpr (Nat.not_lt.mp inside.1))
    have offset : (s.shOffset + (slot.1 - s.shAddr)).toNat =
        s.shOffset.toNat + (slot.1.toNat - s.shAddr.toNat) := by
      rw [UInt64.toNat_add, distance]
      exact Nat.mod_eq_of_lt (by omega)
    rw [checkedWrite_of_fits (by rw [offset, length_toLeBytes]; omega), offset]
    rfl

theorem sameAt_slots (separate : layout.Separate objects) (present : s ∈ layout.outputSections)
    (notBss : s.source ≠ .bss) (inside : s.HasPlace place) :
    Buffer.SameAt place (writeTlsGot layout.fileSize layout)
      ((if layout.firstOf .got = some s then layout.localSlots s else []).map
        (Buffer.Patch.moved s.shOffset.toNat)) := by
  by_cases isFirst : layout.firstOf .got = some s
  · rw [if_pos isFirst, writeTlsGot_eq separate isFirst]
    exact Buffer.SameAt.refl _
  · rw [if_neg isFirst]
    apply Buffer.SameAt.of_outside
    · intro patch isSlot covers
      rcases separate.hasPlace_of_slot isSlot covers with ⟨got, isGot, inGot⟩
      have same := separate.eq_of_firstOf isGot SecSource.noConfusion present notBss inside inGot
      exact isFirst (same ▸ isGot)
    · exact fun _ absent => absurd absent List.not_mem_nil

/-! ## The bytes of the sections -/

theorem finalAt_data (separate : layout.Separate objects)
    (isAll : dataWrites arena objects symbols layout .all layout.fileSize = .ok all)
    (present : s ∈ layout.outputSections) (notBss : s.source ≠ .bss)
    (inside : index < s.shSize.toNat) :
    Buffer.finalAt all (s.shOffset.toNat + index) 0 =
      Buffer.finalAt ((emitCtx arena objects symbols layout).localWrites objects symbols layout s)
        index 0 := by
  have hasPlace : s.HasPlace (s.shOffset.toNat + index) :=
    ⟨Nat.le_add_right _ _, Nat.add_lt_add_left inside _⟩
  rcases dataWrites_ok isAll with ⟨copied, isCopied, rfl⟩
  have allWhole : SectionWriteFilter.all.isMinimal = false := rfl
  simp only [allWhole, Bool.false_eq_true, if_false]
  have headers : Buffer.SameAt (s.shOffset.toNat + index) (headerWrites layout) [] := by
    apply Buffer.SameAt.of_outside
    · intro patch isHeader covers
      have below := separate.lt_of_header isHeader covers
      have above := (separate.within_headers present notBss).1
      omega
    · exact fun _ absent => absurd absent List.not_mem_nil
  have sections : Buffer.SameAt (s.shOffset.toNat + index)
      (layout.outputSections.flatMap (sectionWrites symbols layout .all layout.fileSize))
      (sectionWrites symbols layout .all layout.fileSize s) :=
    sameAt_section separate present notBss hasPlace fun other isOther patch isPatch covers =>
      ⟨notBss_of_sectionWrites isPatch, separate.hasPlace_of_section isOther isPatch covers⟩
  have items : Buffer.SameAt (s.shOffset.toNat + index) copied (if s.source = .input then
      ((emitCtx arena objects symbols layout).localItems objects s).map
        (Buffer.Patch.moved s.shOffset.toNat) else []) := by
    rw [copied_by_section isCopied]
    apply Eq.trans (sameAt_section separate present notBss hasPlace ?_)
    · by_cases isInput : s.source = .input
      · rw [if_pos isInput, if_pos isInput, placed_of_section separate isCopied present isInput]
      · rw [if_neg isInput, if_neg isInput]
    · intro other isOther patch isPatch covers
      split at isPatch
      · rename_i otherInput
        rcases copyInputSections_ok_iff.mp isCopied with ⟨fit, _, _⟩
        rcases List.mem_flatMap.mp isPatch with ⟨c, inContributions, isPatch⟩
        rcases List.mem_flatMap.mp isPatch with ⟨item, isItem, isPatch⟩
        rw [Option.mem_toList] at isItem
        have collected := item_of_contribution .all isOther otherInput rfl
          inContributions rfl isItem
        exact ⟨notBss_of_input otherInput, separate.hasPlace_of_item isOther otherInput
          inContributions isItem (covers_placed (fit.fits item collected) isPatch covers)⟩
      · exact absurd isPatch List.not_mem_nil
  have slots := sameAt_slots separate present notBss hasPlace
  have joined := (headers.append (sections.append items)).append slots
  rw [Buffer.SameAt, List.nil_append] at joined
  rw [joined, Buffer.finalAt_append, Function.comp_apply, Buffer.finalAt_moved,
    Buffer.finalAt_append, Function.comp_apply, finalAt_sectionWrites separate present notBss,
    DispatchCtx.localWrites]
  have notGot (other : s.source ≠ .got) : layout.firstOf .got ≠ some s :=
    fun isFirst => other (firstOf_spec isFirst).2
  cases isSource : s.source with
  | input =>
      have noSlots := notGot (by rw [isSource]; exact SecSource.noConfusion)
      rw [if_pos rfl, if_pos rfl, if_neg noSlots, Buffer.finalAt_moved]
      rfl
  | got =>
      simp only [reduceCtorEq, if_false]
      rw [Buffer.finalAt_append]
      rfl
  | _ =>
      have noSlots := notGot (by rw [isSource]; exact SecSource.noConfusion)
      simp only [reduceCtorEq, if_false, noSlots]
      rfl

/-- The sections of a clean image hold what is put into them. Those that are read from the image
itself are left out. -/
theorem slice_clean (separate : layout.Separate objects)
    (isClean : emitFull arena objects symbols layout none = .ok clean)
    (present : s ∈ layout.outputSections) (notBss : s.source ≠ .bss)
    (notTable : s.source ≠ .ehFrameHdr) (notNote : s.source ≠ .noteBuildId) :
    (clean.drop s.shOffset.toNat).take s.shSize.toNat =
      sectionImage arena objects symbols layout s := by
  rcases data_of_emitFull isClean with ⟨all, isAll⟩
  rw [emitFull_of_data isAll] at isClean
  cases isClean
  have opened : openOutputMap none layout.fileSize = List.replicate layout.fileSize 0 := rfl
  have inFile := separate.stop_le present notBss
  rw [opened]
  apply List.ext_getElem?
  intro index
  by_cases inside : index < s.shSize.toNat
  · have hasPlace : s.HasPlace (s.shOffset.toNat + index) :=
      ⟨Nat.le_add_right _ _, Nat.add_lt_add_left inside _⟩
    have imageSized : (Buffer.applyAll (List.replicate layout.fileSize 0) all).length =
        layout.fileSize := (Buffer.length_applyAll _ _).trans List.length_replicate
    have late : ∀ patch ∈ imageWrites layout .all (Buffer.applyAll
        (List.replicate layout.fileSize 0) all), ¬ patch.Covers _ :=
      section_outside_image separate present notBss notTable notNote hasPlace imageSized
    rw [List.getElem?_take_of_lt inside, List.getElem?_drop, Buffer.applyAll_append,
      Buffer.getElem?_applyAll_of_not_covers late, Buffer.getElem?_applyAll, sectionImage,
      Buffer.getElem?_applyAll, List.getElem?_replicate, List.getElem?_replicate,
      if_pos (by omega), if_pos inside, Option.map_some, Option.map_some,
      finalAt_data separate isAll present notBss inside]
  · rw [List.getElem?_take_eq_none (Nat.not_lt.mp inside), sectionImage,
      List.getElem?_eq_none]
    rw [Buffer.length_applyAll, List.length_replicate]
    exact Nat.not_lt.mp inside

end

end Peony
