import Peony.Emit.ReportCoverage
import Peony.Layout.Ranges

namespace Peony

/-! What a full emission leaves of a file that it writes in place. -/

def openOutputMap (existing : Option (List UInt8)) (fileSize : Nat) : List UInt8 :=
  match existing with
  | none => List.replicate fileSize 0
  | some bytes =>
      if bytes.length = fileSize then bytes else List.replicate fileSize 0

/-- The file after all of the output is emitted to it. -/
def emitFull (arena : InputArena) (objects : List InputObject) (symbols : SymbolTable)
    (layout : Layout) (existing : Option (List UInt8)) : Except EmitFault (List UInt8) :=
  let opened := openOutputMap existing layout.fileSize
  (emitWrites arena objects symbols layout .all opened).map (Buffer.applyAll opened)

/-- The places that a full emission writes. Those from 8 to 16, the null section header and
all that lies between the ranges of two sections are none of them. -/
inductive Written (objects : List InputObject) (symbols : SymbolTable) (layout : Layout) :
    Nat → Prop
  | ident {place : Nat} (below : place < 8) : Written objects symbols layout place
  | fileHeader {place : Nat} (above : 16 ≤ place) (below : place < 64) :
      Written objects symbols layout place
  | segment {place : Nat} (above : layout.phoff.toNat ≤ place)
      (below : place < layout.phoff.toNat + layout.segments.length * 56) :
      Written objects symbols layout place
  /-- All of a synthetic section that lies in the file. -/
  | cleared {s : OutputSection} {place : Nat} (present : s ∈ layout.outputSections)
      (isWritten : syntheticSectionIsWritten layout s = true)
      (fits : s.shOffset.toNat + s.shSize.toNat ≤ layout.fileSize)
      (inside : s.HasPlace place) : Written objects symbols layout place
  /-- The contents of a synthetic section, also where they go past it. -/
  | content {s : OutputSection} {patch : Buffer.Patch UInt8} {place : Nat}
      (present : s ∈ layout.outputSections)
      (isWritten : syntheticSectionIsWritten layout s = true)
      (isContent : patch ∈ contentWrites symbols layout layout.fileSize s)
      (covers : patch.Covers place) : Written objects symbols layout place
  /-- What no contribution of an input section takes up. -/
  | gap {s : OutputSection} {patch : Buffer.Patch UInt8} {place : Nat}
      (present : s ∈ layout.outputSections) (isInput : s.source = .input)
      (isGap : patch ∈ zeroInputGaps layout.fileSize s) (covers : patch.Covers place) :
      Written objects symbols layout place
  /-- The bytes of an input section; one without bytes leaves its place as it is. -/
  | item {item : WorkItem} {place : Nat}
      (present : item ∈ collectInputWorkItems layout objects .all)
      (covers : item.Covers place) : Written objects symbols layout place
  | tlsSlot {patch : Buffer.Patch UInt8} {place : Nat}
      (isSlot : patch ∈ writeTlsGot layout.fileSize layout) (covers : patch.Covers place) :
      Written objects symbols layout place
  | sectionHeader {patch : Buffer.Patch UInt8} {place : Nat}
      (isHeader : patch ∈ sectionHeaderWrites layout.fileSize layout)
      (covers : patch.Covers place) : Written objects symbols layout place
  | descriptor {note : OutputSection} {patch : Buffer.Patch UInt8} {place : Nat}
      (isNote : layout.firstOf .noteBuildId = some note)
      (isDescriptor : patch ∈ zeroWrites layout.fileSize (note.shOffset + 16) 16)
      (covers : patch.Covers place) : Written objects symbols layout place

/-- What a layout provides for what is written from the image: `.eh_frame_hdr` lies in the
file, and the section headers and the descriptor of the build id apart from the frames. -/
structure Layout.FramesApart (layout : Layout) : Prop where
  frameTable : ∀ hdr, layout.firstOf .ehFrameHdr = some hdr →
    hdr.shOffset.toNat + hdr.shSize.toNat ≤ layout.fileSize
  headers : ∀ eh, layout.ehFrame = some eh →
    eh.shOffset.toNat + eh.shSize.toNat ≤ layout.shoff.toNat
  descriptor : ∀ eh note, layout.ehFrame = some eh → layout.firstOf .noteBuildId = some note →
    ∀ place, eh.HasPlace place → ¬ ((note.shOffset + 16).toNat ≤ place ∧
      place < (note.shOffset + 16).toNat + 16)

theorem Layout.framesApart_of_laid {layout : Layout}
    (laid : Spans.Laid 0 layout.fileRanges layout.fileSize)
    (tables : ∀ hdr, layout.firstOf .ehFrameHdr = some hdr → hdr.isFileBacked = true)
    (frames : ∀ eh, layout.ehFrame = some eh → eh.isFileBacked = true)
    (notes : ∀ note, layout.firstOf .noteBuildId = some note → note.isFileBacked = true ∧
      layout.ehFrame ≠ some note ∧ 32 ≤ note.shSize.toNat) : layout.FramesApart := by
  have backed {s : OutputSection} (present : s ∈ layout.outputSections)
      (isBacked : s.isFileBacked = true) :
      s ∈ layout.outputSections.filter OutputSection.isFileBacked :=
    List.mem_filter.mpr ⟨present, isBacked⟩
  have before {s : OutputSection} (present : s ∈ layout.outputSections)
      (isBacked : s.isFileBacked = true) :
      s.shOffset.toNat + s.shSize.toNat ≤ layout.shoff.toNat := by
    have order := laid.pairwise
    rw [Layout.fileRanges, List.pairwise_append] at order
    exact order.2.2 s.inFile (List.mem_append_right _ (List.mem_map_of_mem
      (backed present isBacked))) _ (List.mem_singleton_self _)
  constructor
  · intro hdr isHdr
    have inside := laid.within (List.mem_append_left _ (List.mem_append_right _
      (List.mem_map_of_mem (backed (firstOf_spec isHdr).1 (tables hdr isHdr)))))
    exact inside.2
  · intro eh isEh
    exact before (List.mem_of_find?_eq_some isEh) (frames eh isEh)
  · intro eh note isEh isNote place inFrames inDescriptor
    rcases notes note isNote with ⟨isBacked, other, room⟩
    have present := (firstOf_spec isNote).1
    have below := before present isBacked
    have small := layout.shoff.toNat_lt
    have sixteen : (16 : UInt64).toNat = 16 := rfl
    have offset : (note.shOffset + 16).toNat = note.shOffset.toNat + 16 := by
      rw [UInt64.toNat_add, sixteen]
      exact Nat.mod_eq_of_lt (by omega)
    have notSame : eh ≠ note := by
      intro same
      exact other (same ▸ isEh)
    have apart := laid.apart
    rw [Layout.fileRanges, List.pairwise_append, List.pairwise_append, List.pairwise_map]
      at apart
    have symmetric : Std.Symm fun first second : OutputSection =>
        Spans.Span.Apart first.inFile second.inFile := ⟨fun _ _ separate => Or.symm separate⟩
    have ranges := apart.1.2.1.forall
      (backed (List.mem_of_find?_eq_some isEh) (frames eh isEh)) (backed present isBacked) notSame
    rw [offset] at inDescriptor
    have inEh := inFrames
    rcases ranges with first | second
    · have fits : eh.shOffset.toNat + eh.shSize.toNat ≤ note.shOffset.toNat := first
      have below := inEh.2
      omega
    · have fits : note.shOffset.toNat + note.shSize.toNat ≤ eh.shOffset.toNat := second
      have above := inEh.1
      omega

section

variable {arena : InputArena} {objects : List InputObject} {symbols : SymbolTable}
variable {layout : Layout} {bufLen place : Nat}
variable {patch : Buffer.Patch UInt8} {s : OutputSection}

@[simp] theorem length_openOutputMap (existing : Option (List UInt8)) (fileSize : Nat) :
    (openOutputMap existing fileSize).length = fileSize := by
  cases existing with
  | none => exact List.length_replicate
  | some bytes =>
      rw [openOutputMap]
      split
      · rename_i same
        exact same
      · exact List.length_replicate

/-! ## What is written is covered -/

theorem covers_headerWrites_iff (layout : Layout) (place : Nat) :
    (∃ patch ∈ headerWrites layout, patch.Covers place) ↔
      place < 8 ∨ (16 ≤ place ∧ place < 64) ∨
        (layout.phoff.toNat ≤ place ∧
          place < layout.phoff.toNat + layout.segments.length * 56) := by
  constructor
  · rintro ⟨patch, isPatch, covers⟩
    rcases List.mem_cons.mp isPatch with rfl | isPatch
    · exact .inl (by simpa [Buffer.Patch.Covers] using covers)
    rcases List.mem_cons.mp isPatch with rfl | isPatch
    · refine .inr (.inl ?_)
      rw [Buffer.Patch.Covers, length_fileHeader] at covers
      exact covers
    · exact .inr (.inr (covers_segmentPatches isPatch covers))
  · rintro (below | ⟨above, below⟩ | ⟨above, below⟩)
    · exact ⟨_, List.mem_cons_self, Nat.zero_le _, by simpa using below⟩
    · refine ⟨_, List.mem_cons_of_mem _ List.mem_cons_self, above, ?_⟩
      rw [length_fileHeader]
      exact below
    · have inside : (place - layout.phoff.toNat) / 56 < layout.segments.length :=
        Nat.div_lt_of_lt_mul (by omega)
      have isHeader := List.getElem?_eq_getElem inside
      refine ⟨⟨layout.phoff.toNat + (place - layout.phoff.toNat) / 56 * phdrSize.toNat,
        (layout.segments.get ⟨_, inside⟩).bytes⟩, ?_, ?_⟩
      · apply List.mem_cons_of_mem
        apply List.mem_cons_of_mem
        exact List.mem_map.mpr ⟨(layout.segments.get ⟨_, inside⟩, _),
          List.mem_zipIdx_iff_getElem?.mpr isHeader, rfl⟩
      · have wide : ((layout.segments.get ⟨_, inside⟩).bytes).length = 56 := by
          simp only [ProgramHeader.bytes, List.length_append, length_le32, length_toLeBytes]
        have size : phdrSize.toNat = 56 := rfl
        rw [Buffer.Patch.Covers, wide, size]
        dsimp only
        omega

/-! ### Input sections -/

theorem fileLen_of_collected {filter : SectionWriteFilter} {item : WorkItem}
    (present : item ∈ collectInputWorkItems layout objects filter) :
    item.fileLen = item.isec.data.len.toUInt64 := by
  rw [collectInputWorkItems] at present
  rcases List.mem_flatMap.mp present with ⟨s, _, isItem⟩
  rcases List.mem_filterMap.mp isItem with ⟨c, _, isItem⟩
  rw [workItemOf] at isItem
  rcases Option.bind_eq_some_iff.mp isItem with ⟨obj, _, isItem⟩
  rcases Option.bind_eq_some_iff.mp isItem with ⟨isec, _, isItem⟩
  cases isItem
  rfl

theorem exists_covers_of_item {ctx : DispatchCtx} {item : WorkItem} {index : Nat}
    (fits : item.fileLen ≠ 0 → item.Fits bufLen)
    (whole : item.fileLen = item.isec.data.len.toUInt64)
    {writes : List (Buffer.Patch UInt8)}
    (isWrites : ctx.itemWrites bufLen (item, item.range index) = .ok writes)
    (covers : item.Covers place) : ∃ patch ∈ writes, patch.Covers place := by
  have same : item.fileLen.toNat = item.isec.data.len.toNat := by
    rw [whole, UInt32.toNat_toUInt64]
  have nonempty : item.isec.data.len.toNat ≠ 0 := by
    intro empty
    rw [WorkItem.Covers, same, empty] at covers
    omega
  have positive : item.fileLen ≠ 0 := by
    intro empty
    rw [empty, UInt64.toNat_zero] at same
    exact nonempty same.symm
  have fit := fits positive
  have inFile := fit.inside
  have small := fit.noOverflow
  rw [same] at inFile small
  rw [DispatchCtx.itemWrites, WorkItem.range, if_neg positive] at isWrites
  dsimp only at isWrites
  rw [if_neg (by rw [WorkRange.contains, same]; simp; omega)] at isWrites
  cases isBytes : ctx.sectionBytes item with
  | error fault =>
      rw [isBytes] at isWrites
      cases isWrites
  | ok secBuf =>
      rw [isBytes] at isWrites
      cases isWrites
      have length := ctx.length_sectionBytes fit.footprints isBytes
      refine ⟨_, List.mem_singleton_self _, covers.1, ?_⟩
      dsimp only
      rw [length, ← same]
      exact covers.2

theorem covers_copied_iff {filter : SectionWriteFilter} {copied : List (Buffer.Patch UInt8)}
    (isCopied : copyInputSections arena objects symbols layout filter bufLen = .ok copied)
    (place : Nat) :
    (∃ patch ∈ copied, patch.Covers place) ↔
      ∃ item ∈ collectInputWorkItems layout objects filter, item.Covers place := by
  rw [copyInputSections] at isCopied
  rcases bind_ok isCopied with ⟨ranges, isRanges, isCopied⟩
  rcases bind_ok isCopied with ⟨writes, areWrites, isResult⟩
  rcases validateWorkItemRanges_ok_iff.mp (mapError_ok_iff.mp isRanges) with ⟨rfl, fit⟩
  have pairs := forall₂_of_mapM (mapError_ok_iff.mp areWrites)
  cases isResult
  constructor
  · rintro ⟨patch, isPatch, covers⟩
    rcases List.mem_flatten.mp isPatch with ⟨own, isOwn, inOwn⟩
    rcases Pairwise.exists_left pairs isOwn with ⟨item, isItem, isWrites⟩
    exact ⟨item.1, (DispatchCtx.mem_zip_workRanges isItem).1,
      (covers_itemWrites (DispatchCtx.fits_of_mem_zip fit isItem) isWrites inOwn covers).2⟩
  · rintro ⟨item, present, covers⟩
    rcases List.getElem?_of_mem present with ⟨index, isItem⟩
    have isPair : (item, item.range index) ∈ (collectInputWorkItems layout objects filter).zip
        (workRanges (collectInputWorkItems layout objects filter)) := by
      apply List.mem_of_getElem? (i := index)
      apply List.getElem?_zip_eq_some.mpr
      refine ⟨isItem, ?_⟩
      rw [workRanges, List.getElem?_map, List.getElem?_zipIdx, isItem]
      simp
    rcases Pairwise.exists_right pairs isPair with ⟨own, isOwn, isWrites⟩
    rcases exists_covers_of_item (fit.fits item present) (fileLen_of_collected present)
      isWrites covers with ⟨patch, isPatch, covered⟩
    exact ⟨patch, List.mem_flatten.mpr ⟨own, isOwn, isPatch⟩, covered⟩

/-! ### All writes before the image is read -/

theorem exists_write_of_hasPlace (isWritten : syntheticSectionIsWritten layout s = true)
    (fits : s.shOffset.toNat + s.shSize.toNat ≤ bufLen) (inside : s.HasPlace place) :
    ∃ patch ∈ sectionWrites symbols layout .all bufLen s, patch.Covers place := by
  rw [sectionWrites, if_neg (notInput_of_isWritten isWritten), if_pos isWritten]
  refine ⟨_, List.mem_append_left _ (mem_checkedWrite.mpr ⟨?_, rfl⟩), inside.1, ?_⟩
  · rw [List.length_replicate]
    exact fits
  · rw [List.length_replicate]
    exact inside.2

theorem covers_dataWrites_iff {data : List (Buffer.Patch UInt8)}
    (isData : dataWrites arena objects symbols layout .all bufLen = .ok data) (place : Nat) :
    (∃ patch ∈ data, patch.Covers place) ↔
      (∃ patch ∈ headerWrites layout, patch.Covers place) ∨
      (∃ s ∈ layout.outputSections, ∃ patch ∈ sectionWrites symbols layout .all bufLen s,
        patch.Covers place) ∨
      (∃ item ∈ collectInputWorkItems layout objects .all, item.Covers place) ∨
      ∃ patch ∈ writeTlsGot bufLen layout, patch.Covers place := by
  rcases dataWrites_ok isData with ⟨copied, isCopied, rfl⟩
  rw [← covers_copied_iff isCopied]
  have whole : SectionWriteFilter.all.isMinimal = false := rfl
  simp only [whole, Bool.false_eq_true, if_false, List.mem_append, List.mem_flatMap]
  constructor
  · rintro ⟨patch, (isHeader | ⟨s, present, isPatch⟩ | isCopy) | isSlot, covers⟩
    · exact .inl ⟨patch, isHeader, covers⟩
    · exact .inr (.inl ⟨s, present, patch, isPatch, covers⟩)
    · exact .inr (.inr (.inl ⟨patch, isCopy, covers⟩))
    · exact .inr (.inr (.inr ⟨patch, isSlot, covers⟩))
  · rintro (⟨patch, isHeader, covers⟩ | ⟨s, present, patch, isPatch, covers⟩ |
      ⟨patch, isCopy, covers⟩ | ⟨patch, isSlot, covers⟩)
    · exact ⟨patch, .inl (.inl isHeader), covers⟩
    · exact ⟨patch, .inl (.inr (.inl ⟨s, present, isPatch⟩)), covers⟩
    · exact ⟨patch, .inl (.inr (.inr isCopy)), covers⟩
    · exact ⟨patch, .inr isSlot, covers⟩

theorem written_iff {data : List (Buffer.Patch UInt8)}
    (isData : dataWrites arena objects symbols layout .all layout.fileSize = .ok data)
    (place : Nat) :
    Written objects symbols layout place ↔
      (∃ patch ∈ data, patch.Covers place) ∨
      (∃ patch ∈ sectionHeaderWrites layout.fileSize layout, patch.Covers place) ∨
      ∃ note, layout.firstOf .noteBuildId = some note ∧
        ∃ patch ∈ zeroWrites layout.fileSize (note.shOffset + 16) 16, patch.Covers place := by
  rw [covers_dataWrites_iff isData, covers_headerWrites_iff]
  constructor
  · intro written
    cases written with
    | ident below => exact .inl (.inl (.inl below))
    | fileHeader above below => exact .inl (.inl (.inr (.inl ⟨above, below⟩)))
    | segment above below => exact .inl (.inl (.inr (.inr ⟨above, below⟩)))
    | @cleared s _ present isWritten fits inside =>
        exact .inl (.inr (.inl ⟨s, present, exists_write_of_hasPlace isWritten fits inside⟩))
    | @content s patch _ present isWritten isContent covers =>
        refine .inl (.inr (.inl ⟨s, present, patch, ?_, covers⟩))
        rw [sectionWrites, if_neg (notInput_of_isWritten isWritten), if_pos isWritten]
        exact List.mem_append_right _ isContent
    | @gap s patch _ present isInput isGap covers =>
        refine .inl (.inr (.inl ⟨s, present, patch, ?_, covers⟩))
        rw [sectionWrites, if_pos isInput]
        exact isGap
    | item present covers => exact .inl (.inr (.inr (.inl ⟨_, present, covers⟩)))
    | tlsSlot isSlot covers => exact .inl (.inr (.inr (.inr ⟨_, isSlot, covers⟩)))
    | sectionHeader isHeader covers => exact .inr (.inl ⟨_, isHeader, covers⟩)
    | descriptor isNote isDescriptor covers =>
        exact .inr (.inr ⟨_, isNote, _, isDescriptor, covers⟩)
  · rintro (((below | ⟨above, below⟩ | ⟨above, below⟩) | ⟨s, present, patch, isPatch, covers⟩ |
      ⟨item, present, covers⟩ | ⟨patch, isSlot, covers⟩) | ⟨patch, isHeader, covers⟩ |
      ⟨note, isNote, patch, isDescriptor, covers⟩)
    · exact .ident below
    · exact .fileHeader above below
    · exact .segment above below
    · rw [sectionWrites] at isPatch
      split at isPatch
      · rename_i isInput
        exact .gap present isInput isPatch covers
      split at isPatch
      · rename_i isWritten
        rcases List.mem_append.mp isPatch with isZero | isContent
        · have fits := (mem_checkedWrite.mp isZero).1
          rw [List.length_replicate] at fits
          exact .cleared present isWritten fits (covers_zeroWrites isZero covers)
        · exact .content present isWritten isContent covers
      · exact absurd isPatch List.not_mem_nil
    · exact .item present covers
    · exact .tlsSlot isSlot covers
    · exact .sectionHeader isHeader covers
    · exact .descriptor isNote isDescriptor covers

/-! ## The image before it is hashed -/

variable {data : List (Buffer.Patch UInt8)}

theorem covered_of_frame (apart : layout.FramesApart)
    (isData : dataWrites arena objects symbols layout .all layout.fileSize = .ok data)
    {eh : OutputSection} (isEh : layout.ehFrame = some eh) (inFrames : eh.HasPlace place)
    (written : Written objects symbols layout place) :
    ∃ patch ∈ data, patch.Covers place := by
  rcases (written_iff isData place).mp written with
    covered | ⟨patch, isHeader, covers⟩ | ⟨note, isNote, patch, isDescriptor, covers⟩
  · exact covered
  · have behind := (covers_sectionHeaderWrites isHeader covers).1
    have before := inFrames.2
    have fits := apart.headers eh isEh
    omega
  · exact absurd (covers_zeroWrites isDescriptor covers)
      (apart.descriptor eh note isEh isNote place inFrames)

/-- The two buffers hold the same wherever nothing is written. -/
def AgreeUnwritten (objects : List InputObject) (symbols : SymbolTable) (layout : Layout)
    (first second : List UInt8) : Prop :=
  ∀ place, ¬ Written objects symbols layout place → first[place]? = second[place]?

variable {first second : List UInt8}

theorem framesIn_eq_of_agree (apart : layout.FramesApart)
    (isData : dataWrites arena objects symbols layout .all layout.fileSize = .ok data)
    (same : first.length = second.length)
    (agree : AgreeUnwritten objects symbols layout first second)
    {eh : OutputSection} (isEh : layout.ehFrame = some eh) :
    framesIn (Buffer.applyAll first data) eh = framesIn (Buffer.applyAll second data) eh := by
  apply congrArg iterFdes
  apply Buffer.window_congr
  intro index inside
  have inFrames : eh.HasPlace (eh.shOffset.toNat + index) :=
    ⟨Nat.le_add_right _ _, Nat.add_lt_add_left inside _⟩
  by_cases covered : ∃ patch ∈ data, patch.Covers (eh.shOffset.toNat + index)
  · exact Buffer.getElem?_applyAll_of_covers covered same
  · have kept : ∀ patch ∈ data, ¬ patch.Covers (eh.shOffset.toNat + index) :=
      fun patch present covers => covered ⟨patch, present, covers⟩
    rw [Buffer.getElem?_applyAll_of_not_covers kept,
      Buffer.getElem?_applyAll_of_not_covers kept]
    exact agree _ (mt (covered_of_frame apart isData isEh inFrames) covered)

theorem writeEhFrameHdr_eq_of_agree (apart : layout.FramesApart)
    (isData : dataWrites arena objects symbols layout .all layout.fileSize = .ok data)
    (same : first.length = second.length)
    (agree : AgreeUnwritten objects symbols layout first second) :
    writeEhFrameHdr (Buffer.applyAll first data) layout =
      writeEhFrameHdr (Buffer.applyAll second data) layout := by
  rw [writeEhFrameHdr, writeEhFrameHdr]
  cases isEh : layout.ehFrame with
  | none =>
      cases layout.firstOf .ehFrameHdr with
      | none => rfl
      | some hdr => rfl
  | some eh =>
      cases layout.firstOf .ehFrameHdr with
      | none => rfl
      | some hdr =>
          dsimp only
          rw [framesIn_eq_of_agree apart isData same agree isEh, Buffer.length_applyAll,
            Buffer.length_applyAll, same]

theorem applyAll_finalizeBuildId_eq (same : first.length = second.length)
    (agree : ∀ place, (∀ note, layout.firstOf .noteBuildId = some note →
      ∀ patch ∈ zeroWrites first.length (note.shOffset + 16) 16, ¬ patch.Covers place) →
        first[place]? = second[place]?) :
    Buffer.applyAll first (finalizeBuildId first layout) =
      Buffer.applyAll second (finalizeBuildId second layout) := by
  rw [finalizeBuildId, finalizeBuildId]
  cases isNote : layout.firstOf .noteBuildId with
  | none =>
      apply List.ext_getElem?
      intro place
      refine agree place fun note impossible => ?_
      rw [isNote] at impossible
      cases impossible
  | some note =>
      have cleared : Buffer.applyAll first (zeroWrites first.length (note.shOffset + 16) 16) =
          Buffer.applyAll second (zeroWrites second.length (note.shOffset + 16) 16) := by
        rw [← same]
        refine Buffer.applyAll_eq_of_agree same fun place kept => agree place ?_
        intro other isOther
        rw [isNote] at isOther
        cases isOther
        exact kept
      dsimp only
      rw [Buffer.applyAll_append, Buffer.applyAll_append, cleared, same]

theorem applyAll_emission_eq (apart : layout.FramesApart)
    (isData : dataWrites arena objects symbols layout .all layout.fileSize = .ok data)
    (isFirst : first.length = layout.fileSize) (isSecond : second.length = layout.fileSize)
    (agree : AgreeUnwritten objects symbols layout first second) :
    Buffer.applyAll first (data ++ imageWrites layout .all (Buffer.applyAll first data)) =
      Buffer.applyAll second
        (data ++ imageWrites layout .all (Buffer.applyAll second data)) := by
  have same : first.length = second.length := isFirst.trans isSecond.symm
  rw [imageWrites, imageWrites, writeEhFrameHdr_eq_of_agree apart isData same agree,
    Buffer.length_applyAll, Buffer.length_applyAll, ← same]
  have headers : ∀ patch ∈ sectionHeaderWrites first.length layout,
      patch ∈ writeEhFrameHdr (Buffer.applyAll second data) layout ++
        if SectionWriteFilter.all.isMinimal then []
        else sectionHeaderWrites first.length layout :=
    fun patch isHeader => List.mem_append_right _ isHeader
  generalize (writeEhFrameHdr (Buffer.applyAll second data) layout ++
    if SectionWriteFilter.all.isMinimal then []
    else sectionHeaderWrites first.length layout) = late at headers ⊢
  rw [Buffer.applyAll_append first, Buffer.applyAll_append second, Buffer.applyAll_append _ late,
    Buffer.applyAll_append _ late]
  apply applyAll_finalizeBuildId_eq
  · simp only [Buffer.length_applyAll, same]
  · intro place cleared
    rw [← Buffer.applyAll_append, ← Buffer.applyAll_append]
    simp only [Buffer.length_applyAll] at cleared
    by_cases covered : ∃ patch ∈ data ++ late, patch.Covers place
    · exact Buffer.getElem?_applyAll_of_covers covered same
    · have kept : ∀ patch ∈ data ++ late, ¬ patch.Covers place :=
        fun patch present covers => covered ⟨patch, present, covers⟩
      rw [Buffer.getElem?_applyAll_of_not_covers kept,
        Buffer.getElem?_applyAll_of_not_covers kept]
      refine agree place fun written => ?_
      rcases (written_iff isData place).mp written with
        ⟨patch, isPatch, covers⟩ | ⟨patch, isHeader, covers⟩ |
          ⟨note, isNote, patch, isDescriptor, covers⟩
      · exact kept patch (List.mem_append_left _ isPatch) covers
      · rw [← isFirst] at isHeader
        exact kept patch (List.mem_append_right _ (headers patch isHeader)) covers
      · rw [← isFirst] at isDescriptor
        exact cleared note isNote patch isDescriptor covers

theorem written_of_covers (apart : layout.FramesApart)
    (isData : dataWrites arena objects symbols layout .all layout.fileSize = .ok data)
    (isFirst : first.length = layout.fileSize)
    (isPatch : patch ∈ data ++ imageWrites layout .all (Buffer.applyAll first data))
    (covers : patch.Covers place) : Written objects symbols layout place := by
  rcases List.mem_append.mp isPatch with inData | inImage
  · exact (written_iff isData place).mpr (.inl ⟨patch, inData, covers⟩)
  rw [imageWrites, List.mem_append, List.mem_append] at inImage
  rcases inImage with (isTable | isHeader) | isDescriptor
  · rcases (covers_writeEhFrameHdr_iff _ layout place).mp ⟨patch, isTable, covers⟩ with
      ⟨hdr, eh, isHdr, _, _, _, above, below⟩
    rw [frameTableStop] at below
    rcases firstOf_spec isHdr with ⟨present, isSource⟩
    have isWritten : syntheticSectionIsWritten layout hdr = true := by
      rw [syntheticSectionIsWritten, isSource]
    exact .cleared present isWritten (apart.frameTable hdr isHdr) ⟨above, by omega⟩
  · rw [Buffer.length_applyAll, isFirst] at isHeader
    exact .sectionHeader isHeader covers
  · rcases (covers_finalizeBuildId_iff _ layout place).mp ⟨patch, isDescriptor, covers⟩ with
      ⟨note, isNote, cleared, isCleared, covered⟩
    rw [Buffer.length_applyAll, Buffer.length_applyAll, isFirst] at isCleared
    exact .descriptor isNote isCleared covered

/-! ## The emission -/

theorem emitFull_of_data
    (isData : dataWrites arena objects symbols layout .all layout.fileSize = .ok data)
    (existing : Option (List UInt8)) :
    emitFull arena objects symbols layout existing =
      .ok (Buffer.applyAll (openOutputMap existing layout.fileSize)
        (data ++ imageWrites layout .all
          (Buffer.applyAll (openOutputMap existing layout.fileSize) data))) := by
  have isSized : dataWrites arena objects symbols layout .all
      (openOutputMap existing layout.fileSize).length = .ok data := by
    rw [length_openOutputMap]
    exact isData
  rw [emitFull, emitWrites_of_data isSized]
  rfl

theorem data_of_emitFull {existing : Option (List UInt8)} {file : List UInt8}
    (isFile : emitFull arena objects symbols layout existing = .ok file) :
    ∃ data, dataWrites arena objects symbols layout .all layout.fileSize = .ok data := by
  rw [emitFull] at isFile
  cases isData : dataWrites arena objects symbols layout .all layout.fileSize with
  | ok data => exact ⟨data, rfl⟩
  | error fault =>
      rw [emitWrites, length_openOutputMap, isData] at isFile
      cases isFile

end

/-- What a full emission leaves in an existing file is what it leaves in a new one, if and only
if the file had another size, or every byte of it was 0 already that nothing is written
to. -/
theorem emitFull_existing_iff {arena : InputArena} {objects : List InputObject}
    {symbols : SymbolTable} {layout : Layout} {fresh : List UInt8} (apart : layout.FramesApart)
    (isFresh : emitFull arena objects symbols layout none = .ok fresh) (old : List UInt8) :
    emitFull arena objects symbols layout (some old) = .ok fresh ↔
      (old.length = layout.fileSize → ∀ place < layout.fileSize,
        ¬ Written objects symbols layout place → old[place]? = some 0) := by
  rcases data_of_emitFull isFresh with ⟨data, isData⟩
  rw [emitFull_of_data isData] at isFresh ⊢
  cases isFresh
  by_cases sized : old.length = layout.fileSize
  · have opened : openOutputMap (some old) layout.fileSize = old := by
      rw [openOutputMap, if_pos sized]
    have new : openOutputMap none layout.fileSize = List.replicate layout.fileSize 0 := rfl
    rw [opened, new]
    constructor
    · intro same _ place inside unwritten
      have kept {first : List UInt8} (isFirst : first.length = layout.fileSize) :
          (Buffer.applyAll first (data ++ imageWrites layout .all
            (Buffer.applyAll first data)))[place]? = first[place]? :=
        Buffer.getElem?_applyAll_of_not_covers (fun patch isPatch covers =>
          unwritten (written_of_covers apart isData isFirst isPatch covers)) first
      rw [← kept sized, Except.ok.inj same, kept List.length_replicate,
        List.getElem?_replicate, if_pos inside]
    · intro zero
      have agree : AgreeUnwritten objects symbols layout old
          (List.replicate layout.fileSize 0) := by
        intro place unwritten
        by_cases inside : place < layout.fileSize
        · rw [zero sized place inside unwritten, List.getElem?_replicate, if_pos inside]
        · rw [List.getElem?_eq_none (by omega), List.getElem?_replicate, if_neg inside]
      rw [applyAll_emission_eq apart isData sized List.length_replicate agree]
  · have opened : openOutputMap (some old) layout.fileSize =
        openOutputMap none layout.fileSize := if_neg sized
    rw [opened]
    exact ⟨fun _ isSized => absurd isSized sized, fun _ => rfl⟩

/-! ## An output with one section -/

def retObject : InputObject where
  path := "a.o"
  sections := [
    { index := 1
      name := nameOf ".text"
      kind := .text
      shType := shtProgbits
      data := ⟨.mmap 0, 0, 4⟩
      align := 4
      size := 4
      flags := 6
      relocs := [] }]
  symbols := []
  sectionMap := default
  symbolMap := default
  comdatGroups := []

/-- Four bytes are left free in front of the section headers. -/
def retLayout : Layout where
  outputSections := [
    { name := nameOf ".text"
      kind := .text
      shType := shtProgbits
      shFlags := 6
      shAddr := 0x400040
      shOffset := 64
      shSize := 4
      shLink := 0
      shInfo := 0
      shAddralign := 4
      shEntsize := 0
      shName := 0
      shndx := 1
      contributions := [⟨0, 1, 0, 0, 4⟩]
      source := .input }]
  phoff := 64
  shoff := 72
  shnum := 2
  fileSize := 200

private def emitRet (existing : Option (List UInt8)) : Except EmitFault (List UInt8) :=
  emitFull ⟨[[0xc3, 0x90, 0x90, 0x90]], []⟩ [retObject] SymbolTable.new retLayout existing

/-- A file of the same size that has nothing but ones in what is written. -/
private def headedFile : List UInt8 := List.replicate 8 1 ++ List.replicate 192 0

theorem emitRet_data :
    (dataWrites ⟨[[0xc3, 0x90, 0x90, 0x90]], []⟩ [retObject] SymbolTable.new retLayout .all
      retLayout.fileSize).toOption.isSome = true := by
  decide +kernel

private theorem exists_emitRet (existing : Option (List UInt8)) :
    ∃ file, emitRet existing = .ok file := by
  cases isData : dataWrites ⟨[[0xc3, 0x90, 0x90, 0x90]], []⟩ [retObject] SymbolTable.new
      retLayout .all retLayout.fileSize with
  | error fault =>
      have ends := emitRet_data
      rw [isData] at ends
      cases ends
  | ok data => exact ⟨_, emitFull_of_data isData existing⟩

private theorem retLayout_apart : retLayout.FramesApart where
  frameTable := fun hdr isHdr => by cases isHdr
  headers := fun eh isEh => by cases isEh
  descriptor := fun eh note isEh => by cases isEh

theorem emitFull_existing_iff_headed :
    ∃ fresh, emitRet none = .ok fresh ∧ headedFile.length = retLayout.fileSize ∧
      emitRet (some headedFile) = .ok fresh := by
  rcases exists_emitRet none with ⟨fresh, isFresh⟩
  refine ⟨fresh, isFresh, rfl, (emitFull_existing_iff retLayout_apart isFresh headedFile).mpr ?_⟩
  intro sized place inside unwritten
  have behind : 8 ≤ place := Nat.not_lt.mp (mt .ident unwritten)
  have whole : retLayout.fileSize = 200 := rfl
  rw [headedFile, List.getElem?_append_right behind, List.length_replicate,
    List.getElem?_replicate, if_pos (by omega)]

private theorem retLayout_unwritten :
    ¬ Written [retObject] SymbolTable.new retLayout 8 := by
  intro written
  cases written with
  | ident below => omega
  | fileHeader above _ => omega
  | segment above _ =>
      have start : retLayout.phoff.toNat = 64 := rfl
      omega
  | cleared present isWritten _ _ =>
      cases List.mem_singleton.mp present
      cases isWritten
  | content present isWritten _ _ =>
      cases List.mem_singleton.mp present
      cases isWritten
  | gap present _ isGap _ =>
      cases List.mem_singleton.mp present
      exact absurd isGap List.not_mem_nil
  | item present covers =>
      cases List.mem_singleton.mp present
      exact absurd covers.1 (by decide)
  | tlsSlot isSlot _ => exact absurd isSlot List.not_mem_nil
  | sectionHeader isHeader covers =>
      have behind := (covers_sectionHeaderWrites isHeader covers).1
      have start : retLayout.shoff.toNat = 72 := rfl
      omega
  | descriptor isNote _ _ => cases isNote

/-- The emission into a file of ones does not leave what it leaves in a new file: nothing is
written to the byte behind the identification. -/
theorem emitFull_keeps_ones :
    ∃ fresh stale, emitRet none = .ok fresh ∧
      (List.replicate 200 (1 : UInt8)).length = retLayout.fileSize ∧
      emitRet (some (List.replicate 200 1)) = .ok stale ∧ stale ≠ fresh := by
  rcases data_of_emitFull (exists_emitRet none).choose_spec with ⟨data, isData⟩
  have runs (existing : Option (List UInt8)) := emitFull_of_data isData existing
  refine ⟨_, _, runs none, rfl, runs (some (List.replicate 200 1)), fun same => ?_⟩
  have kept (existing : Option (List UInt8)) :
      (Buffer.applyAll (openOutputMap existing retLayout.fileSize)
        (data ++ imageWrites retLayout .all
          (Buffer.applyAll (openOutputMap existing retLayout.fileSize) data)))[8]? =
        (openOutputMap existing retLayout.fileSize)[8]? :=
    Buffer.getElem?_applyAll_of_not_covers (fun patch isPatch covers => retLayout_unwritten
      (written_of_covers retLayout_apart isData (length_openOutputMap _ _) isPatch covers)) _
  have bytes := kept (some (List.replicate 200 1))
  have isZero : (openOutputMap none retLayout.fileSize)[8]? = some 0 := by
    rw [openOutputMap, List.getElem?_replicate]
    rfl
  have isOne : (openOutputMap (some (List.replicate 200 1)) retLayout.fileSize)[8]? =
      some 1 := by
    have sized : (List.replicate 200 (1 : UInt8)).length = retLayout.fileSize := rfl
    rw [openOutputMap, if_pos sized, List.getElem?_replicate]
    rfl
  rw [same, kept none, isZero, isOne] at bytes
  cases bytes

end Peony
