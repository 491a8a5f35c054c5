import Peony.Emit.WriteReport
import Peony.Foundation.Pairwise

namespace Peony

/-! Which writes of an emission lie in the ranges of its report. -/

def Reports (report : EmitWriteReport) (place : Nat) : Prop :=
  ∃ range ∈ report, range.Covers place

def AllReported (writes : List (Buffer.Patch UInt8)) (report : EmitWriteReport) : Prop :=
  ∀ patch ∈ writes, ∀ place, patch.Covers place → Reports report place

def OutputSection.HasPlace (s : OutputSection) (place : Nat) : Prop :=
  s.shOffset.toNat ≤ place ∧ place < s.shOffset.toNat + s.shSize.toNat

/-- Where the table of the frame descriptions ends, which is cut off at the end of its
section. -/
def frameTableStop (image : List UInt8) (hdr eh : OutputSection) : Nat :=
  hdr.shOffset.toNat + min (12 + 8 * (framesIn image eh).length) hdr.shSize.toNat

/-- The places that are written although nothing is planned for them. The image has the
relocated sections. -/
inductive Spills (symbols : SymbolTable) (layout : Layout) (filter : SectionWriteFilter)
    (image : List UInt8) : Nat → Prop
  /-- The contents of a section go past it. -/
  | content {s : OutputSection} {patch : Buffer.Patch UInt8} {place : Nat}
      (whole : filter.isMinimal = false) (present : s ∈ layout.outputSections)
      (isWritten : syntheticSectionIsWritten layout s = true)
      (isContent : patch ∈ contentWrites symbols layout image.length s)
      (covers : patch.Covers place) (outside : ¬ s.HasPlace place) :
      Spills symbols layout filter image place
  /-- The end of a slot wraps. -/
  | tlsSlot {got : OutputSection} {patch : Buffer.Patch UInt8} {place : Nat}
      (whole : filter.isMinimal = false) (isGot : layout.firstOf .got = some got)
      (isSlot : patch ∈ writeTlsGot image.length layout)
      (covers : patch.Covers place) (outside : ¬ got.HasPlace place) :
      Spills symbols layout filter image place
  /-- The note has no room for its descriptor. -/
  | descriptor {note : OutputSection} {patch : Buffer.Patch UInt8} {place : Nat}
      (whole : filter.isMinimal = false) (isNote : layout.firstOf .noteBuildId = some note)
      (isDescriptor : patch ∈ zeroWrites image.length (note.shOffset + 16) 16)
      (covers : patch.Covers place) (outside : ¬ note.HasPlace place) :
      Spills symbols layout filter image place
  /-- The table is longer than the bytes that the layout has for it, which are all that is
  planned when synthetic sections are left as they are. -/
  | frameTable {hdr eh : OutputSection} {place : Nat}
      (minimal : filter.isMinimal = true) (isHdr : layout.firstOf .ehFrameHdr = some hdr)
      (isEh : layout.ehFrame = some eh)
      (framesFit : eh.shOffset.toNat + eh.shSize.toNat ≤ image.length)
      (tableFits : frameTableStop image hdr eh ≤ image.length)
      (behind : hdr.shOffset.toNat + layout.dynBlobs.ehFrameHdr.length ≤ place)
      (written : place < frameTableStop image hdr eh) :
      Spills symbols layout filter image place

section

variable {arena : InputArena} {objects : List InputObject} {symbols : SymbolTable}
variable {layout : Layout} {filter : SectionWriteFilter} {bufLen place : Nat}
variable {report : EmitWriteReport} {patch : Buffer.Patch UInt8} {s : OutputSection}

/-! ## Sections -/

theorem firstOf_spec {source : SecSource} (found : layout.firstOf source = some s) :
    s ∈ layout.outputSections ∧ s.source = source := by
  rw [Layout.firstOf] at found
  have isSource := List.find?_some found
  exact ⟨List.mem_of_find?_eq_some found, beq_iff_eq.mp isSource⟩

theorem mem_checkedWrite {off : UInt64} {data : List UInt8} :
    patch ∈ checkedWrite bufLen off data ↔
      off.toNat + data.length ≤ bufLen ∧ patch = ⟨off.toNat, data⟩ := by
  rw [checkedWrite]
  split
  · rename_i fits
    rw [List.mem_singleton]
    exact ⟨fun same => ⟨fits, same⟩, And.right⟩
  · rename_i large
    exact ⟨fun absent => absurd absent List.not_mem_nil, fun both => absurd both.1 large⟩

theorem covers_zeroWrites {off size : UInt64} (isPatch : patch ∈ zeroWrites bufLen off size)
    (covers : patch.Covers place) :
    off.toNat ≤ place ∧ place < off.toNat + size.toNat := by
  rcases mem_checkedWrite.mp isPatch with ⟨_, rfl⟩
  rw [Buffer.Patch.Covers, List.length_replicate] at covers
  exact covers

theorem notInput_of_isWritten (isWritten : syntheticSectionIsWritten layout s = true) :
    s.source ≠ .input := by
  intro isInput
  rw [syntheticSectionIsWritten, isInput] at isWritten
  cases isWritten

theorem planned_of_hasPlace (objects : List InputObject) (bufLen : Nat)
    (whole : filter.isMinimal = false) (present : s ∈ layout.outputSections)
    (isWritten : syntheticSectionIsWritten layout s = true) (inside : s.HasPlace place) :
    Reports (plannedRanges layout objects filter bufLen) place := by
  refine ⟨⟨nameOf "synthetic " ++ s.name, s.shOffset, s.shSize⟩, ?_, inside⟩
  simp only [plannedRanges, List.mem_append, List.mem_flatMap]
  refine .inl (.inl (.inl (.inl (.inl (.inr ⟨s, present, ?_⟩)))))
  rw [sectionRanges, if_neg (notInput_of_isWritten isWritten), whole, isWritten]
  exact List.mem_singleton_self _

theorem planned_of_firstOf (objects : List InputObject) (bufLen : Nat) {source : SecSource}
    (whole : filter.isMinimal = false) (found : layout.firstOf source = some s)
    (isWritten : syntheticSectionIsWritten layout { s with source := source } = true)
    (inside : s.HasPlace place) :
    Reports (plannedRanges layout objects filter bufLen) place := by
  rcases firstOf_spec found with ⟨present, rfl⟩
  exact planned_of_hasPlace objects bufLen whole present isWritten inside

theorem planned_of_gap (objects : List InputObject) (bufLen : Nat)
    (present : s ∈ layout.outputSections) (isInput : s.source = .input)
    (zeroes : filter.zeroesGaps s.name = true) (isGap : patch ∈ zeroInputGaps bufLen s)
    (covers : patch.Covers place) :
    Reports (plannedRanges layout objects filter bufLen) place := by
  rcases List.mem_flatMap.mp isGap with ⟨gap, inGaps, isPatch⟩
  refine ⟨⟨nameOf "gap " ++ s.name, gap.1, gap.2⟩, ?_, covers_zeroWrites isPatch covers⟩
  simp only [plannedRanges, List.mem_append, List.mem_flatMap]
  refine .inl (.inl (.inl (.inl (.inl (.inr ⟨s, present, ?_⟩)))))
  rw [sectionRanges, if_pos isInput, if_pos zeroes]
  exact List.mem_map.mpr ⟨gap, inGaps, rfl⟩

theorem reported_of_section {image : List UInt8} (objects : List InputObject)
    (whole : filter.isMinimal = false) (present : s ∈ layout.outputSections)
    (isPatch : patch ∈ sectionWrites symbols layout filter image.length s)
    (covers : patch.Covers place) :
    Reports (plannedRanges layout objects filter image.length) place ∨
      Spills symbols layout filter image place := by
  rw [sectionWrites] at isPatch
  split at isPatch
  · rename_i isInput
    split at isPatch
    · rename_i zeroes
      exact .inl (planned_of_gap objects image.length present isInput zeroes isPatch covers)
    · exact absurd isPatch List.not_mem_nil
  · split at isPatch
    · rename_i isWritten
      by_cases inside : s.HasPlace place
      · exact .inl (planned_of_hasPlace objects image.length whole present isWritten inside)
      · rcases List.mem_append.mp isPatch with isZero | isContent
        · exact absurd (covers_zeroWrites isZero covers) inside
        · exact .inr (.content whole present isWritten isContent covers inside)
    · exact absurd isPatch List.not_mem_nil

/-! ## Headers -/

theorem covers_segmentPatches (isPatch : patch ∈ segmentPatches layout)
    (covers : patch.Covers place) :
    layout.phoff.toNat ≤ place ∧
      place < layout.phoff.toNat + layout.segments.length * 56 := by
  rcases List.mem_map.mp isPatch with ⟨⟨header, number⟩, present, rfl⟩
  have inside : number < layout.segments.length :=
    (List.mem_zipIdx_iff_getElem?.mp present |> List.getElem?_eq_some_iff.mp).1
  have wide : header.bytes.length = 56 := by
    simp only [ProgramHeader.bytes, List.length_append, length_le32, length_toLeBytes]
  have size : phdrSize.toNat = 56 := rfl
  rw [Buffer.Patch.Covers] at covers
  dsimp only at covers
  rw [wide, size] at covers
  omega

theorem planned_of_header (objects : List InputObject) (bufLen : Nat)
    (whole : filter.isMinimal = false)
    (headersFit : layout.segments.length * 56 < 2 ^ 64)
    (isPatch : patch ∈ headerWrites layout) (covers : patch.Covers place) :
    Reports (plannedRanges layout objects filter bufLen) place := by
  have planned {range : EmitWriteRange} (present : range ∈ headerRanges layout filter)
      (inside : range.Covers place) :
      Reports (plannedRanges layout objects filter bufLen) place := by
    refine ⟨range, ?_, inside⟩
    simp only [plannedRanges, List.mem_append]
    exact .inl (.inl (.inl (.inl (.inl (.inl present)))))
  have ranges : headerRanges layout filter = [⟨nameOf "elf header", 0, ehdrSize⟩,
      ⟨nameOf "program headers", layout.phoff,
        UInt64.ofNat (layout.segments.length * phdrSize.toNat)⟩] := by
    rw [headerRanges, whole]
    rfl
  rw [ranges] at planned
  have front : place < 64 → Reports (plannedRanges layout objects filter bufLen) place :=
    fun low => planned List.mem_cons_self ⟨Nat.zero_le _, by
      rw [show ehdrSize.toNat = 64 from rfl, UInt64.toNat_zero]
      omega⟩
  rcases List.mem_cons.mp isPatch with rfl | later
  · apply front
    have below := covers.2
    rw [List.length_cons] at below
    simp only [List.length_cons, List.length_nil] at below
    omega
  rcases List.mem_cons.mp later with rfl | isSegment
  · apply front
    have below := covers.2
    rw [length_fileHeader] at below
    omega
  · apply planned (List.mem_cons_of_mem _ List.mem_cons_self)
    have inside := covers_segmentPatches isSegment covers
    rw [EmitWriteRange.Covers, show phdrSize.toNat = 56 from rfl,
      UInt64.toNat_ofNat_of_lt' headersFit]
    exact inside

/-! ## Section headers -/

theorem shndx_lt_count (present : s ∈ layout.outputSections) :
    s.shndx.toNat < sectionHeaderCount layout := by
  have listed : s.shndx.toNat ∈ layout.outputSections.map fun s => s.shndx.toNat :=
    List.mem_map.mpr ⟨s, present, rfl⟩
  rw [sectionHeaderCount]
  cases isMax : (layout.outputSections.map fun s => s.shndx.toNat).max? with
  | none =>
      rw [List.max?_eq_none_iff.mp isMax] at listed
      exact absurd listed List.not_mem_nil
  | some greatest =>
      have most := (List.max?_eq_some_iff.mp isMax).2 _ listed
      exact Nat.lt_succ_of_le most

theorem sectionHeaderCount_pos : 0 < sectionHeaderCount layout := by
  rw [sectionHeaderCount]
  cases (layout.outputSections.map fun s => s.shndx.toNat).max? with
  | none => exact Nat.zero_lt_one
  | some greatest => exact Nat.succ_pos greatest

theorem covers_numberedWrites {shoff : UInt64} {sections : List OutputSection}
    (isPatch : patch ∈ numberedWrites bufLen shoff sections) (covers : patch.Covers place) :
    ∃ s ∈ sections, shoff.toNat + s.shndx.toNat * 64 ≤ place ∧
      place < shoff.toNat + s.shndx.toNat * 64 + 64 := by
  induction sections with
  | nil => exact absurd isPatch List.not_mem_nil
  | cons s rest induction =>
      rw [numberedWrites] at isPatch
      split at isPatch
      · exact absurd isPatch List.not_mem_nil
      rcases List.mem_cons.mp isPatch with rfl | later
      · refine ⟨s, List.mem_cons_self, ?_⟩
        have size : shdrSize.toNat = 64 := rfl
        rw [Buffer.Patch.Covers] at covers
        dsimp only at covers
        rw [length_headerBytes, size] at covers
        exact covers
      · rcases induction later with ⟨other, present, inside⟩
        exact ⟨other, List.mem_cons_of_mem _ present, inside⟩

theorem covers_nullPatches (isPatch : patch ∈ nullPatches layout)
    (covers : patch.Covers place) :
    layout.shoff.toNat ≤ place ∧ place < layout.shoff.toNat + 64 := by
  rw [nullPatches, List.mem_append] at isPatch
  rcases isPatch with isPatch | isPatch
  · split at isPatch
    · cases List.mem_singleton.mp isPatch
      rw [Buffer.Patch.Covers, length_toLeBytes] at covers
      dsimp only at covers
      omega
    · exact absurd isPatch List.not_mem_nil
  · split at isPatch
    · cases List.mem_singleton.mp isPatch
      rw [Buffer.Patch.Covers, length_le32] at covers
      dsimp only at covers
      omega
    · exact absurd isPatch List.not_mem_nil

theorem covers_sectionHeaderWrites (isPatch : patch ∈ sectionHeaderWrites bufLen layout)
    (covers : patch.Covers place) :
    layout.shoff.toNat ≤ place ∧
      place < layout.shoff.toNat + sectionHeaderCount layout * 64 := by
  rcases List.mem_append.mp isPatch with isNull | isNumbered
  · split at isNull
    · have inside := covers_nullPatches isNull covers
      have positive := @sectionHeaderCount_pos layout
      omega
    · exact absurd isNull List.not_mem_nil
  · rcases covers_numberedWrites isNumbered covers with ⟨s, present, inside⟩
    have small := shndx_lt_count present
    omega

theorem planned_of_sectionHeader (objects : List InputObject) (bufLen : Nat)
    (whole : filter.isMinimal = false) (tableFits : sectionHeaderCount layout * 64 < 2 ^ 64)
    (isPatch : patch ∈ sectionHeaderWrites bufLen layout) (covers : patch.Covers place) :
    Reports (plannedRanges layout objects filter bufLen) place := by
  refine ⟨⟨nameOf "section headers", layout.shoff,
    UInt64.ofNat (sectionHeaderCount layout * shdrSize.toNat)⟩, ?_, ?_⟩
  · simp only [plannedRanges, List.mem_append]
    refine .inl (.inr ?_)
    rw [tableRanges, whole]
    exact List.mem_singleton_self _
  · rw [EmitWriteRange.Covers, show shdrSize.toNat = 64 from rfl,
      UInt64.toNat_ofNat_of_lt' tableFits]
    exact covers_sectionHeaderWrites isPatch covers

/-! ## Input sections -/

theorem covers_itemWrites {ctx : DispatchCtx} {item : WorkItem × Option WorkRange}
    (fits : ∀ accepted ∈ item.2, item.1.Fits bufLen) {writes : List (Buffer.Patch UInt8)}
    (isWrites : ctx.itemWrites bufLen item = .ok writes) (isPatch : patch ∈ writes)
    (covers : patch.Covers place) : item.2.isSome ∧ item.1.Covers place := by
  rw [DispatchCtx.itemWrites] at isWrites
  cases isAccepted : item.2 with
  | none =>
      rw [isAccepted] at isWrites
      cases isWrites
      exact absurd isPatch List.not_mem_nil
  | some accepted =>
      have fit := fits accepted isAccepted
      rw [isAccepted] at isWrites
      dsimp only at isWrites
      split at isWrites
      · cases isWrites
        exact absurd isPatch List.not_mem_nil
      · cases isBytes : ctx.sectionBytes item.1 with
        | error fault =>
            rw [isBytes] at isWrites
            cases isWrites
        | ok secBuf =>
            rw [isBytes] at isWrites
            cases isWrites
            cases List.mem_singleton.mp isPatch
            have length := ctx.length_sectionBytes fit.footprints isBytes
            have data := fit.data
            rw [Buffer.Patch.Covers] at covers
            dsimp only at covers
            rw [length] at covers
            exact ⟨rfl, covers.1, Nat.lt_of_lt_of_le covers.2 (Nat.add_le_add_left data _)⟩

theorem planned_of_item (objects : List InputObject) (bufLen : Nat)
    {item : WorkItem × Option WorkRange}
    (present : item ∈ (collectInputWorkItems layout objects filter).zip
      (workRanges (collectInputWorkItems layout objects filter)))
    (isAccepted : item.2.isSome) (covers : item.1.Covers place) :
    Reports (plannedRanges layout objects filter bufLen) place := by
  rcases Option.isSome_iff_exists.mp isAccepted with ⟨accepted, isRange⟩
  rcases DispatchCtx.mem_zip_workRanges present with ⟨_, index, sameRange⟩
  rw [isRange, WorkItem.range] at sameRange
  split at sameRange
  · cases sameRange
  cases sameRange
  have ranged : ∃ range, itemRange item = some range ∧ range.fileOffset = item.1.fileOff ∧
      range.len = item.1.fileLen := by
    rw [itemRange, isRange]
    refine ⟨_, rfl, UInt64.ofNat_toNat, ?_⟩
    dsimp only
    rw [Nat.add_sub_cancel_left]
    exact UInt64.ofNat_toNat
  rcases ranged with ⟨range, isItemRange, sameOffset, sameLen⟩
  refine ⟨range, ?_, ?_⟩
  · simp only [plannedRanges, List.mem_append]
    exact .inl (.inl (.inl (.inl (.inr (List.mem_filterMap.mpr ⟨item, present, isItemRange⟩)))))
  · rw [EmitWriteRange.Covers, sameOffset, sameLen]
    exact covers

theorem planned_of_copied (fit : ItemsFit (collectInputWorkItems layout objects filter) bufLen)
    {copied : List (Buffer.Patch UInt8)}
    (isCopied : copyInputSections arena objects symbols layout filter bufLen = .ok copied)
    (isPatch : patch ∈ copied) (covers : patch.Covers place) :
    Reports (plannedRanges layout objects filter bufLen) place := by
  rw [copyInputSections] at isCopied
  rcases bind_ok isCopied with ⟨ranges, isRanges, isCopied⟩
  rcases bind_ok isCopied with ⟨writes, areWrites, isResult⟩
  rcases validateWorkItemRanges_ok_iff.mp (mapError_ok_iff.mp isRanges) with ⟨rfl, _⟩
  cases isResult
  rcases List.mem_flatten.mp isPatch with ⟨own, isOwn, inOwn⟩
  rcases Pairwise.exists_left (forall₂_of_mapM (mapError_ok_iff.mp areWrites)) isOwn with
    ⟨item, isItem, isWrites⟩
  rcases covers_itemWrites (DispatchCtx.fits_of_mem_zip fit isItem) isWrites inOwn covers with
    ⟨isAccepted, inside⟩
  exact planned_of_item objects bufLen isItem isAccepted inside

/-! ## Slots of thread-local storage -/

theorem reported_of_tlsSlot {image : List UInt8} (objects : List InputObject)
    (whole : filter.isMinimal = false) (isPatch : patch ∈ writeTlsGot image.length layout)
    (covers : patch.Covers place) :
    Reports (plannedRanges layout objects filter image.length) place ∨
      Spills symbols layout filter image place := by
  cases isGot : layout.firstOf .got with
  | none =>
      rw [writeTlsGot, isGot] at isPatch
      exact absurd isPatch List.not_mem_nil
  | some got =>
      by_cases inside : got.HasPlace place
      · exact .inl (planned_of_firstOf objects image.length whole isGot rfl inside)
      · exact .inr (.tlsSlot whole isGot isPatch covers inside)

/-! ## `.eh_frame_hdr` -/

theorem length_frameTable (ehVa hdrVa : UInt64) (entries : List (Int64 × Int64)) :
    (frameTable ehVa hdrVa entries).length = 12 + 8 * entries.length := by
  have each : (entries.flatMap fun entry => relativeWord entry.1 hdrVa.toInt64 ++
      relativeWord entry.2 hdrVa.toInt64).length = 8 * entries.length := by
    induction entries with
    | nil => rfl
    | cons entry rest induction =>
        rw [List.flatMap_cons, List.length_append, induction, List.length_append,
          relativeWord, relativeWord, length_le32, length_le32, List.length_cons]
        omega
  rw [frameTable, List.length_append, List.length_append, List.length_append, each,
    relativeWord, length_le32, length_le32]
  rfl

theorem length_frameEntries (ehVa : UInt64) (fdes : List Fde) :
    (frameEntries ehVa fdes).length = fdes.length := by
  rw [frameEntries, List.length_insertionSort, List.length_map]

theorem covers_writeEhFrameHdr_iff (image : List UInt8) (layout : Layout) (place : Nat) :
    (∃ patch ∈ writeEhFrameHdr image layout, patch.Covers place) ↔
      ∃ hdr eh, layout.firstOf .ehFrameHdr = some hdr ∧ layout.ehFrame = some eh ∧
        eh.shOffset.toNat + eh.shSize.toNat ≤ image.length ∧
        frameTableStop image hdr eh ≤ image.length ∧
        hdr.shOffset.toNat ≤ place ∧ place < frameTableStop image hdr eh := by
  rw [writeEhFrameHdr]
  cases isHdr : layout.firstOf .ehFrameHdr with
  | none =>
      exact ⟨fun ⟨_, absent, _⟩ => absurd absent List.not_mem_nil,
        fun ⟨_, _, impossible, _⟩ => absurd impossible.symm (Option.some_ne_none _)⟩
  | some hdr =>
      cases isEh : layout.ehFrame with
      | none =>
          exact ⟨fun ⟨_, absent, _⟩ => absurd absent List.not_mem_nil,
            fun ⟨_, _, _, impossible, _⟩ => absurd impossible.symm (Option.some_ne_none _)⟩
      | some eh =>
          dsimp only
          have length : ((frameTable eh.shAddr hdr.shAddr
              (frameEntries eh.shAddr (framesIn image eh))).take hdr.shSize.toNat).length =
              min hdr.shSize.toNat (12 + 8 * (framesIn image eh).length) := by
            rw [List.length_take, length_frameTable, length_frameEntries]
          constructor
          · rintro ⟨patch, isPatch, covers⟩
            split at isPatch
            · exact absurd isPatch List.not_mem_nil
            rename_i framesFit
            rcases mem_checkedWrite.mp isPatch with ⟨tableFits, rfl⟩
            rw [Buffer.Patch.Covers] at covers
            dsimp only at covers
            rw [length] at tableFits covers
            rw [Nat.min_comm] at tableFits covers
            exact ⟨hdr, eh, rfl, rfl, Nat.not_lt.mp framesFit, tableFits, covers⟩
          · rintro ⟨other, others, isOther, areOthers, framesFit, tableFits, covers⟩
            cases isOther
            cases areOthers
            rw [frameTableStop, Nat.min_comm, ← length] at tableFits covers
            rw [if_neg (Nat.not_lt.mpr framesFit)]
            exact ⟨_, mem_checkedWrite.mpr ⟨tableFits, rfl⟩, covers⟩

theorem toNat_lengthWord (length : Nat) : (lengthWord length).toNat = min length (2 ^ 64 - 1) := by
  rw [lengthWord]
  split
  · rename_i small
    rw [UInt64.toNat_ofNat_of_lt' small]
    omega
  · rename_i large
    rw [Nat.min_eq_right (by omega)]
    rfl

theorem reported_of_frameTable {image : List UInt8} (objects : List InputObject)
    (small : image.length < 2 ^ 64) (isPatch : patch ∈ writeEhFrameHdr image layout)
    (covers : patch.Covers place) :
    Reports (plannedRanges layout objects filter image.length) place ∨
      Spills symbols layout filter image place := by
  rcases (covers_writeEhFrameHdr_iff image layout place).mp ⟨patch, isPatch, covers⟩ with
    ⟨hdr, eh, isHdr, isEh, framesFit, tableFits, after, before⟩
  have inHdr : hdr.HasPlace place := by
    rw [frameTableStop] at before
    refine ⟨after, ?_⟩
    omega
  cases minimal : filter.isMinimal with
  | false => exact .inl (planned_of_firstOf objects image.length minimal isHdr rfl inHdr)
  | true =>
      by_cases behind : hdr.shOffset.toNat + layout.dynBlobs.ehFrameHdr.length ≤ place
      · exact .inr (.frameTable minimal isHdr isEh framesFit tableFits behind before)
      · left
        refine ⟨⟨nameOf ".eh_frame_hdr rewrite", hdr.shOffset,
          if lengthWord layout.dynBlobs.ehFrameHdr.length ≤ hdr.shSize then
            lengthWord layout.dynBlobs.ehFrameHdr.length else hdr.shSize⟩, ?_, after, ?_⟩
        · simp only [plannedRanges, List.mem_append]
          refine .inl (.inl (.inr ?_))
          rw [ehFrameHdrRanges, if_pos minimal, isHdr, isEh]
          dsimp only
          rw [if_pos ⟨by omega, framesFit⟩]
          exact List.mem_singleton_self _
        · have word := toNat_lengthWord layout.dynBlobs.ehFrameHdr.length
          have size := hdr.shSize.toNat_lt
          have inside := inHdr.2
          dsimp only
          split
          · rename_i shorter
            rw [UInt64.le_iff_toNat_le, word] at shorter
            rw [word]
            omega
          · exact inside

/-! ## Build id -/

theorem length_buildIdHash (image : List UInt8) : (buildIdHash image).length = 16 := by
  rw [buildIdHash]
  rw [List.length_append, length_toLeBytes, length_toLeBytes]

/-- The descriptor is written twice. -/
theorem covers_finalizeBuildId_iff (image : List UInt8) (layout : Layout) (place : Nat) :
    (∃ patch ∈ finalizeBuildId image layout, patch.Covers place) ↔
      ∃ note, layout.firstOf .noteBuildId = some note ∧
        ∃ patch ∈ zeroWrites image.length (note.shOffset + 16) 16, patch.Covers place := by
  rw [finalizeBuildId]
  cases isNote : layout.firstOf .noteBuildId with
  | none =>
      exact ⟨fun ⟨_, absent, _⟩ => absurd absent List.not_mem_nil,
        fun ⟨_, impossible, _⟩ => absurd impossible.symm (Option.some_ne_none _)⟩
  | some note =>
      dsimp only
      constructor
      · rintro ⟨patch, isPatch, covers⟩
        refine ⟨note, rfl, ?_⟩
        rcases List.mem_append.mp isPatch with isZero | isHash
        · exact ⟨patch, isZero, covers⟩
        · rcases mem_checkedWrite.mp isHash with ⟨fits, rfl⟩
          rw [length_buildIdHash] at fits
          rw [Buffer.Patch.Covers] at covers
          dsimp only at covers
          rw [length_buildIdHash] at covers
          exact ⟨_, mem_checkedWrite.mpr ⟨by rwa [List.length_replicate], rfl⟩,
            covers.1, by rw [List.length_replicate]; exact covers.2⟩
      · rintro ⟨other, isOther, patch, isPatch, covers⟩
        cases isOther
        exact ⟨patch, List.mem_append_left _ isPatch, covers⟩

theorem reported_of_descriptor {image : List UInt8}
    (reported : Reported layout objects filter image.length report)
    {last : List UInt8} (same : last.length = image.length)
    (isPatch : patch ∈ finalizeBuildId last layout) (covers : patch.Covers place) :
    Reports (plannedRanges layout objects filter image.length) place ∨
      Spills symbols layout filter image place := by
  rcases (covers_finalizeBuildId_iff last layout place).mp ⟨patch, isPatch, covers⟩ with
    ⟨note, isNote, cleared, isCleared, covered⟩
  rw [same] at isCleared
  cases minimal : filter.isMinimal with
  | false =>
      by_cases inside : note.HasPlace place
      · exact .inl (planned_of_firstOf objects image.length minimal isNote rfl inside)
      · exact .inr (.descriptor minimal isNote isCleared covered inside)
  | true =>
      left
      have noWrap := reported.noteFits minimal note isNote
      have small := reported.small
      have offset : (note.shOffset + 16).toNat = note.shOffset.toNat + 16 := by
        rw [UInt64.toNat_add]
        exact Nat.mod_eq_of_lt noWrap
      have fits := (mem_checkedWrite.mp isCleared).1
      rw [offset, List.length_replicate] at fits
      have inside := covers_zeroWrites isCleared covered
      refine ⟨⟨nameOf "build-id descriptor", note.shOffset + 16, 16⟩, ?_, inside⟩
      simp only [plannedRanges, List.mem_append]
      refine .inr ?_
      rw [descriptorRanges, if_pos minimal, isNote, Option.toList_some]
      have sixteen : (16 : UInt64).toNat = 16 := rfl
      rw [List.filter_cons_of_pos (by simp; omega)]
      exact List.mem_singleton_self _

/-! ## The emission -/

theorem dataWrites_ok {data : List (Buffer.Patch UInt8)}
    (isData : dataWrites arena objects symbols layout filter bufLen = .ok data) :
    ∃ copied, copyInputSections arena objects symbols layout filter bufLen = .ok copied ∧
      data = (if filter.isMinimal then [] else headerWrites layout) ++
        ((if filter.isMinimal then []
          else layout.outputSections.flatMap (sectionWrites symbols layout filter bufLen)) ++
            copied) ++
        if filter.isMinimal then [] else writeTlsGot bufLen layout := by
  rw [dataWrites] at isData
  rcases bind_ok isData with ⟨sections, areSections, isResult⟩
  rw [writeSectionData] at areSections
  rcases bind_ok areSections with ⟨copied, isCopied, areAll⟩
  cases areAll
  cases isResult
  exact ⟨copied, isCopied, rfl⟩

variable {opened : List UInt8} {data writes : List (Buffer.Patch UInt8)}

theorem reported_of_data
    (reported : Reported layout objects filter opened.length report)
    (isData : dataWrites arena objects symbols layout filter opened.length = .ok data)
    (isPatch : patch ∈ data) (covers : patch.Covers place) {image : List UInt8}
    (same : image.length = opened.length) :
    Reports (plannedRanges layout objects filter opened.length) place ∨
      Spills symbols layout filter image place := by
  rcases dataWrites_ok isData with ⟨copied, isCopied, rfl⟩
  rw [← same] at isPatch isCopied reported ⊢
  cases minimal : filter.isMinimal with
  | true =>
      rw [minimal] at isPatch
      have present : patch ∈ copied := by simpa using isPatch
      exact .inl (planned_of_copied reported.itemsFit isCopied present covers)
  | false =>
      rw [minimal] at isPatch
      simp only [Bool.false_eq_true, if_false, List.mem_append, List.mem_flatMap] at isPatch
      rcases isPatch with (isHeader | ⟨s, present, isSection⟩ | present) | isSlot
      · exact .inl (planned_of_header objects _ minimal (reported.headersFit minimal) isHeader
          covers)
      · exact reported_of_section objects minimal present isSection covers
      · exact .inl (planned_of_copied reported.itemsFit isCopied present covers)
      · exact reported_of_tlsSlot objects minimal isSlot covers

theorem reported_of_image {image : List UInt8}
    (reported : Reported layout objects filter image.length report)
    (isPatch : patch ∈ imageWrites layout filter image) (covers : patch.Covers place) :
    Reports (plannedRanges layout objects filter image.length) place ∨
      Spills symbols layout filter image place := by
  rw [imageWrites] at isPatch
  rw [List.mem_append, List.mem_append] at isPatch
  rcases isPatch with (isTable | isNumbered) | isDescriptor
  · exact reported_of_frameTable objects reported.small isTable covers
  · cases minimal : filter.isMinimal with
    | true =>
        rw [minimal] at isNumbered
        exact absurd isNumbered List.not_mem_nil
    | false =>
        rw [minimal] at isNumbered
        exact .inl (planned_of_sectionHeader objects _ minimal (reported.tableFits minimal)
          isNumbered covers)
  · exact reported_of_descriptor reported (Buffer.length_applyAll _ _) isDescriptor covers

theorem emitWrites_of_data
    (isData : dataWrites arena objects symbols layout filter opened.length = .ok data) :
    emitWrites arena objects symbols layout filter opened =
      .ok (data ++ imageWrites layout filter (Buffer.applyAll opened data)) := by
  rw [emitWrites, isData, ok_bind]
  rfl

theorem exists_dataWrites
    (areWrites : emitWrites arena objects symbols layout filter opened = .ok writes) :
    ∃ data, dataWrites arena objects symbols layout filter opened.length = .ok data := by
  rw [emitWrites] at areWrites
  rcases bind_ok areWrites with ⟨data, isData, _⟩
  exact ⟨data, isData⟩

theorem exists_write_of_spills {image : List UInt8}
    (isData : dataWrites arena objects symbols layout filter opened.length = .ok data)
    (same : image.length = opened.length) (spills : Spills symbols layout filter image place) :
    ∃ patch ∈ data ++ imageWrites layout filter image, patch.Covers place := by
  rcases dataWrites_ok isData with ⟨copied, isCopied, rfl⟩
  cases spills with
  | @content s patch _ whole present isWritten isContent covers outside =>
      refine ⟨patch, ?_, covers⟩
      have inSection : patch ∈ sectionWrites symbols layout filter opened.length s := by
        rw [sectionWrites, if_neg (notInput_of_isWritten isWritten), if_pos isWritten, ← same]
        exact List.mem_append_right _ isContent
      rw [whole]
      simp only [Bool.false_eq_true, if_false, List.mem_append, List.mem_flatMap]
      exact .inl (.inl (.inr (.inl ⟨s, present, inSection⟩)))
  | tlsSlot whole isGot isSlot covers outside =>
      rw [same] at isSlot
      refine ⟨_, ?_, covers⟩
      rw [whole]
      simp only [Bool.false_eq_true, if_false, List.mem_append]
      exact .inl (.inr isSlot)
  | descriptor whole isNote isDescriptor covers outside =>
      rename_i note patch
      have length := Buffer.length_applyAll image (writeEhFrameHdr image layout ++
        if filter.isMinimal then [] else sectionHeaderWrites image.length layout)
      rcases (covers_finalizeBuildId_iff (Buffer.applyAll image (writeEhFrameHdr image layout ++
        if filter.isMinimal then [] else sectionHeaderWrites image.length layout)) layout
          place).mpr ⟨note, isNote, patch, by rwa [length], covers⟩ with
        ⟨last, isLast, covered⟩
      exact ⟨last, List.mem_append_right _ (List.mem_append_right _ isLast), covered⟩
  | frameTable minimal isHdr isEh framesFit tableFits behind written =>
      rename_i hdr eh
      rcases (covers_writeEhFrameHdr_iff image layout place).mpr ⟨hdr, eh, isHdr, isEh, framesFit,
        tableFits, by omega, written⟩ with ⟨patch, isPatch, covers⟩
      exact ⟨patch, List.mem_append_right _ (List.mem_append_left _
        (List.mem_append_left _ isPatch)), covers⟩

/-- If what is written behind the planned bytes falls on other planned bytes, all writes are
reported. -/
theorem allReported_of_planned
    (isReport : reportForFilter layout objects filter opened.length = .ok report)
    (isData : dataWrites arena objects symbols layout filter opened.length = .ok data)
    (areWrites : emitWrites arena objects symbols layout filter opened = .ok writes)
    (planned : ∀ place, Spills symbols layout filter (Buffer.applyAll opened data) place →
      Reports (plannedRanges layout objects filter opened.length) place) :
    AllReported writes report := by
  have reported := reported_of_ok isReport
  have same := Buffer.length_applyAll opened data
  rw [emitWrites_of_data isData] at areWrites
  cases areWrites
  intro patch isPatch place covers
  apply (reported.records.covers_iff place).mpr
  have either : Reports (plannedRanges layout objects filter opened.length) place ∨
      Spills symbols layout filter (Buffer.applyAll opened data) place := by
    rcases List.mem_append.mp isPatch with inData | inImage
    · exact reported_of_data reported isData inData covers same
    · rw [← same] at reported ⊢
      exact reported_of_image reported inImage covers
  exact either.elim id (planned place)

end

/-- An emission whose report succeeds writes only what is reported, if and only if all that
it writes behind the planned bytes falls on other planned bytes: contents of synthetic
sections and slots that go past their section, and, when synthetic sections are left as they
are, the part of the rewritten `.eh_frame_hdr` that the layout has no bytes for. -/
theorem allReported_iff {arena : InputArena} {objects : List InputObject}
    {symbols : SymbolTable} {layout : Layout} {filter : SectionWriteFilter}
    {opened : List UInt8} {report : EmitWriteReport} {data writes : List (Buffer.Patch UInt8)}
    (isReport : reportForFilter layout objects filter opened.length = .ok report)
    (isData : dataWrites arena objects symbols layout filter opened.length = .ok data)
    (areWrites : emitWrites arena objects symbols layout filter opened = .ok writes) :
    AllReported writes report ↔
      ∀ place, Spills symbols layout filter (Buffer.applyAll opened data) place →
        Reports (plannedRanges layout objects filter opened.length) place := by
  have reported := reported_of_ok isReport
  have same := Buffer.length_applyAll opened data
  rw [emitWrites_of_data isData] at areWrites
  cases areWrites
  constructor
  · intro all place spills
    rcases exists_write_of_spills isData same spills with ⟨patch, isPatch, covers⟩
    exact (reported.records.covers_iff place).mp (all patch isPatch place covers)
  · exact allReported_of_planned isReport isData (emitWrites_of_data isData)

/-! ## An output with one frame description -/

private def frameObject : InputObject where
  path := "a.o"
  sections := [
    { index := 1
      name := nameOf ".text"
      kind := .text
      shType := shtProgbits
      data := ⟨.mmap 0, 0, 4⟩
      align := 4
      size := 4
      flags := 6
      relocs := [] },
    { index := 2
      name := nameOf ".eh_frame"
      kind := .ehFrame
      shType := shtProgbits
      data := ⟨.mmap 0, 4, 48⟩
      align := 8
      size := 48
      flags := shfAlloc
      relocs := [] }]
  symbols := []
  sectionMap := default
  symbolMap := default
  comdatGroups := []

private def frameArena : InputArena where
  mmaps := [[0xc3, 0x90, 0x90, 0x90,
    20, 0, 0, 0, 0, 0, 0, 0, 1, 0x7a, 0x52, 0, 1, 0x78, 0x10, 1, 0x1b, 12, 7, 8, 0x90, 1, 0, 0,
    20, 0, 0, 0, 28, 0, 0, 0, 0x10, 0, 0, 0, 4, 0, 0, 0, 0, 0, 0, 0, 0, 0, 0, 0]]
  owned := []

private def frameSection (name : String) (kind : SectionKind) (shFlags shOffset shSize : UInt64)
    (shndx : UInt32) (contributions : List SectionContribution) (source : SecSource) :
    OutputSection where
  name := nameOf name
  kind := kind
  shType := shtProgbits
  shFlags := shFlags
  shAddr := 0x400000 + shOffset
  shOffset := shOffset
  shSize := shSize
  shLink := 0
  shInfo := 0
  shAddralign := 8
  shEntsize := 0
  shName := 0
  shndx := shndx
  contributions := contributions
  source := source

private def frameHdr : OutputSection :=
  frameSection ".eh_frame_hdr" .readOnly shfAlloc 64 20 1 [] .ehFrameHdr

private def ehFrameSection : OutputSection :=
  frameSection ".eh_frame" .ehFrame shfAlloc 88 48 2 [⟨0, 2, 1, 0, 48⟩] .input

private def frameLayout : Layout where
  outputSections := [frameHdr, ehFrameSection,
    frameSection ".text" .text 6 136 4 3 [⟨0, 1, 0, 0, 4⟩] .input]
  phoff := 64
  shoff := 144
  shnum := 4
  fileSize := 400

private def frameReport (filter : SectionWriteFilter) : Except EmitError EmitWriteReport :=
  reportForFilter frameLayout [frameObject] filter (List.replicate 400 (0 : UInt8)).length

private def frameData (filter : SectionWriteFilter) :
    Except EmitFault (List (Buffer.Patch UInt8)) :=
  dataWrites frameArena [frameObject] SymbolTable.new frameLayout filter
    (List.replicate 400 (0 : UInt8)).length

private theorem frame_runs :
    (frameReport (.redOnly [nameOf ".text"])).toOption.isSome = true ∧
      (frameData (.redOnly [nameOf ".text"])).toOption.isSome = true ∧
      (frameReport (.changedObjects [0])).toOption.map
          (List.map fun range => (range.fileOffset, range.len)) = some [(88, 48), (136, 4)] ∧
      (frameData (.changedObjects [0])).toOption.isSome = true := by
  decide +kernel

/-- With headers and synthetic sections all writes are reported. -/
theorem allReported_iff_red :
    ∃ report writes,
      reportForFilter frameLayout [frameObject] (.redOnly [nameOf ".text"])
        (List.replicate 400 (0 : UInt8)).length = .ok report ∧
      emitWrites frameArena [frameObject] SymbolTable.new frameLayout
        (.redOnly [nameOf ".text"]) (List.replicate 400 0) = .ok writes ∧
      AllReported writes report := by
  rcases exists_ok_of_isSome frame_runs.1 with ⟨report, isReport⟩
  rcases exists_ok_of_isSome frame_runs.2.1 with ⟨data, isData⟩
  have areWrites := emitWrites_of_data isData
  refine ⟨report, _, isReport, areWrites,
    (allReported_iff isReport isData areWrites).mpr fun place spills => ?_⟩
  cases spills with
  | content whole present isWritten isContent covers outside =>
      simp only [frameLayout, List.mem_cons, List.not_mem_nil, or_false] at present
      rcases present with rfl | rfl | rfl
      · exact absurd isContent List.not_mem_nil
      · cases isWritten
      · cases isWritten
  | tlsSlot whole isGot => cases isGot
  | descriptor whole isNote => cases isNote
  | frameTable minimal => cases minimal

/-- The layout has no bytes for the table, which is written although it is not reported. -/
theorem not_allReported_changed :
    ∃ report writes,
      reportForFilter frameLayout [frameObject] (.changedObjects [0])
        (List.replicate 400 (0 : UInt8)).length = .ok report ∧
      emitWrites frameArena [frameObject] SymbolTable.new frameLayout (.changedObjects [0])
        (List.replicate 400 0) = .ok writes ∧
      ¬ AllReported writes report := by
  rcases frame_runs.2.2 with ⟨ranges, isSome⟩
  rcases exists_ok_of_isSome isSome with ⟨data, isData⟩
  cases isReport : frameReport (.changedObjects [0]) with
  | error error =>
      rw [isReport] at ranges
      cases ranges
  | ok report =>
      rw [isReport] at ranges
      have areRanges : report.map (fun range => (range.fileOffset, range.len)) =
          [(88, 48), (136, 4)] := Option.some.inj ranges
      refine ⟨report, _, isReport, emitWrites_of_data isData, fun all => ?_⟩
      have length : (Buffer.applyAll (List.replicate 400 (0 : UInt8)) data).length = 400 := by
        rw [Buffer.length_applyAll, List.length_replicate]
      have start : frameHdr.shOffset.toNat = 64 := rfl
      have size : frameHdr.shSize.toNat = 20 := rfl
      have framesFit : ehFrameSection.shOffset.toNat + ehFrameSection.shSize.toNat = 136 := rfl
      rcases (covers_writeEhFrameHdr_iff (Buffer.applyAll (List.replicate 400 0) data)
        frameLayout 64).mpr ⟨frameHdr, ehFrameSection, rfl, rfl, by omega,
          by rw [frameTableStop]; omega, by omega, by rw [frameTableStop]; omega⟩ with
        ⟨patch, isPatch, covers⟩
      rcases all patch (List.mem_append_right _ (List.mem_append_left _
        (List.mem_append_left _ isPatch))) 64 covers with ⟨range, inReport, reported⟩
      have isRange : (range.fileOffset, range.len) ∈ [((88 : UInt64), (48 : UInt64)),
          (136, 4)] := by
        rw [← areRanges]
        exact List.mem_map.mpr ⟨range, inReport, rfl⟩
      simp only [List.mem_cons, Prod.mk.injEq, List.not_mem_nil, or_false] at isRange
      rw [EmitWriteRange.Covers] at reported
      rcases isRange with ⟨isOffset, _⟩ | ⟨isOffset, _⟩
      · rw [isOffset] at reported
        exact absurd reported.1 (by decide)
      · rw [isOffset] at reported
        exact absurd reported.1 (by decide)

end Peony
