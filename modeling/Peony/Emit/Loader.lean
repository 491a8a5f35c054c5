import Peony.Emit.HeaderNumbers
import Peony.Emit.SectionImage
import Peony.Foundation.Mapping
import Peony.Layout.HeaderCount

namespace Peony

/-! What a loader that reads the program headers of an output puts into memory. -/

/-! ## Reading -/

namespace ProgramHeader

def ofBytes (bytes : List UInt8) : ProgramHeader where
  pType := UInt32.ofNat (readU32 bytes)
  pFlags := UInt32.ofNat (readU32 (bytes.drop 4))
  pOffset := wordOf (bytes.drop 8)
  pVaddr := wordOf (bytes.drop 16)
  pPaddr := wordOf (bytes.drop 24)
  pFilesz := wordOf (bytes.drop 32)
  pMemsz := wordOf (bytes.drop 40)
  pAlign := wordOf (bytes.drop 48)

private theorem wordOf_drop (word : UInt64) (rest : List UInt8) (count : Nat) :
    wordOf ((toLeBytes word ++ rest).drop (8 + count)) = wordOf (rest.drop count) := by
  rw [← List.drop_drop, drop_toLeBytes]

theorem ofBytes_bytes (header : ProgramHeader) : ofBytes header.bytes = header := by
  have drop32 (word : UInt32) (rest : List UInt8) (count : Nat) :
      (le32 word ++ rest).drop (4 + count) = rest.drop count := by
    rw [← List.drop_drop, List.drop_left' (length_le32 word)]
  have split : header.bytes = le32 header.pType ++ (le32 header.pFlags ++
      (toLeBytes header.pOffset ++ (toLeBytes header.pVaddr ++ (toLeBytes header.pPaddr ++
        (toLeBytes header.pFilesz ++ (toLeBytes header.pMemsz ++
          toLeBytes header.pAlign)))))) := by
    simp only [bytes, List.append_assoc]
  have words (count : Nat) : header.bytes.drop (8 + count) = (toLeBytes header.pOffset ++
      (toLeBytes header.pVaddr ++ (toLeBytes header.pPaddr ++ (toLeBytes header.pFilesz ++
        (toLeBytes header.pMemsz ++ toLeBytes header.pAlign))))).drop count := by
    rw [split, show 8 + count = 4 + (4 + count) from by omega, drop32, drop32]
  have last : wordOf (toLeBytes header.pAlign) = header.pAlign := wordOf_toLeBytes _
  have flags : UInt32.ofNat (readU32 (header.bytes.drop 4)) = header.pFlags := by
    rw [split, show 4 = 4 + 0 from rfl, drop32, List.drop_zero, ofNat_readU32_le32]
  have offset : wordOf (header.bytes.drop 8) = header.pOffset := by
    rw [show 8 = 8 + 0 from rfl, words, List.drop_zero, wordOf_append]
  have vaddr : wordOf (header.bytes.drop 16) = header.pVaddr := by
    rw [show 16 = 8 + (8 + 0) from rfl, words, wordOf_drop, List.drop_zero, wordOf_append]
  have paddr : wordOf (header.bytes.drop 24) = header.pPaddr := by
    rw [show 24 = 8 + (8 + (8 + 0)) from rfl, words, wordOf_drop, wordOf_drop, List.drop_zero,
      wordOf_append]
  have filesz : wordOf (header.bytes.drop 32) = header.pFilesz := by
    rw [show 32 = 8 + (8 + (8 + (8 + 0))) from rfl, words, wordOf_drop, wordOf_drop,
      wordOf_drop, List.drop_zero, wordOf_append]
  have memsz : wordOf (header.bytes.drop 40) = header.pMemsz := by
    rw [show 40 = 8 + (8 + (8 + (8 + (8 + 0)))) from rfl, words, wordOf_drop, wordOf_drop,
      wordOf_drop, wordOf_drop, List.drop_zero, wordOf_append]
  have align : wordOf (header.bytes.drop 48) = header.pAlign := by
    rw [show 48 = 8 + (8 + (8 + (8 + (8 + (8 + 0))))) from rfl, words, wordOf_drop, wordOf_drop,
      wordOf_drop, wordOf_drop, wordOf_drop, List.drop_zero, last]
  rw [ofBytes, flags, offset, vaddr, paddr, filesz, memsz, align, split, ofNat_readU32_le32]

def mapping (header : ProgramHeader) : Spans.Mapping where
  memory := header.memory
  place := header.pOffset.toNat
  inFile := header.pFilesz.toNat

end ProgramHeader

def programHeaders (file : List UInt8) : List ProgramHeader :=
  (List.range (halfAt file 56).toNat).map fun index =>
    ProgramHeader.ofBytes
      ((file.drop ((wordOf (file.drop 32)).toNat + index * phdrSize.toNat)).take 56)

/-- The ranges that are loaded. -/
def mappingsOf (headers : List ProgramHeader) : List Spans.Mapping :=
  (headers.filter fun header => header.pType == ptLoad).map ProgramHeader.mapping

def loadedAt (file : List UInt8) (address : Nat) : Option UInt8 :=
  Spans.Mapping.mapped 0 (mappingsOf (programHeaders file)) file address

section

variable {arena : InputArena} {objects : List InputObject} {symbols : SymbolTable}
variable {layout : Layout} {place : Nat} {patch : Buffer.Patch UInt8} {s : OutputSection}
variable {all : List (Buffer.Patch UInt8)} {clean : List UInt8}

/-! ## The headers of a clean image -/

theorem section_of_data (place : Nat) (separate : layout.Separate objects)
    (isAll : dataWrites arena objects symbols layout .all layout.fileSize = .ok all) :
    ∃ rest, all = headerWrites layout ++ rest ∧ ∀ patch ∈ rest, patch.Covers place →
      ∃ s ∈ layout.outputSections, s.source ≠ .bss ∧ s.HasPlace place := by
  rcases dataWrites_ok isAll with ⟨copied, isCopied, rfl⟩
  have whole : SectionWriteFilter.all.isMinimal = false := rfl
  simp only [whole, Bool.false_eq_true, if_false, List.append_assoc]
  refine ⟨_, rfl, fun patch isPatch covers => ?_⟩
  simp only [List.mem_append, List.mem_flatMap] at isPatch
  rcases isPatch with ⟨s, present, isSection⟩ | isCopy | isSlot
  · exact ⟨s, present, notBss_of_sectionWrites isSection,
      separate.hasPlace_of_section present isSection covers⟩
  · rcases (covers_copied_iff isCopied place).mp ⟨patch, isCopy, covers⟩ with
      ⟨item, isItem, inItem⟩
    rcases separate.section_of_item isItem inItem with ⟨s, present, isInput, _, inside⟩
    exact ⟨s, present, notBss_of_input isInput, inside⟩
  · rcases separate.hasPlace_of_slot isSlot covers with ⟨got, isGot, inside⟩
    rcases firstOf_spec isGot with ⟨present, isSource⟩
    refine ⟨got, present, ?_, inside⟩
    rw [isSource]
    exact SecSource.noConfusion

theorem image_outside (separate : layout.Separate objects) {image : List UInt8}
    (sized : image.length = layout.fileSize) (before : place < layout.shoff.toNat)
    (outside : ∀ s ∈ layout.outputSections, s.source ≠ .bss → ¬ s.HasPlace place) :
    ∀ patch ∈ imageWrites layout .all image, ¬ patch.Covers place := by
  intro patch isPatch covers
  rcases region_of_image separate sized isPatch covers with
    ⟨s, present, isSource, inside⟩ | behind
  · apply outside s present _ inside
    rcases isSource with isTable | isNote
    · rw [isTable]
      exact SecSource.noConfusion
    · rw [isNote]
      exact SecSource.noConfusion
  · omega

theorem getElem?_clean (separate : layout.Separate objects)
    (isClean : emitFull arena objects symbols layout none = .ok clean)
    (before : place < layout.shoff.toNat)
    (outside : ∀ s ∈ layout.outputSections, s.source ≠ .bss → ¬ s.HasPlace place) :
    clean[place]? =
      (Buffer.applyAll (List.replicate layout.fileSize 0) (headerWrites layout))[place]? := by
  rcases data_of_emitFull isClean with ⟨all, isAll⟩
  rw [emitFull_of_data isAll] at isClean
  cases isClean
  rcases section_of_data place separate isAll with ⟨rest, rfl, inSection⟩
  have opened : openOutputMap none layout.fileSize = List.replicate layout.fileSize 0 := rfl
  have imageSized (data : List (Buffer.Patch UInt8)) :
      (Buffer.applyAll (List.replicate layout.fileSize 0) data).length = layout.fileSize :=
    (Buffer.length_applyAll _ _).trans List.length_replicate
  have notRest : ∀ patch ∈ rest, ¬ patch.Covers place := by
    intro patch isRest covers
    rcases inSection patch isRest covers with ⟨s, present, notBss, inside⟩
    exact outside s present notBss inside
  rw [opened, Buffer.applyAll_append, Buffer.getElem?_applyAll_of_not_covers
    (image_outside separate (imageSized _) before outside), Buffer.applyAll_append,
    Buffer.getElem?_applyAll_of_not_covers notRest]

theorem length_clean (isClean : emitFull arena objects symbols layout none = .ok clean) :
    clean.length = layout.fileSize := by
  rcases data_of_emitFull isClean with ⟨all, isAll⟩
  rw [emitFull_of_data isAll] at isClean
  cases isClean
  rw [Buffer.length_applyAll, length_openOutputMap]

theorem headers_before (separate : layout.Separate objects) :
    layout.headersStop ≤ layout.shoff.toNat ∧ layout.shoff.toNat ≤ layout.fileSize := by
  have order := separate.laid.pairwise
  rw [Layout.fileRanges, List.append_assoc, List.singleton_append, List.pairwise_cons] at order
  have last := order.1 _ (List.mem_append_right _ (List.mem_singleton_self _))
  rw [Spans.Span.stop, Nat.zero_add] at last
  have inside := (separate.laid.within (List.mem_append_right _ (List.mem_singleton_self _))).2
  exact ⟨last, (Nat.le_add_right _ _).trans inside⟩

theorem pairwise_segmentPatches (layout : Layout) :
    (segmentPatches layout).Pairwise Buffer.Patch.Apart :=
  Buffer.pairwise_numbered (fun _ => rfl) fun _ => rfl

theorem pairwise_headerWrites (behind : 64 ≤ layout.phoff.toNat) :
    (headerWrites layout).Pairwise Buffer.Patch.Apart := by
  have front (stop : Nat) (below : stop ≤ 64) : ∀ patch ∈ segmentPatches layout,
      stop ≤ patch.offset := by
    intro patch isSegment
    rcases List.mem_map.mp isSegment with ⟨⟨header, index⟩, _, rfl⟩
    dsimp only
    omega
  have fileHeaderStop : 16 + (fileHeader layout).length = 64 := by
    rw [length_fileHeader]
  rw [headerWrites, List.pairwise_cons, List.pairwise_cons]
  refine ⟨?_, ?_, pairwise_segmentPatches layout⟩
  · intro patch present
    apply Or.inl
    rcases List.mem_cons.mp present with rfl | isSegment
    · exact (by decide : 0 + 8 ≤ 16)
    · exact front 8 (by omega) patch isSegment
  · intro patch isSegment
    apply Or.inl
    exact fileHeaderStop ▸ front 64 (Nat.le_refl _) patch isSegment

theorem slice_header (separate : layout.Separate objects)
    (isClean : emitFull arena objects symbols layout none = .ok clean)
    (isHeader : patch ∈ headerWrites layout) (nonempty : 0 < patch.data.length) :
    (clean.drop patch.offset).take patch.data.length = patch.data := by
  have bounds := headers_before separate
  have below (index : Nat) (inside : index < patch.data.length) :
      patch.offset + index < layout.headersStop :=
    separate.lt_of_header isHeader ⟨Nat.le_add_right _ _, Nat.add_lt_add_left inside _⟩
  have inFile : patch.offset + patch.data.length ≤
      (List.replicate layout.fileSize (0 : UInt8)).length := by
    have last := below (patch.data.length - 1) (by omega)
    rw [List.length_replicate]
    omega
  have written := Buffer.slice_applyAll (pairwise_headerWrites separate.headers) isHeader inFile
  conv => rhs; rw [← written]
  apply Buffer.window_congr
  intro index inside
  have inHeaders := below index inside
  refine getElem?_clean separate isClean (by omega) fun s present notBss inSection => ?_
  have above := (separate.within_headers present notBss).1
  have start := inSection.1
  omega

/-- What a layout provides for a loader that counts its program headers. -/
structure Layout.Counted (layout : Layout) : Prop where
  counted : layout.phnum.toNat = layout.segments.length
  few : layout.phnum.toNat < 2 ^ 16

private theorem exists_phoff (layout : Layout) : ∃ front rest,
    fileHeader layout = front ++ (toLeBytes layout.phoff ++ rest) ∧ front.length = 16 := by
  refine ⟨le16 layout.eType ++ le16 62 ++ le32 1 ++ toLeBytes layout.entry,
    toLeBytes layout.shoff ++ le32 0 ++ le16 ehdrSize.toUInt16 ++ le16 phdrSize.toUInt16 ++
      le16 layout.phnum.toUInt16 ++ le16 shdrSize.toUInt16 ++ le16 (eShnum layout) ++
      le16 (eShstrndx layout), ?_, rfl⟩
  simp only [fileHeader, List.append_assoc]

private theorem exists_phnum (layout : Layout) : ∃ front rest,
    fileHeader layout = front ++ (le16 layout.phnum.toUInt16 ++ rest) ∧ front.length = 40 := by
  refine ⟨le16 layout.eType ++ le16 62 ++ le32 1 ++ toLeBytes layout.entry ++
    toLeBytes layout.phoff ++ toLeBytes layout.shoff ++ le32 0 ++ le16 ehdrSize.toUInt16 ++
      le16 phdrSize.toUInt16,
    le16 shdrSize.toUInt16 ++ le16 (eShnum layout) ++ le16 (eShstrndx layout), ?_, rfl⟩
  simp only [fileHeader, List.append_assoc]

theorem programHeaders_clean (separate : layout.Separate objects) (counted : layout.Counted)
    (isClean : emitFull arena objects symbols layout none = .ok clean) :
    programHeaders clean = layout.segments := by
  have isHeader : (⟨16, fileHeader layout⟩ : Buffer.Patch UInt8) ∈ headerWrites layout :=
    List.mem_cons_of_mem _ List.mem_cons_self
  have whole := slice_header separate isClean isHeader (by rw [length_fileHeader]; decide)
  rw [length_fileHeader] at whole
  change (clean.drop 16).take 48 = fileHeader layout at whole
  have part (place count : Nat) (inside : place + count ≤ 48) :
      (clean.drop (16 + place)).take count = ((fileHeader layout).drop place).take count := by
    rw [← whole, List.drop_take, List.take_take, List.drop_drop, Nat.min_eq_left (by omega)]
  have phoff : wordOf (clean.drop 32) = layout.phoff := by
    rcases exists_phoff layout with ⟨front, rest, split, length⟩
    rw [wordOf, part 16 8 (by omega), split, List.drop_left' length]
    exact wordOf_append _ _
  have phnum : (halfAt clean 56).toNat = layout.segments.length := by
    rcases exists_phnum layout with ⟨front, rest, split, length⟩
    rw [halfAt, part 40 2 (by omega), split, List.drop_left' length, ofNat_fromLeBytes_le16,
      UInt64.toNat_toUInt16, Nat.mod_eq_of_lt counted.few, counted.counted]
  have size : phdrSize.toNat = 56 := rfl
  rw [programHeaders, phoff, phnum]
  apply List.ext_getElem
  · rw [List.length_map, List.length_range]
  · intro index isIndex inside
    rw [List.getElem_map, List.getElem_range]
    have isSegment : (⟨layout.phoff.toNat + index * phdrSize.toNat,
        layout.segments[index].bytes⟩ : Buffer.Patch UInt8) ∈ headerWrites layout := by
      apply List.mem_cons_of_mem
      apply List.mem_cons_of_mem
      exact List.mem_map.mpr ⟨(layout.segments[index], index),
        List.mem_zipIdx_iff_getElem?.mpr (List.getElem?_eq_getElem inside), rfl⟩
    have slice := slice_header separate isClean isSegment (Nat.succ_pos 55)
    change (clean.drop _).take 56 = _ at slice
    rw [slice]
    exact ProgramHeader.ofBytes_bytes _

/-! ## Sections in memory -/

/-- A place behind the headers that no section has bytes at. -/
def Layout.Vacant (layout : Layout) (place : Nat) : Prop :=
  layout.headersStop ≤ place ∧ place < layout.shoff.toNat ∧
    ∀ s ∈ layout.outputSections, s.source ≠ .bss → ¬ s.HasPlace place

inductive ProgramHeader.Brings (layout : Layout) (header : ProgramHeader) (s : OutputSection) :
    Prop
  | copied (inFile : s.memory.stop ≤ header.memory.start + header.pFilesz.toNat)
      (offset : s.shOffset.toNat + header.memory.start =
        header.pOffset.toNat + s.memory.start)
      (vacant : s.source = .bss → ∀ place, s.HasPlace place → layout.Vacant place) :
      ProgramHeader.Brings layout header s
  | zeroed (isBss : s.source = .bss)
      (behind : header.memory.start + header.pFilesz.toNat ≤ s.memory.start) :
      ProgramHeader.Brings layout header s

structure Layout.Loadable (layout : Layout) : Prop extends layout.Counted where
  apart : (layout.loadHeaders.map ProgramHeader.memory).Pairwise Spans.Span.Apart
  sections : ∀ s ∈ layout.outputSections, s.isLoaded = true →
    ∃ header ∈ layout.loadHeaders, header.memory.Contains s.memory ∧ header.Brings layout s
  addresses : ∀ s ∈ layout.outputSections, s.isLoaded = true → s.memory.stop < 2 ^ 64

theorem loadedAt_section (separate : layout.Separate objects) (loadable : layout.Loadable)
    (isClean : emitFull arena objects symbols layout none = .ok clean)
    (present : s ∈ layout.outputSections) (isLoaded : s.isLoaded = true) {index : Nat}
    (inside : index < s.shSize.toNat) :
    loadedAt clean (s.shAddr.toNat + index) =
      if s.source = .bss then some 0 else clean[s.shOffset.toNat + index]? := by
  rcases loadable.sections s present isLoaded with ⟨header, isHeader, contains, brings⟩
  have isMapping : header.mapping ∈ mappingsOf (programHeaders clean) := by
    rw [programHeaders_clean separate loadable.toCounted isClean]
    exact List.mem_map_of_mem isHeader
  have apart : ((mappingsOf (programHeaders clean)).map Spans.Mapping.memory).Pairwise
      Spans.Span.Apart := by
    rw [programHeaders_clean separate loadable.toCounted isClean, mappingsOf, List.map_map]
    exact loadable.apart
  have start : s.memory.start = s.shAddr.toNat := rfl
  have stop : s.memory.stop = s.shAddr.toNat + s.shSize.toNat := rfl
  have has : header.mapping.Has (s.shAddr.toNat + index) := by
    have above : header.memory.start ≤ s.memory.start := contains.1
    have below : s.memory.stop ≤ header.memory.stop := contains.2
    exact ⟨above.trans (Nat.le_add_right _ _), by
      change s.shAddr.toNat + index < header.memory.stop
      omega⟩
  have hasPlace : s.HasPlace (s.shOffset.toNat + index) :=
    ⟨Nat.le_add_right _ _, Nat.add_lt_add_left inside _⟩
  have sized := length_clean isClean
  cases brings with
  | zeroed isBss behind =>
      rw [if_pos isBss]
      apply Spans.Mapping.mapped_behind apart isMapping has
      change header.memory.start + header.pFilesz.toNat ≤ _
      omega
  | copied inFile offset vacant =>
      have found (inClean : s.shOffset.toNat + index < clean.length) :
          loadedAt clean (s.shAddr.toNat + index) = clean[s.shOffset.toNat + index]? := by
        apply Spans.Mapping.mapped_inFile apart isMapping has _ _ inClean
        · change _ < header.memory.start + header.pFilesz.toNat
          omega
        · change _ + header.memory.start = header.pOffset.toNat + _
          omega
      by_cases isBss : s.source = .bss
      · rcases vacant isBss _ hasPlace with ⟨behind, before, outside⟩
        have bounds := headers_before separate
        have notHeader : ∀ patch ∈ headerWrites layout,
            ¬ patch.Covers (s.shOffset.toNat + index) := by
          intro patch isPatch covers
          have below := separate.lt_of_header isPatch covers
          omega
        rw [if_pos isBss, found (by omega), getElem?_clean separate isClean before outside,
          Buffer.getElem?_applyAll_of_not_covers notHeader, List.getElem?_replicate,
          if_pos (by omega)]
      · have below := separate.stop_le present isBss
        rw [if_neg isBss, found (by omega)]

/-! ## Items in memory -/

theorem sameAt_item {items : List WorkItem} {item : WorkItem} {bufLen : Nat} {ctx : DispatchCtx}
    (fit : ItemsFit items bufLen) (isItem : item ∈ items) (covers : item.Covers place) :
    Buffer.SameAt place (items.flatMap (ctx.placed bufLen)) (ctx.placed bufLen item) := by
  rcases List.append_of_mem isItem with ⟨before, after, rfl⟩
  have disjoint := fit.disjoint
  rw [List.pairwise_append, List.pairwise_cons] at disjoint
  have outside (other : WorkItem) (isOther : other ∈ before ++ item :: after)
      (apart : ¬ other.Covers place) : ∀ patch ∈ ctx.placed bufLen other,
        ¬ patch.Covers place := fun patch isPatch inPatch =>
    apart (covers_placed (fit.fits other isOther) isPatch inPatch)
  have first : Buffer.SameAt place (before.flatMap (ctx.placed bufLen)) [] := by
    apply Buffer.SameAt.of_outside _ (fun _ absent => absurd absent List.not_mem_nil)
    intro patch isPatch
    rcases List.mem_flatMap.mp isPatch with ⟨other, isBefore, isPatch⟩
    exact outside other (List.mem_append_left _ isBefore)
      (fun inOther => disjoint.2.2 other isBefore item List.mem_cons_self place
        ⟨inOther, covers⟩) patch isPatch
  have last : Buffer.SameAt place (after.flatMap (ctx.placed bufLen)) [] := by
    apply Buffer.SameAt.of_outside _ (fun _ absent => absurd absent List.not_mem_nil)
    intro patch isPatch
    rcases List.mem_flatMap.mp isPatch with ⟨other, isAfter, isPatch⟩
    exact outside other (List.mem_append_right _ (List.mem_cons_of_mem _ isAfter))
      (fun inOther => disjoint.2.1.1 other isAfter place ⟨covers, inOther⟩) patch isPatch
  have all := first.append ((Buffer.SameAt.refl (ctx.placed bufLen item)).append last)
  rw [List.append_nil, List.nil_append] at all
  rw [List.flatMap_append, List.flatMap_cons]
  exact all

theorem placed_eq_rendered {ctx : DispatchCtx} {item : WorkItem} {bufLen : Nat}
    {c : SectionContribution} (isItem : workItemOf objects s c = some item)
    (nonempty : item.fileLen ≠ 0) (fits : item.Fits bufLen)
    (succeeds : ∃ writes, ctx.itemWrites bufLen (item, item.range 0) = .ok writes) :
    ctx.placed bufLen item = [⟨item.fileOff.toNat, ctx.rendered item⟩] ∧
      (ctx.rendered item).length = item.fileLen.toNat := by
  rcases succeeds with ⟨writes, isWrites⟩
  have whole : item.fileLen.toNat = item.isec.data.len.toNat := by
    rw [fileLen_of_item isItem, UInt32.toNat_toUInt64]
  have positive : item.fileLen.toNat ≠ 0 := fun none => nonempty (UInt64.toNat_inj.mp none)
  have inFile := fits.inside
  have noWrap := fits.noOverflow
  rw [placed_of_ok isWrites, DispatchCtx.rendered]
  rw [DispatchCtx.itemWrites, WorkItem.range, if_neg nonempty] at isWrites
  dsimp only at isWrites
  rw [if_neg (by rw [WorkRange.contains, whole]; simp; omega)] at isWrites
  cases isBytes : ctx.sectionBytes item with
  | error fault =>
      rw [isBytes] at isWrites
      cases isWrites
  | ok bytes =>
      rw [isBytes] at isWrites
      cases isWrites
      exact ⟨rfl, (ctx.length_sectionBytes fits.footprints isBytes).trans whole.symm⟩

theorem getElem?_item (separate : layout.Separate objects)
    (isClean : emitFull arena objects symbols layout none = .ok clean)
    (present : s ∈ layout.outputSections) (isInput : s.source = .input)
    {c : SectionContribution} (inContributions : c ∈ s.contributions) {item : WorkItem}
    (isItem : workItemOf objects s c = some item) {index : Nat}
    (inside : index < item.fileLen.toNat) :
    clean[item.fileOff.toNat + index]? =
      ((emitCtx arena objects symbols layout).rendered item)[index]? := by
  have notBss := notBss_of_input isInput
  have covers : item.Covers (item.fileOff.toNat + index) :=
    ⟨Nat.le_add_right _ _, Nat.add_lt_add_left inside _⟩
  have inSection := separate.hasPlace_of_item present isInput inContributions isItem covers
  rcases data_of_emitFull isClean with ⟨all, isAll⟩
  rcases dataWrites_ok isAll with ⟨copied, isCopied, isData⟩
  rcases copyInputSections_ok_iff.mp isCopied with ⟨fit, succeed, _⟩
  have collected := item_of_contribution .all present isInput rfl inContributions rfl isItem
  have nonempty : item.fileLen ≠ 0 := by
    intro isZero
    rw [isZero] at inside
    exact absurd inside (Nat.not_lt_zero _)
  rcases placed_eq_rendered isItem nonempty (fit.fits item collected nonempty)
    (succeed item collected) with ⟨isPlaced, length⟩
  have inData : index < ((emitCtx arena objects symbols layout).rendered item).length := by
    rw [length]
    exact inside
  have written (old : UInt8) : Buffer.finalAt copied (item.fileOff.toNat + index) old =
      ((emitCtx arena objects symbols layout).rendered item)[index] := by
    rw [(copyInputSections_ok_iff.mp isCopied).2.2, sameAt_item fit collected covers, isPlaced]
    change Buffer.Patch.at _ _ old = _
    rw [Buffer.Patch.at, if_pos covers.1]
    dsimp only
    rw [Nat.add_sub_cancel_left, List.getElem?_eq_getElem inData, Option.getD_some]
  have notSlot : ∀ patch ∈ writeTlsGot layout.fileSize layout,
      ¬ patch.Covers (item.fileOff.toNat + index) :=
    separate.slot_outside_input present isInput inSection
  have opened : openOutputMap none layout.fileSize = List.replicate layout.fileSize 0 := rfl
  have sized (data : List (Buffer.Patch UInt8)) :
      (Buffer.applyAll (List.replicate layout.fileSize 0) data).length = layout.fileSize :=
    (Buffer.length_applyAll _ _).trans List.length_replicate
  have inFile : item.fileOff.toNat + index < layout.fileSize :=
    Nat.lt_of_lt_of_le inSection.2 (separate.stop_le present notBss)
  rw [emitFull_of_data isAll] at isClean
  cases isClean
  have whole : SectionWriteFilter.all.isMinimal = false := rfl
  simp only [whole, Bool.false_eq_true, if_false] at isData
  rw [opened, Buffer.applyAll_append, Buffer.getElem?_applyAll_of_not_covers
    (input_outside_image separate present isInput inSection (sized all)), isData,
    Buffer.applyAll_append, Buffer.getElem?_applyAll_of_not_covers notSlot,
    ← List.append_assoc, Buffer.applyAll_append, Buffer.getElem?_applyAll,
    List.getElem?_eq_getElem (by rw [sized]; exact inFile), Option.map_some, written,
    List.getElem?_eq_getElem inData]

/-- The relocated bytes of an item are at its address. -/
theorem loadedAt_item (separate : layout.Separate objects) (loadable : layout.Loadable)
    (isClean : emitFull arena objects symbols layout none = .ok clean)
    (present : s ∈ layout.outputSections) (isLoaded : s.isLoaded = true)
    (isInput : s.source = .input) {c : SectionContribution} (among : c ∈ s.contributions)
    {item : WorkItem} (isItem : workItemOf objects s c = some item) {index : Nat}
    (inside : index < item.fileLen.toNat) :
    loadedAt clean (s.shAddr.toNat + c.offset.toNat + index) =
      ((emitCtx arena objects symbols layout).rendered item)[index]? := by
  have extent : c.offset.toNat + c.size.toNat ≤ s.shSize.toNat :=
    separate.extents s present c among
  have length := separate.items s present c among item isItem
  have notBss := notBss_of_input isInput
  have start : item.fileOff.toNat = s.shOffset.toNat + c.offset.toNat := by
    rw [fileOff_of_item isItem, toNat_saturatingAdd_of_lt]
    have small := separate.stop_lt present notBss
    omega
  have loaded := loadedAt_section separate loadable isClean present isLoaded
    (show c.offset.toNat + index < s.shSize.toNat by omega)
  rw [← Nat.add_assoc, if_neg notBss] at loaded
  rw [loaded, ← getElem?_item separate isClean present isInput among isItem inside, start,
    Nat.add_assoc]

theorem loadedAt_slot (separate : layout.Separate objects) (loadable : layout.Loadable)
    (isClean : emitFull arena objects symbols layout none = .ok clean)
    (isGot : layout.firstOf .got = some s) (isLoaded : s.isLoaded = true)
    (behind : ∀ slot ∈ layout.tlsGotWrites,
      s.shAddr.toNat + layout.gotSlots.length * 8 ≤ slot.1.toNat)
    {place : Nat} {id : SymbolId} (isSlot : layout.gotSlots[place]? = some id) {index : Nat}
    (inside : index < 8) :
    loadedAt clean (s.shAddr.toNat + place * 8 + index) =
      (toLeBytes (slotAddress symbols id))[index]? := by
  rcases firstOf_spec isGot with ⟨present, source⟩
  have below := (List.getElem?_eq_some_iff.mp isSlot).1
  have fits : layout.gotSlots.length * 8 ≤ s.shSize.toNat := by
    have content := separate.contents s present
    rw [source] at content
    exact content
  have inSection : place * 8 + index < s.shSize.toNat := by omega
  have loaded := loadedAt_section separate loadable isClean present isLoaded inSection
  have slice := slice_clean separate isClean present (by rw [source]; exact SecSource.noConfusion)
    (by rw [source]; exact SecSource.noConfusion) (by rw [source]; exact SecSource.noConfusion)
  rw [if_neg (by rw [source]; exact SecSource.noConfusion)] at loaded
  have inSlice := congrArg (fun bytes : List UInt8 => bytes[place * 8 + index]?) slice
  rw [List.getElem?_take_of_lt inSection, List.getElem?_drop] at inSlice
  rw [Nat.add_assoc, loaded, inSlice, sectionImage, DispatchCtx.localWrites, source]
  rw [if_pos isGot, Buffer.applyAll_append, Buffer.getElem?_applyAll_of_not_covers]
  · have apart : (layout.localContents symbols .got).Pairwise Buffer.Patch.Apart :=
      Buffer.pairwise_numbered (fun _ => (Nat.zero_add _).symm)
        fun _ => length_toLeBytes _
    have isPatch : (⟨place * 8, toLeBytes (slotAddress symbols id)⟩ : Buffer.Patch UInt8) ∈
        layout.localContents symbols .got :=
      List.mem_map.mpr ⟨(id, place), List.mem_zipIdx_iff_getElem?.mpr isSlot, rfl⟩
    have window := @Buffer.slice_applyAll UInt8 (List.replicate s.shSize.toNat 0) _ apart _ isPatch
      (by
        rw [List.length_replicate, length_toLeBytes]
        change place * 8 + 8 ≤ _
        omega)
    rw [length_toLeBytes] at window
    have inWindow := congrArg (fun bytes : List UInt8 => bytes[index]?) window
    rw [List.getElem?_take_of_lt inside, List.getElem?_drop] at inWindow
    exact inWindow
  · intro patch isPatch covers
    rw [Layout.localSlots] at isPatch
    rcases List.mem_flatMap.mp isPatch with ⟨slot, isWrite, isPatch⟩
    split at isPatch
    · exact absurd isPatch List.not_mem_nil
    · rw [List.mem_singleton.mp isPatch] at covers
      have after := behind slot isWrite
      have start : slot.1.toNat - s.shAddr.toNat ≤ place * 8 + index := covers.1
      omega

end

namespace LayoutInput

variable {input : LayoutInput} {layout : Layout} (computed : Computed input layout)

/-! ## Computed layouts -/

theorem length_segments_le (phnum : UInt64) (hasGnuProperty : Bool) (ordered : Builders)
    (sections : List OutputSection) (block : TlsBlock) :
    (input.segments phnum hasGnuProperty (input.placeAll ordered) sections
      block).length ≤ 13 := by
  have interp := Bool.toNat_le (input.dynamic.isSome &&
    sections.any fun s => s.source == .interp)
  have note := Bool.toNat_le (input.config.buildId &&
    sections.any fun s => s.source == .noteBuildId)
  have code := Bool.toNat_le (hasRx ordered)
  have data := Bool.toNat_le (hasRw ordered)
  have property := Bool.toNat_le (hasGnuProperty &&
    sections.any fun s => s.name == propertyName)
  have dynamic := Bool.toNat_le (input.dynamic.isSome &&
    sections.any fun s => s.source == .dynamic)
  have tls := Bool.toNat_le (decide (block.size > 0))
  have frames := Bool.toNat_le (sections.any fun s => s.source == .ehFrameHdr)
  have relro := Bool.toNat_le input.dynamic.isSome
  rw [length_segments]
  omega

section

include computed

theorem counted_of_computed : layout.Counted := by
  have isPhnum : layout.phnum = input.phnum (input.ordered computed.pre) :=
    congrArg Layout.phnum computed.assembled
  have small := @phnum_small input (input.ordered computed.pre)
  have length : layout.segments.length ≤ 13 := by
    rw [computed.assembled]
    exact length_segments_le _ _ _ _ _
  have counted := congrArg UInt64.toNat computed.counted
  rw [UInt64.toNat_ofNat', Nat.mod_eq_of_lt (by omega), isPhnum] at counted
  constructor
  · rw [isPhnum]
    exact counted.symm
  · rw [isPhnum]
    omega

variable (noWrap : input.NoWrap computed.pre)
variable (backed : ∀ s ∈ layout.outputSections, s.source ≠ .bss → s.isFileBacked = true)

include noWrap

theorem backed_cases {other : OutputSection} (present : other ∈ layout.outputSections)
    (isBacked : other.isFileBacked = true) :
    (∃ placed ∈ input.contentSections (input.ordered computed.pre),
      placed.Finished other ∧ other.inFile = placed.inFile) ∨
      (input.contentEnd (input.ordered computed.pre)).toNat ≤ other.shOffset.toNat := by
  rcases laid_fileRun noWrap.file with ⟨more, added, tail⟩
  rcases @exists_sections input _ computed.pre computed.entry more added with
    ⟨all, fileOnly, names, split, shape⟩
  have isOutput : layout.outputSections = all ++ (fileOnly ++ [names]) :=
    (congrArg Layout.outputSections computed.assembled).trans split
  rw [isOutput, List.mem_append, List.mem_append] at present
  rcases present with isPlaced | isFileOnly | isNames
  · rcases Pairwise.exists_left shape.placed_of isPlaced with ⟨placed, isMember, isFinished⟩
    have inFile := isFinished.inFile (source_placed isMember)
    rw [placed_eq] at isMember
    rcases List.mem_append.mp isMember with isContent | isBss
    · exact .inl ⟨placed, isContent, isFinished, inFile⟩
    · rcases Pairwise.exists_left (Part.sections_at _ _) isBss with
        ⟨b, isBuilder, shAddr, rfl, _⟩
      rw [isFinished.isFileBacked, OutputSection.isFileBacked, bne_iff_ne] at isBacked
      exact absurd (bssPart_nobits computed.pre b isBuilder) isBacked
  · rcases Pairwise.exists_left shape.others_of isFileOnly with ⟨before, isMember, isFinished⟩
    have inFile := isFinished.inFile (shape.fileOnly_of before isMember).source
    have behind := (tail.within (List.mem_append_left _ (List.mem_map_of_mem isMember))).1
    rw [← inFile] at behind
    exact .inr behind
  · have behind := (tail.within (List.mem_append_right _ List.mem_cons_self)).1
    rw [List.mem_singleton.mp isNames, shape.names_of.shOffset]
    exact .inr behind

theorem vacant_of_content
    (backed : ∀ s ∈ layout.outputSections, s.source ≠ .bss → s.isFileBacked = true)
    {s placed : OutputSection}
    (isContent : placed ∈ input.contentSections (input.ordered computed.pre))
    (isFinished : placed.Finished s) (inFile : s.inFile = placed.inFile)
    (isBss : s.source = .bss) {place : Nat} (inside : s.HasPlace place) :
    layout.Vacant place := by
  have loaded := (partsLaid noWrap.addresses).loadedInFile
  rcases laid_fileRun noWrap.file with ⟨more, added, tail⟩
  have inRanges : placed.inFile ∈ (input.contentSections (input.ordered computed.pre)).map
      OutputSection.inFile := List.mem_map_of_mem isContent
  have order := loaded.pairwise
  rw [List.pairwise_cons] at order
  have first := order.1 _ inRanges
  have last := (loaded.within (List.mem_cons_of_mem _ inRanges)).2
  have above : s.shOffset.toNat ≤ place := inside.1
  have below : place < s.inFile.stop := inside.2
  rw [← inFile] at first last
  refine ⟨?_, ?_, fun other present notBss inOther => ?_⟩
  · have header : layout.headersStop =
        (input.headerSize (input.ordered computed.pre)).toNat := by
      have phoff : layout.phoff = ehdrSize := congrArg Layout.phoff computed.assembled
      have phnum : layout.phnum = input.phnum (input.ordered computed.pre) :=
        congrArg Layout.phnum computed.assembled
      rw [headerSize_toNat, Layout.headersStop, phoff, phnum]
    rw [Spans.Span.stop, Nat.zero_add] at first
    rw [header]
    exact first.trans above
  · have isShoff : layout.shoff.toNat = (input.fileEnd computed.pre
        (input.ordered computed.pre)).shoff.toNat :=
      congrArg (fun layout : Layout => layout.shoff.toNat) computed.assembled
    have behind := (tail.within (List.mem_append_right _ (List.mem_cons_of_mem _
      (List.mem_singleton_self _)))).1
    rw [isShoff]
    exact Nat.lt_of_lt_of_le below (last.trans behind)
  · have otherAbove : other.shOffset.toNat ≤ place := inOther.1
    have otherBelow : place < other.inFile.stop := inOther.2
    rcases backed_cases computed noWrap present (backed other present notBss) with
      ⟨otherPlaced, otherContent, otherFinished, otherInFile⟩ | behind
    · have different : placed ≠ otherPlaced := by
        intro same
        apply notBss
        rw [otherFinished.source, ← same, ← isFinished.source]
        exact isBss
      have apart := loaded.apart
      rw [List.pairwise_cons, List.pairwise_map] at apart
      have symmetric : Std.Symm fun first second : OutputSection =>
          Spans.Span.Apart first.inFile second.inFile := ⟨fun _ _ separate => Or.symm separate⟩
      have ranges := apart.2.forall isContent otherContent different
      rw [← inFile, ← otherInFile] at ranges
      rcases ranges with before | after
      · have fits : s.inFile.stop ≤ other.shOffset.toNat := before
        omega
      · have fits : other.inFile.stop ≤ s.shOffset.toNat := after
        omega
    · omega

theorem loadable_of_computed
    (backed : ∀ s ∈ layout.outputSections, s.source ≠ .bss → s.isFileBacked = true) :
    layout.Loadable := by
  have laid := partsLaid noWrap.addresses
  refine ⟨counted_of_computed computed, ?_, ?_, ?_⟩
  · rw [loadHeaders_eq computed, List.pairwise_map]
    have order := laid.increasing
    exact order.imp .inl
  · intro s present isLoaded
    rcases exists_loaded computed present isLoaded with
      ⟨load, isLoad, placed, isPlaced, isFinished, memory, inFile⟩
    have contains := (laid.load isLoad).within (List.mem_map_of_mem isPlaced)
    rw [← memory] at contains
    have offset : s.shOffset.toNat + load.header.memory.start =
        load.header.pOffset.toNat + s.memory.start := by
      have fromBase := offset_add_base computed noWrap present isLoaded
      have header := laid.offset_add_base isLoad
      change s.shOffset.toNat + load.header.pVaddr.toNat = _ + s.shAddr.toNat
      omega
    rw [loadHeaders_eq computed]
    refine ⟨load.header, List.mem_map_of_mem isLoad, contains, ?_⟩
    have copied (isContent : placed ∈ input.contentSections (input.ordered computed.pre))
        (below : s.memory.stop ≤ load.header.memory.start + load.header.pFilesz.toNat) :
        load.header.Brings layout s :=
      .copied below offset fun isBss _ inside =>
        vacant_of_content computed noWrap backed isContent isFinished inFile isBss inside
    rcases mem_loads.mp isLoad with rfl | ⟨isRx, rfl⟩ | ⟨isRw, rfl⟩
    · exact copied (List.mem_append_left _ (List.mem_append_left _ isPlaced)) contains.2
    · exact copied (List.mem_append_left _ (List.mem_append_right _ isPlaced)) contains.2
    · rcases laid.rw isRw with ⟨_, content, bss⟩
      have fileStop : (input.rwLoad (input.ordered computed.pre)).header.memory.start +
          (input.rwLoad (input.ordered computed.pre)).header.pFilesz.toNat =
            (input.dataPart (input.ordered computed.pre)).stop.toNat := by
        change (input.relroPart _).start.toNat +
          ((input.dataPart _).stop - (input.relroPart _).start).toNat = _
        rw [UInt64.toNat_sub_of_le _ _ (UInt64.le_iff_toNat_le.mpr content.le)]
        exact Nat.add_sub_cancel' content.le
      rcases List.mem_append.mp isPlaced with isData | isBss
      · refine copied (List.mem_append_right _ isData) ?_
        rw [fileStop, memory]
        exact (content.within (List.mem_map_of_mem isData)).2
      · have behind := (bss.within (List.mem_map_of_mem isBss)).1
        rcases Pairwise.exists_left (Part.sections_at _ _) isBss with
          ⟨b, isBuilder, shAddr, isOutput, _⟩
        have notBacked : s.isFileBacked = false := by
          rw [isFinished.isFileBacked, isOutput, OutputSection.isFileBacked]
          change (b.shType != shtNobits) = false
          rw [bssPart_nobits computed.pre b isBuilder]
          rfl
        have isZeroed : s.source = .bss := by
          by_contra notBss
          rw [backed s present notBss] at notBacked
          cases notBacked
        apply ProgramHeader.Brings.zeroed isZeroed
        rw [fileStop, memory]
        exact behind
  · intro s present isLoaded
    rcases exists_loaded computed present isLoaded with
      ⟨load, isLoad, placed, isPlaced, isFinished, memory, inFile⟩
    have contains := (laid.load isLoad).within (List.mem_map_of_mem isPlaced)
    rw [memory]
    exact contains.2.trans_lt (laid.load_stop_lt isLoad)

end

end LayoutInput

end Peony
