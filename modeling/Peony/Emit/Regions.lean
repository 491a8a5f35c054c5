import Peony.Emit.FullEmission
import Peony.Foundation.SameAt

namespace Peony

/-! The part of the file in which each write of an emission lies. -/

/-- The bytes that a section of its own needs. -/
def Layout.contentSize (layout : Layout) : SecSource → Nat
  | .got => layout.gotSlots.length * 8
  | .symTab => (layout.symtab.length + 1) * symSize.toNat
  | .noteBuildId => buildIdNote.length
  | source => (layout.contentsOf source).length

/-- What is written to a section of its own, from its start on. The table of the frames is
written later. -/
def Layout.localContents (symbols : SymbolTable) (layout : Layout) :
    SecSource → List (Buffer.Patch UInt8)
  | .got => layout.gotSlots.zipIdx.map fun slot =>
      ⟨slot.2 * 8, toLeBytes (slotAddress symbols slot.1)⟩
  | .symTab => layout.symtab.zipIdx.map fun entry =>
      ⟨24 * (entry.2 + 1), (symtabRecord symbols entry.1).bytes⟩
  | .noteBuildId => [⟨0, buildIdNote⟩]
  | .ehFrameHdr => []
  | source => [⟨0, layout.contentsOf source⟩]

structure Layout.Separate (objects : List InputObject) (layout : Layout) : Prop where
  laid : Spans.Laid 0 layout.fileRanges layout.fileSize
  headers : 64 ≤ layout.phoff.toNat
  segments : layout.segments.length ≤ layout.phnum.toNat
  backed : ∀ s ∈ layout.outputSections, s.source ≠ .bss → s.isFileBacked = true
  extents : ∀ s ∈ layout.outputSections, ∀ c ∈ s.contributions,
    c.extent.stop ≤ s.shSize.toNat
  items : ∀ s ∈ layout.outputSections, ∀ c ∈ s.contributions,
    ∀ item ∈ workItemOf objects s c, item.fileLen.toNat ≤ c.size.toNat
  contents : ∀ s ∈ layout.outputSections, layout.contentSize s.source ≤ s.shSize.toNat
  /-- No sum of addresses wraps. -/
  slots : (∀ got, layout.firstOf .got = some got →
      got.shAddr.toNat + got.shSize.toNat < 2 ^ 64) ∧
    ∀ slot ∈ layout.tlsGotWrites, slot.1.toNat + 8 < 2 ^ 64
  frames : ∀ eh, layout.ehFrame = some eh → eh.source = .input

def Layout.headersStop (layout : Layout) : Nat :=
  layout.phoff.toNat + layout.phnum.toNat * phdrSize.toNat

section

variable {arena : InputArena} {objects : List InputObject} {symbols : SymbolTable}
variable {layout : Layout} {filter : SectionWriteFilter} {bufLen place : Nat}
variable {patch : Buffer.Patch UInt8} {s : OutputSection} {item : WorkItem}

/-! ## Gaps -/

theorem toNat_saturatingAdd (first second : UInt64) :
    (saturatingAdd first second).toNat = min (first.toNat + second.toNat) (2 ^ 64 - 1) := by
  rw [saturatingAdd]
  split
  · rename_i small
    rw [UInt64.toNat_add, Nat.mod_eq_of_lt small]
    omega
  · rename_i large
    have greatest : (0xFFFFFFFFFFFFFFFF : UInt64).toNat = 2 ^ 64 - 1 := rfl
    rw [greatest]
    omega

theorem toNat_saturatingAdd_of_lt {first second : UInt64}
    (small : first.toNat + second.toNat < 2 ^ 64) :
    (saturatingAdd first second).toNat = first.toNat + second.toNat := by
  rw [toNat_saturatingAdd]
  omega

theorem gap_within {base stop cursor : UInt64} {contributions : List SectionContribution}
    (inside : ∀ c ∈ contributions, (saturatingAdd base c.offset).toNat ≤ stop.toNat)
    {gap : UInt64 × UInt64} (isGap : gap ∈ gapsFrom base stop cursor contributions) :
    cursor.toNat ≤ gap.1.toNat ∧ gap.1.toNat + gap.2.toNat ≤ stop.toNat := by
  induction contributions generalizing cursor with
  | nil =>
      rw [gapsFrom] at isGap
      split at isGap
      · rename_i before
        cases List.mem_singleton.mp isGap
        rw [UInt64.lt_iff_toNat_lt] at before
        have size := UInt64.toNat_sub_of_le _ _ (UInt64.le_iff_toNat_le.mpr (Nat.le_of_lt before))
        dsimp only
        omega
      · exact absurd isGap List.not_mem_nil
  | cons c rest induction =>
      rw [gapsFrom] at isGap
      rcases List.mem_append.mp isGap with isFirst | isLater
      · split at isFirst
        · rename_i before
          cases List.mem_singleton.mp isFirst
          rw [UInt64.lt_iff_toNat_lt] at before
          have size := UInt64.toNat_sub_of_le _ _
            (UInt64.le_iff_toNat_le.mpr (Nat.le_of_lt before))
          have below := inside c List.mem_cons_self
          dsimp only
          omega
        · exact absurd isFirst List.not_mem_nil
      · have later := induction (fun other present =>
          inside other (List.mem_cons_of_mem _ present)) isLater
        have behind : cursor.toNat ≤
            (max cursor (saturatingAdd (saturatingAdd base c.offset) c.size)).toNat := by
          rw [toNat_max]
          exact le_max_left _ _
        exact ⟨behind.trans later.1, later.2⟩

/-! ## Contents -/

theorem length_buildIdNote : buildIdNote.length = 32 := rfl

theorem checkedWrite_of_fits {off : UInt64} {data : List UInt8}
    (fits : off.toNat + data.length ≤ bufLen) :
    checkedWrite bufLen off data = [⟨off.toNat, data⟩] := if_pos fits

theorem gotSlotWrites_eq {slots : List SymbolId} {base : UInt64}
    (small : base.toNat + slots.length * 8 < 2 ^ 64)
    (fits : base.toNat + slots.length * 8 ≤ bufLen) :
    gotSlotWrites symbols bufLen slots base = slots.zipIdx.map fun slot =>
      ⟨base.toNat + slot.2 * 8, toLeBytes (slotAddress symbols slot.1)⟩ := by
  rw [gotSlotWrites, List.map_eq_flatMap]
  apply List.flatMap_congr
  intro slot present
  have inside := List.snd_lt_of_mem_zipIdx present
  have eight : (8 : UInt64).toNat = 8 := rfl
  have offset : (base + UInt64.ofNat slot.2 * 8).toNat = base.toNat + slot.2 * 8 := by
    rw [UInt64.toNat_add, UInt64.toNat_mul, UInt64.toNat_ofNat', eight]
    omega
  rw [checkedWrite_of_fits (by rw [offset, length_toLeBytes]; omega), offset]

theorem symtabWrites_eq {base : UInt64} {place : Nat} {entries : List SymEntry}
    (small : base.toNat + 24 * (place + entries.length + 1) < 2 ^ 64)
    (fits : base.toNat + 24 * (place + entries.length + 1) ≤ bufLen) :
    symtabWrites symbols bufLen base place entries = (entries.zipIdx place).map fun entry =>
      ⟨base.toNat + 24 * (entry.2 + 1), (symtabRecord symbols entry.1).bytes⟩ := by
  induction entries generalizing place with
  | nil => rfl
  | cons entry rest induction =>
      rw [List.length_cons] at small fits
      rw [symtabWrites, entryOffset_toNat (by omega), if_neg (by omega), List.zipIdx_cons,
        List.map_cons, induction (by omega) (by omega)]

/-- What is written to a section of its own lies in the bytes that it needs. -/
theorem localContents_within {source : SecSource}
    (isPatch : patch ∈ layout.localContents symbols source) :
    patch.offset + patch.data.length ≤ layout.contentSize source := by
  have whole (data : List UInt8) (isWhole : patch ∈ [(⟨0, data⟩ : Buffer.Patch UInt8)]) :
      patch.offset + patch.data.length ≤ data.length := by
    rw [List.mem_singleton.mp isWhole, Nat.zero_add]
  cases source with
  | got =>
      rcases List.mem_map.mp isPatch with ⟨slot, present, rfl⟩
      have inside := List.snd_lt_of_mem_zipIdx present
      rw [Layout.contentSize, length_toLeBytes]
      dsimp only
      omega
  | symTab =>
      rcases List.mem_map.mp isPatch with ⟨entry, present, rfl⟩
      have inside := List.snd_lt_of_mem_zipIdx present
      have wide : symSize.toNat = 24 := rfl
      have length : (symtabRecord symbols entry.1).bytes.length = 24 := rfl
      rw [Layout.contentSize, wide, length]
      dsimp only
      omega
  | ehFrameHdr => exact absurd isPatch List.not_mem_nil
  | noteBuildId => exact whole _ isPatch
  | _ => exact whole _ isPatch

theorem contentWrites_eq (small : s.shOffset.toNat + layout.contentSize s.source < 2 ^ 64)
    (fits : s.shOffset.toNat + layout.contentSize s.source ≤ bufLen) :
    contentWrites symbols layout bufLen s =
      (layout.localContents symbols s.source).map
        (Buffer.Patch.moved s.shOffset.toNat) := by
  rw [contentWrites]
  cases isSource : s.source with
  | got =>
      rw [isSource, Layout.contentSize] at small fits
      rw [gotSlotWrites_eq small fits, Layout.localContents, List.map_map]
      rfl
  | symTab =>
      have wide : symSize.toNat = 24 := rfl
      rw [isSource, Layout.contentSize, wide] at small fits
      rw [symtabWrites_eq (by omega) (by omega), Layout.localContents, List.map_map]
      rfl
  | ehFrameHdr => rfl
  | noteBuildId =>
      rw [isSource] at fits
      exact checkedWrite_of_fits fits
  | _ =>
      rw [isSource] at fits
      exact checkedWrite_of_fits fits

/-! ## Items -/

theorem exists_contribution
    (present : item ∈ collectInputWorkItems layout objects filter) :
    ∃ s ∈ layout.outputSections, s.source = .input ∧
      filter.collectsOutputSection s.name = true ∧ ∃ c ∈ s.contributions,
        filter.writesContribution c.objectId = true ∧ workItemOf objects s c = some item := by
  rw [collectInputWorkItems] at present
  rcases List.mem_flatMap.mp present with ⟨s, inSections, isItem⟩
  rcases List.mem_filter.mp inSections with ⟨inSections, collected⟩
  rw [Bool.and_eq_true, beq_iff_eq] at collected
  rcases List.mem_filterMap.mp isItem with ⟨c, inContributions, isItem⟩
  rcases List.mem_filter.mp inContributions with ⟨inContributions, isWritten⟩
  exact ⟨s, inSections, collected.1, collected.2, c, inContributions, isWritten, isItem⟩

theorem item_of_contribution (filter : SectionWriteFilter) {c : SectionContribution}
    (present : s ∈ layout.outputSections)
    (isInput : s.source = .input) (collected : filter.collectsOutputSection s.name = true)
    (inContributions : c ∈ s.contributions)
    (isWritten : filter.writesContribution c.objectId = true)
    (isItem : workItemOf objects s c = some item) :
    item ∈ collectInputWorkItems layout objects filter := by
  rw [collectInputWorkItems]
  refine List.mem_flatMap.mpr ⟨s, List.mem_filter.mpr ⟨present, ?_⟩, ?_⟩
  · rw [isInput, collected]
    rfl
  · exact List.mem_filterMap.mpr ⟨c, List.mem_filter.mpr ⟨inContributions, isWritten⟩, isItem⟩

theorem fileOff_of_item {c : SectionContribution} (isItem : workItemOf objects s c = some item) :
    item.fileOff = saturatingAdd s.shOffset c.offset := by
  rw [workItemOf] at isItem
  rcases Option.bind_eq_some_iff.mp isItem with ⟨obj, _, isItem⟩
  rcases Option.bind_eq_some_iff.mp isItem with ⟨isec, _, isItem⟩
  cases isItem
  rfl

theorem fileLen_of_item {c : SectionContribution}
    (isItem : workItemOf objects s c = some item) :
    item.fileLen = item.isec.data.len.toUInt64 := by
  rw [workItemOf] at isItem
  rcases Option.bind_eq_some_iff.mp isItem with ⟨obj, _, isItem⟩
  rcases Option.bind_eq_some_iff.mp isItem with ⟨isec, _, isItem⟩
  cases isItem
  rfl

theorem objId_of_item {c : SectionContribution} (isItem : workItemOf objects s c = some item) :
    item.objId = c.objectId := by
  rw [workItemOf] at isItem
  rcases Option.bind_eq_some_iff.mp isItem with ⟨obj, _, isItem⟩
  rcases Option.bind_eq_some_iff.mp isItem with ⟨isec, _, isItem⟩
  cases isItem
  rfl

theorem notBss_of_input (isInput : s.source = .input) : s.source ≠ .bss := by
  rw [isInput]
  exact SecSource.noConfusion

end

namespace Layout.Separate

variable {arena : InputArena} {objects : List InputObject} {symbols : SymbolTable}
variable {layout : Layout} {filter : SectionWriteFilter} {place : Nat}
variable {patch : Buffer.Patch UInt8} {s other : OutputSection} {item : WorkItem}
variable (separate : layout.Separate objects)

include separate

/-! ## Sections -/

theorem mem_backed (present : s ∈ layout.outputSections) (notBss : s.source ≠ .bss) :
    s ∈ layout.outputSections.filter OutputSection.isFileBacked :=
  List.mem_filter.mpr ⟨present, separate.backed s present notBss⟩

theorem within_headers (present : s ∈ layout.outputSections) (notBss : s.source ≠ .bss) :
    layout.headersStop ≤ s.shOffset.toNat ∧
      s.shOffset.toNat + s.shSize.toNat ≤ layout.shoff.toNat := by
  have order := separate.laid.pairwise
  rw [Layout.fileRanges, List.append_assoc, List.singleton_append, List.pairwise_cons,
    List.pairwise_append] at order
  have inRanges : s.inFile ∈ (layout.outputSections.filter OutputSection.isFileBacked).map
      OutputSection.inFile := List.mem_map_of_mem (separate.mem_backed present notBss)
  have first := order.1 s.inFile (List.mem_append_left _ inRanges)
  have last := order.2.2.2 s.inFile inRanges _ (List.mem_singleton_self _)
  rw [Spans.Span.stop, Nat.zero_add] at first
  exact ⟨first, last⟩

theorem stop_le (present : s ∈ layout.outputSections) (notBss : s.source ≠ .bss) :
    s.shOffset.toNat + s.shSize.toNat ≤ layout.fileSize := by
  have isBacked : s.inFile ∈ (layout.outputSections.filter OutputSection.isFileBacked).map
      OutputSection.inFile := List.mem_map_of_mem (separate.mem_backed present notBss)
  exact (separate.laid.within
    (List.mem_append_left _ (List.mem_append_right _ isBacked))).2

theorem stop_lt (present : s ∈ layout.outputSections) (notBss : s.source ≠ .bss) :
    s.shOffset.toNat + s.shSize.toNat < 2 ^ 64 :=
  Nat.lt_of_le_of_lt (separate.within_headers present notBss).2 layout.shoff.toNat_lt

theorem exists_split (present : s ∈ layout.outputSections) (notBss : s.source ≠ .bss)
    (inside : s.HasPlace place) : ∃ before after,
      layout.outputSections = before ++ s :: after ∧
        ∀ other ∈ before ++ after, other.source ≠ .bss → ¬ other.HasPlace place := by
  rcases List.append_of_mem present with ⟨before, after, split⟩
  refine ⟨before, after, split, fun other among otherNotBss inOther => ?_⟩
  have isOther : other ∈ layout.outputSections := by
    rw [split]
    rcases List.mem_append.mp among with isBefore | isAfter
    · exact List.mem_append_left _ isBefore
    · exact List.mem_append_right _ (List.mem_cons_of_mem _ isAfter)
  have isBacked := separate.backed s present notBss
  have otherBacked := separate.backed other isOther otherNotBss
  have order := separate.laid.pairwise
  rw [Layout.fileRanges, List.pairwise_append, List.pairwise_append, List.pairwise_map, split,
    List.filter_append, List.filter_cons, if_pos isBacked, List.pairwise_append] at order
  have ranges := order.1.2.1
  have above := inside.1
  have below := inside.2
  have otherAbove := inOther.1
  have otherBelow := inOther.2
  rcases List.mem_append.mp among with isBefore | isAfter
  · have fits : other.shOffset.toNat + other.shSize.toNat ≤ s.shOffset.toNat :=
      ranges.2.2 other (List.mem_filter.mpr ⟨isBefore, otherBacked⟩) s List.mem_cons_self
    omega
  · have fits : s.shOffset.toNat + s.shSize.toNat ≤ other.shOffset.toNat :=
      (List.pairwise_cons.mp ranges.2.1).1 other (List.mem_filter.mpr ⟨isAfter, otherBacked⟩)
    omega

theorem eq_of_hasPlace (isFirst : s ∈ layout.outputSections) (notBss : s.source ≠ .bss)
    (isSecond : other ∈ layout.outputSections) (otherNotBss : other.source ≠ .bss)
    (inFirst : s.HasPlace place) (inSecond : other.HasPlace place) : s = other := by
  by_contra different
  have apart := separate.laid.apart
  rw [Layout.fileRanges, List.pairwise_append, List.pairwise_append, List.pairwise_map] at apart
  have symmetric : Std.Symm fun first second : OutputSection =>
      Spans.Span.Apart first.inFile second.inFile := ⟨fun _ _ separate => Or.symm separate⟩
  have ranges := apart.1.2.1.forall (separate.mem_backed isFirst notBss)
    (separate.mem_backed isSecond otherNotBss) different
  rcases inFirst with ⟨firstAbove, firstBelow⟩
  rcases inSecond with ⟨secondAbove, secondBelow⟩
  rcases ranges with before | behind
  · have fits : s.shOffset.toNat + s.shSize.toNat ≤ other.shOffset.toNat := before
    omega
  · have fits : other.shOffset.toNat + other.shSize.toNat ≤ s.shOffset.toNat := behind
    omega

/-! ## The part of each write -/

theorem lt_of_header (isHeader : patch ∈ headerWrites layout) (covers : patch.Covers place) :
    place < layout.headersStop := by
  have size : phdrSize.toNat = 56 := rfl
  have room := separate.headers
  have count := separate.segments
  rw [Layout.headersStop, size]
  rcases (covers_headerWrites_iff layout place).mp ⟨patch, isHeader, covers⟩ with
    below | ⟨_, below⟩ | ⟨_, below⟩
  · omega
  · omega
  · omega

theorem hasPlace_of_gap (present : s ∈ layout.outputSections) (isInput : s.source = .input)
    (isGap : patch ∈ zeroInputGaps layout.fileSize s) (covers : patch.Covers place) :
    s.HasPlace place := by
  have notBss : s.source ≠ .bss := by
    rw [isInput]
    exact SecSource.noConfusion
  have small := separate.stop_lt present notBss
  have stop := toNat_saturatingAdd_of_lt small
  rcases List.mem_flatMap.mp isGap with ⟨gap, inGaps, isPatch⟩
  have within := gap_within (fun c inContributions => by
    have extent := separate.extents s present c inContributions
    have fits : c.offset.toNat + c.size.toNat ≤ s.shSize.toNat := extent
    rw [stop, toNat_saturatingAdd]
    omega) inGaps
  have inGap := covers_zeroWrites isPatch covers
  rw [stop] at within
  exact ⟨within.1.trans inGap.1, Nat.lt_of_lt_of_le inGap.2 within.2⟩

theorem contentWrites_eq (present : s ∈ layout.outputSections) (notBss : s.source ≠ .bss) :
    contentWrites symbols layout layout.fileSize s =
      (layout.localContents symbols s.source).map
        (Buffer.Patch.moved s.shOffset.toNat) := by
  have room := separate.contents s present
  have small := separate.stop_lt present notBss
  have fits := separate.stop_le present notBss
  exact Peony.contentWrites_eq (by omega) (by omega)

theorem hasPlace_of_content (present : s ∈ layout.outputSections) (notBss : s.source ≠ .bss)
    (isContent : patch ∈ contentWrites symbols layout layout.fileSize s)
    (covers : patch.Covers place) : s.HasPlace place := by
  rw [separate.contentWrites_eq present notBss] at isContent
  rcases List.mem_map.mp isContent with ⟨own, isOwn, rfl⟩
  have inside := localContents_within isOwn
  have room := separate.contents s present
  have above := covers.1
  have below := covers.2
  rw [Buffer.Patch.moved] at above below
  dsimp only at above below
  exact ⟨by omega, by omega⟩

theorem hasPlace_of_section (present : s ∈ layout.outputSections)
    (isPatch : patch ∈ sectionWrites symbols layout filter layout.fileSize s)
    (covers : patch.Covers place) : s.HasPlace place := by
  rw [sectionWrites] at isPatch
  split at isPatch
  · rename_i isInput
    split at isPatch
    · exact separate.hasPlace_of_gap present isInput isPatch covers
    · exact absurd isPatch List.not_mem_nil
  · split at isPatch
    · rcases List.mem_append.mp isPatch with isZero | isContent
      · exact covers_zeroWrites isZero covers
      · refine separate.hasPlace_of_content present ?_ isContent covers
        intro isBss
        rename_i isWritten
        rw [syntheticSectionIsWritten, isBss] at isWritten
        cases isWritten
    · exact absurd isPatch List.not_mem_nil

theorem hasPlace_of_item {c : SectionContribution} (present : s ∈ layout.outputSections)
    (isInput : s.source = .input) (inContributions : c ∈ s.contributions)
    (isItem : workItemOf objects s c = some item) (covers : item.Covers place) :
    s.HasPlace place := by
  have notBss : s.source ≠ .bss := by
    rw [isInput]
    exact SecSource.noConfusion
  have small := separate.stop_lt present notBss
  have extent : c.offset.toNat + c.size.toNat ≤ s.shSize.toNat :=
    separate.extents s present c inContributions
  have size := separate.items s present c inContributions item isItem
  have start : (saturatingAdd s.shOffset c.offset).toNat = s.shOffset.toNat + c.offset.toNat :=
    toNat_saturatingAdd_of_lt (by omega)
  rw [WorkItem.Covers, fileOff_of_item isItem, start] at covers
  exact ⟨by omega, by omega⟩

theorem section_of_item (present : item ∈ collectInputWorkItems layout objects filter)
    (covers : item.Covers place) : ∃ s ∈ layout.outputSections, s.source = .input ∧
      filter.collectsOutputSection s.name = true ∧ s.HasPlace place := by
  rcases exists_contribution present with
    ⟨s, inSections, isInput, collected, c, inContributions, _, isItem⟩
  exact ⟨s, inSections, isInput, collected,
    separate.hasPlace_of_item inSections isInput inContributions isItem covers⟩

theorem hasPlace_of_slot (isSlot : patch ∈ writeTlsGot layout.fileSize layout)
    (covers : patch.Covers place) :
    ∃ got, layout.firstOf .got = some got ∧ got.HasPlace place := by
  rw [writeTlsGot] at isSlot
  cases isGot : layout.firstOf .got with
  | none =>
      rw [isGot] at isSlot
      exact absurd isSlot List.not_mem_nil
  | some got =>
      rw [isGot] at isSlot
      rcases List.mem_flatMap.mp isSlot with ⟨slot, present, isPatch⟩
      rcases firstOf_spec isGot with ⟨isSection, isSource⟩
      have notBss : got.source ≠ .bss := by
        rw [isSource]
        exact SecSource.noConfusion
      have small := separate.stop_lt isSection notBss
      have addresses := separate.slots.1 got isGot
      have noWrap := separate.slots.2 slot present
      have eight : (8 : UInt64).toNat = 8 := rfl
      have stop : (got.shAddr + got.shSize).toNat = got.shAddr.toNat + got.shSize.toNat := by
        rw [UInt64.toNat_add, Nat.mod_eq_of_lt addresses]
      have slotStop : (slot.1 + 8).toNat = slot.1.toNat + 8 := by
        rw [UInt64.toNat_add, eight, Nat.mod_eq_of_lt noWrap]
      rw [tlsSlotWrites] at isPatch
      split at isPatch
      · exact absurd isPatch List.not_mem_nil
      rename_i inside
      rw [not_or, UInt64.lt_iff_toNat_lt, UInt64.lt_iff_toNat_lt, stop, slotStop] at inside
      rcases mem_checkedWrite.mp isPatch with ⟨_, rfl⟩
      have distance := UInt64.toNat_sub_of_le _ _
        (UInt64.le_iff_toNat_le.mpr (Nat.not_lt.mp inside.1))
      have offset : (got.shOffset + (slot.1 - got.shAddr)).toNat =
          got.shOffset.toNat + (slot.1.toNat - got.shAddr.toNat) := by
        rw [UInt64.toNat_add, distance]
        exact Nat.mod_eq_of_lt (by omega)
      rw [Buffer.Patch.Covers, length_toLeBytes] at covers
      dsimp only at covers
      rw [offset] at covers
      exact ⟨got, rfl, by omega, by omega⟩

theorem room_of_descriptor {note : OutputSection}
    (isNote : layout.firstOf .noteBuildId = some note) : 32 ≤ note.shSize.toNat := by
  rcases firstOf_spec isNote with ⟨present, isSource⟩
  have room := separate.contents note present
  rw [isSource, Layout.contentSize, length_buildIdNote] at room
  exact room

theorem hasPlace_of_descriptor {note : OutputSection}
    (isNote : layout.firstOf .noteBuildId = some note)
    (isPatch : patch ∈ zeroWrites layout.fileSize (note.shOffset + 16) 16)
    (covers : patch.Covers place) : note.HasPlace place := by
  rcases firstOf_spec isNote with ⟨present, isSource⟩
  have notBss : note.source ≠ .bss := by
    rw [isSource]
    exact SecSource.noConfusion
  have small := separate.stop_lt present notBss
  have room := separate.room_of_descriptor isNote
  have sixteen : (16 : UInt64).toNat = 16 := rfl
  have offset : (note.shOffset + 16).toNat = note.shOffset.toNat + 16 := by
    rw [UInt64.toNat_add, sixteen]
    exact Nat.mod_eq_of_lt (by omega)
  have inside := covers_zeroWrites isPatch covers
  rw [offset, sixteen] at inside
  exact ⟨by omega, by omega⟩

theorem framesApart : layout.FramesApart := by
  have backed {source : SecSource} {s : OutputSection} (isFirst : layout.firstOf source = some s)
      (notBss : source ≠ .bss) : s.isFileBacked = true := by
    rcases firstOf_spec isFirst with ⟨present, isSource⟩
    exact separate.backed s present (isSource ▸ notBss)
  apply Layout.framesApart_of_laid separate.laid
  · intro hdr isHdr
    exact backed isHdr SecSource.noConfusion
  · intro eh isEh
    apply separate.backed eh (List.mem_of_find?_eq_some isEh)
    rw [separate.frames eh isEh]
    exact SecSource.noConfusion
  · intro note isNote
    refine ⟨backed isNote SecSource.noConfusion, fun isEh => ?_,
      separate.room_of_descriptor isNote⟩
    have isInput := separate.frames note isEh
    rw [(firstOf_spec isNote).2] at isInput
    cases isInput

/-- Nothing is written behind the planned bytes, but for a table of the frames that is
rewritten alone. -/
theorem not_spills {image : List UInt8} (size : image.length = layout.fileSize)
    (whole : filter.isMinimal = false ∨ layout.firstOf .ehFrameHdr = none) :
    ¬ Spills symbols layout filter image place := by
  intro spills
  cases spills with
  | content _ present isWritten isContent covers outside =>
      rw [size] at isContent
      refine outside (separate.hasPlace_of_content present (fun isBss => ?_) isContent covers)
      rw [syntheticSectionIsWritten, isBss] at isWritten
      cases isWritten
  | tlsSlot _ isGot isSlot covers outside =>
      rw [size] at isSlot
      rcases separate.hasPlace_of_slot isSlot covers with ⟨got, isFirst, inside⟩
      rw [isGot, Option.some.injEq] at isFirst
      exact outside (isFirst ▸ inside)
  | descriptor _ isNote isDescriptor covers outside =>
      rw [size] at isDescriptor
      exact outside (separate.hasPlace_of_descriptor isNote isDescriptor covers)
  | frameTable minimal isHdr _ _ _ _ _ =>
      rcases whole with isWhole | noHdr
      · rw [isWhole] at minimal
        cases minimal
      · rw [noHdr] at isHdr
        cases isHdr

theorem allReported {opened : List UInt8} {report : EmitWriteReport}
    {writes : List (Buffer.Patch UInt8)} (size : opened.length = layout.fileSize)
    (whole : filter.isMinimal = false ∨ layout.firstOf .ehFrameHdr = none)
    (isReport : reportForFilter layout objects filter opened.length = .ok report)
    (areWrites : emitWrites arena objects symbols layout filter opened = .ok writes) :
    AllReported writes report := by
  rcases exists_dataWrites areWrites with ⟨data, isData⟩
  apply allReported_of_planned isReport isData areWrites
  intro place spills
  exact absurd spills (separate.not_spills ((Buffer.length_applyAll _ _).trans size) whole)

/-! ## The section of a place -/

theorem eq_of_firstOf {source : SecSource} (isFirst : layout.firstOf source = some other)
    (otherNotBss : source ≠ .bss) (present : s ∈ layout.outputSections)
    (notBss : s.source ≠ .bss) (inside : s.HasPlace place) (inOther : other.HasPlace place) :
    s = other := by
  rcases firstOf_spec isFirst with ⟨isOther, isSource⟩
  rw [← isSource] at otherNotBss
  exact separate.eq_of_hasPlace present notBss isOther otherNotBss inside inOther

theorem slot_outside_input (present : s ∈ layout.outputSections) (isInput : s.source = .input)
    (inside : s.HasPlace place) :
    ∀ patch ∈ writeTlsGot layout.fileSize layout, ¬ patch.Covers place := by
  intro patch isSlot covers
  rcases separate.hasPlace_of_slot isSlot covers with ⟨got, isGot, inGot⟩
  have same := separate.eq_of_firstOf isGot SecSource.noConfusion present
    (notBss_of_input isInput) inside inGot
  rw [same, (firstOf_spec isGot).2] at isInput
  cases isInput

end Layout.Separate

end Peony
