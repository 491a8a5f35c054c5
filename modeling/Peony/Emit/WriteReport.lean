import Peony.Driver.Text
import Peony.Emit.Writers

namespace Peony

/-! The report on an emission: the ranges of the file that it is about to write, from the
lengths that the layout plans. -/

inductive EmitError where
  | tooLarge (size : UInt64)
  | workRange (error : WorkRangeError)
  | writeRangeOverflow (label : Name) (start len : UInt64)
  | writeRangeOutOfBounds (label : Name) (start len : UInt64) (bufLen : Nat)
deriving DecidableEq

structure EmitWriteRange where
  label : Name
  fileOffset : UInt64
  len : UInt64
deriving DecidableEq, Repr

abbrev EmitWriteReport := List EmitWriteRange

def EmitWriteRange.Covers (range : EmitWriteRange) (place : Nat) : Prop :=
  range.fileOffset.toNat ≤ place ∧ place < range.fileOffset.toNat + range.len.toNat

def pushRange (bufLen : Nat) (report : EmitWriteReport) (range : EmitWriteRange) :
    Except EmitError EmitWriteReport :=
  let stop := range.fileOffset.toNat + range.len.toNat
  if 2 ^ 64 ≤ stop then .error (.writeRangeOverflow range.label range.fileOffset range.len)
  else if bufLen < stop then
    .error (.writeRangeOutOfBounds range.label range.fileOffset range.len bufLen)
  else .ok (if range.len = 0 then report else report ++ [range])

def checkedLen (count : Nat) (size : UInt64) : Except EmitError UInt64 :=
  if 2 ^ 64 ≤ count * size.toNat then .error (.writeRangeOverflow (nameOf "emit table") 0 size)
  else .ok (UInt64.ofNat (count * size.toNat))

def sectionHeaderCount (layout : Layout) : Nat :=
  ((layout.outputSections.map fun s => s.shndx.toNat).max?.map (· + 1)).getD 1

def sectionHeaderSpanLen (layout : Layout) : Except EmitError UInt64 :=
  if 2 ^ 64 ≤ sectionHeaderCount layout * shdrSize.toNat then
    .error (.writeRangeOverflow (nameOf "section headers") layout.shoff shdrSize)
  else .ok (UInt64.ofNat (sectionHeaderCount layout * shdrSize.toNat))

def lengthWord (length : Nat) : UInt64 :=
  if length < 2 ^ 64 then UInt64.ofNat length else 0xFFFFFFFFFFFFFFFF

section

variable (layout : Layout) (objects : List InputObject) (filter : SectionWriteFilter)
variable (bufLen : Nat)

/-! ## The steps of the builder -/

def recordNonMinimalHeaders (report : EmitWriteReport) : Except EmitError EmitWriteReport :=
  if filter.isMinimal then .ok report
  else do
    let report ← pushRange bufLen report ⟨nameOf "elf header", 0, ehdrSize⟩
    let phdrLen ← checkedLen layout.segments.length phdrSize
    pushRange bufLen report ⟨nameOf "program headers", layout.phoff, phdrLen⟩

/-- The gaps of an input section, or the whole of a synthetic one. -/
def sectionRanges (s : OutputSection) : List EmitWriteRange :=
  if s.source = .input then
    if filter.zeroesGaps s.name then
      s.inputGaps.map fun gap => ⟨nameOf "gap " ++ s.name, gap.1, gap.2⟩
    else []
  else if !filter.isMinimal && syntheticSectionIsWritten layout s then
    [⟨nameOf "synthetic " ++ s.name, s.shOffset, s.shSize⟩]
  else []

def itemRange (item : WorkItem × Option WorkRange) : Option EmitWriteRange :=
  item.2.map fun range =>
    ⟨nameOf "input " ++ nameOf item.1.obj.path ++ nameOf ":" ++
        nameOf (toString item.1.inputSectionIndex) ++ nameOf " " ++
        encodeUtf8 (fromUtf8Lossy item.1.isec.name),
      UInt64.ofNat range.start, UInt64.ofNat (range.stop - range.start)⟩

def recordInputWork (report : EmitWriteReport) : Except EmitError EmitWriteReport := do
  let items := collectInputWorkItems layout objects filter
  let accepted ← (validateWorkItemRanges items bufLen).mapError .workRange
  ((items.zip accepted).filterMap itemRange).foldlM (pushRange bufLen) report

def recordSectionData (report : EmitWriteReport) : Except EmitError EmitWriteReport := do
  let report ← (layout.outputSections.flatMap (sectionRanges layout filter)).foldlM
    (pushRange bufLen) report
  recordInputWork layout objects filter bufLen report

def tlsSlotRange (got : OutputSection) (slot : (UInt64 × UInt64) × Nat) :
    Option EmitWriteRange :=
  let va := slot.1.1
  let fileOffset := got.shOffset.toNat + (va - got.shAddr).toNat
  if 2 ^ 64 ≤ va.toNat + 8 then none
  else if va < got.shAddr ∨ got.shAddr.toNat + got.shSize.toNat < va.toNat + 8 then none
  else if 2 ^ 64 ≤ fileOffset + 8 ∨ bufLen < fileOffset + 8 then none
  else some ⟨nameOf "tls got slot " ++ nameOf (toString slot.2), UInt64.ofNat fileOffset, 8⟩

def tlsGotRanges : List EmitWriteRange :=
  if filter.isMinimal || layout.tlsGotWrites.isEmpty then []
  else
    match layout.firstOf .got with
    | none => []
    | some got =>
        if 2 ^ 64 ≤ got.shAddr.toNat + got.shSize.toNat then []
        else layout.tlsGotWrites.zipIdx.filterMap (tlsSlotRange bufLen got)

/-- The rewritten `.eh_frame_hdr`, as long as the layout has planned its bytes. -/
def ehFrameHdrRanges : List EmitWriteRange :=
  if filter.isMinimal then
    match layout.firstOf .ehFrameHdr, layout.ehFrame with
    | some hdr, some eh =>
        if eh.shOffset.toNat + eh.shSize.toNat < 2 ^ 64 ∧
            eh.shOffset.toNat + eh.shSize.toNat ≤ bufLen then
          let planned := lengthWord layout.dynBlobs.ehFrameHdr.length
          [⟨nameOf ".eh_frame_hdr rewrite", hdr.shOffset,
            if planned ≤ hdr.shSize then planned else hdr.shSize⟩]
        else []
    | _, _ => []
  else []

def recordNonMinimalSectionHeaders (report : EmitWriteReport) :
    Except EmitError EmitWriteReport :=
  if filter.isMinimal then .ok report
  else do
    let len ← sectionHeaderSpanLen layout
    pushRange bufLen report ⟨nameOf "section headers", layout.shoff, len⟩

def recordMinimalBuildIdDescriptor (report : EmitWriteReport) :
    Except EmitError EmitWriteReport :=
  if filter.isMinimal then
    match layout.firstOf .noteBuildId with
    | none => .ok report
    | some note =>
        if 2 ^ 64 ≤ note.shOffset.toNat + 16 then
          .error (.writeRangeOverflow (nameOf "build-id descriptor") note.shOffset 16)
        else if note.shOffset.toNat + 16 + 16 < 2 ^ 64 ∧
            note.shOffset.toNat + 16 + 16 ≤ bufLen then
          pushRange bufLen report ⟨nameOf "build-id descriptor", note.shOffset + 16, 16⟩
        else .ok report
  else .ok report

def reportForFilter : Except EmitError EmitWriteReport := do
  let _ ← (if bufLen < 2 ^ 64 then .ok () else .error (.tooLarge 0xFFFFFFFFFFFFFFFF))
  let report ← recordNonMinimalHeaders layout filter bufLen []
  let report ← recordSectionData layout objects filter bufLen report
  let report ← (tlsGotRanges layout filter bufLen).foldlM (pushRange bufLen) report
  let report ← (ehFrameHdrRanges layout filter bufLen).foldlM (pushRange bufLen) report
  let report ← recordNonMinimalSectionHeaders layout filter bufLen report
  recordMinimalBuildIdDescriptor layout filter bufLen report

/-! ## What a report holds -/

def headerRanges : List EmitWriteRange :=
  if filter.isMinimal then []
  else [⟨nameOf "elf header", 0, ehdrSize⟩, ⟨nameOf "program headers", layout.phoff,
    UInt64.ofNat (layout.segments.length * phdrSize.toNat)⟩]

def inputRanges : List EmitWriteRange :=
  let items := collectInputWorkItems layout objects filter
  (items.zip (workRanges items)).filterMap itemRange

def tableRanges : List EmitWriteRange :=
  if filter.isMinimal then []
  else [⟨nameOf "section headers", layout.shoff,
    UInt64.ofNat (sectionHeaderCount layout * shdrSize.toNat)⟩]

def descriptorRanges : List EmitWriteRange :=
  if filter.isMinimal then
    ((layout.firstOf .noteBuildId).toList.filter fun note =>
        note.shOffset.toNat + 32 < 2 ^ 64 && note.shOffset.toNat + 32 ≤ bufLen).map fun note =>
      ⟨nameOf "build-id descriptor", note.shOffset + 16, 16⟩
  else []

def plannedRanges : List EmitWriteRange :=
  headerRanges layout filter ++ layout.outputSections.flatMap (sectionRanges layout filter) ++
    inputRanges layout objects filter ++ tlsGotRanges layout filter bufLen ++
    ehFrameHdrRanges layout filter bufLen ++ tableRanges layout filter ++
    descriptorRanges layout filter bufLen

end

namespace EmitWriteRange

structure Within (range : EmitWriteRange) (bufLen : Nat) : Prop where
  noOverflow : range.fileOffset.toNat + range.len.toNat < 2 ^ 64
  inside : range.fileOffset.toNat + range.len.toNat ≤ bufLen

end EmitWriteRange

/-- The ranges lie within the file, and those that are not empty are added. -/
structure Records (bufLen : Nat) (ranges : List EmitWriteRange)
    (report next : EmitWriteReport) : Prop where
  within : ∀ range ∈ ranges, range.Within bufLen
  added : next = report ++ ranges.filter fun range => range.len ≠ 0

namespace Records

variable {bufLen : Nat} {ranges more : List EmitWriteRange}
variable {report next last : EmitWriteReport}

theorem nil : Records bufLen [] report report where
  within := fun _ absent => absurd absent List.not_mem_nil
  added := (List.append_nil report).symm

theorem append (first : Records bufLen ranges report next)
    (second : Records bufLen more next last) : Records bufLen (ranges ++ more) report last where
  within := fun range present => (List.mem_append.mp present).elim
    (first.within range) (second.within range)
  added := by
    rw [second.added, first.added, List.filter_append, List.append_assoc]

theorem of_push {range : EmitWriteRange} (pushed : pushRange bufLen report range = .ok next) :
    Records bufLen [range] report next := by
  rw [pushRange] at pushed
  split at pushed
  · exact nomatch pushed
  rename_i noOverflow
  split at pushed
  · exact nomatch pushed
  rename_i inside
  refine ⟨List.forall_mem_singleton.mpr ⟨Nat.not_le.mp noOverflow, Nat.not_lt.mp inside⟩, ?_⟩
  rw [← Except.ok.inj pushed]
  split
  · rename_i empty
    rw [List.filter_cons_of_neg (by simpa using empty), List.filter_nil, List.append_nil]
  · rename_i nonempty
    rw [List.filter_cons_of_pos (by simpa using nonempty), List.filter_nil]

theorem of_pushes (pushed : ranges.foldlM (pushRange bufLen) report = .ok next) :
    Records bufLen ranges report next := by
  induction ranges generalizing report with
  | nil =>
      cases pushed
      exact nil
  | cons range rest induction =>
      rw [List.foldlM_cons] at pushed
      rcases bind_ok pushed with ⟨between, isFirst, isRest⟩
      exact (of_push isFirst).append (induction isRest)

theorem covers_iff (records : Records bufLen ranges [] report) (place : Nat) :
    (∃ range ∈ report, range.Covers place) ↔ ∃ range ∈ ranges, range.Covers place := by
  rw [records.added, List.nil_append]
  constructor
  · rintro ⟨range, present, covers⟩
    exact ⟨range, List.mem_of_mem_filter present, covers⟩
  · rintro ⟨range, present, covers⟩
    refine ⟨range, List.mem_filter.mpr ⟨present, decide_eq_true ?_⟩, covers⟩
    intro isEmpty
    have both := covers
    rw [EmitWriteRange.Covers, isEmpty, UInt64.toNat_zero] at both
    omega

end Records

section

variable {layout : Layout} {objects : List InputObject} {filter : SectionWriteFilter}
variable {bufLen : Nat} {report next : EmitWriteReport}

structure Reported (layout : Layout) (objects : List InputObject)
    (filter : SectionWriteFilter) (bufLen : Nat) (report : EmitWriteReport) : Prop where
  small : bufLen < 2 ^ 64
  headersFit : filter.isMinimal = false → layout.segments.length * 56 < 2 ^ 64
  tableFits : filter.isMinimal = false → sectionHeaderCount layout * 64 < 2 ^ 64
  itemsFit : ItemsFit (collectInputWorkItems layout objects filter) bufLen
  noteFits : filter.isMinimal = true → ∀ note, layout.firstOf .noteBuildId = some note →
    note.shOffset.toNat + 16 < 2 ^ 64
  records : Records bufLen (plannedRanges layout objects filter bufLen) [] report

theorem checkedLen_ok {count : Nat} {size len : UInt64} (isLen : checkedLen count size = .ok len) :
    count * size.toNat < 2 ^ 64 ∧ len = UInt64.ofNat (count * size.toNat) := by
  rw [checkedLen] at isLen
  split at isLen
  · exact nomatch isLen
  · rename_i small
    exact ⟨Nat.not_le.mp small, (Except.ok.inj isLen).symm⟩

theorem recordNonMinimalHeaders_ok
    (isNext : recordNonMinimalHeaders layout filter bufLen report = .ok next) :
    (filter.isMinimal = false → layout.segments.length * 56 < 2 ^ 64) ∧
      Records bufLen (headerRanges layout filter) report next := by
  rw [recordNonMinimalHeaders] at isNext
  rw [headerRanges]
  split at isNext
  · rename_i minimal
    cases isNext
    rw [if_pos minimal]
    exact ⟨fun notMinimal => absurd minimal (Bool.eq_false_iff.mp notMinimal), .nil⟩
  · rename_i notMinimal
    rcases bind_ok isNext with ⟨between, isHeader, isNext⟩
    rcases bind_ok isNext with ⟨len, isLen, isNext⟩
    rcases checkedLen_ok isLen with ⟨small, rfl⟩
    rw [if_neg notMinimal]
    exact ⟨fun _ => small, (Records.of_push isHeader).append (.of_push isNext)⟩

theorem recordInputWork_ok
    (isNext : recordInputWork layout objects filter bufLen report = .ok next) :
    ItemsFit (collectInputWorkItems layout objects filter) bufLen ∧
      Records bufLen (inputRanges layout objects filter) report next := by
  rw [recordInputWork] at isNext
  rcases bind_ok isNext with ⟨accepted, isAccepted, pushed⟩
  rcases validateWorkItemRanges_ok_iff.mp (mapError_ok_iff.mp isAccepted) with ⟨rfl, fit⟩
  exact ⟨fit, .of_pushes pushed⟩

theorem recordNonMinimalSectionHeaders_ok
    (isNext : recordNonMinimalSectionHeaders layout filter bufLen report = .ok next) :
    (filter.isMinimal = false → sectionHeaderCount layout * 64 < 2 ^ 64) ∧
      Records bufLen (tableRanges layout filter) report next := by
  rw [recordNonMinimalSectionHeaders] at isNext
  rw [tableRanges]
  split at isNext
  · rename_i minimal
    cases isNext
    rw [if_pos minimal]
    exact ⟨fun notMinimal => absurd minimal (Bool.eq_false_iff.mp notMinimal), .nil⟩
  · rename_i notMinimal
    rcases bind_ok isNext with ⟨len, isLen, isNext⟩
    rw [sectionHeaderSpanLen] at isLen
    split at isLen
    · exact nomatch isLen
    · rename_i small
      cases isLen
      rw [if_neg notMinimal]
      exact ⟨fun _ => Nat.not_le.mp small, .of_push isNext⟩

theorem recordMinimalBuildIdDescriptor_ok
    (isNext : recordMinimalBuildIdDescriptor layout filter bufLen report = .ok next) :
    (filter.isMinimal = true → ∀ note, layout.firstOf .noteBuildId = some note →
      note.shOffset.toNat + 16 < 2 ^ 64) ∧
      Records bufLen (descriptorRanges layout filter bufLen) report next := by
  rw [recordMinimalBuildIdDescriptor] at isNext
  rw [descriptorRanges]
  by_cases minimal : filter.isMinimal
  · rw [if_pos minimal] at isNext ⊢
    cases isNote : layout.firstOf .noteBuildId with
    | none =>
        rw [isNote] at isNext
        cases isNext
        exact ⟨fun _ _ absent => absurd absent.symm (Option.some_ne_none _), .nil⟩
    | some note =>
        rw [isNote] at isNext
        dsimp only at isNext
        split at isNext
        · exact nomatch isNext
        rename_i small
        refine ⟨fun _ other same => ?_, ?_⟩
        · cases same
          exact Nat.not_le.mp small
        rw [Option.toList_some]
        split at isNext
        · rename_i inside
          rw [List.filter_cons_of_pos (by simpa using inside)]
          exact .of_push isNext
        · rename_i outside
          cases isNext
          rw [List.filter_cons_of_neg (by simpa using outside)]
          exact .nil
  · rw [if_neg minimal] at isNext ⊢
    cases isNext
    exact ⟨fun isMinimal => absurd isMinimal minimal, .nil⟩

theorem reported_of_ok (isReport : reportForFilter layout objects filter bufLen = .ok report) :
    Reported layout objects filter bufLen report := by
  rw [reportForFilter] at isReport
  rcases bind_ok isReport with ⟨done, isSmall, isReport⟩
  have small : bufLen < 2 ^ 64 := by
    by_contra large
    rw [if_neg large] at isSmall
    exact nomatch isSmall
  rcases bind_ok isReport with ⟨withHeaders, isHeaders, isReport⟩
  rcases bind_ok isReport with ⟨withData, isData, isReport⟩
  rcases bind_ok isReport with ⟨withSlots, isSlots, isReport⟩
  rcases bind_ok isReport with ⟨withTable, isTable, isReport⟩
  rcases bind_ok isReport with ⟨withNumbers, isNumbers, isReport⟩
  rw [recordSectionData] at isData
  rcases bind_ok isData with ⟨withSections, isSections, isItems⟩
  rcases recordNonMinimalHeaders_ok isHeaders with ⟨headersFit, headers⟩
  rcases recordInputWork_ok isItems with ⟨itemsFit, items⟩
  rcases recordNonMinimalSectionHeaders_ok isNumbers with ⟨tableFits, numbers⟩
  rcases recordMinimalBuildIdDescriptor_ok isReport with ⟨noteFits, descriptor⟩
  exact ⟨small, headersFit, tableFits, itemsFit, noteFits,
    (((((headers.append (.of_pushes isSections)).append items).append
      (.of_pushes isSlots)).append (.of_pushes isTable)).append numbers).append descriptor⟩

end

end Peony
