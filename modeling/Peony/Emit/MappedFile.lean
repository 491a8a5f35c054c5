import Peony.Emit.FullEmission

namespace Peony

/-! The emission as it goes through the mapped output: one write after the other, and the
input sections by workers. What it leaves is what the list of its writes leaves. -/

namespace MappedFile

/-! ## Steps -/

def writeBytes (buf : List UInt8) (off : UInt64) (data : List UInt8) : List UInt8 :=
  if off.toNat + data.length ≤ buf.length then Buffer.overwrite buf ⟨off.toNat, data⟩ else buf

def writeSectionBytes (buf : List UInt8) (off size : UInt64) (data : List UInt8) : List UInt8 :=
  writeBytes (zeroSection buf off size) off data

/-- Zero what lies between the contributions, from a cursor on. -/
def zeroGapsFrom (base stop : UInt64) :
    UInt64 → List SectionContribution → List UInt8 → List UInt8
  | cursor, [], buf => if cursor < stop then zeroSection buf cursor (stop - cursor) else buf
  | cursor, contribution :: rest, buf =>
      let start := saturatingAdd base contribution.offset
      zeroGapsFrom base stop (max cursor (saturatingAdd start contribution.size)) rest
        (if cursor < start then zeroSection buf cursor (start - cursor) else buf)

def zeroInputGaps (buf : List UInt8) (s : OutputSection) : List UInt8 :=
  zeroGapsFrom s.shOffset (saturatingAdd s.shOffset s.shSize) s.shOffset s.contributions buf

def writeGotSlots (symbols : SymbolTable) (slots : List SymbolId) (base : UInt64)
    (buf : List UInt8) : List UInt8 :=
  slots.zipIdx.foldl (fun buf slot => writeBytes buf (base + UInt64.ofNat slot.2 * 8)
    (toLeBytes (slotAddress symbols slot.1))) buf

/-- One section, but for the input sections in it. -/
def writeSection (symbols : SymbolTable) (layout : Layout) (filter : SectionWriteFilter)
    (buf : List UInt8) (s : OutputSection) : List UInt8 :=
  match s.source with
  | .input => if filter.zeroesGaps s.name then zeroInputGaps buf s else buf
  | .bss => buf
  | .got => writeGotSlots symbols layout.gotSlots s.shOffset
      (zeroSection buf s.shOffset s.shSize)
  | .symTab => writeSymtabSection symbols layout s buf
  | .noteBuildId => writeBytes (zeroSection buf s.shOffset s.shSize) s.shOffset buildIdNote
  | .ehFrameHdr => zeroSection buf s.shOffset s.shSize
  | .relaEmit index =>
      match layout.emitRelocs[index]? with
      | some bytes => writeSectionBytes buf s.shOffset s.shSize bytes
      | none => buf
  | source => writeSectionBytes buf s.shOffset s.shSize (layout.contentsOf source)

def writeTlsGot (layout : Layout) (buf : List UInt8) : List UInt8 :=
  match layout.firstOf .got with
  | none => buf
  | some got => layout.tlsGotWrites.foldl (fun buf slot =>
      if slot.1 < got.shAddr ∨ got.shAddr + got.shSize < slot.1 + 8 then buf
      else writeBytes buf (got.shOffset + (slot.1 - got.shAddr)) (toLeBytes slot.2)) buf

def writeEhFrameHdr (layout : Layout) (buf : List UInt8) : List UInt8 :=
  match layout.firstOf .ehFrameHdr, layout.ehFrame with
  | some hdr, some eh =>
      if buf.length < eh.shOffset.toNat + eh.shSize.toNat then buf
      else writeBytes buf hdr.shOffset
        ((frameTable eh.shAddr hdr.shAddr (frameEntries eh.shAddr (framesIn buf eh))).take
          hdr.shSize.toNat)
  | _, _ => buf

/-- The descriptor is cleared before the file is hashed. -/
def finalizeBuildId (layout : Layout) (buf : List UInt8) : List UInt8 :=
  match layout.firstOf .noteBuildId with
  | none => buf
  | some note =>
      let cleared := zeroSection buf (note.shOffset + 16) 16
      writeBytes cleared (note.shOffset + 16) (buildIdHash cleared)

/-! ## The emission -/

section

variable (arena : InputArena) (objects : List InputObject) (symbols : SymbolTable)
variable (layout : Layout) (filter : SectionWriteFilter)

def dispatchCtx : DispatchCtx where
  arena := arena
  reloc := {
    symbols := symbols
    layout := layout
    shared := layout.shared
    symIndex := some (SymIndex.build objects symbols) }

/-- The copying of the input sections by workers: if the ranges are accepted, it is what
some schedule of some batches of the items comes to. -/
structure Copies (copy : List UInt8 → Except EmitFault (List UInt8)) : Prop where
  refused : ∀ buf error,
    validateWorkItemRanges (collectInputWorkItems layout objects filter) buf.length =
      .error error → copy buf = .error (.workRange error)
  copied : ∀ buf ranges,
    validateWorkItemRanges (collectInputWorkItems layout objects filter) buf.length =
      .ok ranges → ∃ batches schedule,
        batches.flatten.Perm ((collectInputWorkItems layout objects filter).zip ranges) ∧
        ((dispatchCtx arena objects symbols layout).dispatchBatches batches schedule
          buf).IsFinished ∧
        copy buf = ((dispatchCtx arena objects symbols layout).dispatchBatches batches schedule
          buf).outcome.mapError .reloc

/-- One worker takes all. -/
def copyAlone (buf : List UInt8) : Except EmitFault (List UInt8) := do
  let items := collectInputWorkItems layout objects filter
  let ranges ← (validateWorkItemRanges items buf.length).mapError .workRange
  ((dispatchCtx arena objects symbols layout).dispatchBatches [items.zip ranges]
    (List.replicate (items.zip ranges).length 0) buf).outcome.mapError .reloc

/-- A minimal emission leaves the headers and the sections of the linker as they are. -/
def emitWithFilter (copy : List UInt8 → Except EmitFault (List UInt8)) (buf : List UInt8) :
    Except EmitFault (List UInt8) := do
  let minimal := filter.isMinimal
  let headed := if minimal then buf else writeHeaders layout buf
  let serial := if minimal then headed
    else layout.outputSections.foldl (writeSection symbols layout filter) headed
  let copied ← copy serial
  let slotted := if minimal then copied else writeTlsGot layout copied
  let tabled := writeEhFrameHdr layout slotted
  let numbered := if minimal then tabled else writeSectionHeaders layout tabled
  return finalizeBuildId layout numbered

end

/-! ## Steps and writes -/

section

variable {symbols : SymbolTable} {layout : Layout} {filter : SectionWriteFilter}
variable {buf : List UInt8}

theorem applyAll_checkedWrite (off : UInt64) (data : List UInt8) :
    Buffer.applyAll buf (checkedWrite buf.length off data) = writeBytes buf off data := by
  rw [checkedWrite, writeBytes]
  split
  · rfl
  · rfl

/-- Steps that make writes of their own are all the writes one after the other. -/
theorem foldl_eq_applyAll {Item : Type} (step : List UInt8 → Item → List UInt8)
    (writes : Nat → Item → List (Buffer.Patch UInt8))
    (each : ∀ buf item, step buf item = Buffer.applyAll buf (writes buf.length item))
    (items : List Item) (buf : List UInt8) :
    items.foldl step buf = Buffer.applyAll buf (items.flatMap (writes buf.length)) := by
  induction items generalizing buf with
  | nil => rfl
  | cons item rest induction =>
      rw [List.foldl_cons, List.flatMap_cons, Buffer.applyAll_append, each, induction,
        Buffer.length_applyAll]

theorem zeroGapsFrom_eq (base stop cursor : UInt64) (contributions : List SectionContribution)
    (buf : List UInt8) :
    zeroGapsFrom base stop cursor contributions buf =
      Buffer.applyAll buf ((gapsFrom base stop cursor contributions).flatMap fun gap =>
        zeroWrites buf.length gap.1 gap.2) := by
  induction contributions generalizing cursor buf with
  | nil =>
      rw [zeroGapsFrom, gapsFrom]
      split
      · rw [List.flatMap_singleton, applyAll_zeroWrites]
      · rfl
  | cons contribution rest induction =>
      rw [zeroGapsFrom, gapsFrom, List.flatMap_append, Buffer.applyAll_append, induction]
      split
      · rw [List.flatMap_singleton, applyAll_zeroWrites, length_zeroSection]
      · rfl

theorem writeGotSlots_eq (slots : List SymbolId) (base : UInt64) (buf : List UInt8) :
    writeGotSlots symbols slots base buf =
      Buffer.applyAll buf (gotSlotWrites symbols buf.length slots base) := by
  rw [writeGotSlots, gotSlotWrites]
  exact foldl_eq_applyAll _
    (fun bufLen (slot : SymbolId × Nat) => checkedWrite bufLen (base + UInt64.ofNat slot.2 * 8)
      (toLeBytes (slotAddress symbols slot.1)))
    (fun buf slot => (applyAll_checkedWrite _ _).symm) slots.zipIdx buf

theorem writeSection_of_written {s : OutputSection}
    (isWritten : syntheticSectionIsWritten layout s = true) :
    writeSection symbols layout filter buf s =
      Buffer.applyAll (zeroSection buf s.shOffset s.shSize)
        (contentWrites symbols layout (zeroSection buf s.shOffset s.shSize).length s) := by
  rw [syntheticSectionIsWritten] at isWritten
  rw [writeSection, contentWrites]
  cases isSource : s.source with
  | input =>
      rw [isSource] at isWritten
      cases isWritten
  | bss =>
      rw [isSource] at isWritten
      cases isWritten
  | got => exact writeGotSlots_eq _ _ _
  | symTab => exact (applyAll_symtabWrites _ _ _ _ _).symm
  | noteBuildId => exact (applyAll_checkedWrite _ _).symm
  | ehFrameHdr => rfl
  | relaEmit index =>
      rw [isSource] at isWritten
      rcases Option.isSome_iff_exists.mp isWritten with ⟨bytes, areBytes⟩
      dsimp only [Layout.contentsOf]
      rw [areBytes]
      exact (applyAll_checkedWrite _ _).symm
  | _ => exact (applyAll_checkedWrite _ _).symm

theorem writeSection_eq (symbols : SymbolTable) (layout : Layout) (filter : SectionWriteFilter)
    (buf : List UInt8) (s : OutputSection) :
    writeSection symbols layout filter buf s =
      Buffer.applyAll buf (sectionWrites symbols layout filter buf.length s) := by
  rw [sectionWrites]
  by_cases isInput : s.source = .input
  · rw [if_pos isInput, writeSection, isInput]
    dsimp only
    split
    · exact zeroGapsFrom_eq _ _ _ _ _
    · rfl
  · rw [if_neg isInput]
    by_cases isWritten : syntheticSectionIsWritten layout s = true
    · rw [if_pos isWritten, writeSection_of_written isWritten, Buffer.applyAll_append,
        applyAll_zeroWrites, length_zeroSection]
    · rw [if_neg isWritten, writeSection]
      rw [syntheticSectionIsWritten] at isWritten
      cases isSource : s.source with
      | input => exact absurd isSource isInput
      | bss => rfl
      | relaEmit index =>
          rw [isSource] at isWritten
          dsimp only at isWritten ⊢
          rw [Option.not_isSome_iff_eq_none.mp isWritten]
          rfl
      | _ =>
          rw [isSource] at isWritten
          exact absurd rfl isWritten

theorem writeTlsGot_eq (buf : List UInt8) :
    writeTlsGot layout buf = Buffer.applyAll buf (Peony.writeTlsGot buf.length layout) := by
  rw [writeTlsGot, Peony.writeTlsGot]
  cases layout.firstOf .got with
  | none => rfl
  | some got =>
      refine foldl_eq_applyAll _ (fun bufLen slot => tlsSlotWrites bufLen got slot)
        (fun buf slot => ?_) layout.tlsGotWrites buf
      rw [tlsSlotWrites]
      split
      · rfl
      · exact (applyAll_checkedWrite _ _).symm

theorem writeEhFrameHdr_eq (buf : List UInt8) :
    writeEhFrameHdr layout buf = Buffer.applyAll buf (Peony.writeEhFrameHdr buf layout) := by
  rw [writeEhFrameHdr, Peony.writeEhFrameHdr]
  cases layout.firstOf .ehFrameHdr with
  | none => rfl
  | some hdr =>
      cases layout.ehFrame with
      | none => rfl
      | some eh =>
          dsimp only
          split
          · rfl
          · exact (applyAll_checkedWrite _ _).symm

theorem finalizeBuildId_eq (buf : List UInt8) :
    finalizeBuildId layout buf = Buffer.applyAll buf (Peony.finalizeBuildId buf layout) := by
  rw [finalizeBuildId, Peony.finalizeBuildId]
  cases layout.firstOf .noteBuildId with
  | none => rfl
  | some note =>
      dsimp only
      rw [Buffer.applyAll_append, applyAll_zeroWrites, ← applyAll_checkedWrite,
        length_zeroSection]

end

/-! ## Input sections -/

section

variable {arena : InputArena} {objects : List InputObject} {symbols : SymbolTable}
variable {layout : Layout} {filter : SectionWriteFilter}

theorem inOrder_eq (ctx : DispatchCtx) (items : List (WorkItem × Option WorkRange))
    (buf : List UInt8) :
    Batches.inOrder ctx.processAccepted items buf =
      (items.mapM (ctx.itemWrites buf.length)).map fun writes =>
        Buffer.applyAll buf writes.flatten := by
  induction items generalizing buf with
  | nil => rfl
  | cons item rest induction =>
      rw [Batches.inOrder_cons, ctx.processAccepted_itemWrites, List.mapM_cons]
      cases ctx.itemWrites buf.length item with
      | error fault => rfl
      | ok own =>
          change Batches.inOrder ctx.processAccepted rest (Buffer.applyAll buf own) = _
          rw [induction, Buffer.length_applyAll]
          cases rest.mapM (ctx.itemWrites buf.length) with
          | error fault => rfl
          | ok later =>
              exact congrArg Except.ok (Buffer.applyAll_append buf own later.flatten).symm

variable {copy : List UInt8 → Except EmitFault (List UInt8)}

theorem copies_copyAlone (arena : InputArena) (objects : List InputObject)
    (symbols : SymbolTable) (layout : Layout) (filter : SectionWriteFilter) :
    Copies arena objects symbols layout filter
      (copyAlone arena objects symbols layout filter) where
  refused buf error refused := by
    rw [copyAlone, refused]
    rfl
  copied buf ranges accepted := by
    refine ⟨_, _, ?_, Batches.isFinished_alone buf _ none, by rw [copyAlone, accepted]; rfl⟩
    rw [List.flatten_singleton]

theorem copyInputSections_of_accepted {bufLen : Nat} {ranges : List (Option WorkRange)}
    (accepted : validateWorkItemRanges (collectInputWorkItems layout objects filter) bufLen =
      .ok ranges) :
    copyInputSections arena objects symbols layout filter bufLen =
      ((((collectInputWorkItems layout objects filter).zip ranges).mapM
        ((dispatchCtx arena objects symbols layout).itemWrites bufLen)).mapError .reloc).map
          List.flatten := by
  rw [copyInputSections, accepted]
  rfl

theorem copyInputSections_of_refused {bufLen : Nat} {error : WorkRangeError}
    (refused : validateWorkItemRanges (collectInputWorkItems layout objects filter) bufLen =
      .error error) :
    copyInputSections arena objects symbols layout filter bufLen = .error (.workRange error) := by
  rw [copyInputSections, refused]
  rfl

theorem Copies.ok_iff (copies : Copies arena objects symbols layout filter copy)
    {buf last : List UInt8} :
    copy buf = .ok last ↔
      (copyInputSections arena objects symbols layout filter buf.length).map
        (Buffer.applyAll buf) = .ok last := by
  cases accepted : validateWorkItemRanges (collectInputWorkItems layout objects filter)
      buf.length with
  | error error =>
      rw [copies.refused buf error accepted, copyInputSections_of_refused accepted]
      exact Iff.rfl
  | ok ranges =>
      rcases copies.copied buf ranges accepted with
        ⟨batches, schedule, same, finished, isCopy⟩
      rcases validateWorkItemRanges_ok_iff.mp accepted with ⟨rfl, fit⟩
      have agree := Batches.outcome_ok_iff
        ((dispatchCtx arena objects symbols layout).independent fit) rfl same finished last
      rw [isCopy, mapError_ok_iff, copyInputSections_of_accepted accepted]
      refine agree.trans ?_
      rw [inOrder_eq]
      cases ((collectInputWorkItems layout objects filter).zip
          (workRanges (collectInputWorkItems layout objects filter))).mapM
            ((dispatchCtx arena objects symbols layout).itemWrites buf.length) with
      | error fault =>
          constructor
          · intro impossible
            cases impossible
          · intro impossible
            cases impossible
      | ok writes => simp only [Except.map, Except.mapError, Except.ok.injEq]

/-- What is written from the image once the sections are in it. -/
theorem imageSteps_eq (layout : Layout) (filter : SectionWriteFilter) (image : List UInt8) :
    finalizeBuildId layout
        (if filter.isMinimal then writeEhFrameHdr layout image
          else writeSectionHeaders layout (writeEhFrameHdr layout image)) =
      Buffer.applyAll image (imageWrites layout filter image) := by
  have numbered : (if filter.isMinimal then writeEhFrameHdr layout image
      else writeSectionHeaders layout (writeEhFrameHdr layout image)) =
      Buffer.applyAll image (Peony.writeEhFrameHdr image layout ++
        if filter.isMinimal then [] else sectionHeaderWrites image.length layout) := by
    rw [Buffer.applyAll_append, ← writeEhFrameHdr_eq]
    split
    · rfl
    · rw [← applyAll_sectionHeaderWrites, writeEhFrameHdr_eq, Buffer.length_applyAll]
  rw [numbered, finalizeBuildId_eq]
  exact (Buffer.applyAll_append _ _ _).symm

/-- What is written before the input sections. -/
def serialWrites (symbols : SymbolTable) (layout : Layout) (filter : SectionWriteFilter)
    (bufLen : Nat) : List (Buffer.Patch UInt8) :=
  (if filter.isMinimal then [] else headerWrites layout) ++
    if filter.isMinimal then []
    else layout.outputSections.flatMap (sectionWrites symbols layout filter bufLen)

theorem serialSteps_eq (opened : List UInt8) :
    (if filter.isMinimal then opened
      else layout.outputSections.foldl (writeSection symbols layout filter)
        (writeHeaders layout opened)) =
      Buffer.applyAll opened (serialWrites symbols layout filter opened.length) := by
  rw [serialWrites]
  split
  · rfl
  · rw [Buffer.applyAll_append, foldl_eq_applyAll _ (sectionWrites symbols layout filter)
      (writeSection_eq symbols layout filter), length_writeHeaders]
    rfl

theorem dataWrites_of_copied {bufLen : Nat} {writes : List (Buffer.Patch UInt8)}
    (isCopied : copyInputSections arena objects symbols layout filter bufLen = .ok writes) :
    dataWrites arena objects symbols layout filter bufLen =
      .ok (serialWrites symbols layout filter bufLen ++ writes ++
        if filter.isMinimal then [] else Peony.writeTlsGot bufLen layout) := by
  rw [dataWrites, writeSectionData, isCopied, serialWrites, List.append_assoc _ _ writes]
  rfl

theorem emitWithFilter_eq (opened : List UInt8) :
    emitWithFilter symbols layout filter copy opened =
      (copy (Buffer.applyAll opened
        (serialWrites symbols layout filter opened.length))).map fun copied =>
          Buffer.applyAll (if filter.isMinimal then copied else writeTlsGot layout copied)
            (imageWrites layout filter
              (if filter.isMinimal then copied else writeTlsGot layout copied)) := by
  simp only [emitWithFilter, ← imageSteps_eq, ← serialSteps_eq]
  cases filter.isMinimal with
  | true => rfl
  | false => rfl

/-- However the workers share the input sections, the emission leaves the bytes that the
list of its writes leaves, and fails when there is no such list. -/
theorem emitWithFilter_ok_iff (copies : Copies arena objects symbols layout filter copy)
    {opened last : List UInt8} :
    emitWithFilter symbols layout filter copy opened = .ok last ↔
      (emitWrites arena objects symbols layout filter opened).map (Buffer.applyAll opened) =
        .ok last := by
  have copied := @Copies.ok_iff _ _ _ _ _ _ copies
    (Buffer.applyAll opened (serialWrites symbols layout filter opened.length))
  rw [Buffer.length_applyAll] at copied
  rw [emitWithFilter_eq]
  cases isCopied : copyInputSections arena objects symbols layout filter opened.length with
  | error fault =>
      have noData : emitWrites arena objects symbols layout filter opened = .error fault := by
        rw [emitWrites, dataWrites, writeSectionData, isCopied]
        rfl
      rw [noData]
      cases found : copy (Buffer.applyAll opened
          (serialWrites symbols layout filter opened.length)) with
      | error other =>
          constructor
          · intro impossible
            cases impossible
          · intro impossible
            cases impossible
      | ok buf =>
          have impossible := copied.mp found
          rw [isCopied] at impossible
          cases impossible
  | ok writes =>
      have image : (if filter.isMinimal then
            Buffer.applyAll (Buffer.applyAll opened
              (serialWrites symbols layout filter opened.length)) writes
          else writeTlsGot layout (Buffer.applyAll (Buffer.applyAll opened
            (serialWrites symbols layout filter opened.length)) writes)) =
          Buffer.applyAll opened (serialWrites symbols layout filter opened.length ++ writes ++
            if filter.isMinimal then [] else Peony.writeTlsGot opened.length layout) := by
        rw [Buffer.applyAll_append, Buffer.applyAll_append]
        split
        · rfl
        · rw [writeTlsGot_eq, Buffer.length_applyAll, Buffer.length_applyAll]
      rw [copied.mpr (by rw [isCopied]; rfl), emitWrites_of_data (dataWrites_of_copied isCopied)]
      simp only [Except.map, image, Buffer.applyAll_append]

/-- One worker writes one section to a new file. -/
theorem emitWithFilter_ok_iff_ret :
    ∃ file, emitFull ⟨[[0xc3, 0x90, 0x90, 0x90]], []⟩ [retObject] SymbolTable.new retLayout none =
        .ok file ∧
      emitWithFilter SymbolTable.new retLayout .all
        (copyAlone ⟨[[0xc3, 0x90, 0x90, 0x90]], []⟩ [retObject] SymbolTable.new retLayout .all)
        (openOutputMap none retLayout.fileSize) = .ok file := by
  rcases exists_ok_of_isSome emitRet_data with ⟨data, isData⟩
  have isFile := emitFull_of_data isData none
  exact ⟨_, isFile, (emitWithFilter_ok_iff (copies_copyAlone _ _ _ _ _)).mpr isFile⟩

end

end MappedFile

end Peony
