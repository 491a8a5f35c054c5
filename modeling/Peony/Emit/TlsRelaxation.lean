import Peony.Emit.TlsSequence

namespace Peony

/-! The relaxation of thread-local sequences, as it is found in the output of a link. -/

namespace DispatchCtx

variable (ctx : DispatchCtx)

theorem inOrder_effects {pairs : List (WorkItem × Option WorkRange)} {bufLen : Nat}
    (fits : ∀ pair ∈ pairs, ∀ accepted ∈ pair.2, pair.1.Fits bufLen)
    (apart : pairs.Pairwise fun first second =>
      ∀ place, ¬ (first.1.Covers place ∧ second.1.Covers place))
    {output last : List UInt8} (whole : output.length = bufLen)
    (done : Batches.inOrder ctx.processAccepted pairs output = .ok last) :
    (∀ place, (∀ pair ∈ pairs, ¬ pair.1.Covers place) → last[place]? = output[place]?) ∧
      ∀ pair ∈ pairs, ∃ change, ctx.effect bufLen pair = .ok change ∧
        ∀ place, pair.1.Covers place → last[place]? = (change output)[place]? := by
  induction pairs generalizing output with
  | nil =>
      cases done
      exact ⟨fun _ _ => rfl, fun pair present => nomatch present⟩
  | cons pair rest induction =>
      have separate := List.pairwise_cons.mp apart
      rw [Batches.inOrder_cons, ctx.processAccepted_eq pair whole] at done
      rcases bind_ok done with ⟨next, isNext, later⟩
      cases isChange : ctx.effect bufLen pair with
      | error fault => rw [isChange] at isNext; exact nomatch isNext
      | ok change =>
          rw [isChange] at isNext
          cases isNext
          have changes := ctx.effect_cases (fits pair List.mem_cons_self) isChange
          have beside (place : Nat) (outside : ¬ pair.1.Covers place) :
              (change output)[place]? = output[place]? := by
            rcases changes with rfl | ⟨patch, within, rfl⟩
            · rfl
            · have notCovered : ∀ other ∈ [patch], ¬ other.Covers place := by
                intro other present covers
                cases List.mem_singleton.mp present
                exact outside (within place covers)
              exact Buffer.getElem?_applyAll_of_not_covers notCovered output
          have length : (change output).length = bufLen := by
            rcases changes with rfl | ⟨patch, _, rfl⟩
            · exact whole
            · exact (Buffer.length_overwrite _ _).trans whole
          rcases induction (fun other present => fits other (List.mem_cons_of_mem _ present))
            separate.2 length later with ⟨outside, each⟩
          constructor
          · intro place notCovered
            rw [outside place fun other present =>
              notCovered other (List.mem_cons_of_mem _ present)]
            exact beside place (notCovered pair List.mem_cons_self)
          · intro other present
            rcases List.mem_cons.mp present with rfl | inRest
            · refine ⟨change, isChange, fun place covers => ?_⟩
              exact outside place fun third inRest covered =>
                separate.1 third inRest place ⟨covers, covered⟩
            · rcases each other inRest with ⟨otherChange, isOther, same⟩
              refine ⟨otherChange, isOther, fun place covers => ?_⟩
              have notPair : ¬ pair.1.Covers place := fun covered =>
                separate.1 other inRest place ⟨covered, covers⟩
              rw [same place covers]
              rcases ctx.effect_cases (fits other (List.mem_cons_of_mem _ inRest)) isOther with
                rfl | ⟨patch, _, rfl⟩
              · exact beside place notPair
              · rw [Buffer.getElem?_overwrite, Buffer.getElem?_overwrite, beside place notPair]

theorem slice_dispatchBatches {items : List WorkItem} {output last : List UInt8}
    {ranges : List (Option WorkRange)}
    (validated : validateWorkItemRanges items output.length = .ok ranges)
    {batches : List (List (WorkItem × Option WorkRange))}
    (same : batches.flatten.Perm (items.zip ranges)) {schedule : List Nat}
    (finished : (ctx.dispatchBatches batches schedule output).IsFinished)
    (emitted : (ctx.dispatchBatches batches schedule output).outcome = .ok last)
    {item : WorkItem} (isItem : item ∈ items) (hasRange : item.fileLen ≠ 0)
    (hasBytes : item.isec.data.len.toNat ≠ 0) :
    item.Fits output.length ∧ ∃ secBuf, ctx.sectionBytes item = .ok secBuf ∧
      (last.drop item.fileOff.toNat).take item.isec.data.len.toNat = secBuf := by
  rcases validateWorkItemRanges_ok_iff.mp validated with ⟨rfl, fit⟩
  have inOrder := (Batches.outcome_ok_iff (ctx.independent fit) rfl same finished last).mp
    emitted
  have fits := fit.fits item isItem hasRange
  have length : items.length ≤ (workRanges items).length := by
    rw [workRanges, List.length_map, List.length_zipIdx]
  have apart : (items.zip (workRanges items)).Pairwise fun first second =>
      ∀ place, ¬ (first.1.Covers place ∧ second.1.Covers place) := by
    have firsts := fit.disjoint
    rw [← List.map_fst_zip length] at firsts
    exact List.pairwise_map.mp firsts
  have effects := (ctx.inOrder_effects (fun pair present => fits_of_mem_zip fit present) apart
    rfl inOrder).2
  rw [← List.map_fst_zip length] at isItem
  rcases List.mem_map.mp isItem with ⟨pair, present, rfl⟩
  rcases effects pair present with ⟨change, isChange, changed⟩
  rcases mem_zip_workRanges present with ⟨_, index, isRange⟩
  have stop : pair.1.fileOff.toNat + pair.1.isec.data.len.toNat ≤
      pair.1.fileOff.toNat + pair.1.fileLen.toNat :=
    Nat.add_le_add_left fits.data _
  have processed : ¬ (pair.1.isec.data.len.toNat = 0 ∨
      2 ^ 64 ≤ pair.1.fileOff.toNat + pair.1.isec.data.len.toNat ∨
      output.length < pair.1.fileOff.toNat + pair.1.isec.data.len.toNat ∨
      ¬ WorkRange.contains ⟨index, pair.1.fileOff.toNat,
        pair.1.fileOff.toNat + pair.1.fileLen.toNat⟩ pair.1.fileOff.toNat
          (pair.1.fileOff.toNat + pair.1.isec.data.len.toNat)) := by
    have inside := fits.inside
    have noOverflow := fits.noOverflow
    have contained : WorkRange.contains ⟨index, pair.1.fileOff.toNat,
        pair.1.fileOff.toNat + pair.1.fileLen.toNat⟩ pair.1.fileOff.toNat
          (pair.1.fileOff.toNat + pair.1.isec.data.len.toNat) = true := by
      rw [WorkRange.contains, Bool.and_eq_true, decide_eq_true_eq, decide_eq_true_eq]
      exact ⟨Nat.le_refl _, stop⟩
    rintro (empty | overflow | outside | notContained)
    · exact hasBytes empty
    · omega
    · omega
    · exact notContained contained
  rw [WorkItem.range, if_neg hasRange] at isRange
  rw [effect, isRange] at isChange
  dsimp only at isChange
  rw [if_neg processed] at isChange
  cases isBytes : ctx.sectionBytes pair.1 with
  | error fault => rw [isBytes] at isChange; cases isChange
  | ok secBuf =>
      rw [isBytes] at isChange
      cases isChange
      have isLength := ctx.length_sectionBytes fits.footprints isBytes
      have within : pair.1.fileOff.toNat + secBuf.length ≤ output.length := by
        rw [isLength]
        exact Nat.le_trans stop fits.inside
      have written := @Buffer.slice_overwrite _ output ⟨pair.1.fileOff.toNat, secBuf⟩ within
      dsimp only at written
      refine ⟨fits, secBuf, rfl, ?_⟩
      rw [← isLength]
      refine Eq.trans ?_ written
      apply Buffer.window_congr
      intro place inBytes
      exact changed _ ⟨Nat.le_add_right _ _, by omega⟩

end DispatchCtx

/-- A link that succeeds has rewritten a thread-local sequence exactly when its call is direct,
or comes before the `lea` or writes what is to be there, and its symbol is in the TLS block. -/
theorem tlsSequence_relaxed_iff {ctx : DispatchCtx} (executable : ctx.reloc.shared = false)
    {items : List WorkItem} {output last : List UInt8} {ranges : List (Option WorkRange)}
    (validated : validateWorkItemRanges items output.length = .ok ranges)
    {batches : List (List (WorkItem × Option WorkRange))}
    (same : batches.flatten.Perm (items.zip ranges)) {schedule : List Nat}
    (finished : (ctx.dispatchBatches batches schedule output).IsFinished)
    (emitted : (ctx.dispatchBatches batches schedule output).outcome = .ok last)
    {item : WorkItem} (isItem : item ∈ items) (hasRange : item.fileLen ≠ 0)
    (sequence : TlsSequence ctx item) :
    sequence.Relaxed
        ((last.drop (item.fileOff.toNat + sequence.start)).take sequence.size) ↔
      sequence.Relaxes := by
  have inside := sequence.inside
  have large := sequence.size_ge
  rcases ctx.slice_dispatchBatches validated same finished emitted isItem hasRange
    (by omega) with ⟨fits, secBuf, isBytes, isSlice⟩
  have isWindow : (last.drop (item.fileOff.toNat + sequence.start)).take sequence.size =
      sequence.window secBuf := by
    rw [TlsSequence.window, ← isSlice, List.drop_take, List.take_take, List.drop_drop,
      Nat.min_eq_left (by omega)]
  rw [isWindow]
  exact sequence.relaxed_iff executable fits.footprints isBytes

/-! A local symbol at the start of a block of eight bytes, and a call through the slot of
`__tls_get_addr` or to its stub, behind the `lea`. -/

private def tlsObject : InputObject where
  path := "a.o"
  sections := []
  symbols := [{
    index := 1
    name := nameOf "x"
    binding := .local
    isUndefined := false
    isCommon := false
    isIfunc := false
    stType := 6
    visibility := 0
    sectionIndex := some 2
    value := 0
    size := 8 }, {
    index := 2
    name := nameOf "__tls_get_addr"
    binding := .global
    isUndefined := true
    isCommon := false
    isIfunc := false
    stType := 0
    visibility := 0
    sectionIndex := none
    value := 0
    size := 0 }]
  sectionMap := default
  symbolMap := IndexLookup.insert (IndexLookup.insert default 1 0) 2 1
  comdatGroups := []

private def tlsItem (form : CallForm) : WorkItem where
  fileOff := 0
  fileLen := 16
  sectionVa := 0x1000
  obj := tlsObject
  isec := {
    index := 1
    name := nameOf ".text"
    kind := .text
    shType := shtProgbits
    data := ⟨.mmap (match form with | .direct => 0 | .indirect => 1), 0, 16⟩
    align := 1
    size := 16
    flags := shfAlloc
    relocs := [⟨4, RelocType.tlsgd.code, 1, -4⟩,
      ⟨12, (match form with | .direct => RelocType.plt32 | .indirect => .gotpcrelx).code, 2, -4⟩] }
  objId := 0
  inputSectionIndex := 1

private def tlsCtx : DispatchCtx where
  arena := ⟨[[0x66, 0x48, 0x8d, 0x3d, 0, 0, 0, 0, 0x66, 0x66, 0x48, 0xe8, 0, 0, 0, 0],
    [0x66, 0x48, 0x8d, 0x3d, 0, 0, 0, 0, 0x66, 0x48, 0xff, 0x15, 0, 0, 0, 0]], []⟩
  reloc := {
    symbols := SymbolTable.new
    layout := {
      addresses := [((0, 2), 0x2000)]
      tlsOffsets := [((0, 2), 0)]
      tlsSize := 8 }
    shared := false
    symIndex := some ⟨[[none, some { SymbolResolution.makeUndefinedResolution with
      isImport := true
      gotAddress := 0x3000 }]]⟩ }

private def tlsSequence (form : CallForm) : TlsSequence tlsCtx (tlsItem form) where
  model := .generalDynamic
  form := form
  start := 0
  secBuf := TlsModel.generalDynamic.lea ++ [0, 0, 0, 0] ++ TlsModel.generalDynamic.call form ++
    [0, 0, 0, 0]
  isSlice := by cases form <;> decide +kernel
  leaDisp := [0, 0, 0, 0]
  callDisp := [0, 0, 0, 0]
  leaFour := rfl
  callFour := rfl
  isSequence := by cases form <;> rfl
  lea := ⟨4, RelocType.tlsgd.code, 1, -4⟩
  call := ⟨12, (match form with | .direct => RelocType.plt32 | .indirect => .gotpcrelx).code, 2,
    -4⟩
  leaType := rfl
  callType := by
    cases form
    · exact ⟨.plt32, List.mem_cons_self, rfl⟩
    · exact ⟨.gotpcrelx, List.mem_cons_of_mem _ List.mem_cons_self, rfl⟩
  leaPlace := rfl
  callPlace := by cases form <;> rfl
  callFirst := false
  front := []
  between := []
  rest := []
  isRelocs := rfl
  apart _ present := nomatch present
  symPos := 0
  sym := tlsObject.symbols[0]
  isPos := rfl
  isSym := rfl
  place := (0, 2, 0)
  isDefined := rfl
  callPos := 1
  callSym := tlsObject.symbols[1]
  isCallPos := rfl
  isCallSym := rfl
  isCall := rfl

private def tlsRanges (form : CallForm) : List (Option WorkRange) := workRanges [tlsItem form]

private theorem tls_validated (form : CallForm) :
    validateWorkItemRanges [tlsItem form] (List.replicate 16 (0 : UInt8)).length =
      .ok (tlsRanges form) := by
  cases form <;> decide +kernel

private def tlsOutcome (form : CallForm) : Except RelocFault (List UInt8) :=
  (tlsCtx.dispatchBatches [[tlsItem form].zip (tlsRanges form)] [0]
    (List.replicate 16 0)).outcome

theorem tlsSequence_relaxed_direct :
    tlsOutcome .direct =
        .ok (movThreadPointer ++ [0x48, 0x8d, 0x80, 0xf8, 0xff, 0xff, 0xff]) ∧
      (tlsSequence .direct).Relaxed
        (movThreadPointer ++ [0x48, 0x8d, 0x80, 0xf8, 0xff, 0xff, 0xff]) := by
  have emitted : tlsOutcome .direct =
      .ok (movThreadPointer ++ [0x48, 0x8d, 0x80, 0xf8, 0xff, 0xff, 0xff]) := by
    decide +kernel
  have finished : (tlsCtx.dispatchBatches [[tlsItem .direct].zip (tlsRanges .direct)] [0]
      (List.replicate 16 0)).IsFinished := by
    intro batch present
    have only : batch ∈ [[]] := present
    exact List.mem_singleton.mp only
  have relaxed := tlsSequence_relaxed_iff rfl (tls_validated .direct) (List.Perm.refl _) finished
    emitted List.mem_cons_self (by decide) (tlsSequence .direct)
  exact ⟨emitted, relaxed.mpr ⟨fun _ => rfl, rfl⟩⟩

/-- The displacement to the slot is written over the offset. -/
theorem tlsSequence_overwritten_indirect :
    tlsOutcome .indirect =
        .ok (movThreadPointer ++ [0x48, 0x8d, 0x80, 0xf0, 0x1f, 0x00, 0x00]) ∧
      ¬ (tlsSequence .indirect).Relaxed
        (movThreadPointer ++ [0x48, 0x8d, 0x80, 0xf0, 0x1f, 0x00, 0x00]) := by
  refine ⟨by decide +kernel, ?_⟩
  rintro ⟨tp, isTp, same⟩
  cases isTp rfl
  exact absurd same (by decide +kernel)

end Peony
