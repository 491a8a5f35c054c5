import Peony.Emit.Items
import Peony.Foundation.Batches

namespace Peony

/-! The copying and relocating of the input sections, by one worker or by several
that take batches of work items. -/

/-! ## One item -/

structure DispatchCtx where
  arena : InputArena
  reloc : ApplyCtx

namespace InputArena

/-- The handle lies within the bytes that back it. -/
def Holds (arena : InputArena) (data : SectionData) : Prop :=
  (arena.bytes data).length = data.len.toNat

instance (arena : InputArena) (data : SectionData) : Decidable (arena.Holds data) :=
  inferInstanceAs (Decidable (_ = _))

/-- A handle that leaves the bytes that back it is out of bounds. -/
def slice (arena : InputArena) (data : SectionData) :
    Except RelocFault (List UInt8) :=
  if arena.Holds data then .ok (arena.bytes data) else .error .panic

end InputArena

namespace DispatchCtx

variable (ctx : DispatchCtx)

def sectionBytes (item : WorkItem) : Except RelocFault (List UInt8) := do
  let secBuf ← ctx.arena.slice item.isec.data
  item.isec.relocs.foldlM
    (fun secBuf reloc =>
      ctx.reloc.applyReloc item.obj item.objId reloc item.sectionVa secBuf)
    secBuf

/-- Copy one section to its range of the output and relocate it there. -/
def processItem (item : WorkItem) (accepted : WorkRange) (output : List UInt8) :
    Except RelocFault (List UInt8) :=
  let dataLen := item.isec.data.len.toNat
  let stop := item.fileOff.toNat + dataLen
  if dataLen = 0 ∨ 2 ^ 64 ≤ stop ∨ output.length < stop ∨
      ¬ accepted.contains item.fileOff.toNat stop then .ok output
  else do
    let secBuf ← ctx.sectionBytes item
    return Buffer.overwrite output ⟨item.fileOff.toNat, secBuf⟩

def processAccepted (item : WorkItem × Option WorkRange) (output : List UInt8) :
    Except RelocFault (List UInt8) :=
  match item.2 with
  | some accepted => ctx.processItem item.1 accepted output
  | none => .ok output

def processInOrder (items : List WorkItem) (ranges : List (Option WorkRange))
    (output : List UInt8) : Except RelocFault (List UInt8) :=
  Batches.inOrder ctx.processAccepted (items.zip ranges) output

def dispatchBatches (batches : List (List (WorkItem × Option WorkRange)))
    (schedule : List Nat) (output : List UInt8) :
    Batches.Progress (WorkItem × Option WorkRange) (List UInt8) RelocFault :=
  (Batches.Progress.start output batches).run ctx.processAccepted schedule

/-! ## Containment -/

theorem patchBuf_contained {buf : List UInt8} {rType : UInt32} {addrs : RelocAddrs}
    {object : String}
    (inside : ∀ prefixLen len, footprintShape rType = some (prefixLen, len) →
      prefixLen ≤ addrs.offset.toNat ∧
        addrs.offset.toNat - prefixLen + len ≤ buf.length) :
    Contained buf.length (patchBuf buf rType addrs object) := by
  rw [patchBuf]
  cases named : RelocType.ofCode rType with
  | none => exact Contained.ok
  | some type =>
      rw [footprintShape, named] at inside
      have plain {len : Nat} (isField : footprintShape rType = some (0, len))
          {field : Field} (width : field.width = len) :
          Contained buf.length (field.write buf addrs.offset rType object) := by
        rw [footprintShape, named] at isField
        have within := (inside 0 len isField).2
        rw [Nat.sub_zero, ← width] at within
        exact Contained.field within
      simp only [footprintShape, named] at plain
      cases type
      case none | dtpmod64 | tlsdesc => exact Contained.ok
      case tlsgd =>
          rcases inside 4 16 rfl with ⟨isPrefix, within⟩
          simp only [fieldOf]
          cases addrs.shared with
          | true => exact Contained.field (by simp only [Field.width]; omega)
          | false =>
              cases addrs.tlsImported with
              | true => exact relaxGd_contained rfl isPrefix within
              | false => exact relaxGd_contained rfl isPrefix within
      case tlsld =>
          rcases inside 3 12 rfl with ⟨isPrefix, within⟩
          simp only [fieldOf]
          cases addrs.shared with
          | true => exact Contained.field (by simp only [Field.width]; omega)
          | false => exact relaxLdToLe_contained isPrefix within
      case gotpc32Tlsdesc =>
          rcases inside 3 7 rfl with ⟨isPrefix, within⟩
          simp only [fieldOf]
          cases addrs.shared with
          | true => exact Contained.field (by simp only [Field.width]; omega)
          | false =>
              cases addrs.tlsImported with
              | true => exact relaxDescToIe_contained isPrefix within
              | false => exact relaxDescToLe_contained isPrefix within
      case tlsdescCall =>
          have within := (inside 0 2 rfl).2
          simp only [fieldOf]
          cases addrs.shared with
          | true => exact Contained.ok
          | false => exact relaxDescCall_contained within
      all_goals exact plain rfl rfl

theorem applyReloc_contained {obj : InputObject} {objId : Nat} {reloc : InputReloc}
    {isec : InputSection} {sectionVa : UInt64} {buf : List UInt8}
    (inside : reloc.Inside isec) (whole : buf.length = isec.data.len.toNat) :
    Contained buf.length (ctx.reloc.applyReloc obj objId reloc sectionVa buf) := by
  rw [ApplyCtx.applyReloc]
  split
  · exact Contained.error
  · exact Contained.ok
  · rename_i addrs isPatch
    refine patchBuf_contained ?_
    rw [ctx.reloc.offset_of_patch isPatch, whole]
    exact inside

theorem applyRelocs_contained {obj : InputObject} {objId : Nat}
    {relocs : List InputReloc} {isec : InputSection} {sectionVa : UInt64}
    (inside : ∀ reloc ∈ relocs, reloc.Inside isec) {buf : List UInt8}
    (whole : buf.length = isec.data.len.toNat) :
    Contained isec.data.len.toNat
      (relocs.foldlM
        (fun buf reloc => ctx.reloc.applyReloc obj objId reloc sectionVa buf) buf) := by
  induction relocs generalizing buf with
  | nil => exact whole ▸ Contained.ok
  | cons reloc rest induction =>
      rw [List.foldlM_cons]
      refine Contained.bind ?_ fun after kept => ?_
      · have applied : Contained buf.length
            (ctx.reloc.applyReloc obj objId reloc sectionVa buf) :=
          ctx.applyReloc_contained (inside reloc List.mem_cons_self) whole
        rw [whole] at applied
        exact applied
      · exact induction (fun other present => inside other (List.mem_cons_of_mem _ present))
          kept

theorem sectionBytes_contained {item : WorkItem}
    (inside : ∀ reloc ∈ item.isec.relocs, reloc.Inside item.isec)
    (held : ctx.arena.Holds item.isec.data) :
    Contained item.isec.data.len.toNat (ctx.sectionBytes item) := by
  rw [sectionBytes, InputArena.slice, if_pos held]
  exact ctx.applyRelocs_contained inside held

theorem length_sectionBytes {item : WorkItem}
    (inside : ∀ reloc ∈ item.isec.relocs, reloc.Inside item.isec)
    {secBuf : List UInt8} (isBytes : ctx.sectionBytes item = .ok secBuf) :
    secBuf.length = item.isec.data.len.toNat := by
  by_cases held : ctx.arena.Holds item.isec.data
  · exact (ctx.sectionBytes_contained inside held).kept secBuf isBytes
  · rw [sectionBytes, InputArena.slice, if_neg held] at isBytes
    cases isBytes

/-! ## Independence -/

/-- What an item does to an output of the given length: its bytes do not depend on
what the output holds. -/
def effect (bufLen : Nat) (item : WorkItem × Option WorkRange) :
    Except RelocFault (List UInt8 → List UInt8) :=
  match item.2 with
  | none => .ok id
  | some accepted =>
      let dataLen := item.1.isec.data.len.toNat
      let stop := item.1.fileOff.toNat + dataLen
      if dataLen = 0 ∨ 2 ^ 64 ≤ stop ∨ bufLen < stop ∨
          ¬ accepted.contains item.1.fileOff.toNat stop then .ok id
      else (ctx.sectionBytes item.1).map fun secBuf output =>
        Buffer.overwrite output ⟨item.1.fileOff.toNat, secBuf⟩

theorem processAccepted_eq {bufLen : Nat} (item : WorkItem × Option WorkRange)
    {output : List UInt8} (whole : output.length = bufLen) :
    ctx.processAccepted item output =
      (ctx.effect bufLen item).map fun change => change output := by
  rw [processAccepted, effect]
  cases item.2 with
  | none => rfl
  | some accepted =>
      simp only [processItem, whole]
      split
      · rfl
      · cases ctx.sectionBytes item.1 with
        | error fault => rfl
        | ok secBuf => rfl

theorem effect_cases {bufLen : Nat} {item : WorkItem × Option WorkRange}
    (fits : ∀ accepted ∈ item.2, item.1.Fits bufLen)
    {change : List UInt8 → List UInt8} (isChange : ctx.effect bufLen item = .ok change) :
    change = id ∨ ∃ patch : Buffer.Patch UInt8,
      (∀ place, patch.Covers place → item.1.Covers place) ∧
        change = fun output => Buffer.overwrite output patch := by
  rw [effect] at isChange
  split at isChange
  · cases isChange
    exact Or.inl rfl
  · rename_i accepted isAccepted
    have fit := fits accepted isAccepted
    simp only at isChange
    split at isChange
    · cases isChange
      exact Or.inl rfl
    · cases isBytes : ctx.sectionBytes item.1 with
      | error fault =>
          rw [isBytes] at isChange
          cases isChange
      | ok secBuf =>
          rw [isBytes] at isChange
          cases isChange
          have length := ctx.length_sectionBytes fit.footprints isBytes
          refine Or.inr ⟨_, fun place covers => ⟨covers.1, ?_⟩, rfl⟩
          have within := covers.2
          have data := fit.data
          simp only [length] at within
          omega

theorem mem_zip_workRanges {items : List WorkItem} {pair : WorkItem × Option WorkRange}
    (present : pair ∈ items.zip (workRanges items)) :
    pair.1 ∈ items ∧ ∃ index, pair.2 = pair.1.range index := by
  rcases List.getElem?_of_mem present with ⟨index, isPair⟩
  rcases List.getElem?_zip_eq_some.mp isPair with ⟨isItem, isRange⟩
  rw [workRanges, List.getElem?_map, List.getElem?_zipIdx, isItem] at isRange
  refine ⟨List.mem_of_getElem? isItem, 0 + index, ?_⟩
  exact (Option.some.inj isRange).symm

theorem fits_of_mem_zip {items : List WorkItem} {bufLen : Nat}
    (fit : ItemsFit items bufLen) {pair : WorkItem × Option WorkRange}
    (present : pair ∈ items.zip (workRanges items)) :
    ∀ accepted ∈ pair.2, pair.1.Fits bufLen := by
  rcases mem_zip_workRanges present with ⟨isItem, index, isRange⟩
  intro accepted isAccepted
  refine fit.fits pair.1 isItem fun empty => ?_
  rw [isRange, WorkItem.range, if_pos empty] at isAccepted
  cases isAccepted

theorem independent {items : List WorkItem} {bufLen : Nat}
    (fit : ItemsFit items bufLen) :
    Batches.Independent ctx.processAccepted (fun output => output.length = bufLen)
      (ctx.effect bufLen) (items.zip (workRanges items)) where
  works := fun pair _ output whole => ctx.processAccepted_eq pair whole
  keeps := by
    intro pair present change isChange output whole
    rcases ctx.effect_cases (fits_of_mem_zip fit present) isChange with
      rfl | ⟨patch, -, rfl⟩
    · exact whole
    · exact (Buffer.length_overwrite _ _).trans whole
  commutes := by
    have length : items.length ≤ (workRanges items).length := by
      rw [workRanges, List.length_map, List.length_zipIdx]
    have apart : (items.zip (workRanges items)).Pairwise fun first second =>
        ∀ place, ¬ (first.1.Covers place ∧ second.1.Covers place) := by
      have firsts := fit.disjoint
      rw [← List.map_fst_zip length] at firsts
      exact List.pairwise_map.mp firsts
    refine apart.imp_of_mem fun {first second} isFirst isSecond separate => ?_
    intro change other isChange isOther output _
    rcases ctx.effect_cases (fits_of_mem_zip fit isFirst) isChange with
      rfl | ⟨patch, within, rfl⟩
    · rfl
    rcases ctx.effect_cases (fits_of_mem_zip fit isSecond) isOther with
      rfl | ⟨next, nextWithin, rfl⟩
    · rfl
    exact Buffer.overwrite_comm (fun place both => separate place
      ⟨within place both.1, nextWithin place both.2⟩) output

theorem effect_ne_panic {bufLen : Nat} {item : WorkItem × Option WorkRange}
    (fits : ∀ accepted ∈ item.2, item.1.Fits bufLen)
    (held : ctx.arena.Holds item.1.isec.data) :
    ctx.effect bufLen item ≠ .error .panic := by
  intro panics
  rw [effect] at panics
  split at panics
  · cases panics
  · rename_i accepted isAccepted
    have contained := ctx.sectionBytes_contained (fits accepted isAccepted).footprints
      held
    simp only at panics
    split at panics
    · cases panics
    · cases isBytes : ctx.sectionBytes item.1 with
      | error fault =>
          rw [isBytes] at panics
          cases panics
          exact contained.noPanic isBytes
      | ok secBuf =>
          rw [isBytes] at panics
          cases panics

end DispatchCtx

/-- Validation accepts exactly the items whose ranges, data and footprints lie
where they must and whose ranges share no place; and the items it accepts can be
taken in any order, by any workers: they fail together, or leave the same output.
No fault is a panic as long as the sections have their bytes. -/
theorem emission_orderIndependent :
    (∀ items bufLen, (∃ ranges, validateWorkItemRanges items bufLen = .ok ranges) ↔
      ItemsFit items bufLen) ∧
    ∀ (ctx : DispatchCtx) items (output : List UInt8) ranges,
      validateWorkItemRanges items output.length = .ok ranges →
      ∀ batches, batches.flatten.Perm (items.zip ranges) → ∀ schedule,
        (ctx.dispatchBatches batches schedule output).IsFinished →
        ((∃ fault, (ctx.dispatchBatches batches schedule output).outcome =
            .error fault) ↔
          ∃ fault, ctx.processInOrder items ranges output = .error fault) ∧
        (∀ last, (ctx.dispatchBatches batches schedule output).outcome = .ok last ↔
          ctx.processInOrder items ranges output = .ok last) ∧
        ((∀ item ∈ items, ctx.arena.Holds item.isec.data) → ∀ fault,
          (ctx.dispatchBatches batches schedule output).outcome = .error fault →
            ∃ error, fault = .error error) := by
  refine ⟨fun items bufLen => ?_, ?_⟩
  · constructor
    · rintro ⟨ranges, accepted⟩
      exact (validateWorkItemRanges_ok_iff.mp accepted).2
    · intro fit
      exact ⟨_, validateWorkItemRanges_ok_iff.mpr ⟨rfl, fit⟩⟩
  · intro ctx items output ranges accepted batches same schedule finished
    rcases validateWorkItemRanges_ok_iff.mp accepted with ⟨rfl, fit⟩
    have independent := ctx.independent fit
    refine ⟨Batches.outcome_error_iff independent rfl same finished,
      Batches.outcome_ok_iff independent rfl same finished, ?_⟩
    intro held fault fails
    rcases Batches.exists_of_outcome_error independent rfl same fails with
      ⟨pair, present, isFault⟩
    have noPanic := ctx.effect_ne_panic (DispatchCtx.fits_of_mem_zip fit present)
      (held pair.1 (DispatchCtx.mem_zip_workRanges present).1)
    cases fault with
    | error error => exact ⟨error, rfl⟩
    | panic => exact absurd isFault noPanic

private def dispatchedSection (off : UInt32) (reloc : InputReloc) : InputSection where
  index := 1
  name := nameOf ".data"
  kind := .data
  shType := shtProgbits
  data := ⟨.mmap 0, off, 8⟩
  align := 1
  size := 8
  flags := shfAlloc
  relocs := [reloc]

private def dispatchedObject : InputObject where
  path := "a.o"
  sections := []
  symbols := [{
    index := 1
    name := nameOf "x"
    binding := .local
    isUndefined := false
    isCommon := false
    isIfunc := false
    stType := 0
    visibility := 0
    sectionIndex := none
    value := 0x1234
    size := 0 }]
  sectionMap := default
  symbolMap := IndexLookup.insert default 1 0
  comdatGroups := []

private def dispatchedItem (fileOff : UInt64) (off : UInt32) : WorkItem where
  fileOff := fileOff
  fileLen := 8
  sectionVa := 0x1000 + fileOff
  obj := dispatchedObject
  isec := dispatchedSection off ⟨4, RelocType.r32.code, 1, 0⟩
  objId := 0
  inputSectionIndex := 1

private def dispatchedItems : List WorkItem :=
  [dispatchedItem 12 0, dispatchedItem 2 4]

private def dispatchedCtx : DispatchCtx where
  arena := ⟨[[1, 2, 3, 4, 5, 6, 7, 8, 9, 10, 11, 12]], []⟩
  reloc := ⟨SymbolTable.new, {}, false, none⟩

/-- Two workers take the two items in the order opposite to that of the list. -/
theorem emission_orderIndependent_opposite :
    (dispatchedCtx.dispatchBatches
        ((dispatchedItems.zip (workRanges dispatchedItems)).reverse.map fun item => [item])
        [0, 1] (List.replicate 22 0)).outcome =
      .ok [0, 0, 5, 6, 7, 8, 0x34, 0x12, 0, 0, 0, 0, 1, 2, 3, 4, 0x34, 0x12, 0, 0,
        0, 0] := by
  have accepted : validateWorkItemRanges dispatchedItems
      (List.replicate 22 (0 : UInt8)).length = .ok (workRanges dispatchedItems) := by
    decide +kernel
  have opposite := emission_orderIndependent.2 dispatchedCtx dispatchedItems
    (List.replicate 22 0) _ accepted
    ((dispatchedItems.zip (workRanges dispatchedItems)).reverse.map fun item => [item])
    (List.Perm.swap _ _ _) [0, 1] (fun batch present => by
      have both : batch ∈ [[], []] := present
      simpa using both)
  exact (opposite.2.1 _).mpr (by decide +kernel)

end Peony
