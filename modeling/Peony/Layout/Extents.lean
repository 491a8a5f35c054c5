import Peony.Layout.Loads

namespace Peony

/-! Where the passes of the layout put their items: each of them moves a cursor
over items with alignments and sizes. -/

open Spans

theorem slotOf_isAligned {align : UInt64} (power : align.toNat.isPowerOfTwo)
    (size : UInt64) : (slotOf align size).IsAligned := by
  rcases power with ⟨bits, isPower⟩
  refine ⟨bits, ?_⟩
  rw [slotOf, toNat_mask, isPower, max_eq_left Nat.one_le_two_pow]

/-- An alignment of 0 counts as 1. -/
theorem slotOf_max (align size : UInt64) :
    slotOf (max align 1) size = slotOf align size := by
  have twice : max (max align 1) 1 = max align 1 := by
    apply UInt64.toNat_inj.mp
    rw [toNat_max, toNat_max, max_assoc]
    rfl
  rw [slotOf, slotOf, twice]

def SectionContribution.extent (c : SectionContribution) : Span where
  start := c.offset.toNat
  size := c.size.toNat

/-! ## Contributions -/

namespace Icf.Place

/-- The section as an item of its output section. -/
def slot (member : Contributor) : Cursor.Slot :=
  slotOf member.align member.sec.size

/-- The section as an item of a section that is only in the file. -/
def passedSlot (member : Contributor) : Cursor.Slot :=
  slotOf member.sec.align member.sec.data.len.toUInt64

end Icf.Place

namespace LayoutInput

variable {input : LayoutInput}

theorem collect_extents (first : Contributor) (members : List Contributor) :
    (input.grouping.collect first members).size =
        Cursor.finish 0 (members.map Icf.Place.slot) ∧
      (input.grouping.collect first members).contributions.map
          SectionContribution.extent =
        Cursor.spans 0 (members.map Icf.Place.slot) := by
  induction members using List.reverseRecOn with
  | nil => exact ⟨rfl, rfl⟩
  | append_singleton members member induction =>
      rcases induction with ⟨size, extents⟩
      rw [collect_append_singleton, List.map_append, Cursor.finish_append,
        Cursor.spans_append, ← size, ← extents]
      refine ⟨(advance_slotOf _ _ _).symm, ?_⟩
      rw [Builder.add, List.map_append, ← place_slotOf _ _ member.sec.size]
      rfl

theorem passthrough_extents (members : List Contributor) :
    (members.foldl Passthrough.add {}).off =
        Cursor.finish 0 (members.map Icf.Place.passedSlot) ∧
      (members.foldl Passthrough.add {}).contributions.map
          SectionContribution.extent =
        Cursor.spans 0 (members.map Icf.Place.passedSlot) := by
  induction members using List.reverseRecOn with
  | nil => exact ⟨rfl, rfl⟩
  | append_singleton members member induction =>
      rcases induction with ⟨off, extents⟩
      have slot : Icf.Place.passedSlot member =
          slotOf (max member.sec.align 1) member.sec.data.len.toUInt64 :=
        (slotOf_max _ _).symm
      rw [List.foldl_append, List.map_append, Cursor.finish_append,
        Cursor.spans_append, ← off, ← extents, List.map_singleton, slot]
      refine ⟨(advance_slotOf _ _ _).symm, ?_⟩
      rw [List.foldl_cons, List.foldl_nil, Passthrough.add, List.map_append,
        ← place_slotOf _ _ member.sec.data.len.toUInt64]
      rfl

end LayoutInput

/-! ## The file -/

def OutputSection.inFile (s : OutputSection) : Span where
  start := s.shOffset.toNat
  size := s.shSize.toNat

namespace FileCursor

/-- The cursor after more sections, one for each of the items. -/
def Grows (slots : List Cursor.Slot) (before after : FileCursor) : Prop :=
  after.foff = Cursor.finish before.foff slots ∧
    ∃ more, after.sections = before.sections ++ more ∧
      more.map OutputSection.inFile = Cursor.spans before.foff slots

namespace Grows

variable {slots more : List Cursor.Slot} {before middle after : FileCursor}

theorem refl (cursor : FileCursor) : Grows [] cursor cursor :=
  ⟨rfl, [], (List.append_nil _).symm, rfl⟩

theorem trans (first : Grows slots before middle)
    (second : Grows more middle after) : Grows (slots ++ more) before after := by
  rcases first with ⟨foff, added, sections, spans⟩
  rcases second with ⟨nextFoff, others, nextSections, nextSpans⟩
  refine ⟨?_, added ++ others, ?_, ?_⟩
  · rw [nextFoff, foff, Cursor.finish_append]
  · rw [nextSections, sections, List.append_assoc]
  · rw [List.map_append, spans, nextSpans, foff, Cursor.spans_append]

theorem foldl {Item : Type} {step : FileCursor → Item → FileCursor}
    {slotsOf : Item → List Cursor.Slot}
    (each : ∀ cursor item, Grows (slotsOf item) cursor (step cursor item))
    (items : List Item) (cursor : FileCursor) :
    Grows (items.flatMap slotsOf) cursor (items.foldl step cursor) := by
  induction items generalizing cursor with
  | nil => exact refl cursor
  | cons item rest induction => exact (each cursor item).trans (induction _)

theorem push (cursor : FileCursor) (align size : UInt64)
    {sectionAt : UInt64 → OutputSection}
    (extent : ∀ offset, (sectionAt offset).inFile = ⟨offset.toNat, size.toNat⟩) :
    Grows [slotOf align size] cursor (cursor.push align size sectionAt) := by
  refine ⟨(advance_slotOf _ _ _).symm,
    [sectionAt (alignUp cursor.foff align)], rfl, ?_⟩
  rw [List.map_singleton, extent, ← place_slotOf _ _ size]
  rfl

end Grows

end FileCursor

/-- An item without an alignment follows the one before it. -/
theorem place_slotOf_one (cursor size : UInt64) :
    (slotOf 1 size).place cursor = cursor := by
  rw [place_slotOf]
  apply UInt64.toNat_inj.mp
  have fits : Alignment.roundUp cursor.toNat (1 : UInt64).toNat < 2 ^ 64 := by
    change Alignment.roundUp cursor.toNat 1 < _
    rw [Alignment.roundUp_one]
    exact cursor.toNat_lt
  rw [toNat_alignUp ⟨0, rfl⟩ fits]
  exact Alignment.roundUp_one _

def symtabSlots (plan : SymtabPlan) : List Cursor.Slot :=
  [slotOf 1 (UInt64.ofNat (plan.entries.length + 1) * symSize),
    slotOf 1 (UInt64.ofNat plan.strtab.length)] ++
    if (buildSymtabShndx plan.entries).isEmpty then []
    else [slotOf 4 (UInt64.ofNat (buildSymtabShndx plan.entries).length)]

theorem grows_pushSymtab (plan : SymtabPlan) (cursor : FileCursor) :
    FileCursor.Grows (symtabSlots plan) cursor (cursor.pushSymtab plan) := by
  unfold FileCursor.pushSymtab symtabSlots
  have tables : FileCursor.Grows
      [slotOf 1 (UInt64.ofNat (plan.entries.length + 1) * symSize),
        slotOf 1 (UInt64.ofNat plan.strtab.length)] cursor
      { cursor with
        foff := cursor.foff + UInt64.ofNat (plan.entries.length + 1) * symSize +
          UInt64.ofNat plan.strtab.length
        sections := cursor.sections ++
          [ fileSection (nameOf ".symtab") shtSymtab cursor.foff
              (UInt64.ofNat (plan.entries.length + 1) * symSize)
              (UInt32.ofNat (plan.numLocals + 1)) 8 symSize .symTab [],
            fileSection (nameOf ".strtab") shtStrtab
              (cursor.foff + UInt64.ofNat (plan.entries.length + 1) * symSize)
              (UInt64.ofNat plan.strtab.length) 0 1 0 .strTab [] ] } := by
    refine ⟨?_, _, rfl, ?_⟩
    · simp only [Cursor.finish, List.foldl_cons, List.foldl_nil,
        Cursor.Slot.advance, place_slotOf_one]
      rfl
    · simp only [Cursor.spans, Cursor.Slot.span, Cursor.Slot.advance,
        place_slotOf_one]
      rfl
  simp only
  split
  · rw [List.append_nil]
    exact tables
  · exact tables.trans (.push _ _ _ fun _ => rfl)

namespace LayoutInput

variable (input : LayoutInput)

/-- The relocations that are emitted for a section, as an item of the file. -/
def relaSlots (plan : SymtabPlan) (numbered : OutputSection × Nat) :
    List Cursor.Slot :=
  if numbered.1.source != .input || numbered.1.shFlags &&& shfAlloc == 0 ||
      (input.relaBytes plan numbered.1).isEmpty then []
  else [slotOf 8 (UInt64.ofNat (input.relaBytes plan numbered.1).length)]

theorem grows_pushRela (plan : SymtabPlan) (cursor : FileCursor)
    (numbered : OutputSection × Nat) :
    FileCursor.Grows (input.relaSlots plan numbered) cursor
      (input.pushRela plan cursor numbered) := by
  unfold pushRela relaSlots
  simp only
  cases unloaded : numbered.1.source != .input ||
      numbered.1.shFlags &&& shfAlloc == 0 with
  | true => exact .refl cursor
  | false =>
      cases isEmpty : (input.relaBytes plan numbered.1).isEmpty with
      | true => exact .refl cursor
      | false =>
          have pushed := @FileCursor.Grows.push cursor 8
            (UInt64.ofNat (input.relaBytes plan numbered.1).length)
            (fun offset =>
              fileSection (nameOf ".rela" ++ numbered.1.name) shtRela offset
                (UInt64.ofNat (input.relaBytes plan numbered.1).length)
                (UInt32.ofNat (numbered.2 + 1)) 8 relaSize
                (.relaEmit cursor.emitRelocs.length) []) (fun _ => rfl)
          exact ⟨pushed.1, pushed.2⟩

/-- The sections of a name that are passed through, as an item of the file. -/
def passedSlots (name : Name) : List Cursor.Slot :=
  if (input.passthrough name).contributions.isEmpty then []
  else [slotOf (input.passthrough name).maxAlign (input.passthrough name).off]

theorem grows_pushPassthrough (cursor : FileCursor) (name : Name) :
    FileCursor.Grows (input.passedSlots name) cursor
      (input.pushPassthrough cursor name) := by
  unfold pushPassthrough passedSlots
  simp only
  split
  · exact .refl cursor
  · have pushed := @FileCursor.Grows.push cursor (input.passthrough name).maxAlign
      (input.passthrough name).off
      (fun offset => fileSection (encodeUtf8 (fromUtf8Lossy name)) shtProgbits
        offset (input.passthrough name).off 0 (input.passthrough name).maxAlign 0
        .input (input.passthrough name).contributions) (fun _ => rfl)
    exact ⟨pushed.1, pushed.2⟩

/-- The sections that follow what is loaded, as items of the file. -/
def metaSlots (plan : SymtabPlan) (cursor : FileCursor) : List Cursor.Slot :=
  (if input.config.strip then [] else symtabSlots plan) ++
    (if input.config.emitRelocs && !input.config.strip then
      (if input.config.strip then cursor
        else cursor.pushSymtab plan).sections.zipIdx.flatMap (input.relaSlots plan)
    else []) ++
    input.passthroughNames.flatMap input.passedSlots

theorem grows_placeMeta (plan : SymtabPlan) (cursor : FileCursor) :
    FileCursor.Grows (input.metaSlots plan cursor) cursor
      (input.placeMeta plan cursor) := by
  have symtabs : FileCursor.Grows
      (if input.config.strip then [] else symtabSlots plan) cursor
      (if input.config.strip then cursor else cursor.pushSymtab plan) := by
    split
    · exact .refl cursor
    · exact grows_pushSymtab plan cursor
  have relas (cursor : FileCursor) : FileCursor.Grows
      (if input.config.emitRelocs && !input.config.strip then
        cursor.sections.zipIdx.flatMap (input.relaSlots plan) else []) cursor
      (if input.config.emitRelocs && !input.config.strip then
        input.pushRelas plan cursor else cursor) := by
    split
    · exact .foldl (fun cursor numbered =>
        input.grows_pushRela plan cursor numbered) _ cursor
    · exact .refl cursor
  exact (symtabs.trans (relas _)).trans (.foldl (fun cursor name =>
    input.grows_pushPassthrough cursor name) _ _)

/-- The file offset at which the sections that are not loaded begin. -/
def contentEnd (ordered : Builders) : UInt64 :=
  (input.placeAll ordered).fileContentEnd input.base

def metaStart (ordered : Builders) : FileCursor where
  foff := alignUp (input.contentEnd ordered) 8
  sections := (input.placement ordered).sections
  addresses := (input.placement ordered).addresses

def namesSize (pre : DynPrebuild) (ordered : Builders) : UInt64 :=
  UInt64.ofNat (input.fileEnd pre ordered).shstrtab.length

def headersSize (pre : DynPrebuild) (ordered : Builders) : UInt64 :=
  UInt64.ofNat ((input.fileEnd pre ordered).sections.length + 1) * shdrSize

/-- What the file has after the loaded bytes: the sections that are not loaded,
the section names and the section headers. -/
def fileRun (pre : DynPrebuild) (ordered : Builders) : List Cursor.Slot :=
  [slotOf 8 0] ++
    input.metaSlots (input.symtabPlan ordered) (input.metaStart ordered) ++
    [slotOf 1 (input.namesSize pre ordered), slotOf 8 0,
      slotOf 1 (input.headersSize pre ordered)]

theorem finish_single (cursor align size : UInt64) :
    Cursor.finish cursor [slotOf align size] = alignUp cursor align + size :=
  advance_slotOf cursor align size

private theorem add_zero_word (word : UInt64) : word + 0 = word :=
  UInt64.add_zero word

variable {input}

theorem laid_fileRun {pre : DynPrebuild} {ordered : Builders}
    (fits : Cursor.Fits (input.contentEnd ordered) (input.fileRun pre ordered)) :
    ∃ more, (input.fileCursor ordered).sections =
        (input.placement ordered).sections ++ more ∧
      Laid (input.contentEnd ordered).toNat
        (more.map OutputSection.inFile ++
          [⟨(shstrtabSection (input.fileCursor ordered)).shOffset.toNat,
              (input.namesSize pre ordered).toNat⟩,
            ⟨(input.fileEnd pre ordered).shoff.toNat,
              (input.headersSize pre ordered).toNat⟩])
        (input.fileEnd pre ordered).fileSize.toNat := by
  rcases input.grows_placeMeta (input.symtabPlan ordered)
    (input.metaStart ordered) with ⟨foff, more, sections, spans⟩
  refine ⟨more, sections, ?_⟩
  have start : Cursor.finish (input.contentEnd ordered) [slotOf 8 0] =
      (input.metaStart ordered).foff := by
    rw [finish_single, add_zero_word]
    rfl
  rw [fileRun] at fits
  have laid := fits.laid
  rw [List.append_assoc, Cursor.spans_append, Cursor.spans_append, start,
    Cursor.finish_append, start, Cursor.finish_append, ← foff, ← spans] at laid
  have tail : Cursor.finish (input.placeMeta (input.symtabPlan ordered)
        (input.metaStart ordered)).foff
      [slotOf 1 (input.namesSize pre ordered), slotOf 8 0,
        slotOf 1 (input.headersSize pre ordered)] =
        (input.fileEnd pre ordered).fileSize := by
    simp only [Cursor.finish, List.foldl_cons, List.foldl_nil, advance_slotOf,
      add_zero_word]
    rw [← place_slotOf _ 1 (input.headersSize pre ordered), place_slotOf_one]
    rfl
  rw [tail] at laid
  refine laid.sublist ?_
  refine List.Sublist.trans ?_ (List.sublist_append_right _ _)
  refine List.Sublist.append_left ?_ _
  simp only [Cursor.spans, Cursor.Slot.span, advance_slotOf, add_zero_word,
    place_slotOf]
  refine .cons_cons _ (.cons _ ?_)
  rw [← place_slotOf _ 1 (input.headersSize pre ordered), place_slotOf_one]
  exact .refl _

end LayoutInput

/-! ## Addresses -/

def OutputSection.memory (s : OutputSection) : Span where
  start := s.shAddr.toNat
  size := s.shSize.toNat

namespace Part

theorem memory_outputs (base va : UInt64) (builders : List Builder) :
    (outputs base va builders).map OutputSection.memory =
      Cursor.spans va (builders.map Builder.slot) := by
  induction builders generalizing va with
  | nil => rfl
  | cons b rest induction => exact congrArg _ (induction _)

theorem laid {part : Part} (fits : Cursor.Fits part.start part.slots)
    (base : UInt64) :
    Laid part.start.toNat ((part.sections base).map OutputSection.memory)
      part.stop.toNat := by
  rw [sections, memory_outputs]
  exact fits.laid

end Part

namespace LayoutInput

variable (input : LayoutInput) (ordered : Builders)

/-- The cursor is moved to the next page in front of the writable sections that
stay writable, unless there are none. -/
def pagePad : List Cursor.Slot :=
  if (input.dataPart ordered).builders.isEmpty &&
      (relroOrder ordered).rwBss.isEmpty then []
  else [slotOf input.page 0]

theorem dataPart_start :
    (input.dataPart ordered).start =
      if (input.dataPart ordered).builders.isEmpty &&
          (relroOrder ordered).rwBss.isEmpty then (input.relroPart ordered).stop
      else alignUp (input.relroPart ordered).stop input.page := rfl

/-- The headers and the code, as items for the cursor of addresses. -/
def codeRun : List Cursor.Slot :=
  [slotOf 1 (input.headerSize ordered)] ++ (input.roPart ordered).slots ++
    (if hasRx ordered then
      [slotOf input.page 0] ++ (input.rxPart ordered).slots else [])

/-- The sections with bytes in the file that are writable. -/
def dataRun : List Cursor.Slot :=
  [slotOf input.page 0] ++ (input.relroPart ordered).slots ++
    input.pagePad ordered ++ (input.dataPart ordered).slots

/-- The headers and all loaded sections with bytes in the file. -/
def contentRun : List Cursor.Slot :=
  input.codeRun ordered ++ if hasRw ordered then input.dataRun ordered else []

/-- The headers and all loaded sections, as items for the cursor of addresses. -/
def addressRun : List Cursor.Slot :=
  input.contentRun ordered ++
    if hasRw ordered then (input.bssPart ordered).slots else []

/-- The parts of the image follow each other. -/
structure PartsLaid : Prop where
  header : (input.roPart ordered).start.toNat =
    input.base.toNat + (input.headerSize ordered).toNat
  ro : Laid (input.roPart ordered).start.toNat
    (((input.roPart ordered).sections input.base).map OutputSection.memory)
    (input.roPart ordered).stop.toNat
  rx : hasRx ordered = true →
    (input.roPart ordered).stop.toNat ≤ (input.rxPart ordered).start.toNat ∧
      Laid (input.rxPart ordered).start.toNat
        (((input.rxPart ordered).sections input.base).map OutputSection.memory)
        (input.rxPart ordered).stop.toNat
  rw : hasRw ordered = true →
    (input.codeEnd ordered).toNat ≤ (input.relroPart ordered).start.toNat ∧
      Laid (input.relroPart ordered).start.toNat
        (((input.relroPart ordered).sections input.base ++
          (input.dataPart ordered).sections input.base).map OutputSection.memory)
        (input.dataPart ordered).stop.toNat ∧
      Laid (input.dataPart ordered).stop.toNat
        (((input.bssPart ordered).sections input.base).map OutputSection.memory)
        (input.bssPart ordered).stop.toNat

variable {input ordered}

/-! ### Where the parts begin -/

theorem finish_page (cursor page : UInt64) :
    Cursor.finish cursor [slotOf page 0] = alignUp cursor page := by
  rw [finish_single, add_zero_word]

theorem finish_header :
    Cursor.finish input.base [slotOf 1 (input.headerSize ordered)] =
      (input.roPart ordered).start := by
  rw [finish_single, ← place_slotOf _ 1 0, place_slotOf_one]
  rfl

theorem finish_ro :
    Cursor.finish input.base
      ([slotOf 1 (input.headerSize ordered)] ++ (input.roPart ordered).slots) =
        (input.roPart ordered).stop := by
  rw [Cursor.finish_append, finish_header]
  rfl

theorem finish_codeRun :
    Cursor.finish input.base (input.codeRun ordered) = input.codeEnd ordered := by
  rw [codeRun, Cursor.finish_append, finish_ro, codeEnd, hasRx]
  cases ordered.rx.isEmpty with
  | true => rfl
  | false =>
      simp only [Bool.not_false, if_true, Cursor.finish_append, finish_page]
      rfl

theorem finish_relro :
    Cursor.finish (input.codeEnd ordered)
      ([slotOf input.page 0] ++ (input.relroPart ordered).slots) =
        (input.relroPart ordered).stop := by
  rw [Cursor.finish_append, finish_page]
  rfl

theorem finish_pagePad :
    Cursor.finish (input.relroPart ordered).stop (input.pagePad ordered) =
      (input.dataPart ordered).start := by
  rw [dataPart_start, pagePad]
  cases (input.dataPart ordered).builders.isEmpty &&
      (relroOrder ordered).rwBss.isEmpty with
  | true => rfl
  | false => exact finish_page _ _

theorem finish_dataRun :
    Cursor.finish (input.codeEnd ordered) (input.dataRun ordered) =
      (input.dataPart ordered).stop := by
  rw [dataRun, Cursor.finish_append, Cursor.finish_append, finish_relro,
    finish_pagePad]
  rfl

private theorem le_alignUp {cursor page : UInt64}
    (fits : Cursor.Fits cursor [slotOf page 0]) :
    cursor.toNat ≤ (alignUp cursor page).toNat := by
  have above := fits.1.le_place
  rwa [place_slotOf] at above

theorem partsLaid (fits : Cursor.Fits input.base (input.addressRun ordered)) :
    input.PartsLaid ordered := by
  rw [addressRun, contentRun, Cursor.fits_append, Cursor.fits_append,
    Cursor.finish_append, finish_codeRun] at fits
  rcases fits with ⟨⟨code, data⟩, bss⟩
  rw [codeRun, Cursor.fits_append, finish_ro, Cursor.fits_append,
    finish_header] at code
  rcases code with ⟨⟨header, ro⟩, rx⟩
  constructor
  · have sum := header.1.toNat_advance
    change (Cursor.finish input.base [slotOf 1 (input.headerSize ordered)]).toNat =
      _ at sum
    rw [finish_header] at sum
    rw [sum, Span.stop, Cursor.Slot.span, place_slotOf_one]
    rfl
  · exact @Part.laid (input.roPart ordered) ro input.base
  · intro isRx
    rw [if_pos isRx, Cursor.fits_append, finish_page] at rx
    exact ⟨le_alignUp rx.1, @Part.laid (input.rxPart ordered) rx.2 input.base⟩
  · intro isRw
    rw [if_pos isRw] at data bss
    rw [if_pos isRw, finish_dataRun] at bss
    rw [dataRun, Cursor.fits_append, Cursor.finish_append, Cursor.fits_append,
      finish_relro, finish_pagePad] at data
    rcases data with ⟨⟨relro, pad⟩, data⟩
    rw [Cursor.fits_append, finish_page] at relro
    rcases relro with ⟨toPage, relro⟩
    have padded : (input.relroPart ordered).stop.toNat ≤
        (input.dataPart ordered).start.toNat := by
      have moved := pad.laid.le
      rwa [finish_pagePad] at moved
    refine ⟨le_alignUp toPage, ?_,
      @Part.laid (input.bssPart ordered) bss input.base⟩
    rw [List.map_append]
    exact (@Part.laid (input.relroPart ordered) relro input.base).append
      ((@Part.laid (input.dataPart ordered) data input.base).widen padded le_rfl)

end LayoutInput

end Peony
