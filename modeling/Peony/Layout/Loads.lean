import Peony.Foundation.Spans
import Peony.Layout.Sections

namespace Peony

/-! The loaded segments with the sections that are placed in each. -/

/-! ## Runs of output sections -/

/-- What is placed at an alignment with a size, as an item for a cursor. -/
def slotOf (align size : UInt64) : Cursor.Slot where
  mask := max align 1 - 1
  size := size

theorem place_slotOf (cursor align size : UInt64) :
    (slotOf align size).place cursor = alignUp cursor align :=
  (alignUp_eq_roundMask cursor align).symm

theorem advance_slotOf (cursor align size : UInt64) :
    (slotOf align size).advance cursor = alignUp cursor align + size := by
  rw [Cursor.Slot.advance, place_slotOf]
  rfl

def Builder.slot (b : Builder) : Cursor.Slot := slotOf b.align b.size

/-- Output sections that are placed from an address on. -/
structure Part where
  start : UInt64
  builders : List Builder

namespace Part

def slots (part : Part) : List Cursor.Slot := part.builders.map Builder.slot

def stop (part : Part) : UInt64 := Cursor.finish part.start part.slots

def outputs (base : UInt64) : UInt64 → List Builder → List OutputSection
  | _, [] => []
  | va, b :: rest =>
      b.output base (b.slot.place va) :: outputs base (b.slot.advance va) rest

def sections (base : UInt64) (part : Part) : List OutputSection :=
  outputs base part.start part.builders

theorem outputs_at (base va : UInt64) (builders : List Builder) :
    List.Forall₂ (Builder.OutputAt base) builders (outputs base va builders) := by
  induction builders generalizing va with
  | nil => exact .nil
  | cons b rest induction =>
      refine .cons ⟨_, rfl, fun power => ?_⟩ (induction _)
      rw [Builder.slot, place_slotOf]
      exact dvd_alignUp power va

theorem sections_at (base : UInt64) (part : Part) :
    List.Forall₂ (Builder.OutputAt base) part.builders (part.sections base) :=
  outputs_at base part.start part.builders

end Part

namespace Placement

variable (base : UInt64) (placed : Placement) (builders : List Builder)

theorem place_eq :
    (placed.place base builders).va = (Part.mk placed.va builders).stop ∧
      (placed.place base builders).sections =
        placed.sections ++ (Part.mk placed.va builders).sections base := by
  induction builders generalizing placed with
  | nil => exact ⟨rfl, (List.append_nil _).symm⟩
  | cons b rest induction =>
      have next := induction (placed.placeBuilder base b)
      have moved : (placed.placeBuilder base b).va = b.slot.advance placed.va :=
        (advance_slotOf _ _ _).symm
      have added : (placed.placeBuilder base b).sections =
          placed.sections ++ [b.output base (b.slot.place placed.va)] := by
        rw [Builder.slot, place_slotOf]
        rfl
      rw [moved, added] at next
      refine ⟨next.1, next.2.trans ?_⟩
      rw [List.append_assoc]
      rfl

end Placement

/-! ## The parts of an image -/

namespace LayoutInput

variable (input : LayoutInput) (ordered : Builders)

def roPart : Part where
  start := input.base + input.headerSize ordered
  builders := ordered.ro

def rxPart : Part where
  start := alignUp (input.roPart ordered).stop input.page
  builders := ordered.rx

/-- The end of what is placed before the writable sections. -/
def codeEnd : UInt64 :=
  if ordered.rx.isEmpty then (input.roPart ordered).stop
  else (input.rxPart ordered).stop

def relroPart : Part where
  start := alignUp (input.codeEnd ordered) input.page
  builders := (relroOrder ordered).rwPb.takeWhile fun b => isRelro b.name

def dataPart : Part where
  start :=
    if ((relroOrder ordered).rwPb.dropWhile fun b => isRelro b.name).isEmpty &&
        (relroOrder ordered).rwBss.isEmpty then
      (input.relroPart ordered).stop
    else alignUp (input.relroPart ordered).stop input.page
  builders := (relroOrder ordered).rwPb.dropWhile fun b => isRelro b.name

def bssPart : Part where
  start := (input.dataPart ordered).stop
  builders := (relroOrder ordered).rwBss

def hasRx : Bool := !ordered.rx.isEmpty

def hasRw : Bool :=
  !((relroOrder ordered).rwPb.isEmpty && (relroOrder ordered).rwBss.isEmpty)

/-- The writable sections in the order of their addresses. -/
def rwSections : List OutputSection :=
  (input.relroPart ordered).sections input.base ++
    (input.dataPart ordered).sections input.base ++
    (input.bssPart ordered).sections input.base

private theorem placeRx_eq (placed : Placement)
    (va : placed.va = (input.roPart ordered).stop) :
    (input.placeRx ordered.rx placed).1.va = input.codeEnd ordered ∧
      (input.placeRx ordered.rx placed).1.sections = placed.sections ++
        (input.rxPart ordered).sections input.base ∧
      (input.placeRx ordered.rx placed).2 =
        if hasRx ordered then
          some ((input.rxPart ordered).start, (input.rxPart ordered).stop)
        else none := by
  unfold placeRx
  split
  · rename_i isEmpty
    refine ⟨?_, ?_, ?_⟩
    · rw [codeEnd, if_pos isEmpty, va]
    · rw [Part.sections, rxPart, List.isEmpty_iff.mp isEmpty]
      exact (List.append_nil _).symm
    · simp [hasRx, isEmpty]
  · rename_i notEmpty
    have next := Placement.place_eq input.base (placed.alignVa input.page) ordered.rx
    rw [show (placed.alignVa input.page).va = (input.rxPart ordered).start by
      rw [Placement.alignVa, va]; rfl] at next
    refine ⟨?_, next.2, ?_⟩
    · rw [codeEnd, if_neg notEmpty]
      exact next.1
    · rw [hasRx, Bool.eq_false_iff.mpr notEmpty]
      change some ((placed.alignVa input.page).va, _) = some _
      rw [next.1, Placement.alignVa, va]
      rfl

private theorem placeRw_eq (placed : Placement)
    (va : placed.va = input.codeEnd ordered) :
    (input.placeRw (relroOrder ordered).rwPb (relroOrder ordered).rwBss
        placed).1.sections = placed.sections ++ input.rwSections ordered ∧
      (input.placeRw (relroOrder ordered).rwPb (relroOrder ordered).rwBss
        placed).2 =
        if hasRw ordered then
          some ((input.relroPart ordered).start, (input.dataPart ordered).stop,
            (input.bssPart ordered).stop)
        else none := by
  unfold placeRw
  split
  · rename_i areEmpty
    have parts := areEmpty
    rw [Bool.and_eq_true, List.isEmpty_iff, List.isEmpty_iff] at parts
    refine ⟨?_, by simp [hasRw, areEmpty]⟩
    simp [rwSections, Part.sections, relroPart, dataPart, bssPart, parts,
      Part.outputs]
  · rename_i notEmpty
    have relro := Placement.place_eq input.base (placed.alignVa input.page)
      ((relroOrder ordered).rwPb.takeWhile fun b => isRelro b.name)
    rw [show (placed.alignVa input.page).va = (input.relroPart ordered).start by
      rw [Placement.alignVa, va]; rfl] at relro
    have padded : ∀ after : Placement,
        after.va = (input.relroPart ordered).stop →
        (if ((relroOrder ordered).rwPb.dropWhile fun b => isRelro b.name).isEmpty &&
            (relroOrder ordered).rwBss.isEmpty then after
          else after.alignVa input.page).va = (input.dataPart ordered).start ∧
        (if ((relroOrder ordered).rwPb.dropWhile fun b => isRelro b.name).isEmpty &&
            (relroOrder ordered).rwBss.isEmpty then after
          else after.alignVa input.page).sections = after.sections := by
      intro after isStop
      rw [dataPart]
      split
      · exact ⟨isStop, rfl⟩
      · exact ⟨by rw [Placement.alignVa, isStop], rfl⟩
    have start := padded _ relro.1
    have data := Placement.place_eq input.base
      (if ((relroOrder ordered).rwPb.dropWhile fun b => isRelro b.name).isEmpty &&
          (relroOrder ordered).rwBss.isEmpty then
        (placed.alignVa input.page).place input.base
          ((relroOrder ordered).rwPb.takeWhile fun b => isRelro b.name)
        else ((placed.alignVa input.page).place input.base
          ((relroOrder ordered).rwPb.takeWhile fun b =>
            isRelro b.name)).alignVa input.page)
      ((relroOrder ordered).rwPb.dropWhile fun b => isRelro b.name)
    rw [start.1, start.2, relro.2] at data
    have bss := Placement.place_eq input.base
      (Placement.place input.base
        ((relroOrder ordered).rwPb.dropWhile fun b => isRelro b.name)
        (if ((relroOrder ordered).rwPb.dropWhile fun b =>
            isRelro b.name).isEmpty && (relroOrder ordered).rwBss.isEmpty then
          (placed.alignVa input.page).place input.base
            ((relroOrder ordered).rwPb.takeWhile fun b => isRelro b.name)
          else ((placed.alignVa input.page).place input.base
            ((relroOrder ordered).rwPb.takeWhile fun b =>
              isRelro b.name)).alignVa input.page))
      (relroOrder ordered).rwBss
    rw [data.1, data.2] at bss
    refine ⟨bss.2.trans ?_, ?_⟩
    · simp only [rwSections, List.append_assoc]
      rfl
    · rw [hasRw, Bool.eq_false_iff.mpr notEmpty]
      change some ((placed.alignVa input.page).va, _, _) = some _
      rw [bss.1, data.1, Placement.alignVa, va]
      rfl

theorem placeAll_eq :
    (input.placeAll ordered).placement.sections =
        (input.roPart ordered).sections input.base ++
          (input.rxPart ordered).sections input.base ++
          input.rwSections ordered ∧
      (input.placeAll ordered).roEnd = (input.roPart ordered).stop ∧
      (input.placeAll ordered).rx =
        (if hasRx ordered then
          some ((input.rxPart ordered).start, (input.rxPart ordered).stop)
        else none) ∧
      (input.placeAll ordered).rw =
        if hasRw ordered then
          some ((input.relroPart ordered).start, (input.dataPart ordered).stop,
            (input.bssPart ordered).stop)
        else none := by
  have ro := Placement.place_eq input.base
    { va := input.base + input.headerSize ordered } ordered.ro
  have rx := input.placeRx_eq ordered _ ro.1
  have rw' := input.placeRw_eq ordered _ rx.1
  refine ⟨?_, ro.1, rx.2.2, rw'.2⟩
  refine rw'.1.trans ?_
  rw [rx.2.1, ro.2]
  rfl

end LayoutInput

/-! ## Segments -/

def Perm.flags : Perm → UInt32
  | .ro => pfR
  | .rx => pfR ||| pfX
  | .rw => pfR ||| pfW

/-- A loaded segment: its permission, its header and the sections placed in it,
with what they are made from. -/
structure Load where
  perm : Perm
  header : ProgramHeader
  builders : List Builder
  sections : List OutputSection

namespace LayoutInput

variable (input : LayoutInput) (ordered : Builders)

def roLoad : Load where
  perm := .ro
  header :=
    let size := (input.roPart ordered).stop - input.base
    segment ptLoad pfR 0 input.base size size input.page
  builders := ordered.ro
  sections := (input.roPart ordered).sections input.base

def rxLoad : Load where
  perm := .rx
  header :=
    let part := input.rxPart ordered
    segment ptLoad (pfR ||| pfX) (part.start - input.base) part.start
      (part.stop - part.start) (part.stop - part.start) input.page
  builders := ordered.rx
  sections := (input.rxPart ordered).sections input.base

def rwLoad : Load where
  perm := .rw
  header :=
    let start := (input.relroPart ordered).start
    segment ptLoad (pfR ||| pfW) (start - input.base) start
      ((input.dataPart ordered).stop - start)
      ((input.bssPart ordered).stop - start) input.page
  builders := (relroOrder ordered).rwPb ++ (relroOrder ordered).rwBss
  sections := input.rwSections ordered

def loads : List Load :=
  [input.roLoad ordered] ++
    (if hasRx ordered then [input.rxLoad ordered] else []) ++
    (if hasRw ordered then [input.rwLoad ordered] else [])

theorem headers_loads :
    (input.loads ordered).map Load.header =
      loadSegments input.base input.page (input.placeAll ordered) := by
  rcases input.placeAll_eq ordered with ⟨_, roEnd, rx, rw'⟩
  rw [loadSegments, roEnd, rx, rw', loads]
  cases hasRx ordered <;> cases hasRw ordered <;> rfl

theorem rxPart_sections (absent : hasRx ordered = false) :
    (input.rxPart ordered).sections input.base = [] := by
  rw [hasRx, Bool.not_eq_false', List.isEmpty_iff] at absent
  rw [Part.sections, rxPart, absent]
  rfl

theorem areEmpty_of_not_hasRw {ordered : Builders} (absent : hasRw ordered = false) :
    (relroOrder ordered).rwPb = [] ∧ (relroOrder ordered).rwBss = [] := by
  rw [hasRw, Bool.not_eq_false', Bool.and_eq_true, List.isEmpty_iff,
    List.isEmpty_iff] at absent
  exact absent

theorem rwSections_eq_nil (absent : hasRw ordered = false) :
    input.rwSections ordered = [] := by
  simp [rwSections, Part.sections, relroPart, dataPart, bssPart,
    areEmpty_of_not_hasRw absent, Part.outputs]

theorem sections_loads :
    (input.loads ordered).flatMap Load.sections =
      (input.placeAll ordered).placement.sections := by
  rw [(input.placeAll_eq ordered).1, loads]
  cases withRx : hasRx ordered <;> cases withRw : hasRw ordered
  · rw [input.rxPart_sections ordered withRx,
      input.rwSections_eq_nil ordered withRw]
    simp [roLoad]
  · rw [input.rxPart_sections ordered withRx]
    simp [roLoad, rwLoad]
  · rw [input.rwSections_eq_nil ordered withRw]
    simp [roLoad, rxLoad]
  · simp [roLoad, rxLoad, rwLoad]

theorem filter_other {found : Option OutputSection}
    {make : OutputSection → ProgramHeader} {kind wanted : UInt32}
    (other : kind ≠ wanted) (isKind : ∀ s, (make s).pType = kind) :
    (found.map make).toList.filter (fun seg => seg.pType == wanted) = [] := by
  cases found with
  | none => rfl
  | some s => simp [isKind s, other]

theorem filter_single {seg : ProgramHeader} {kind wanted : UInt32}
    (other : kind ≠ wanted) (isKind : seg.pType = kind) :
    [seg].filter (fun seg => seg.pType == wanted) = [] := by
  simp [isKind, other]

theorem pType_loadSegments : ∀ seg ∈ loadSegments input.base input.page
    (input.placeAll ordered), seg.pType = ptLoad := by
  intro seg present
  rw [← headers_loads, loads] at present
  simp only [List.map_append, List.mem_append] at present
  rcases present with (isRo | isRx) | isRw
  · rw [List.mem_singleton.mp isRo]
    rfl
  · split at isRx
    · rw [List.mem_singleton.mp isRx]
      rfl
    · exact absurd isRx List.not_mem_nil
  · split at isRw
    · rw [List.mem_singleton.mp isRw]
      rfl
    · exact absurd isRw List.not_mem_nil

theorem pType_relroSegment (sections : List OutputSection) :
    (relroSegment sections).pType = ptGnuRelro := by
  unfold relroSegment
  split <;> rfl

theorem ptLoad_segments (pre : DynPrebuild) (entry : UInt64) :
    ((input.assemble pre ordered entry).segments.filter fun seg =>
      seg.pType == ptLoad) = (input.loads ordered).map Load.header := by
  rw [headers_loads]
  have loaded : (loadSegments input.base input.page
      (input.placeAll ordered)).filter (fun seg => seg.pType == ptLoad) =
        loadSegments input.base input.page (input.placeAll ordered) :=
    List.filter_eq_self.mpr fun seg present =>
      beq_iff_eq.mpr (input.pType_loadSegments ordered seg present)
  simp only [assemble, segments, List.filter_append, apply_ite (List.filter _),
    loaded, List.filter_nil]
  rw [filter_other (by decide : ptInterp ≠ ptLoad) fun _ => rfl,
    filter_other (by decide : ptNote ≠ ptLoad) fun _ => rfl,
    filter_other (by decide : ptGnuProperty ≠ ptLoad) fun _ => rfl,
    filter_other (by decide : ptDynamic ≠ ptLoad) fun _ => rfl,
    filter_other (by decide : ptGnuEhFrame ≠ ptLoad) fun _ => rfl,
    filter_single (by decide : ptPhdr ≠ ptLoad) rfl,
    filter_single (by decide : ptTls ≠ ptLoad) rfl,
    filter_single (by decide : ptGnuRelro ≠ ptLoad) (pType_relroSegment _),
    filter_single (by decide : ptGnuStack ≠ ptLoad) rfl]
  simp

theorem ptGnuRelro_segments (pre : DynPrebuild) (entry : UInt64) :
    ((input.assemble pre ordered entry).segments.filter fun seg =>
      seg.pType == ptGnuRelro) =
        if input.dynamic.isSome then
          [relroSegment (input.assemble pre ordered entry).outputSections]
        else [] := by
  have loaded : (loadSegments input.base input.page
      (input.placeAll ordered)).filter (fun seg => seg.pType == ptGnuRelro) = [] := by
    refine List.filter_eq_nil_iff.mpr fun seg present => ?_
    rw [input.pType_loadSegments ordered seg present]
    decide
  have relro : [relroSegment (input.fileEnd pre ordered).sections].filter
      (fun seg => seg.pType == ptGnuRelro) =
        [relroSegment (input.fileEnd pre ordered).sections] :=
    List.filter_eq_self.mpr fun seg present => by
      rw [List.mem_singleton.mp present, pType_relroSegment]
      rfl
  simp only [assemble, segments, List.filter_append, apply_ite (List.filter _),
    loaded, List.filter_nil, relro]
  rw [filter_other (by decide : ptInterp ≠ ptGnuRelro) fun _ => rfl,
    filter_other (by decide : ptNote ≠ ptGnuRelro) fun _ => rfl,
    filter_other (by decide : ptGnuProperty ≠ ptGnuRelro) fun _ => rfl,
    filter_other (by decide : ptDynamic ≠ ptGnuRelro) fun _ => rfl,
    filter_other (by decide : ptGnuEhFrame ≠ ptGnuRelro) fun _ => rfl,
    filter_single (by decide : ptPhdr ≠ ptGnuRelro) rfl,
    filter_single (by decide : ptTls ≠ ptGnuRelro) rfl,
    filter_single (by decide : ptGnuStack ≠ ptGnuRelro) rfl]
  simp

/-! ## What a segment is made from -/

variable {input ordered}

theorem mem_loads {load : Load} :
    load ∈ input.loads ordered ↔
      load = input.roLoad ordered ∨
        (hasRx ordered = true ∧ load = input.rxLoad ordered) ∨
          (hasRw ordered = true ∧ load = input.rwLoad ordered) := by
  rw [loads]
  cases hasRx ordered <;> cases hasRw ordered <;> simp

theorem load_flags {load : Load} (isLoad : load ∈ input.loads ordered) :
    load.header.pFlags = load.perm.flags := by
  rcases mem_loads.mp isLoad with rfl | ⟨_, rfl⟩ | ⟨_, rfl⟩ <;> rfl

theorem load_outputs {load : Load} (isLoad : load ∈ input.loads ordered) :
    List.Forall₂ (Builder.OutputAt input.base) load.builders load.sections := by
  rcases mem_loads.mp isLoad with rfl | ⟨_, rfl⟩ | ⟨_, rfl⟩
  · exact (input.roPart ordered).sections_at input.base
  · exact (input.rxPart ordered).sections_at input.base
  · have split : (relroOrder ordered).rwPb =
        (input.relroPart ordered).builders ++ (input.dataPart ordered).builders :=
      List.takeWhile_append_dropWhile.symm
    change List.Forall₂ _ ((relroOrder ordered).rwPb ++ _) _
    rw [split]
    exact List.rel_append (List.rel_append
      ((input.relroPart ordered).sections_at input.base)
      ((input.dataPart ordered).sections_at input.base))
      ((input.bssPart ordered).sections_at input.base)

section Classes

variable {grouped : List Builder} (classified : ordered.Classified grouped)
variable (aligned : ∀ b ∈ grouped, b.align.toNat.isPowerOfTwo)

include classified aligned

/-- What a segment is made from has the permission of the segment. -/
theorem load_origin {load : Load} (isLoad : load ∈ input.loads ordered)
    {raised : Builder} (present : raised ∈ load.builders) :
    ∃ b, (b ∈ grouped ∨ b.Bare) ∧ b.RaisedTo raised ∧ b.perm = load.perm := by
  rcases relroOrder_raised (classified.tls_powers aligned) with ⟨rwPb, rwBss⟩
  rcases mem_loads.mp isLoad with rfl | ⟨_, rfl⟩ | ⟨_, rfl⟩
  · have found := classified.ro.only raised present
    exact ⟨raised, found.2, .refl raised, beq_iff_eq.mp found.1⟩
  · have found := classified.rx.only raised present
    exact ⟨raised, found.2, .refl raised, beq_iff_eq.mp found.1⟩
  · rcases List.mem_append.mp present with inPb | inBss
    · rcases Pairwise.exists_left rwPb inPb with ⟨b, isMember, raises⟩
      have found := classified.rwPb.only b (mem_sortBy.mp isMember)
      rw [Bool.and_eq_true, beq_iff_eq] at found
      exact ⟨b, found.2, raises, found.1.1⟩
    · rcases Pairwise.exists_left rwBss inBss with ⟨b, isMember, raises⟩
      have found := classified.rwBss.only b (mem_sortBy.mp isMember)
      rw [Bool.and_eq_true, beq_iff_eq] at found
      exact ⟨b, found.2, raises, found.1.1⟩

theorem exists_load {b : Builder} (isGroup : b ∈ grouped) :
    ∃ load ∈ input.loads ordered, load.perm = b.perm ∧
      ∃ raised ∈ load.builders, b.RaisedTo raised := by
  rcases relroOrder_raised (classified.tls_powers aligned) with ⟨rwPb, rwBss⟩
  cases isPerm : b.perm with
  | ro =>
      have present := classified.ro.has b isGroup (by rw [isPerm]; rfl)
      exact ⟨input.roLoad ordered, mem_loads.mpr (.inl rfl), rfl, b, present,
        .refl b⟩
  | rx =>
      have present := classified.rx.has b isGroup (by rw [isPerm]; rfl)
      refine ⟨input.rxLoad ordered, mem_loads.mpr (.inr (.inl ⟨?_, rfl⟩)), rfl, b,
        present, .refl b⟩
      rw [hasRx, Bool.not_eq_true', List.isEmpty_eq_false_iff_exists_mem]
      exact ⟨b, present⟩
  | rw =>
      have found : ∃ raised ∈ (relroOrder ordered).rwPb ++
          (relroOrder ordered).rwBss, b.RaisedTo raised := by
        cases isNobits : b.isNobits with
        | false =>
            have present := classified.rwPb.has b isGroup
              (by rw [isPerm, isNobits]; rfl)
            rcases Pairwise.exists_right rwPb (mem_sortBy.mpr present) with
              ⟨raised, isMember, raises⟩
            exact ⟨raised, List.mem_append_left _ isMember, raises⟩
        | true =>
            have present := classified.rwBss.has b isGroup
              (by rw [isPerm, isNobits]; rfl)
            rcases Pairwise.exists_right rwBss (mem_sortBy.mpr present) with
              ⟨raised, isMember, raises⟩
            exact ⟨raised, List.mem_append_right _ isMember, raises⟩
      refine ⟨input.rwLoad ordered, mem_loads.mpr (.inr (.inr ⟨?_, rfl⟩)), rfl,
        found⟩
      rcases found with ⟨raised, present, _⟩
      by_contra absent
      have none := areEmpty_of_not_hasRw (Bool.eq_false_iff.mpr absent)
      rw [none.1, none.2] at present
      exact absurd present List.not_mem_nil

end Classes

end LayoutInput

end Peony
