import Peony.Emit.SectionImage

namespace Peony

/-! Links one after another to the same output file. -/

structure LinkEmission where
  arena : InputArena
  objects : List InputObject
  symbols : SymbolTable
  layout : Layout
  plan : Option SectionWriteFilter

namespace LinkEmission

def emit (e : LinkEmission) (existing : Option (List UInt8)) : Except EmitFault (List UInt8) :=
  emitOutput e.arena e.objects e.symbols e.layout e.plan existing

/-- The file of a link that is not incremental. -/
def emitNew (e : LinkEmission) : Except EmitFault (List UInt8) :=
  emitFull e.arena e.objects e.symbols e.layout none

def image (e : LinkEmission) (s : OutputSection) : List UInt8 :=
  sectionImage e.arena e.objects e.symbols e.layout s

def Written (e : LinkEmission) (place : Nat) : Prop :=
  Peony.Written e.objects e.symbols e.layout place

def contributed (e : LinkEmission) (s : OutputSection) (c : SectionContribution) :
    List (Buffer.Patch UInt8) :=
  (workItemOf e.objects s c).toList.flatMap
    ((emitCtx e.arena e.objects e.symbols e.layout).localItem c)

end LinkEmission

def emitAll : Option (List UInt8) → List LinkEmission → Except EmitFault (List (List UInt8))
  | _, [] => .ok []
  | existing, e :: rest => do
      let file ← e.emit existing
      let files ← emitAll (some file) rest
      return file :: files

/-- What a link may change for its plan, where `old` and `new` are the files of links that are
not incremental. -/
inductive Follows (previous next : LinkEmission) (old new : List UInt8) : Prop
  /-- All is emitted to a new file. -/
  | resized (different : previous.layout.fileSize ≠ next.layout.fileSize) :
      Follows previous next old new
  /-- The input sections that are not collected have the bytes that they had, and no bytes
  are given up. -/
  | whole (isWhole : (next.plan.getD .all).isMinimal = false)
      (written : ∀ place, previous.Written place → next.Written place)
      (green : ∀ s ∈ next.layout.outputSections, s.source = .input →
        (next.plan.getD .all).collectsOutputSection s.name = false →
          ∃ before ∈ previous.layout.outputSections, before.source = .input ∧
            before.shOffset = s.shOffset ∧ before.shSize = s.shSize ∧
              previous.image before = next.image s) :
      Follows previous next old new
  /-- Over the same layout, only what the changed objects contribute is other, and not what it
  takes up; frames are not given up. -/
  | reused {changed : List Nat} (plan : next.plan = some (.changedObjects changed))
      (layout : next.layout = previous.layout)
      (slots : ∀ id ∈ next.layout.gotSlots,
        slotAddress previous.symbols id = slotAddress next.symbols id)
      (symtab : ∀ entry ∈ next.layout.symtab,
        symtabRecord previous.symbols entry = symtabRecord next.symbols entry)
      (lengths : ∀ s ∈ next.layout.outputSections, ∀ c ∈ s.contributions,
        (workItemOf previous.objects s c).map WorkItem.fileLen =
          (workItemOf next.objects s c).map WorkItem.fileLen)
      (unchanged : ∀ s ∈ next.layout.outputSections, ∀ c ∈ s.contributions,
        c.objectId ∉ changed → previous.contributed s c = next.contributed s c)
      (frames : ∀ eh, next.layout.ehFrame = some eh →
        (framesIn old eh).length ≤ (framesIn new eh).length) :
      Follows previous next old new

section

variable {previous next : LinkEmission} {old new : List UInt8} {place : Nat}

/-! ## Layouts that are new -/

theorem length_emitNew {e : LinkEmission} (isNew : e.emitNew = .ok new) :
    new.length = e.layout.fileSize := by
  rw [LinkEmission.emitNew] at isNew
  rcases data_of_emitFull isNew with ⟨all, isAll⟩
  rw [emitFull_of_data isAll] at isNew
  cases isNew
  rw [Buffer.length_applyAll, length_openOutputMap]

theorem getElem?_of_unwritten {e : LinkEmission} (separate : e.layout.Separate e.objects)
    (isNew : e.emitNew = .ok new) (inside : place < e.layout.fileSize)
    (unwritten : ¬ e.Written place) : new[place]? = some 0 := by
  rw [LinkEmission.emitNew] at isNew
  rcases data_of_emitFull isNew with ⟨all, isAll⟩
  rw [emitFull_of_data isAll] at isNew
  cases isNew
  have opened : openOutputMap none e.layout.fileSize = List.replicate e.layout.fileSize 0 := rfl
  rw [opened, Buffer.getElem?_applyAll_of_not_covers, List.getElem?_replicate, if_pos inside]
  intro patch isPatch covers
  exact unwritten (written_of_covers separate.framesApart isAll List.length_replicate isPatch
    covers)

theorem getElem?_of_section {e : LinkEmission} (separate : e.layout.Separate e.objects)
    (isNew : e.emitNew = .ok new) {s : OutputSection} (present : s ∈ e.layout.outputSections)
    (isInput : s.source = .input) (inside : s.HasPlace place) :
    new[place]? = (e.image s)[place - s.shOffset.toNat]? := by
  have slice := slice_clean separate isNew present (notBss_of_input isInput)
    (by rw [isInput]; exact SecSource.noConfusion)
    (by rw [isInput]; exact SecSource.noConfusion)
  have above := inside.1
  have below := inside.2
  rw [LinkEmission.image, ← slice, List.getElem?_take_of_lt (by omega), List.getElem?_drop,
    Nat.add_sub_cancel' above]

theorem agree_of_whole (before : previous.layout.Separate previous.objects)
    (after : next.layout.Separate next.objects) (isOld : previous.emitNew = .ok old)
    (isNew : next.emitNew = .ok new) (sized : old.length = next.layout.fileSize)
    (isWhole : (next.plan.getD .all).isMinimal = false)
    (written : ∀ place, previous.Written place → next.Written place)
    (green : ∀ s ∈ next.layout.outputSections, s.source = .input →
      (next.plan.getD .all).collectsOutputSection s.name = false →
        ∃ before ∈ previous.layout.outputSections, before.source = .input ∧
          before.shOffset = s.shOffset ∧ before.shSize = s.shSize ∧
            previous.image before = next.image s)
    (left : Left next.objects next.symbols next.layout (next.plan.getD .all) new place) :
    old[place]? = new[place]? := by
  have oldSized := length_emitNew isOld
  have newSized := length_emitNew isNew
  cases left with
  | minimal minimal _ _ _ =>
      rw [isWhole] at minimal
      cases minimal
  | unwritten _ unwritten =>
      by_cases inside : place < next.layout.fileSize
      · rw [getElem?_of_unwritten before isOld (by omega) (mt (written place) unwritten),
          getElem?_of_unwritten after isNew inside unwritten]
      · rw [List.getElem?_eq_none (by omega), List.getElem?_eq_none (by omega)]
  | @green s _ _ present isInput notCollected inside =>
      rcases green s present isInput notCollected with
        ⟨other, isOther, otherInput, sameOffset, sameSize, sameImage⟩
      have inOther : other.HasPlace place := by
        rw [OutputSection.HasPlace, sameOffset, sameSize]
        exact inside
      rw [getElem?_of_section before isOld isOther otherInput inOther,
        getElem?_of_section after isNew present isInput inside, sameImage, sameOffset]

/-! ## Layouts that are reused -/

theorem contentWrites_congr {first second : SymbolTable} {layout : Layout} {bufLen : Nat}
    (slots : ∀ id ∈ layout.gotSlots, slotAddress first id = slotAddress second id)
    (symtab : ∀ entry ∈ layout.symtab, symtabRecord first entry = symtabRecord second entry)
    (s : OutputSection) :
    contentWrites first layout bufLen s = contentWrites second layout bufLen s := by
  rw [contentWrites, contentWrites]
  cases s.source with
  | got =>
      apply List.flatMap_congr
      intro slot present
      rw [slots slot.1 (List.fst_mem_of_mem_zipIdx present)]
  | symTab =>
      dsimp only
      generalize 0 = start
      generalize layout.symtab = entries at symtab
      induction entries generalizing start with
      | nil => rfl
      | cons entry rest induction =>
          rw [symtabWrites, symtabWrites, symtab entry List.mem_cons_self,
            induction (start + 1) fun other present =>
              symtab other (List.mem_cons_of_mem _ present)]
  | _ => rfl

theorem sectionWrites_congr {first second : SymbolTable} {layout : Layout} {bufLen : Nat}
    (slots : ∀ id ∈ layout.gotSlots, slotAddress first id = slotAddress second id)
    (symtab : ∀ entry ∈ layout.symtab, symtabRecord first entry = symtabRecord second entry)
    (filter : SectionWriteFilter) (s : OutputSection) :
    sectionWrites first layout filter bufLen s = sectionWrites second layout filter bufLen s := by
  rw [sectionWrites, sectionWrites, contentWrites_congr slots symtab]

theorem sameAt_items {layout : Layout} {e other : LinkEmission} {changed : List Nat}
    (isFirst : e.layout = layout) (isSecond : other.layout = layout)
    (before : layout.Separate e.objects) (after : layout.Separate other.objects)
    {copied copiedOther : List (Buffer.Patch UInt8)}
    (isCopied : copyInputSections e.arena e.objects e.symbols layout .all layout.fileSize =
      .ok copied)
    (isOther : copyInputSections other.arena other.objects other.symbols layout .all
      layout.fileSize = .ok copiedOther)
    (lengths : ∀ s ∈ layout.outputSections, ∀ c ∈ s.contributions,
      (workItemOf e.objects s c).map WorkItem.fileLen =
        (workItemOf other.objects s c).map WorkItem.fileLen)
    (unchanged : ∀ s ∈ layout.outputSections, ∀ c ∈ s.contributions,
      c.objectId ∉ changed → e.contributed s c = other.contributed s c)
    (outside : ∀ item ∈ collectInputWorkItems layout other.objects (.changedObjects changed),
      ¬ item.Covers place) :
    Buffer.SameAt place copied copiedOther := by
  rcases copyInputSections_ok_iff.mp isCopied with ⟨fit, succeed, _⟩
  rcases copyInputSections_ok_iff.mp isOther with ⟨otherFit, otherSucceed, _⟩
  rw [copied_by_section isCopied, copied_by_section isOther]
  apply Buffer.SameAt.flatMap
  intro s present
  by_cases isInput : s.source = .input
  · rw [if_pos isInput, if_pos isInput]
    apply Buffer.SameAt.flatMap
    intro c inContributions
    by_cases isChanged : c.objectId ∈ changed
    · have next {item : WorkItem} (isItem : workItemOf other.objects s c = some item) :
          ¬ item.Covers place := by
        refine outside item (item_of_contribution _ present isInput rfl inContributions ?_ isItem)
        exact List.contains_iff_mem.mpr isChanged
      apply Buffer.SameAt.of_outside
      · intro patch isPatch covers
        rcases List.mem_flatMap.mp isPatch with ⟨item, isItem, isPatch⟩
        rw [Option.mem_toList] at isItem
        have collected := item_of_contribution .all present isInput rfl
          inContributions rfl isItem
        have inside := covers_placed (fit.fits item collected) isPatch covers
        have length := lengths s present c inContributions
        rw [isItem, Option.map_some] at length
        rcases Option.map_eq_some_iff.mp length.symm with ⟨twin, isTwin, sameLen⟩
        apply next isTwin
        rw [WorkItem.Covers, fileOff_of_item isTwin, sameLen, ← fileOff_of_item isItem]
        exact inside
      · intro patch isPatch covers
        rcases List.mem_flatMap.mp isPatch with ⟨item, isItem, isPatch⟩
        rw [Option.mem_toList] at isItem
        have collected := item_of_contribution .all present isInput rfl
          inContributions rfl isItem
        exact next isItem (covers_placed (otherFit.fits item collected) isPatch covers)
    · have contributed := unchanged s present c inContributions isChanged
      have moved {e : LinkEmission} (isLayout : e.layout = layout)
          (separate : layout.Separate e.objects)
          (fit : ItemsFit (collectInputWorkItems layout e.objects .all) layout.fileSize)
          (succeed : ∀ item ∈ collectInputWorkItems layout e.objects .all, ∃ writes,
            (emitCtx e.arena e.objects e.symbols layout).itemWrites layout.fileSize
              (item, item.range 0) = .ok writes) :
          (workItemOf e.objects s c).toList.flatMap
              ((emitCtx e.arena e.objects e.symbols layout).placed layout.fileSize) =
            (e.contributed s c).map (Buffer.Patch.moved s.shOffset.toNat) := by
        rw [LinkEmission.contributed, isLayout, List.map_flatMap]
        apply List.flatMap_congr
        intro item isItem
        rw [Option.mem_toList] at isItem
        have collected := item_of_contribution .all present isInput rfl
          inContributions rfl isItem
        have extent : c.offset.toNat + c.size.toNat ≤ s.shSize.toNat :=
          separate.extents s present c inContributions
        have small := separate.stop_lt present (notBss_of_input isInput)
        exact placed_eq_moved isItem (by omega) (fit.fits item collected)
          (succeed item collected)
      rw [moved isFirst before fit succeed, moved isSecond after otherFit otherSucceed,
        contributed]
      exact Buffer.SameAt.refl _
  · rw [if_neg isInput, if_neg isInput]
    exact Buffer.SameAt.refl _

/-- The table of fewer frames covers no more. -/
theorem outside_smaller_table {layout : Layout} (apart : layout.FramesApart)
    {first second : List UInt8} (firstSized : first.length = layout.fileSize)
    (secondSized : second.length = layout.fileSize)
    (fewer : ∀ eh, layout.ehFrame = some eh →
      (framesIn first eh).length ≤ (framesIn second eh).length)
    (outside : ∀ patch ∈ writeEhFrameHdr second layout, ¬ patch.Covers place) :
    ∀ patch ∈ writeEhFrameHdr first layout, ¬ patch.Covers place := by
  intro patch isPatch covers
  rcases (covers_writeEhFrameHdr_iff first layout place).mp ⟨patch, isPatch, covers⟩ with
    ⟨hdr, eh, isHdr, isEh, framesFit, _, above, below⟩
  have more := fewer eh isEh
  have inFile := apart.frameTable hdr isHdr
  rw [firstSized, ← secondSized] at framesFit
  rw [frameTableStop] at below
  have stops : frameTableStop second hdr eh ≤ second.length := by
    rw [frameTableStop, secondSized]
    omega
  have behind : place < frameTableStop second hdr eh := by
    rw [frameTableStop]
    omega
  rcases (covers_writeEhFrameHdr_iff second layout place).mpr
    ⟨hdr, eh, isHdr, isEh, framesFit, stops, above, behind⟩ with ⟨other, isOther, covered⟩
  exact outside other isOther covered

theorem agree_of_reused (before : previous.layout.Separate previous.objects)
    (after : next.layout.Separate next.objects) (isOld : previous.emitNew = .ok old)
    (isNew : next.emitNew = .ok new) {changed : List Nat}
    (layout : next.layout = previous.layout)
    (slots : ∀ id ∈ next.layout.gotSlots,
      slotAddress previous.symbols id = slotAddress next.symbols id)
    (symtab : ∀ entry ∈ next.layout.symtab,
      symtabRecord previous.symbols entry = symtabRecord next.symbols entry)
    (lengths : ∀ s ∈ next.layout.outputSections, ∀ c ∈ s.contributions,
      (workItemOf previous.objects s c).map WorkItem.fileLen =
        (workItemOf next.objects s c).map WorkItem.fileLen)
    (unchanged : ∀ s ∈ next.layout.outputSections, ∀ c ∈ s.contributions,
      c.objectId ∉ changed → previous.contributed s c = next.contributed s c)
    (frames : ∀ eh, next.layout.ehFrame = some eh →
      (framesIn old eh).length ≤ (framesIn new eh).length)
    (left : Left next.objects next.symbols next.layout (.changedObjects changed) new place) :
    old[place]? = new[place]? := by
  cases left with
  | unwritten whole _ => cases whole
  | green whole _ _ _ _ => cases whole
  | minimal _ items table descriptor =>
  rw [LinkEmission.emitNew] at isOld isNew
  rcases data_of_emitFull isOld with ⟨all, isAll⟩
  rcases data_of_emitFull isNew with ⟨allNext, areAll⟩
  rw [emitFull_of_data isAll] at isOld
  rw [emitFull_of_data areAll] at isNew
  cases isOld
  cases isNew
  rw [← layout] at isAll before frames ⊢
  have opened : openOutputMap none next.layout.fileSize =
      List.replicate next.layout.fileSize 0 := rfl
  rw [opened] at table frames ⊢
  generalize isZeros : List.replicate next.layout.fileSize (0 : UInt8) = zeros
    at table frames ⊢
  have zerosSized : zeros.length = next.layout.fileSize := by
    rw [← isZeros, List.length_replicate]
  have oldSized : (Buffer.applyAll zeros all).length = next.layout.fileSize :=
    (Buffer.length_applyAll _ _).trans zerosSized
  have newSized : (Buffer.applyAll zeros allNext).length = next.layout.fileSize :=
    (Buffer.length_applyAll _ _).trans zerosSized
  have allWhole : SectionWriteFilter.all.isMinimal = false := rfl
  -- Headers, sections and slots are those of the layout, and so are the section headers.
  have data : Buffer.SameAt place all allNext := by
    rcases dataWrites_ok isAll with ⟨copied, isCopied, rfl⟩
    rcases dataWrites_ok areAll with ⟨copiedNext, areCopied, rfl⟩
    have sections : sectionWrites previous.symbols next.layout .all next.layout.fileSize =
        sectionWrites next.symbols next.layout .all next.layout.fileSize :=
      funext fun s => sectionWrites_congr slots symtab _ s
    rw [sections]
    apply Buffer.SameAt.append _ (Buffer.SameAt.refl _)
    apply Buffer.SameAt.append (Buffer.SameAt.refl _)
    apply Buffer.SameAt.append (Buffer.SameAt.refl _)
    exact sameAt_items layout.symm rfl before after isCopied areCopied lengths unchanged items
  rw [Buffer.applyAll_append zeros allNext, writeEhFrameHdr_final after newSized] at table
  have fewer : ∀ eh, next.layout.ehFrame = some eh →
      (framesIn (Buffer.applyAll zeros all) eh).length ≤
        (framesIn (Buffer.applyAll zeros allNext) eh).length := by
    intro eh isEh
    have whole := frames eh isEh
    rw [Buffer.applyAll_append, Buffer.applyAll_append zeros allNext,
      framesIn_final before oldSized isEh, framesIn_final after newSized isEh] at whole
    exact whole
  have oldTable := outside_smaller_table after.framesApart oldSized newSized fewer table
  rw [Buffer.applyAll_append zeros all, Buffer.applyAll_append zeros allNext]
  apply Buffer.SameAt.getElem?_applyAll
  · rw [imageWrites, imageWrites, allWhole, if_neg Bool.false_ne_true, oldSized, newSized]
    apply Buffer.SameAt.append
    · exact (Buffer.SameAt.of_outside oldTable table).append (Buffer.SameAt.refl _)
    · apply Buffer.SameAt.of_outside
      · exact outside_descriptor ((Buffer.length_applyAll _ _).trans oldSized) descriptor
      · exact outside_descriptor ((Buffer.length_applyAll _ _).trans newSized) descriptor
  · exact data.getElem?_applyAll rfl

theorem agree_of_follows (before : previous.layout.Separate previous.objects)
    (after : next.layout.Separate next.objects) (isOld : previous.emitNew = .ok old)
    (isNew : next.emitNew = .ok new) (follows : Follows previous next old new)
    (sized : old.length = next.layout.fileSize)
    (left : Left next.objects next.symbols next.layout (next.plan.getD .all) new place) :
    old[place]? = new[place]? := by
  cases follows with
  | resized different => exact absurd ((length_emitNew isOld).symm.trans sized) different
  | whole isWhole written green =>
      exact agree_of_whole before after isOld isNew sized isWhole written green left
  | reused plan layout slots symtab lengths unchanged frames =>
      rw [plan, Option.getD_some] at left
      exact agree_of_reused before after isOld isNew layout slots symtab lengths unchanged frames
        left

end

/-! ## Runs -/

/-- In each link of the run, what the plan leaves holds already what a link that is not
incremental writes there. -/
def Kept (new : LinkEmission → List UInt8) : Option (List UInt8) → List LinkEmission → Prop
  | _, [] => True
  | existing, e :: rest =>
      (∀ old ∈ existing, old.length = e.layout.fileSize →
        ∀ place, Left e.objects e.symbols e.layout (e.plan.getD .all) (new e) place →
          old[place]? = (new e)[place]?) ∧
        Kept new (some (new e)) rest

theorem emitAll_of_kept {emissions : List LinkEmission} {new : LinkEmission → List UInt8}
    (separate : ∀ e ∈ emissions, e.layout.Separate e.objects)
    (areNew : ∀ e ∈ emissions, e.emitNew = .ok (new e)) {existing : Option (List UInt8)}
    (kept : Kept new existing emissions) :
    emitAll existing emissions = .ok (emissions.map new) := by
  induction emissions generalizing existing with
  | nil => rfl
  | cons e rest induction =>
      have isFile := (emitOutput_eq_clean_iff (separate e List.mem_cons_self)
        (areNew e List.mem_cons_self) e.plan existing).mpr kept.1
      have later := induction (fun other present => separate other (List.mem_cons_of_mem _ present))
        (fun other present => areNew other (List.mem_cons_of_mem _ present)) kept.2
      rw [emitAll, LinkEmission.emit, isFile, ok_bind, later]
      rfl

theorem kept_of_emitAll {emissions : List LinkEmission} {new : LinkEmission → List UInt8}
    (separate : ∀ e ∈ emissions, e.layout.Separate e.objects)
    (areNew : ∀ e ∈ emissions, e.emitNew = .ok (new e)) {existing : Option (List UInt8)}
    (ends : emitAll existing emissions = .ok (emissions.map new)) :
    Kept new existing emissions := by
  induction emissions generalizing existing with
  | nil => trivial
  | cons e rest induction =>
      rw [emitAll] at ends
      rcases bind_ok ends with ⟨file, isFile, ends⟩
      rcases bind_ok ends with ⟨files, areFiles, isResult⟩
      cases isResult
      exact ⟨(emitOutput_eq_clean_iff (separate e List.mem_cons_self)
          (areNew e List.mem_cons_self) e.plan existing).mp isFile,
        induction (fun other present => separate other (List.mem_cons_of_mem _ present))
          (fun other present => areNew other (List.mem_cons_of_mem _ present)) areFiles⟩

/-! ### Two objects -/

private def inputOf (index : Nat) (name : String) (data : SectionData) : InputSection where
  index := index
  name := nameOf name
  kind := .text
  shType := shtProgbits
  data := data
  align := 4
  size := data.len.toUInt64
  flags := 6
  relocs := []

private def objectOf (path : String) (sections : List InputSection) : InputObject where
  path := path
  sections := sections
  symbols := []
  sectionMap := default
  symbolMap := default
  comdatGroups := []

private def outputOf (name : String) (offset size : UInt64) (shndx : UInt32)
    (contributions : List SectionContribution) : OutputSection where
  name := nameOf name
  kind := .text
  shType := shtProgbits
  shFlags := 6
  shAddr := 0x400000 + offset
  shOffset := offset
  shSize := size
  shLink := 0
  shInfo := 0
  shAddralign := 4
  shEntsize := 0
  shName := 0
  shndx := shndx
  contributions := contributions
  source := .input

private def twoObjects : List InputObject :=
  [objectOf "a.o" [inputOf 1 ".text" ⟨.mmap 0, 0, 4⟩, inputOf 2 ".rodata" ⟨.mmap 0, 4, 4⟩],
    objectOf "b.o" [inputOf 1 ".text" ⟨.mmap 1, 0, 2⟩]]

private def twoLayout : Layout where
  outputSections :=
    [outputOf ".text" 64 6 1 [⟨0, 1, 0, 0, 4⟩, ⟨1, 1, 0, 4, 2⟩],
      outputOf ".rodata" 72 4 2 [⟨0, 2, 1, 0, 4⟩]]
  phoff := 64
  shoff := 80
  shnum := 3
  fileSize := 272

private def emissionOf (first second : List UInt8) (plan : Option SectionWriteFilter) :
    LinkEmission where
  arena := ⟨[first, second], []⟩
  objects := twoObjects
  symbols := SymbolTable.new
  layout := twoLayout
  plan := plan

/-- All, then another first object, then another second one. -/
private def threeLinks : List LinkEmission :=
  [emissionOf [1, 2, 3, 4, 9, 9, 9, 9] [7, 8] none,
    emissionOf [4, 3, 2, 1, 9, 9, 9, 9] [7, 8] (some (.changedObjects [0])),
    emissionOf [4, 3, 2, 1, 9, 9, 9, 9] [8, 7] (some (.redOnly [nameOf ".text"]))]

private def newFile (e : LinkEmission) : List UInt8 := e.emitNew.toOption.getD []

private theorem emitNew_of_data {e : LinkEmission}
    (isData : (dataWrites e.arena e.objects e.symbols e.layout .all
      e.layout.fileSize).toOption.isSome = true) : e.emitNew = .ok (newFile e) := by
  rcases exists_ok_of_isSome isData with ⟨all, isAll⟩
  have emitted : e.emitNew = _ := emitFull_of_data isAll none
  rw [newFile, emitted]
  rfl

private theorem twoLayout_separate : twoLayout.Separate twoObjects where
  laid := by
    have ranges : twoLayout.fileRanges = [⟨0, 64⟩, ⟨64, 6⟩, ⟨72, 4⟩, ⟨80, 192⟩] := rfl
    rw [ranges]
    exact .cons (by decide) (.cons (by decide) (.cons (by decide) (.cons (by decide)
      (.nil (by decide)))))
  headers := by decide
  segments := by decide
  backed := by decide
  extents := by decide
  items := by decide
  contents := by decide
  slots := ⟨fun got isGot => (by cases isGot), fun _ absent => absurd absent List.not_mem_nil⟩
  frames := fun eh isEh => by cases isEh

private theorem threeLinks_separate : ∀ e ∈ threeLinks, e.layout.Separate e.objects := by
  intro e present
  simp only [threeLinks, List.mem_cons, List.not_mem_nil, or_false] at present
  rcases present with rfl | rfl | rfl
  · exact twoLayout_separate
  · exact twoLayout_separate
  · exact twoLayout_separate

private theorem threeLinks_new : ∀ e ∈ threeLinks, e.emitNew = .ok (newFile e) := by
  have each : ∀ e ∈ threeLinks, (dataWrites e.arena e.objects e.symbols e.layout .all
      e.layout.fileSize).toOption.isSome = true := by
    decide +kernel
  intro e present
  exact emitNew_of_data (each e present)

/-- In a run of links to one file every link leaves the file of a link that is not incremental,
if and only if each finds those bytes already in all that its plan leaves as it is. -/
theorem emitAll_eq_new_iff {emissions : List LinkEmission} {new : LinkEmission → List UInt8}
    (separate : ∀ e ∈ emissions, e.layout.Separate e.objects)
    (areNew : ∀ e ∈ emissions, e.emitNew = .ok (new e)) (existing : Option (List UInt8)) :
    emitAll existing emissions = .ok (emissions.map new) ↔ Kept new existing emissions :=
  ⟨kept_of_emitAll separate areNew, emitAll_of_kept separate areNew⟩

/-- The first object is another one, but no section is to be written. -/
private def staleLinks : List LinkEmission :=
  [emissionOf [1, 2, 3, 4, 9, 9, 9, 9] [7, 8] none,
    emissionOf [4, 3, 2, 1, 9, 9, 9, 9] [7, 8] (some (.redOnly []))]

private theorem staleLinks_separate : ∀ e ∈ staleLinks, e.layout.Separate e.objects := by
  intro e present
  simp only [staleLinks, List.mem_cons, List.not_mem_nil, or_false] at present
  rcases present with rfl | rfl
  · exact twoLayout_separate
  · exact twoLayout_separate

private theorem staleLinks_new : ∀ e ∈ staleLinks, e.emitNew = .ok (newFile e) := by
  have each : ∀ e ∈ staleLinks, (dataWrites e.arena e.objects e.symbols e.layout .all
      e.layout.fileSize).toOption.isSome = true := by
    decide +kernel
  intro e present
  exact emitNew_of_data (each e present)

/-- The second link leaves the bytes of the object before. -/
theorem emitAll_eq_new_iff_stale :
    emitAll none staleLinks ≠ .ok (staleLinks.map newFile) := by
  intro ends
  have kept := (emitAll_eq_new_iff staleLinks_separate staleLinks_new none).mp ends
  have sizes : (newFile (emissionOf [1, 2, 3, 4, 9, 9, 9, 9] [7, 8] none)).length = 272 :=
    length_emitNew (staleLinks_new _ List.mem_cons_self)
  have text : outputOf ".text" 64 6 1 [⟨0, 1, 0, 0, 4⟩, ⟨1, 1, 0, 4, 2⟩] ∈
      twoLayout.outputSections := List.mem_cons_self
  have inside : (outputOf ".text" 64 6 1
      [⟨0, 1, 0, 0, 4⟩, ⟨1, 1, 0, 4, 2⟩]).HasPlace 64 := ⟨by decide, by decide⟩
  have same := kept.2.1 _ rfl sizes 64 (.green rfl text rfl rfl inside)
  rw [getElem?_of_section twoLayout_separate (staleLinks_new _ List.mem_cons_self) text rfl
      inside,
    getElem?_of_section twoLayout_separate
      (staleLinks_new _ (List.mem_cons_of_mem _ List.mem_cons_self)) text rfl inside] at same
  exact absurd same (by decide +kernel)

theorem kept_of_follows {emissions : List LinkEmission} {new : LinkEmission → List UInt8}
    {previous : LinkEmission} (separate : ∀ e ∈ previous :: emissions, e.layout.Separate e.objects)
    (areNew : ∀ e ∈ previous :: emissions, e.emitNew = .ok (new e))
    (chain : (previous :: emissions).IsChain fun previous next =>
      Follows previous next (new previous) (new next)) :
    Kept new (some (new previous)) emissions := by
  induction emissions generalizing previous with
  | nil => trivial
  | cons e rest induction =>
      rw [List.isChain_cons_cons] at chain
      refine ⟨?_, ?_⟩
      · intro old isOld sized place left
        cases Option.mem_def.mp isOld
        have isPrevious : previous ∈ previous :: e :: rest := List.mem_cons_self
        have isNext : e ∈ previous :: e :: rest := List.mem_cons_of_mem _ List.mem_cons_self
        exact agree_of_follows (separate previous isPrevious) (separate e isNext)
          (areNew previous isPrevious) (areNew e isNext) chain.1 sized left
      · exact induction (fun other present => separate other (List.mem_cons_of_mem _ present))
          (fun other present => areNew other (List.mem_cons_of_mem _ present)) chain.2

/-- A run of links that begins without a file, and in which each link changes no more than its
plan takes into account, leaves the file of a link that is not incremental after each of them. -/
theorem emitAll_of_follows {emissions : List LinkEmission} {new : LinkEmission → List UInt8}
    (separate : ∀ e ∈ emissions, e.layout.Separate e.objects)
    (areNew : ∀ e ∈ emissions, e.emitNew = .ok (new e))
    (chain : emissions.IsChain fun previous next =>
      Follows previous next (new previous) (new next)) :
    emitAll none emissions = .ok (emissions.map new) := by
  apply emitAll_of_kept separate areNew
  cases emissions with
  | nil => trivial
  | cons e rest =>
      refine ⟨fun old isOld => ?_, kept_of_follows separate areNew chain⟩
      cases isOld

private theorem threeLinks_follows : threeLinks.IsChain fun previous next =>
    Follows previous next (newFile previous) (newFile next) := by
  apply List.IsChain.cons_cons
  · refine @Follows.reused _ _ _ _ [0] rfl rfl ?_ ?_ (fun _ _ _ _ => rfl) ?_ ?_
    · exact fun id absent => absurd absent List.not_mem_nil
    · exact fun entry absent => absurd absent List.not_mem_nil
    · decide +kernel
    · exact fun eh isEh => by cases isEh
  apply List.IsChain.cons_cons
  · refine .whole rfl (fun _ written => written) fun s present _ notCollected =>
      ⟨s, present, ?_⟩
    have each : ∀ s ∈ twoLayout.outputSections,
        SectionWriteFilter.collectsOutputSection (.redOnly [nameOf ".text"]) s.name = false →
          s.source = .input ∧
            (emissionOf [4, 3, 2, 1, 9, 9, 9, 9] [7, 8] (some (.changedObjects [0]))).image s =
              (emissionOf [4, 3, 2, 1, 9, 9, 9, 9] [8, 7]
                (some (.redOnly [nameOf ".text"]))).image s := by
      decide +kernel
    rcases each s present notCollected with ⟨isInput, sameImage⟩
    exact ⟨isInput, rfl, rfl, sameImage⟩
  · exact List.isChain_singleton _

theorem emitAll_of_follows_three :
    emitAll none threeLinks = .ok (threeLinks.map newFile) :=
  emitAll_of_follows threeLinks_separate threeLinks_new threeLinks_follows

end Peony
