import Peony.Driver.Separation
import Peony.Driver.SymbolAddresses

namespace Peony

/-! What a process finds in its memory once the output of a link is loaded: the sections, the
input sections at the addresses of the symbols that they define, and the slots that point to
these. -/

namespace Link

/-- The file that the emission of a link leaves. -/
structure Output (link : Link) (linked : Linked) (clean : List UInt8) : Prop extends
    link.Ran linked where
  emitted : emitFull link.arena link.objects linked.symbols linked.layout none = .ok clean

/-- What memory holds of an input section from an address on: its relocated bytes, or zeros
where the output section has no bytes. -/
inductive HoldsAt (link : Link) (linked : Linked) (clean : List UInt8) (host : Contributor)
    (address : UInt64) : Prop
  | bytes (item : WorkItem) (isSection : item.isec = host.sec) (isObject : item.obj = host.obj)
      (objId : item.objId = host.objId) (isAddress : item.sectionVa = address)
      (holds : ∀ index < host.sec.data.len.toNat, loadedAt clean (address.toNat + index) =
        ((emitCtx link.arena link.objects linked.symbols linked.layout).rendered item)[index]?) :
      HoldsAt link linked clean host address
  | zeros (s : OutputSection) (present : s ∈ linked.layout.outputSections)
      (isBss : s.source = .bss) (c : SectionContribution) (among : c ∈ s.contributions)
      (isHost : c.key = host.label)
      (holds : ∀ index < host.sec.size.toNat, loadedAt clean (address.toNat + index) = some 0) :
      HoldsAt link linked clean host address

/-- The item of a contribution is the section that contributes. -/
theorem exists_item {link : Link} {table : SymbolTable} {host : Contributor}
    (contributes : host ∈ (link.layoutInput table).contributors) {s : OutputSection}
    {c : SectionContribution} (isKey : c.key = host.label) (isPos : c.sectionPos = host.pos) :
    ∃ item, workItemOf link.objects s c = some item ∧ item.isec = host.sec ∧
      item.obj = host.obj ∧ item.objId = host.objId ∧
      item.sectionVa = saturatingAdd s.shAddr c.offset ∧
      item.fileLen = host.sec.data.len.toUInt64 := by
  rcases mem_inputSections.mp (LayoutInput.mem_contributors.mp contributes).1 with
    ⟨isObject, isSection⟩
  have objId : c.objectId = host.objId := congrArg Prod.fst isKey
  have isItem : workItemOf link.objects s c = some {
      fileOff := saturatingAdd s.shOffset c.offset
      fileLen := host.sec.data.len.toUInt64
      sectionVa := saturatingAdd s.shAddr c.offset
      obj := host.obj
      isec := host.sec
      objId := c.objectId
      inputSectionIndex := c.sectionIndex } := by
    change link.objects[host.objId]? = some host.obj at isObject
    rw [workItemOf, objId, isObject]
    change (host.obj.sections[c.sectionPos]? >>= _) = _
    rw [isPos, isSection]
    rfl
  exact ⟨_, isItem, rfl, rfl, objId, rfl, rfl⟩

section

variable {link : Link} {linked : Linked} {clean : List UInt8}

/-- Each section of an output is in memory at its address. -/
theorem loadedAt_output (yields : link.Yields linked)
    (emitted : emitFull link.arena link.objects linked.symbols linked.layout none = .ok clean)
    {s : OutputSection} (present : s ∈ linked.layout.outputSections)
    (isLoaded : s.isLoaded = true) {index : Nat} (inside : index < s.shSize.toNat) :
    loadedAt clean (s.shAddr.toNat + index) =
        (if s.source = .bss then some 0 else clean[s.shOffset.toNat + index]?) ∧
      (s.source ≠ .bss → s.source ≠ .ehFrameHdr → s.source ≠ .noteBuildId →
        loadedAt clean (s.shAddr.toNat + index) =
          (sectionImage link.arena link.objects linked.symbols linked.layout s)[index]?) := by
  rcases yields.separate with ⟨separate, loadable⟩
  have loaded := loadedAt_section separate loadable emitted present isLoaded inside
  refine ⟨loaded, fun notBss notTable notNote => ?_⟩
  have slice := slice_clean separate emitted present notBss notTable notNote
  have inSlice := congrArg (fun bytes : List UInt8 => bytes[index]?) slice
  rw [List.getElem?_take_of_lt inside, List.getElem?_drop] at inSlice
  rw [loaded, if_neg notBss, inSlice]

section

variable (output : link.Output linked clean) {table : SymbolTable}
variable (defined : link.defined = some table)

include output defined

/-- Each section that contributes is in memory at the address that is recorded for it and for
what is folded onto it. -/
theorem exists_holdsAt (parsed : ∀ obj ∈ link.objects, obj.Parsed)
    (folding : (link.layoutInput table).Folding) {host : Contributor}
    (contributes : host ∈ (link.layoutInput table).contributors) {key : SectionKey}
    (leads : key = host.label ∨ (link.layoutInput table).foldsTo key = some host.label)
    (kept : ∀ member, (link.layoutInput table).IsPassedThrough member → member.label ≠ key) :
    ∃ address, linked.layout.addressOf key.1 key.2 = some address ∧
      host.align.toNat ∣ address.toNat ∧ link.HoldsAt linked clean host address := by
  rcases output.separate with ⟨separate, loadable⟩
  rcases exists_computed output.ran with ⟨own, layout, isOwn, succeeded, rfl⟩
  rw [defined, Option.some.injEq] at isOwn
  subst isOwn
  rcases LayoutInput.computed_of_ok succeeded with ⟨computed⟩
  have within := output.within table layout defined succeeded
  have cuts := (@cuts_withDynamicRelocs link table (link.finalized table layout) layout
    computed within).1
  rcases LayoutInput.exists_address parsed computed folding contributes leads kept with
    ⟨address, isAddress, aligned, s, isBefore, isAlloc, c, among, isKey, isPos, isSize, rfl⟩
  rcases Pairwise.exists_right cuts.sections isBefore with ⟨cut, present, cutsOne⟩
  have isLoaded : cut.isLoaded = true := by
    rw [cutsOne.isLoaded, OutputSection.isLoaded, bne_iff_ne]
    exact isAlloc
  have inCut : c ∈ cut.contributions := by
    rw [cutsOne.contributions]
    exact among
  have extent : c.offset.toNat + c.size.toNat ≤ cut.shSize.toNat :=
    separate.extents cut present c inCut
  have last : cut.shAddr.toNat + cut.shSize.toNat < 2 ^ 64 :=
    loadable.addresses cut present isLoaded
  have start : (s.shAddr + c.offset).toNat = cut.shAddr.toNat + c.offset.toNat := by
    rw [UInt64.toNat_add, ← cutsOne.shAddr]
    omega
  refine ⟨s.shAddr + c.offset, ?_, aligned, ?_⟩
  · rw [addressOf_withDynamicRelocs]
    exact isAddress
  rcases LayoutInput.source_of_contributed computed within.fits.ownNames isBefore
    (bne_iff_ne.mpr isAlloc) among with isInput | isBss
  · rcases @exists_item link table host contributes cut c isKey isPos with
      ⟨item, isItem, isSection, isObject, objId, isVa, isLen⟩
    refine .bytes item isSection isObject objId ?_ fun index inside => ?_
    · apply UInt64.toNat_inj.mp
      rw [start, isVa]
      apply toNat_saturatingAdd_of_lt
      omega
    · rw [start]
      apply loadedAt_item separate loadable output.emitted present isLoaded
        (cutsOne.source.trans isInput) inCut isItem
      rw [isLen]
      exact inside
  · refine .zeros cut present (cutsOne.source.trans isBss) c inCut isKey fun index inside => ?_
    have loaded := loadedAt_section separate loadable output.emitted present isLoaded
      (show c.offset.toNat + index < cut.shSize.toNat by rw [isSize] at extent; omega)
    rw [if_pos (cutsOne.source.trans isBss), ← Nat.add_assoc] at loaded
    rw [start]
    exact loaded

end

end

/-! ## Slots -/

section

variable {link : Link} {table : SymbolTable} {layout : Layout}
variable (computed : LayoutInput.Computed (link.layoutInput table) layout)
variable (within : link.Within table layout)

include computed within

/-- A link whose symbols have slots has a loaded section for them. -/
theorem exists_got {symbols : SymbolTable} (some : layout.gotSlots ≠ []) :
    ∃ got, (link.withDynamicRelocs symbols (patchIfuncPltRelocs layout symbols)).firstOf .got =
        Option.some got ∧ got.isLoaded = true ∧ got.shAddr = layout.gotBase := by
  have cuts := (@cuts_withDynamicRelocs link table symbols layout computed within).1
  have gotSlots : layout.gotSlots = link.gotSyms :=
    congrArg Layout.gotSlots computed.assembled
  have isBase : layout.gotBase = vaOf layout.outputSections .got := by
    have isAssembled := (link.layoutInput table).gotBase_assemble computed.pre
      ((link.layoutInput table).ordered computed.pre) computed.entry
    rw [← computed.assembled] at isAssembled
    exact isAssembled
  have needed : (link.layoutInput table).gotTotal > 0 := by
    have total := (LayoutInput.toNat_gotTotal within.fits.slots).2
    have positive : 0 < link.gotSyms.length := List.length_pos_of_ne_nil (gotSlots ▸ some)
    apply UInt64.lt_iff_toNat_lt.mpr
    rw [total]
    change 0 < 8 * link.gotSyms.length + _
    omega
  rcases LayoutInput.exists_added computed (List.mem_append_right _
    (List.mem_append_left _ (LayoutInput.mem_got computed.pre needed))) with
    ⟨placed, isPlaced, isSource, _⟩
  rcases @LayoutInput.mem_outputSections _ computed.pre _ computed.entry placed isPlaced with
    ⟨finished, isFinal, isFinished⟩
  rw [← computed.assembled] at isFinal
  have isGot : (finished.source == .got) = true :=
    beq_iff_eq.mpr (isFinished.source.trans isSource)
  rcases Pairwise.exists_right cuts.sections isFinal with ⟨cut, present, cutsOne⟩
  rw [Layout.firstOf]
  cases found : (link.withDynamicRelocs symbols
      (patchIfuncPltRelocs layout symbols)).outputSections.find? fun s => s.source == .got with
  | none =>
      have absent := List.find?_eq_none.mp found cut present
      rw [cutsOne.source] at absent
      exact absurd isGot absent
  | some got =>
      rcases cuts.exists_find (fun s cut cutsOne => by rw [cutsOne.source]) found with
        ⟨s, isFirst, cutsGot⟩
      have chosen := List.find?_some isFirst
      have source : s.source = .got := beq_iff_eq.mp chosen
      refine ⟨got, rfl, ?_, ?_⟩
      · rw [cutsGot.isLoaded]
        exact (LayoutInput.own_of_computed computed within.fits.ownNames
          (List.mem_of_find?_eq_some isFirst) (by rw [source]; rfl)).1
      · rw [cutsGot.shAddr, isBase, vaOf, isFirst]
        rfl

end

section

variable {link : Link} {linked : Linked} {clean : List UInt8}

/-- The slot of a symbol in `.got` holds its address. -/
theorem loadedAt_gotAddress (output : link.Output linked clean) {name : Name}
    {res : SymbolResolution} (found : linked.symbols.lookup name = some res)
    (hasSlot : ∃ id ∈ linked.layout.gotSlots, linked.symbols.nameById id = some name)
    {index : Nat} (inside : index < 8) :
    loadedAt clean (res.gotAddress.toNat + index) =
      (toLeBytes res.virtualAddress)[index]? := by
  rcases output.separate with ⟨separate, loadable⟩
  rcases exists_computed output.ran with ⟨table, layout, defined, succeeded, rfl⟩
  rcases LayoutInput.computed_of_ok succeeded with ⟨computed⟩
  have within := output.within table layout defined succeeded
  have slots : (link.withDynamicRelocs (link.finalized table layout)
      (patchIfuncPltRelocs layout (link.finalized table layout))).gotSlots =
        layout.gotSlots := by
    rw [withDynamicRelocs]
    split <;> rfl
  have ids := @nameById_finalized link table layout
  rcases hasSlot with ⟨own, isOwn, named⟩
  rw [slots] at isOwn
  rcases exists_slot found ⟨own, isOwn, (ids own).symm.trans named⟩ with
    ⟨place, id, isSlot, isNamed, isAddress⟩
  have nonempty : layout.gotSlots ≠ [] := List.ne_nil_of_mem isOwn
  rcases @exists_got link table layout computed within (link.finalized table layout) nonempty with
    ⟨got, isGot, isLoaded, start⟩
  have small : got.shAddr.toNat + layout.gotSlots.length * 8 < 2 ^ 64 := by
    rcases firstOf_spec isGot with ⟨present, source⟩
    have content := separate.contents got present
    rw [source] at content
    change (link.withDynamicRelocs _ _).gotSlots.length * 8 ≤ _ at content
    rw [slots] at content
    have last : got.shAddr.toNat + got.shSize.toNat < 2 ^ 64 :=
      loadable.addresses got present isLoaded
    omega
  have below := (List.getElem?_eq_some_iff.mp isSlot).1
  have address : res.gotAddress.toNat = got.shAddr.toNat + place * 8 := by
    have eight : (8 : UInt64).toNat = 8 := rfl
    rw [isAddress, ← start, UInt64.toNat_add, UInt64.toNat_mul, UInt64.toNat_ofNat', eight]
    omega
  have content : slotAddress (link.finalized table layout) id = res.virtualAddress := by
    rw [slotAddress, ids id, isNamed, Option.bind_some, found]
    rfl
  rw [address, ← content]
  apply loadedAt_slot separate loadable output.emitted isGot isLoaded
    (fun slot present => ?_) (slots.symm ▸ isSlot) inside
  rw [slots, start, Nat.mul_comm]
  exact (within_tlsSlots computed within present).1

end

/-- A symbol of a section lies in the bytes of this section in memory, and its slot in `.got`
has its address. -/
theorem symbol_inMemory {link : Link} {linked : Linked} {clean : List UInt8}
    (output : link.Output linked clean) {run : TableRun} {table : SymbolTable}
    (imported : run.imported = .ok link.symbols) (defined : link.defined = some table)
    (few : table.names.length < 2 ^ 32) (parsed : ∀ obj ∈ link.objects, obj.Parsed)
    (folding : (link.layoutInput table).Folding) {name : Name} {res : SymbolResolution}
    (found : linked.symbols.lookup name = some res) {objId : ObjectId} {sectionIndex : Nat}
    (isDefined : res.definedIn = some objId) (isSection : res.sectionIndex = some sectionIndex)
    (uncommon : res.common = none) (notImport : res.isImport = false) {host : Contributor}
    (contributes : host ∈ (link.layoutInput table).contributors)
    (leads : (objId.toNat, sectionIndex) = host.label ∨
      (link.layoutInput table).foldsTo (objId.toNat, sectionIndex) = some host.label)
    (kept : ∀ member, (link.layoutInput table).IsPassedThrough member →
      member.label ≠ (objId.toNat, sectionIndex)) :
    (∃ address, res.virtualAddress = address + res.value ∧
        host.align.toNat ∣ address.toNat ∧ link.HoldsAt linked clean host address) ∧
      ((∃ id ∈ linked.layout.gotSlots, linked.symbols.nameById id = some name) →
        ∀ index < 8, loadedAt clean (res.gotAddress.toNat + index) =
          (toLeBytes res.virtualAddress)[index]?) := by
  refine ⟨?_, fun hasSlot index inside => loadedAt_gotAddress output found hasSlot inside⟩
  rcases exists_holdsAt output defined parsed folding contributes leads kept with
    ⟨address, isAddress, aligned, holds⟩
  refine ⟨address, ?_, aligned, holds⟩
  rcases settled_of_run imported defined few with ⟨numbered, settled⟩
  rcases exists_computed output.ran with ⟨own, layout, isOwn, succeeded, rfl⟩
  rw [defined, Option.some.injEq] at isOwn
  subst isOwn
  rcases LayoutInput.computed_of_ok succeeded with ⟨computed⟩
  rw [addressOf_withDynamicRelocs] at isAddress
  exact virtualAddress_of_section defined numbered settled computed found isDefined isSection
    uncommon notImport isAddress

/-! A program that reads a word of its data through a slot. -/

private def imageSection (index : Nat) (name : String) (kind : SectionKind) (shType : UInt32)
    (data : SectionData) (flags : UInt64) (relocs : List InputReloc) : InputSection where
  index := index
  name := nameOf name
  kind := kind
  shType := shType
  data := data
  align := 8
  size := 8
  flags := flags
  relocs := relocs

private def imageSymbol (index : Nat) (name : String) : InputSymbol where
  index := index
  name := nameOf name
  binding := .global
  isUndefined := false
  isCommon := false
  isIfunc := false
  stType := 0
  visibility := 0
  sectionIndex := some index
  value := 0
  size := 8

private def imageObject : InputObject :=
  InputObject.assemble "image.o" 3 3
    [imageSection 1 ".text" .text shtProgbits ⟨.owned 0, 0, 8⟩ (shfAlloc ||| shfExecinstr)
        [⟨3, 9, 2, -4⟩],
      imageSection 2 ".data" .data shtProgbits ⟨.owned 1, 0, 8⟩ (shfAlloc ||| shfWrite) [],
      imageSection 3 ".bss" .bss shtNobits ⟨.owned 1, 0, 0⟩ (shfAlloc ||| shfWrite) []]
    [imageSymbol 1 "_start", imageSymbol 2 "word", imageSymbol 3 "room"] []

def imageRun : TableRun where
  resolving := [.addObject "image.o", .processObjectExcluding 0 imageObject []]
  libraries := []
  ensured := []
  late := []

def imageLink (word : UInt8) : Link where
  args := {}
  baseAddress := 0x400000
  arena :=
    { mmaps := []
      owned := [[0x48, 0x8b, 0x05, 0, 0, 0, 0, 0xc3], List.replicate 8 word] }
  objects := [imageObject]
  symbols :=
    match imageRun.imported with
    | .ok table => table
    | .error _ => SymbolTable.new

def imageTable : SymbolTable := defineAll (imageLink 1).predefined []

def imageInput : LayoutInput := (imageLink 1).layoutInput imageTable

def imageLinked : Linked :=
  match (imageLink 1).run with
  | .ok linked => linked
  | .error _ => ⟨SymbolTable.new, {}⟩

def imageFile : List UInt8 :=
  (emitFull (imageLink 1).arena (imageLink 1).objects imageLinked.symbols imageLinked.layout
    none).toOption.getD []

private def imageFits (input : LayoutInput) : Bool :=
  decide (((∀ member ∈ input.contributors, Cursor.Fits 0
        ((input.membersOf (input.outName member.sec.name)).map Icf.Place.slot)) ∧
      (∀ name ∈ input.passthroughNames,
        Cursor.Fits 0 ((input.passthroughMembers name).map Icf.Place.passedSlot)) ∧
      Cursor.Fits input.base (input.addressRun (input.ordered {})) ∧
      Cursor.Fits (input.contentEnd (input.ordered {})) (input.fileRun {} (input.ordered {})) ∧
      ((input.fileEnd {} (input.ordered {})).sections.length + 1) * shdrSize.toNat < 2 ^ 64) ∧
    input.KeepsOwnNames ∧
    (∀ b ∈ input.groups, b.name = nameOf ".eh_frame" → b.isNobits = false) ∧
    (∀ member ∈ input.contributors, member.sec.data.len.toNat ≤ member.sec.size.toNat) ∧
    8 * input.gotSyms.length + input.tls.slotBytes < 2 ^ 64 ∧
    input.passthroughNames = []) &&
  input.contributors.any (fun host => (0, 2) == host.label) &&
  input.computeLayoutIcf.toOption.any fun layout =>
    layout.outputSections.all fun s => decide (layout.contentSize s.source < 2 ^ 64)

private def isImage (linked : Linked) : Bool :=
  (dataWrites (imageLink 1).arena (imageLink 1).objects linked.symbols linked.layout .all
    linked.layout.fileSize).toOption.isSome &&
  (linked.layout.outputSections.any fun s =>
    s.source == .got && s.isLoaded && decide (1 < s.shSize.toNat) &&
      (sectionImage (imageLink 1).arena (imageLink 1).objects linked.symbols linked.layout
        s)[1]? == some 0x30) &&
  ((linked.symbols.lookup (nameOf "word")).any fun res =>
    res.definedIn == some 0 && res.sectionIndex == some 2 && res.common == none &&
      !res.isImport) &&
  linked.layout.gotSlots.any fun id => linked.symbols.nameById id == some (nameOf "word")

/-- All that is evaluated. -/
private theorem image_evaluated :
    (imageFits imageInput && (imageLink 1).run.toOption.any isImage) = true := by
  decide +kernel

private theorem image_defined : (imageLink 1).defined = some imageTable := by
  have isNil : (imageLink 1).args.defsym = [] := rfl
  rw [defined, applyDefsym, isNil]
  rfl

private theorem image_run :
    (imageLink 1).run = .ok imageLinked ∧ isImage imageLinked = true := by
  have evaluated := (Bool.and_eq_true_iff.mp image_evaluated).2
  unfold imageLinked
  cases linked : (imageLink 1).run with
  | ok found =>
      rw [linked] at evaluated
      exact ⟨rfl, evaluated⟩
  | error failure =>
      rw [linked] at evaluated
      cases evaluated

theorem image_ran : (imageLink 1).Ran imageLinked where
  ran := image_run.1
  within table layout defined succeeded := by
    rw [image_defined, Option.some.injEq] at defined
    subst defined
    have evaluated := (Bool.and_eq_true_iff.mp image_evaluated).1
    simp only [imageFits, Bool.and_eq_true, decide_eq_true_eq] at evaluated
    rcases evaluated with ⟨⟨⟨sums, own, frames, data, slots, _⟩, _⟩, contents⟩
    refine ⟨fun pre prebuilt => ?_, ⟨own, frames, data, ?_, slots, ?_⟩, ?_⟩
    · have isPre : pre = {} := (Except.ok.inj prebuilt).symm
      rw [isPre]
      exact LayoutInput.noWrap_of_checked sums
    · have fits := LayoutInput.any_of_computed contents succeeded
      intro s present
      exact of_decide_eq_true (List.all_eq_true.mp fits s present)
    · intro dynj isDynamic
      cases isDynamic
    · intro isDynamic
      cases isDynamic

theorem image_output : (imageLink 1).Output imageLinked imageFile where
  toRan := image_ran
  emitted := by
    have evaluated := image_run.2
    simp only [isImage, Bool.and_eq_true] at evaluated
    rcases evaluated with ⟨⟨⟨isData, _⟩, _⟩, _⟩
    rw [imageFile]
    rcases exists_ok_of_isSome isData with ⟨all, isAll⟩
    rw [emitFull_of_data isAll none]
    rfl

/-- The second byte of the slot. -/
theorem loadedAt_output_image :
    ∃ s ∈ imageLinked.layout.outputSections, s.source = .got ∧
      loadedAt imageFile (s.shAddr.toNat + 1) = some 0x30 := by
  have evaluated := image_run.2
  simp only [isImage, Bool.and_eq_true] at evaluated
  rcases evaluated with ⟨⟨⟨_, found⟩, _⟩, _⟩
  rcases List.any_eq_true.mp found with ⟨s, present, holds⟩
  simp only [Bool.and_eq_true, beq_iff_eq, decide_eq_true_eq] at holds
  rcases holds with ⟨⟨⟨isGot, isLoaded⟩, inside⟩, byte⟩
  refine ⟨s, present, isGot, ?_⟩
  rw [← byte]
  apply (loadedAt_output (.computed image_ran) image_output.emitted present isLoaded inside).2
  all_goals
    rw [isGot]
    exact SecSource.noConfusion

theorem symbol_inMemory_image :
    ∃ host res, imageLinked.symbols.lookup (nameOf "word") = some res ∧
      (∃ address, res.virtualAddress = address + res.value ∧
        host.align.toNat ∣ address.toNat ∧
          (imageLink 1).HoldsAt imageLinked imageFile host address) ∧
      ∀ index < 8, loadedAt imageFile (res.gotAddress.toNat + index) =
        (toLeBytes res.virtualAddress)[index]? := by
  have fits := (Bool.and_eq_true_iff.mp image_evaluated).1
  simp only [imageFits, Bool.and_eq_true, decide_eq_true_eq] at fits
  rcases fits with ⟨⟨⟨_, _, _, _, _, noneListed⟩, contributes⟩, _⟩
  have evaluated := image_run.2
  simp only [isImage, Bool.and_eq_true] at evaluated
  rcases evaluated with ⟨⟨⟨_, _⟩, known⟩, hasSlot⟩
  rcases List.any_eq_true.mp contributes with ⟨host, isHost, isLabel⟩
  rcases (Option.any_eq_true _ _).mp known with ⟨res, found, holds⟩
  simp only [Bool.and_eq_true, beq_iff_eq, Bool.not_eq_true'] at holds
  rcases holds with ⟨⟨⟨isDefined, isSection⟩, uncommon⟩, notImport⟩
  rcases List.any_eq_true.mp hasSlot with ⟨id, isSlot, named⟩
  have parsed : ∀ obj ∈ (imageLink 1).objects, obj.Parsed := by
    intro obj present
    rw [List.mem_singleton.mp present]
    exact InputObject.assemble_parsed _ _ _ _ _ _ (by decide) (by decide) (by decide)
      (by decide)
  have imported : imageRun.imported = .ok (imageLink 1).symbols := rfl
  have inMemory := symbol_inMemory image_output imported image_defined
    (by decide) parsed
    (fun foldMap isMap => absurd isMap.symm (Option.some_ne_none foldMap)) found isDefined
    isSection uncommon notImport isHost (.inl (beq_iff_eq.mp isLabel))
    (fun member passed => by
      rcases passed with ⟨name, listed, _⟩
      rw [show (imageLink 1).layoutInput imageTable = imageInput from rfl,
        noneListed] at listed
      exact absurd listed List.not_mem_nil)
  exact ⟨host, res, found, inMemory.1, inMemory.2 ⟨id, isSlot, beq_iff_eq.mp named⟩⟩

end Link

end Peony
