import Peony.Emit.Loader
import Peony.Emit.ReservedSizes
import Peony.Layout.GotSlots

namespace Peony

/-! A layout that is computed gives each write of an emission its own part of the file. -/

namespace LayoutInput

variable {input : LayoutInput}

/-! ## What input sections bring -/

/-- What the input sections have to be like so that no write of the output leaves the section
that it is for. -/
structure FitsOutput (input : LayoutInput) (layout : Layout) : Prop where
  ownNames : input.KeepsOwnNames
  frames : ∀ b ∈ input.groups, b.name = nameOf ".eh_frame" → b.isNobits = false
  data : ∀ member ∈ input.contributors, member.sec.data.len.toNat ≤ member.sec.size.toNat
  contents : ∀ s ∈ layout.outputSections, layout.contentSize s.source < 2 ^ 64
  slots : 8 * input.gotSyms.length + input.tls.slotBytes < 2 ^ 64
  relocs : ∀ dynj, input.dynamic = some dynj → 24 * input.nRelaDyn dynj < 2 ^ 64

theorem toNat_gotTotal (fits : 8 * input.gotSyms.length + input.tls.slotBytes < 2 ^ 64) :
    input.scalarGotBytes.toNat = 8 * input.gotSyms.length ∧
      input.gotTotal.toNat = 8 * input.gotSyms.length + input.tls.slotBytes := by
  have eight : (8 : UInt64).toNat = 8 := rfl
  have scalar : input.scalarGotBytes.toNat = 8 * input.gotSyms.length := by
    rw [scalarGotBytes, UInt64.toNat_mul, UInt64.toNat_ofNat', eight]
    omega
  refine ⟨scalar, ?_⟩
  rw [gotTotal, UInt64.toNat_add, scalar, TlsGotInfo.byteSize_toNat (by omega),
    Nat.mod_eq_of_lt fits]

theorem shTypeOf_ne_nobits {outName : Name} {sec : InputSection}
    (filled : Builder.isNobitsKind sec.kind = false) :
    Builder.shTypeOf outName sec ≠ shtNobits := by
  rw [Builder.shTypeOf, if_neg (by rw [filled]; exact Bool.false_ne_true)]
  split
  · decide
  · split
    · decide
    · split
      · decide
      · split
        · decide
        · decide

theorem shType_of_group {b : Builder} (isGroup : b ∈ input.groups)
    (filled : b.isNobits = false) : b.shType ≠ shtNobits := by
  rcases opens_of_mem_groups isGroup with ⟨first, _, align, size, contributions, rfl⟩
  exact shTypeOf_ne_nobits filled

/-- The names and types of what the linker adds, and whether it has no bytes. -/
def addedShapes : List (Name × UInt32 × Bool) :=
  [(propertyName, shtNote, false), (nameOf ".note.gnu.build-id", shtNote, false),
    (nameOf ".eh_frame_hdr", shtProgbits, false), (nameOf ".interp", shtProgbits, false),
    (nameOf ".hash", shtHash, false), (nameOf ".gnu.hash", shtGnuHash, false),
    (nameOf ".dynsym", shtDynsym, false), (nameOf ".dynstr", shtStrtab, false),
    (nameOf ".gnu.version", shtGnuVersym, false),
    (nameOf ".gnu.version_r", shtGnuVerneed, false), (nameOf ".rela.dyn", shtRela, false),
    (nameOf ".rela.plt", shtRela, false), (nameOf ".plt", shtProgbits, false),
    (nameOf ".got", shtProgbits, false), (nameOf ".got.plt", shtProgbits, false),
    (nameOf ".dynamic", shtDynamic, false), (nameOf ".bss", shtNobits, true)]

end LayoutInput

structure Builder.IsAdded (b : Builder) : Prop where
  shape : (b.name, b.shType, b.isNobits) ∈ LayoutInput.addedShapes
  isAlloc : b.shFlags &&& shfAlloc ≠ 0
  bare : b.contributions = []

theorem OutputSection.Finished.name {s finished : OutputSection}
    (isFinished : s.Finished finished) : finished.name = s.name := by
  rcases isFinished with ⟨_, _, _, _, _, rfl, _⟩
  rfl

structure Builder.Gives (b : Builder) (s : OutputSection) : Prop where
  name : s.name = b.name
  source : s.source = b.source
  shType : s.shType = b.shType
  shFlags : s.shFlags = b.shFlags
  contributions : s.contributions = b.contributions

namespace LayoutInput

variable {input : LayoutInput}

theorem isAdded {pre : DynPrebuild} {b : Builder} (among : b ∈ input.added pre) :
    b.IsAdded := by
  have only {flag : Bool} {other : Builder} (isOther : b ∈ Builder.only flag other)
      (listed : other.IsAdded) : b.IsAdded := by
    rw [(Builder.mem_only.mp isOther).2]
    exact listed
  have place (index : Nat) (inside : index < addedShapes.length) :
      addedShapes[index] ∈ addedShapes := List.getElem_mem inside
  have alloc : shfAlloc &&& shfAlloc ≠ 0 := by decide
  have code : (shfAlloc ||| shfExecinstr) &&& shfAlloc ≠ 0 := by decide
  have data : (shfAlloc ||| shfWrite) &&& shfAlloc ≠ 0 := by decide
  rw [added, List.mem_append, List.mem_append, List.mem_append, List.mem_append,
    List.mem_append, List.mem_append] at among
  rcases among with (((((isNote | isTable) | isStub) | isGot) | isSlot) | isDynamic) | isBss
  · rw [addedNotes, List.mem_append, List.mem_append] at isNote
    rcases isNote with (isProperty | isBuildId) | isFrames
    · exact only isProperty ⟨place 0 (by decide), alloc, rfl⟩
    · exact only isBuildId ⟨place 1 (by decide), alloc, rfl⟩
    · exact only isFrames ⟨place 2 (by decide), alloc, rfl⟩
  · rcases List.mem_append.mp isTable with isDyn | isRelaPlt
    · rcases List.mem_flatMap.mp (List.mem_filter.mp isDyn).1 with ⟨dynj, _, isOne⟩
      rw [roDyn] at isOne
      simp only [List.mem_cons, List.not_mem_nil, or_false] at isOne
      rcases isOne with rfl | rfl | rfl | rfl | rfl | rfl | rfl | rfl
      · exact ⟨place 3 (by decide), alloc, rfl⟩
      · exact ⟨place 4 (by decide), alloc, rfl⟩
      · exact ⟨place 5 (by decide), alloc, rfl⟩
      · exact ⟨place 6 (by decide), alloc, rfl⟩
      · exact ⟨place 7 (by decide), alloc, rfl⟩
      · exact ⟨place 8 (by decide), alloc, rfl⟩
      · exact ⟨place 9 (by decide), alloc, rfl⟩
      · exact ⟨place 10 (by decide), alloc, rfl⟩
    · exact only isRelaPlt ⟨place 11 (by decide), alloc, rfl⟩
  · exact only isStub ⟨place 12 (by decide), code, rfl⟩
  · exact only isGot ⟨place 13 (by decide), data, rfl⟩
  · exact only isSlot ⟨place 14 (by decide), data, rfl⟩
  · rcases List.mem_map.mp isDynamic with ⟨dynj, _, rfl⟩
    exact ⟨place 15 (by decide), data, rfl⟩
  · exact only isBss ⟨place 16 (by decide), data, rfl⟩

theorem passthrough_held {members : List Contributor} {c : SectionContribution}
    (present : c ∈ (members.foldl Passthrough.add {}).contributions) :
    ∃ member ∈ members, c.objectId = member.objId ∧ c.sectionPos = member.pos ∧
      c.size = member.sec.data.len.toUInt64 := by
  induction members using List.reverseRecOn with
  | nil => exact absurd present List.not_mem_nil
  | append_singleton members last induction =>
      rw [List.foldl_append, List.foldl_cons, List.foldl_nil, Passthrough.add,
        List.mem_append] at present
      rcases present with before | isLast
      · rcases induction before with ⟨member, isMember, held⟩
        exact ⟨member, List.mem_append_left _ isMember, held⟩
      · rw [List.mem_singleton.mp isLast]
        exact ⟨last, List.mem_append_right _ List.mem_cons_self, rfl, rfl, rfl⟩

theorem isec_of_item {s : OutputSection} {c : SectionContribution} {item : WorkItem}
    (isItem : workItemOf input.objects s c = some item) {member : Contributor}
    (isMember : member ∈ inputSections input.objects) (sameObject : c.objectId = member.objId)
    (samePos : c.sectionPos = member.pos) : item.isec = member.sec := by
  rcases mem_inputSections.mp isMember with ⟨isObject, isSection⟩
  rw [workItemOf, sameObject, isObject] at isItem
  change (member.obj.sections[c.sectionPos]? >>= _) = _ at isItem
  rw [samePos, isSection] at isItem
  cases isItem
  rfl

section Computed

variable {layout : Layout} (computed : Computed input layout)

include computed

theorem section_origin {s : OutputSection} (present : s ∈ layout.outputSections) :
    (∃ b : Builder, (b ∈ input.groups ∨ b ∈ input.added computed.pre) ∧ b.Gives s) ∨
      (∃ before, input.IsMeta (input.symtabPlan (input.ordered computed.pre)) before ∧
        before.Finished s) ∨
      (shstrtabSection (input.fileCursor (input.ordered computed.pre))).Finished s := by
  rw [congrArg Layout.outputSections computed.assembled] at present
  rcases Pairwise.exists_left (input.finished_assemble _ _ _) present with
    ⟨before, among, isFinished⟩
  rcases input.extends_isMeta (input.symtabPlan (input.ordered computed.pre))
    (input.metaStart (input.ordered computed.pre)) with ⟨more, added, _, each⟩
  change (input.fileCursor (input.ordered computed.pre)).sections =
    (input.placement (input.ordered computed.pre)).sections ++ more at added
  rw [added, sections_placement] at among
  rcases List.mem_append.mp among with inFile | isNames
  · rcases List.mem_append.mp inFile with isPlaced | isMeta
    · have powers := (input.classified_ordered computed.pre input.groups).tls_powers
        (groups_aligned computed.aligned)
      rcases Pairwise.exists_left (input.placeAll_of (input.ordered computed.pre)).sections
        isPlaced with ⟨raised, isRaised, shAddr, rfl, _⟩
      rcases exists_unraised powers isRaised with ⟨b, isOrdered, align, rfl, _⟩
      exact .inl ⟨b, mem_ordered.mp isOrdered, isFinished.name, isFinished.source,
        isFinished.shType,
        isFinished.shFlags, isFinished.contributions⟩
    · exact .inr (.inl ⟨before, each before isMeta, isFinished⟩)
  · rw [List.mem_singleton.mp isNames] at isFinished
    exact .inr (.inr isFinished)

theorem origin_of_loaded {s : OutputSection} (present : s ∈ layout.outputSections)
    (isLoaded : s.isLoaded = true) :
    ∃ b : Builder, (b ∈ input.groups ∨ b ∈ input.added computed.pre) ∧ b.Gives s := by
  rcases section_origin computed present with
    origin | ⟨before, isMeta, isFinished⟩ | isNames
  · exact origin
  · rw [OutputSection.isLoaded, isFinished.shFlags, isMeta.fileOnly.flags] at isLoaded
    exact absurd isLoaded (by decide)
  · rw [OutputSection.isLoaded, isNames.shFlags] at isLoaded
    exact absurd isLoaded (show ¬ ((0 : UInt64) &&& shfAlloc != 0) = true by decide)

/-- What a section of the linker's own that is not only in the file looks like. -/
theorem own_of_computed (ownNames : input.KeepsOwnNames) {s : OutputSection}
    (present : s ∈ layout.outputSections) (notPlain : s.source.isPlain = false) :
    s.isLoaded = true ∧ s.contributions = [] := by
  rcases section_origin computed present with
    ⟨b, isGroup | among, gives⟩ | ⟨before, isMeta, isFinished⟩ | isNames
  · rw [gives.source, Builder.source, ownNames b isGroup, Option.getD_none] at notPlain
    split at notPlain <;> cases notPlain
  · refine ⟨?_, gives.contributions.trans (isAdded among).bare⟩
    rw [OutputSection.isLoaded, gives.shFlags, bne_iff_ne]
    exact (isAdded among).isAlloc
  · rw [isFinished.source] at notPlain
    cases isMeta <;> cases notPlain
  · rw [isNames.source] at notPlain
    cases notPlain

theorem source_of_contributed (ownNames : input.KeepsOwnNames) {s : OutputSection}
    (present : s ∈ layout.outputSections) (isLoaded : s.isLoaded = true)
    {c : SectionContribution} (among : c ∈ s.contributions) :
    s.source = .input ∨ s.source = .bss := by
  rcases origin_of_loaded computed present isLoaded with ⟨b, isGroup | isOwn, gives⟩
  · rw [gives.source, Builder.source, ownNames b isGroup, Option.getD_none]
    split
    · exact .inr rfl
    · exact .inl rfl
  · rw [gives.contributions, (isAdded isOwn).bare] at among
    exact absurd among List.not_mem_nil

theorem backed_of_computed (fits : input.FitsOutput layout) {s : OutputSection}
    (present : s ∈ layout.outputSections) (notBss : s.source ≠ .bss) :
    s.isFileBacked = true := by
  rw [OutputSection.isFileBacked, bne_iff_ne]
  rcases section_origin computed present with
    ⟨b, isGroup | among, gives⟩ | ⟨before, isMeta, isFinished⟩ | isNames
  · rw [gives.shType]
    apply shType_of_group isGroup
    rw [gives.source, Builder.source, fits.ownNames b isGroup, Option.getD_none] at notBss
    cases nobits : b.isNobits with
    | false => rfl
    | true =>
        rw [nobits] at notBss
        exact absurd rfl notBss
  · have storage : ∀ shape ∈ addedShapes, shape.2.1 = shtNobits →
        (synthesizedSources.lookup shape.1).getD
          (if shape.2.2 then SecSource.bss else .input) = .bss := by
      decide
    intro nobits
    exact notBss (gives.source.trans (storage _ (isAdded among).shape
      (gives.shType.symm.trans nobits)))
  · rw [isFinished.shType]
    cases isMeta with
    | symTab offset => exact (show shtSymtab ≠ shtNobits by decide)
    | strTab offset => exact (show shtStrtab ≠ shtNobits by decide)
    | symTabShndx offset => exact (show shtSymtabShndx ≠ shtNobits by decide)
    | rela target place index offset => exact (show shtRela ≠ shtNobits by decide)
    | passed name offset listed => exact (show shtProgbits ≠ shtNobits by decide)
  · rw [isNames.shType]
    exact (show shtStrtab ≠ shtNobits by decide)

theorem frames_of_computed (fits : input.FitsOutput layout) {eh : OutputSection}
    (isEh : layout.ehFrame = some eh) : eh.source = .input := by
  rw [Layout.ehFrame] at isEh
  have found := List.find?_some isEh
  have named : eh.name = nameOf ".eh_frame" := beq_iff_eq.mp found
  rcases section_origin computed (List.mem_of_find?_eq_some isEh) with
    ⟨b, isGroup | among, gives⟩ | ⟨before, isMeta, isFinished⟩ | isNames
  · rw [gives.source, Builder.source, fits.ownNames b isGroup, Option.getD_none,
      fits.frames b isGroup (gives.name.symm.trans named), if_neg Bool.false_ne_true]
  · have others : ∀ shape ∈ addedShapes, shape.1 ≠ nameOf ".eh_frame" := by decide
    exact absurd (gives.name.symm.trans named) (others _ (isAdded among).shape)
  · rw [isFinished.source]
    rw [isFinished.name] at named
    cases isMeta with
    | symTab offset => exact absurd named (show nameOf ".symtab" ≠ nameOf ".eh_frame" by decide)
    | strTab offset => exact absurd named (show nameOf ".strtab" ≠ nameOf ".eh_frame" by decide)
    | symTabShndx offset =>
        exact absurd named (show nameOf ".symtab_shndx" ≠ nameOf ".eh_frame" by decide)
    | rela target place index offset =>
        have second := congrArg (fun name : Name => name[1]?) named
        change some (114 : UInt8) = some 101 at second
        cases second
    | passed name offset listed => rfl
  · rw [isNames.name] at named
    exact absurd named (show nameOf ".shstrtab" ≠ nameOf ".eh_frame" by decide)

theorem item_of_computed (fits : input.FitsOutput layout) {s : OutputSection}
    (present : s ∈ layout.outputSections) {c : SectionContribution}
    (among : c ∈ s.contributions) {item : WorkItem}
    (isItem : workItemOf input.objects s c = some item) :
    item.fileLen.toNat ≤ c.size.toNat := by
  rw [fileLen_of_item isItem, UInt32.toNat_toUInt64]
  rcases section_cases computed present with
    ⟨load, isLoad, placed, isPlaced, isFinished⟩ |
    ⟨fileOnly, isFileOnly, isFinished⟩ | none
  · rw [isFinished.contributions] at among
    have inImage : placed ∈ input.loaded computed.pre := by
      rw [loaded, ← sections_loads]
      exact List.mem_flatMap.mpr ⟨load, isLoad, isPlaced⟩
    rcases exists_contributor computed.aligned computed.pre inImage among with
      ⟨member, contributes, place⟩
    rw [isec_of_item isItem (mem_contributors.mp contributes).1
      (congrArg Prod.fst place.key) place.pos, place.size]
    exact fits.data member contributes
  · rw [isFinished.contributions] at among
    rcases isFileOnly.contents with none | ⟨name, listed, contributions, _⟩
    · rw [none] at among
      exact absurd among List.not_mem_nil
    · rw [contributions, passthrough] at among
      rcases passthrough_held among with ⟨member, isMember, object, pos, size⟩
      rw [isec_of_item isItem (List.mem_filter.mp isMember).1 object pos, size,
        UInt32.toNat_toUInt64]
  · rw [none] at among
    exact absurd among List.not_mem_nil

theorem blobs_of_computed : layout.dynBlobs.relaDyn = [] ∧
    (input.dynamic = none → layout.dynBlobs.dynamic = []) := by
  rcases computed with ⟨pre, entry, prebuilt, _, _, _, rfl⟩
  rw [prebuildDynamic] at prebuilt
  cases isDynamic : input.dynamic with
  | none =>
      rw [isDynamic] at prebuilt
      cases prebuilt
      simp only [assemble, finishBlobs, isDynamic, true_and, imp_self]
  | some dynj =>
      simp only [assemble, finishBlobs, isDynamic, true_and, reduceCtorEq, false_implies]

theorem contents_of_computed (fits : input.FitsOutput layout)
    (foreseen : input.dynamic.isSome = true → input.StartupForeseen layout) {s : OutputSection}
    (present : s ∈ layout.outputSections) :
    layout.contentSize s.source ≤ s.shSize.toNat := by
  have size := size_of_source computed fits.ownNames present
  have small := fits.contents s present
  have built (same : s.source.isOwn = true → input.reservedSize computed.pre layout s.source =
      UInt64.ofNat (layout.contentSize s.source)) (isOwn : s.source.isOwn = true) :
      layout.contentSize s.source ≤ s.shSize.toNat := by
    rw [size isOwn, same isOwn, UInt64.toNat_ofNat', Nat.mod_eq_of_lt small]
  cases isSource : s.source with
  | input => exact Nat.zero_le _
  | bss => exact Nat.zero_le _
  | ehFrameHdr => exact Nat.zero_le _
  | relaDyn =>
      change layout.dynBlobs.relaDyn.length ≤ _
      rw [(blobs_of_computed computed).1]
      exact Nat.zero_le _
  | got =>
      have gotSlots : layout.gotSlots = input.gotSyms :=
        congrArg Layout.gotSlots computed.assembled
      rw [size (by rw [isSource]; rfl), isSource]
      change layout.gotSlots.length * 8 ≤ input.gotTotal.toNat
      rw [gotSlots, (toNat_gotTotal fits.slots).2]
      omega
  | dynamic =>
      cases isDynamic : input.dynamic with
      | none =>
          change layout.dynBlobs.dynamic.length ≤ _
          rw [(blobs_of_computed computed).2 isDynamic]
          exact Nat.zero_le _
      | some dynj =>
          rw [isSource] at small
          exact ((size_of_dynamic computed fits.ownNames isDynamic small present
            isSource).2.mpr (foreseen (by rw [isDynamic]; rfl))).ge
  | _ =>
      rw [← isSource]
      exact built (fun _ => by rw [isSource]; rfl) (by rw [isSource]; rfl)

theorem separate_of_computed (noWrap : input.NoWrap computed.pre)
    (fits : input.FitsOutput layout)
    (foreseen : input.dynamic.isSome = true → input.StartupForeseen layout) :
    layout.Separate input.objects where
  laid := fileRanges_laid computed noWrap
  headers := by
    have phoff : layout.phoff = ehdrSize := congrArg Layout.phoff computed.assembled
    rw [phoff]
    decide
  segments := (counted_of_computed computed).counted.ge
  backed _ present notBss := backed_of_computed computed fits present notBss
  extents _ present _ among := ((contributions_laid computed noWrap present).within
    (List.mem_map_of_mem among)).2
  items _ present _ among _ isItem := item_of_computed computed fits present among isItem
  contents _ present := contents_of_computed computed fits foreseen present
  slots := by
    constructor
    · intro got isGot
      exact sumExact_iff.mp (section_end computed noWrap (firstOf_spec isGot).1)
    · have none : layout.tlsGotWrites = [] := congrArg Layout.tlsGotWrites computed.assembled
      rw [none]
      exact fun _ absent => absurd absent List.not_mem_nil
  frames _ isEh := frames_of_computed computed fits isEh

end Computed

end LayoutInput

end Peony
