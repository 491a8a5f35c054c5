import Peony.Layout.Sums

namespace Peony

/-! The numbers of the output sections, and the sections that symbols are planned to be in. -/

/-! ## Section headers -/

namespace LayoutInput

variable (input : LayoutInput)

theorem shndx_linkStatic (sections : List OutputSection) (s : OutputSection) :
    (linkStatic sections s).shndx = s.shndx := by
  unfold linkStatic
  split <;> rfl

theorem shndx_linkDynamic (sections : List OutputSection) (verneedNum : UInt64)
    (s : OutputSection) : (linkDynamic sections verneedNum s).shndx = s.shndx := by
  unfold linkDynamic
  split <;> rfl

theorem shndx_nameSections (shstrtab : List UInt8) (sections : List OutputSection) :
    (nameSections shstrtab sections).1.map OutputSection.shndx =
      sections.map OutputSection.shndx := by
  induction sections generalizing shstrtab with
  | nil => rfl
  | cons s rest induction => exact congrArg (s.shndx :: ·) (induction _)

theorem shndx_linkSections (pre : DynPrebuild) {sections : List OutputSection} {place : Nat}
    {s : OutputSection} (found : (input.linkSections pre sections)[place]? = some s) :
    s.shndx = shndxOf place := by
  rw [linkSections, List.getElem?_map, List.getElem?_zipIdx, Option.map_map, Nat.zero_add] at found
  rcases Option.map_eq_some_iff.mp found with ⟨before, _, rfl⟩
  dsimp only [Function.comp_apply]
  split
  · rw [shndx_linkDynamic, shndx_linkStatic]
  · rw [shndx_linkStatic]

theorem shndx_finishFile (pre : DynPrebuild) (cursor : FileCursor) {place : Nat}
    {s : OutputSection} (found : (input.finishFile pre cursor).sections[place]? = some s) :
    s.shndx = shndxOf place := by
  rw [finishFile] at found
  dsimp only at found
  rw [List.getElem?_map] at found
  rcases Option.map_eq_some_iff.mp found with ⟨named, isNamed, rfl⟩
  have numbers := congrArg (fun numbers => numbers[place]?)
    (shndx_nameSections [0] (input.linkSections pre (cursor.sections ++
      [shstrtabSection cursor])))
  rw [List.getElem?_map, List.getElem?_map] at numbers
  have isNumber : (((input.linkSections pre (cursor.sections ++
      [shstrtabSection cursor]))[place]?).map OutputSection.shndx) = some named.shndx := by
    rw [← numbers]
    exact congrArg (Option.map OutputSection.shndx) isNamed
  rcases Option.map_eq_some_iff.mp isNumber with ⟨linked, isLinked, same⟩
  rw [← input.shndx_linkSections pre isLinked, same]
  split <;> rfl

end LayoutInput

/-! ## The sections of contributions -/

namespace LayoutInput

theorem secToOut_aliasFolds {input : LayoutInput} {foldMap : Icf.FoldMap}
    (isMap : input.foldMap = some foldMap) (placed : Placement) :
    (input.aliasFolds placed).secToOut =
      Assoc.copyAll placed.secToOut (foldPairs foldMap) := by
  have each (entries : List ((_ : SectionKey) × SectionKey)) (placed : Placement) :
      (entries.foldl (fun placed entry => aliasOne placed entry.1 entry.2) placed).secToOut =
        Assoc.copyAll placed.secToOut (entries.map fun entry => (entry.1, entry.2)) := by
    induction entries generalizing placed with
    | nil => rfl
    | cons entry rest induction => exact induction _
  rw [aliasFolds, isMap]
  exact each foldMap.entries placed

/-- A section that contributions are said to be in is one of those that are placed. -/
theorem lt_of_lookup_secToOut {input : LayoutInput} {ordered : Builders} {key : SectionKey}
    {out : Nat} (found : (input.placement ordered).secToOut.lookup key = some out) :
    out < (input.placement ordered).sections.length := by
  have placed {key : SectionKey} {out : Nat}
      (isPlaced : (input.placeAll ordered).placement.secToOut.lookup key = some out) :
      out < (input.placeAll ordered).placement.sections.length := by
    have present := Assoc.mem_of_lookup isPlaced
    rw [(input.placeAll_of ordered).secToOut, List.mem_reverse] at present
    rcases List.mem_flatMap.mp present with ⟨⟨s, place⟩, isSection, isEntry⟩
    rcases List.mem_map.mp isEntry with ⟨c, _, same⟩
    cases same
    exact (List.getElem?_eq_some_iff.mp (List.mem_zipIdx_iff_getElem?.mp isSection)).1
  rw [sections_placement]
  cases isMap : input.foldMap with
  | none =>
      rw [placement, aliasFolds, isMap] at found
      exact placed found
  | some foldMap =>
      rw [placement, secToOut_aliasFolds isMap] at found
      rcases Assoc.exists_lookup_of_copyAll found with ⟨source, isSource⟩
      exact placed isSource

theorem exists_numbered {input : LayoutInput} (parsed : ∀ obj ∈ input.objects, obj.Parsed)
    (aligned : ∀ member ∈ input.contributors, member.align.toNat.isPowerOfTwo)
    (noFolds : input.foldMap = none) (pre : DynPrebuild) {member : Contributor}
    (present : member ∈ input.contributors) :
    ∃ out s, (input.placement (input.ordered pre)).secToOut.lookup member.label = some out ∧
      (input.placeAll (input.ordered pre)).placement.sections[out]? = some s ∧
      s.name = input.outName member.sec.name := by
  have holds := input.placeAll_of (input.ordered pre)
  have same : (input.placement (input.ordered pre)).secToOut =
      (input.placeAll (input.ordered pre)).placement.secToOut := by
    rw [placement, aliasFolds, noFolds]
  rw [same]
  rcases exists_place aligned pre present with ⟨s, isLoaded, c, isPlace⟩
  cases found : (input.placeAll (input.ordered pre)).placement.secToOut.lookup
      member.label with
  | none =>
      refine absurd (List.mem_map.mpr ?_) (Assoc.lookup_eq_none.mp found)
      rcases List.getElem?_of_mem isLoaded with ⟨place, isAt⟩
      refine ⟨(member.label, place), ?_, rfl⟩
      rw [holds.secToOut, List.mem_reverse]
      exact List.mem_flatMap.mpr ⟨(s, place), List.mem_zipIdx_iff_getElem?.mpr isAt,
        List.mem_map.mpr ⟨c, isPlace.present, congrArg (·, place) isPlace.key⟩⟩
  | some out =>
      have isEntry := Assoc.mem_of_lookup found
      rw [holds.secToOut, List.mem_reverse] at isEntry
      rcases List.mem_flatMap.mp isEntry with ⟨⟨placed, place⟩, isSection, inSection⟩
      rcases List.mem_map.mp inSection with ⟨own, isOwn, isPair⟩
      rw [Prod.mk.injEq] at isPair
      rcases isPair with ⟨isLabel, rfl⟩
      have isAt := List.mem_zipIdx_iff_getElem?.mp isSection
      refine ⟨place, placed, rfl, isAt, ?_⟩
      rcases Pairwise.exists_left holds.sections (List.mem_of_getElem? isAt) with
        ⟨raised, among, shAddr, rfl, _⟩
      rcases (input.classified_ordered pre input.groups).exists_origin
        (groups_aligned aligned) among with ⟨b, origin, align, rfl, _⟩
      have inBuilder : own ∈ b.contributions := isOwn
      rcases origin with isGroup | bare
      · rcases groups_held aligned isGroup inBuilder with
          ⟨other, isContributor, held, outName, _⟩
        have isSame := eq_of_label parsed (mem_contributors.mp isContributor).1
          (mem_contributors.mp present).1 (held.2.1.symm.trans isLabel)
        rw [← isSame]
        exact outName.symm
      · rw [bare.1] at inBuilder
        exact absurd inBuilder List.not_mem_nil

/-! ## Sources -/

def isFileSource : SecSource → Bool
  | .symTab | .symTabShndx | .strTab | .shStrTab | .relaEmit _ => true
  | _ => false

theorem isFileSource_builder (b : Builder) : isFileSource b.source = false := by
  have all : (synthesizedSources.all fun entry => !isFileSource entry.2) = true := by decide
  rw [Builder.source]
  cases found : synthesizedSources.lookup b.name with
  | none => cases b.isNobits <;> rfl
  | some source =>
      have known := List.all_eq_true.mp all _ (Assoc.mem_of_lookup found)
      rw [Bool.not_eq_true'] at known
      exact known

theorem isFileSource_placed {input : LayoutInput} {ordered : Builders} {s : OutputSection}
    (present : s ∈ (input.placement ordered).sections) : isFileSource s.source = false := by
  rw [sections_placement] at present
  rcases Pairwise.exists_left (input.placeAll_of ordered).sections present with
    ⟨b, _, _, rfl, _⟩
  exact isFileSource_builder b

/-! ## The numbers of a layout -/

section Computed

variable {input : LayoutInput} {layout : Layout} (computed : Computed input layout)

include computed

theorem outputSections_eq : layout.outputSections =
    (input.fileEnd computed.pre (input.ordered computed.pre)).sections := by
  have assembled := congrArg Layout.outputSections computed.assembled
  exact assembled

theorem shndx_eq {place : Nat} {s : OutputSection}
    (found : layout.outputSections[place]? = some s) : s.shndx = shndxOf place := by
  rw [outputSections_eq computed] at found
  exact input.shndx_finishFile computed.pre (input.fileCursor (input.ordered computed.pre))
    found

theorem names_last :
    ∃ front names, layout.outputSections = front ++ [names] ∧ names.source = .shStrTab ∧
      ∀ s ∈ front, s.source ≠ .shStrTab := by
  rcases Pairwise.exists_append (input.finished_assemble computed.pre
    (input.ordered computed.pre) computed.entry) with ⟨front, last, split, isFront, isLast⟩
  rcases List.forall₂_cons_left_iff.mp isLast with ⟨names, nothing, isNames, isNil, rfl⟩
  rw [List.forall₂_nil_left_iff.mp isNil] at split
  refine ⟨front, names, (congrArg Layout.outputSections computed.assembled).trans split,
    isNames.source, fun finished present => ?_⟩
  rcases Pairwise.exists_left isFront present with ⟨s, among, isFinished⟩
  rw [isFinished.source]
  rcases input.fileCursor_extends (input.ordered computed.pre) with ⟨more, each, sections, _⟩
  rw [sections] at among
  rcases List.mem_append.mp among with isPlaced | isOther
  · exact source_placed isPlaced
  · exact (each s isOther).source

theorem place_of_names {place : Nat} {s : OutputSection}
    (found : layout.outputSections[place]? = some s) (isNames : s.source = .shStrTab) :
    place + 1 = layout.outputSections.length := by
  rcases names_last computed with ⟨front, names, split, _, others⟩
  rw [split] at found ⊢
  rw [List.length_append, List.length_singleton]
  by_cases inFront : place < front.length
  · rw [List.getElem?_append_left inFront] at found
    exact absurd isNames (others s (List.mem_of_getElem? found))
  · have inRange := (List.getElem?_eq_some_iff.mp found).1
    rw [List.length_append, List.length_singleton] at inRange
    omega

theorem shstrndx_eq :
    layout.shstrndx = (UInt32.ofNat layout.outputSections.length).toUInt64 := by
  rcases names_last computed with ⟨front, names, split, isNames, others⟩
  have index : layout.shstrndx = shstrndx layout.outputSections := by
    have assembled := congrArg Layout.shstrndx computed.assembled
    rw [outputSections_eq computed]
    exact assembled
  have none : (front.findIdx? fun s => s.source == .shStrTab) = none := by
    rw [List.findIdx?_eq_none_iff]
    exact fun s present => beq_eq_false_iff_ne.mpr (others s present)
  rw [index, shstrndx, shndxOfSource, split, List.findIdx?_append, none, Option.none_or,
    List.findIdx?_cons, isNames, beq_self_eq_true, if_pos rfl, Option.map_some, Nat.zero_add,
    List.length_append, List.length_singleton]
  rfl

theorem shnum_eq : layout.shnum = UInt64.ofNat (layout.outputSections.length + 1) := by
  have assembled := congrArg Layout.shnum computed.assembled
  rw [outputSections_eq computed]
  exact assembled

/-! ### `.symtab` -/

theorem symtab_eq :
    layout.symtab = (input.symtabPlan (input.ordered computed.pre)).entries :=
  congrArg Layout.symtab computed.assembled

/-- What is taken for `.symtab` has room for its entries. -/
theorem symTab_shape {s : OutputSection} (present : s ∈ layout.outputSections)
    (isSymTab : s.source = .symTab) :
    s.shType = shtSymtab ∧
      s.shSize = UInt64.ofNat (layout.symtab.length + 1) * symSize := by
  rw [congrArg Layout.outputSections computed.assembled] at present
  rcases Pairwise.exists_left (input.finished_assemble _ _ _) present with
    ⟨before, among, isFinished⟩
  rw [isFinished.source] at isSymTab
  rw [isFinished.shType, isFinished.shSize (by rw [isSymTab]; decide), symtab_eq computed]
  rcases List.mem_append.mp among with inFile | isNames
  · rcases input.extends_isMeta (input.symtabPlan (input.ordered computed.pre))
      (input.metaStart (input.ordered computed.pre)) with ⟨more, sections, _, each⟩
    have isFile : before ∈ (input.metaStart (input.ordered computed.pre)).sections ++ more :=
      sections ▸ inFile
    rcases List.mem_append.mp isFile with isPlaced | isMeta
    · have isFile := isFileSource_placed isPlaced
      rw [isSymTab] at isFile
      exact nomatch isFile
    · cases each before isMeta with
      | symTab offset => exact ⟨rfl, rfl⟩
      | strTab => exact nomatch isSymTab
      | symTabShndx => exact nomatch isSymTab
      | rela => exact nomatch isSymTab
      | passed => exact nomatch isSymTab
  · rw [List.mem_singleton.mp isNames] at isSymTab
    exact nomatch isSymTab

theorem exists_symTab (kept : input.config.strip = false) :
    ∃ s ∈ layout.outputSections, s.source = .symTab := by
  have pushed (plan : SymtabPlan) (cursor : FileCursor) :
      ∃ s ∈ (cursor.pushSymtab plan).sections, s.source = .symTab := by
    refine ⟨fileSection (nameOf ".symtab") shtSymtab cursor.foff
      (UInt64.ofNat (plan.entries.length + 1) * symSize)
      (UInt32.ofNat (plan.numLocals + 1)) 8 symSize .symTab [], ?_, rfl⟩
    rw [FileCursor.pushSymtab]
    split
    · exact List.mem_append_right _ List.mem_cons_self
    · exact List.mem_append_left _ (List.mem_append_right _ List.mem_cons_self)
  rcases input.extends_behindSymtabs (input.symtabPlan (input.ordered computed.pre))
    (input.metaStart (input.ordered computed.pre)) with ⟨more, sections, _, _⟩
  rw [kept, if_neg Bool.false_ne_true] at sections
  rcases pushed (input.symtabPlan (input.ordered computed.pre))
    (input.metaStart (input.ordered computed.pre)) with ⟨s, present, isSymTab⟩
  have inFile : s ∈ (input.placeMeta (input.symtabPlan (input.ordered computed.pre))
      (input.metaStart (input.ordered computed.pre))).sections := by
    rw [sections]
    exact List.mem_append_left _ present
  rcases @exists_finished input computed.pre _ computed.entry s inFile with
    ⟨finished, among, isFinished⟩
  rw [outputSections_eq computed]
  exact ⟨finished, among, isFinished.source.trans isSymTab⟩

end Computed

end LayoutInput

end Peony
