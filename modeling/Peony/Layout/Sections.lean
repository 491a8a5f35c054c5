import Peony.Layout.Compute
import Peony.Layout.Placement

namespace Peony

/-! The sections of the file: what is placed, followed by sections that are not
loaded, with finished headers. -/

/-! ## Finished headers -/

/-- `finished` is the section with its links, its number and its name filled in;
only `.shstrtab` gets its size then. -/
def OutputSection.Finished (s finished : OutputSection) : Prop :=
  ∃ shLink shInfo shName shndx shSize,
    finished = { s with
      shLink := shLink, shInfo := shInfo, shName := shName, shndx := shndx,
      shSize := shSize } ∧
    (s.source ≠ .shStrTab → shSize = s.shSize)

namespace OutputSection.Finished

variable {s finished last : OutputSection}

theorem trans (first : s.Finished finished) (second : finished.Finished last) :
    s.Finished last := by
  rcases first with ⟨_, _, _, _, size, rfl, keeps⟩
  rcases second with ⟨shLink, shInfo, shName, shndx, shSize, rfl, keepsToo⟩
  exact ⟨shLink, shInfo, shName, shndx, shSize, rfl, fun other =>
    (keepsToo other).trans (keeps other)⟩

theorem places (isFinished : s.Finished finished) :
    finished.places = s.places := by
  rcases isFinished with ⟨_, _, _, _, _, rfl, _⟩
  rfl

theorem shFlags (isFinished : s.Finished finished) :
    finished.shFlags = s.shFlags := by
  rcases isFinished with ⟨_, _, _, _, _, rfl, _⟩
  rfl

theorem shAddr (isFinished : s.Finished finished) :
    finished.shAddr = s.shAddr := by
  rcases isFinished with ⟨_, _, _, _, _, rfl, _⟩
  rfl

theorem contributions (isFinished : s.Finished finished) :
    finished.contributions = s.contributions := by
  rcases isFinished with ⟨_, _, _, _, _, rfl, _⟩
  rfl

theorem source (isFinished : s.Finished finished) :
    finished.source = s.source := by
  rcases isFinished with ⟨_, _, _, _, _, rfl, _⟩
  rfl

theorem shType (isFinished : s.Finished finished) :
    finished.shType = s.shType := by
  rcases isFinished with ⟨_, _, _, _, _, rfl, _⟩
  rfl

theorem shOffset (isFinished : s.Finished finished) :
    finished.shOffset = s.shOffset := by
  rcases isFinished with ⟨_, _, _, _, _, rfl, _⟩
  rfl

theorem kind (isFinished : s.Finished finished) : finished.kind = s.kind := by
  rcases isFinished with ⟨_, _, _, _, _, rfl, _⟩
  rfl

theorem shAddralign (isFinished : s.Finished finished) :
    finished.shAddralign = s.shAddralign := by
  rcases isFinished with ⟨_, _, _, _, _, rfl, _⟩
  rfl

theorem shSize (isFinished : s.Finished finished) (other : s.source ≠ .shStrTab) :
    finished.shSize = s.shSize := by
  rcases isFinished with ⟨_, _, _, _, _, rfl, keeps⟩
  exact keeps other

end OutputSection.Finished

theorem finished_linkStatic (sections : List OutputSection) (s : OutputSection) :
    s.Finished (LayoutInput.linkStatic sections s) := by
  unfold LayoutInput.linkStatic
  split <;> exact ⟨_, _, _, _, _, rfl, fun _ => rfl⟩

theorem finished_linkDynamic (sections : List OutputSection) (verneedNum : UInt64)
    (s : OutputSection) :
    s.Finished (LayoutInput.linkDynamic sections verneedNum s) := by
  unfold LayoutInput.linkDynamic
  split <;> exact ⟨_, _, _, _, _, rfl, fun _ => rfl⟩

namespace LayoutInput

variable (input : LayoutInput)

theorem finished_linkSections (pre : DynPrebuild)
    (sections : List OutputSection) :
    List.Forall₂ OutputSection.Finished sections
      (input.linkSections pre sections) := by
  have each (others : List OutputSection) (start : Nat) :
      List.Forall₂ OutputSection.Finished others
        ((others.zipIdx start).map fun numbered =>
          let s := linkStatic sections
            { numbered.1 with shndx := shndxOf numbered.2 }
          if input.dynamic.isSome then
            linkDynamic sections pre.blobs.verneedNum s
          else s) := by
    induction others generalizing start with
    | nil => exact .nil
    | cons s rest induction =>
        refine .cons ?_ (induction (start + 1))
        have numbered : s.Finished { s with shndx := shndxOf start } :=
          ⟨_, _, _, _, _, rfl, fun _ => rfl⟩
        have linked := numbered.trans (finished_linkStatic sections _)
        simp only
        split
        · exact linked.trans (finished_linkDynamic _ _ _)
        · exact linked
  exact each sections 0

theorem finished_nameSections (shstrtab : List UInt8)
    (sections : List OutputSection) :
    List.Forall₂ OutputSection.Finished sections
      (nameSections shstrtab sections).1 := by
  induction sections generalizing shstrtab with
  | nil => exact .nil
  | cons s rest induction =>
      exact .cons ⟨_, _, _, _, _, rfl, fun _ => rfl⟩ (induction _)

def shstrtabSection (cursor : FileCursor) : OutputSection :=
  fileSection (nameOf ".shstrtab") shtStrtab (alignUp cursor.foff 1) 0 0 1 0
    .shStrTab []

private theorem finished_named (pre : DynPrebuild) (cursor : FileCursor) :
    List.Forall₂ OutputSection.Finished
      (cursor.sections ++ [shstrtabSection cursor])
      (nameSections [0] (input.linkSections pre
        (cursor.sections ++ [shstrtabSection cursor]))).1 := by
  have step (first second third : OutputSection) :
      first.Finished second → second.Finished third → first.Finished third := .trans
  exact Pairwise.trans step
    (input.finished_linkSections pre (cursor.sections ++ [shstrtabSection cursor]))
    (finished_nameSections [0] (input.linkSections pre _))

theorem finished_finishFile (pre : DynPrebuild) (cursor : FileCursor) :
    List.Forall₂ (fun s finished => s.Finished finished ∧
        (s.source = .shStrTab → finished.shSize =
          UInt64.ofNat (input.finishFile pre cursor).shstrtab.length))
      (cursor.sections ++ [shstrtabSection cursor])
      (input.finishFile pre cursor).sections := by
  rw [finishFile, List.forall₂_map_right_iff]
  refine (input.finished_named pre cursor).imp fun s named isFinished => ?_
  split
  · rename_i isNames
    refine ⟨isFinished.trans ⟨_, _, _, _, _, rfl, fun other => ?_⟩, fun _ => rfl⟩
    exact absurd isNames other
  · rename_i notNames
    refine ⟨isFinished, fun isNames => ?_⟩
    exact absurd (isFinished.source.trans isNames) notNames

end LayoutInput

/-! ## Sections that are not loaded -/

namespace FileCursor

/-- The cursor after more sections of the file that satisfy a condition, with the
addresses of their contributions. -/
def Extends (condition : OutputSection → Prop) (before after : FileCursor) : Prop :=
  ∃ more, after.sections = before.sections ++ more ∧
    after.addresses =
      (more.flatMap OutputSection.places).reverse ++ before.addresses ∧
    ∀ s ∈ more, condition s

namespace Extends

variable {condition : OutputSection → Prop} {before middle after : FileCursor}

theorem refl (cursor : FileCursor) : Extends condition cursor cursor :=
  ⟨[], by simp, by simp, fun _ present => absurd present List.not_mem_nil⟩

theorem trans (first : Extends condition before middle)
    (second : Extends condition middle after) :
    Extends condition before after := by
  rcases first with ⟨more, sections, addresses, each⟩
  rcases second with ⟨others, moreSections, moreAddresses, eachOther⟩
  refine ⟨more ++ others, ?_, ?_, ?_⟩
  · rw [moreSections, sections, List.append_assoc]
  · rw [moreAddresses, addresses, List.flatMap_append, List.reverse_append,
      List.append_assoc]
  · intro s present
    rcases List.mem_append.mp present with isFirst | isSecond
    · exact each s isFirst
    · exact eachOther s isSecond

theorem foldl {Item : Type} {step : FileCursor → Item → FileCursor}
    {items : List Item}
    (each : ∀ cursor, ∀ item ∈ items, Extends condition cursor (step cursor item))
    (cursor : FileCursor) :
    Extends condition cursor (items.foldl step cursor) := by
  induction items generalizing cursor with
  | nil => exact refl cursor
  | cons item rest induction =>
      exact (each cursor item List.mem_cons_self).trans
        (induction (fun cursor item present =>
          each cursor item (List.mem_cons_of_mem _ present)) _)

theorem push (cursor : FileCursor) (align size : UInt64)
    {sectionAt : UInt64 → OutputSection}
    (bare : ∀ offset, (sectionAt offset).contributions = [])
    (each : ∀ offset, condition (sectionAt offset)) :
    Extends condition cursor (cursor.push align size sectionAt) := by
  refine ⟨[sectionAt (alignUp cursor.foff align)], rfl, ?_, ?_⟩
  · simp [FileCursor.push, OutputSection.places, bare]
  · intro s present
    rw [List.mem_singleton.mp present]
    exact each _

end Extends

end FileCursor

namespace LayoutInput

variable (input : LayoutInput)

/-- A section that is passed through under some name. -/
def IsPassedThrough (member : Contributor) : Prop :=
  ∃ name ∈ input.passthroughNames, member ∈ input.passthroughMembers name

theorem IsPassedThrough.isInput {input : LayoutInput} {member : Contributor}
    (passed : input.IsPassedThrough member) :
    member ∈ inputSections input.objects := by
  rcases passed with ⟨_, _, among⟩
  exact (List.mem_filter.mp among).1

structure FileOnly (s : OutputSection) : Prop where
  flags : s.shFlags = 0
  address : s.shAddr = 0
  kind : s.kind = .other
  source : s.source ≠ .shStrTab
  contents : s.contributions = [] ∨ ∃ name ∈ input.passthroughNames,
    s.contributions = (input.passthrough name).contributions ∧
      s.shSize = (input.passthrough name).off

theorem keys_passthrough (members : List Contributor) :
    (members.foldl Passthrough.add {}).contributions.map
        SectionContribution.key = members.map Icf.Place.label := by
  induction members using List.reverseRecOn with
  | nil => rfl
  | append_singleton members member induction =>
      rw [List.foldl_append, List.foldl_cons, List.foldl_nil, Passthrough.add,
        List.map_append, induction, List.map_append]
      rfl

theorem FileOnly.members {input : LayoutInput} {s : OutputSection}
    (fileOnly : input.FileOnly s) {c : SectionContribution}
    (present : c ∈ s.contributions) :
    ∃ member, input.IsPassedThrough member ∧ c.key = member.label := by
  rcases fileOnly.contents with none | ⟨name, listed, contributions, _⟩
  · rw [none] at present
    exact absurd present List.not_mem_nil
  · rw [contributions] at present
    have inKeys : c.key ∈ (input.passthrough name).contributions.map
        SectionContribution.key := List.mem_map_of_mem present
    rw [passthrough, keys_passthrough] at inKeys
    rcases List.mem_map.mp inKeys with ⟨member, isMember, same⟩
    exact ⟨member, ⟨name, listed, isMember⟩, same.symm⟩

/-! ### What is placed behind the loaded sections -/

inductive IsMeta (plan : SymtabPlan) : OutputSection → Prop
  | symTab (offset : UInt64) : IsMeta plan
      (fileSection (nameOf ".symtab") shtSymtab offset
        (UInt64.ofNat (plan.entries.length + 1) * symSize)
        (UInt32.ofNat (plan.numLocals + 1)) 8 symSize .symTab [])
  | strTab (offset : UInt64) : IsMeta plan
      (fileSection (nameOf ".strtab") shtStrtab offset (UInt64.ofNat plan.strtab.length) 0 1 0
        .strTab [])
  | symTabShndx (offset : UInt64) : IsMeta plan
      (fileSection (nameOf ".symtab_shndx") shtSymtabShndx offset
        (UInt64.ofNat (buildSymtabShndx plan.entries).length) 0 4 4 .symTabShndx [])
  | rela (target : OutputSection) (place index : Nat) (offset : UInt64) : IsMeta plan
      (fileSection (nameOf ".rela" ++ target.name) shtRela offset
        (UInt64.ofNat (input.relaBytes plan target).length) (UInt32.ofNat (place + 1)) 8
        relaSize (.relaEmit index) [])
  | passed (name : Name) (offset : UInt64) (listed : name ∈ input.passthroughNames) :
      IsMeta plan
        (fileSection (encodeUtf8 (fromUtf8Lossy name)) shtProgbits offset
          (input.passthrough name).off 0 (input.passthrough name).maxAlign 0 .input
          (input.passthrough name).contributions)

theorem IsMeta.fileOnly {input : LayoutInput} {plan : SymtabPlan} {s : OutputSection}
    (isMeta : input.IsMeta plan s) : input.FileOnly s := by
  cases isMeta with
  | symTab offset => exact ⟨rfl, rfl, rfl, by simp [fileSection], .inl rfl⟩
  | strTab offset => exact ⟨rfl, rfl, rfl, by simp [fileSection], .inl rfl⟩
  | symTabShndx offset => exact ⟨rfl, rfl, rfl, by simp [fileSection], .inl rfl⟩
  | rela target place index offset => exact ⟨rfl, rfl, rfl, by simp [fileSection], .inl rfl⟩
  | passed name offset listed =>
      exact ⟨rfl, rfl, rfl, by simp [fileSection], .inr ⟨name, listed, rfl, rfl⟩⟩

variable (plan : SymtabPlan)

theorem extends_symtabs (cursor : FileCursor) :
    FileCursor.Extends (input.IsMeta plan) cursor (cursor.pushSymtab plan) := by
  have tables : FileCursor.Extends (input.IsMeta plan) cursor
      { cursor with
        foff := cursor.foff + UInt64.ofNat (plan.entries.length + 1) * symSize +
          UInt64.ofNat plan.strtab.length
        sections := cursor.sections ++
          [ fileSection (nameOf ".symtab") shtSymtab cursor.foff
              (UInt64.ofNat (plan.entries.length + 1) * symSize)
              (UInt32.ofNat (plan.numLocals + 1)) 8 symSize .symTab [],
            fileSection (nameOf ".strtab") shtStrtab
              (cursor.foff + UInt64.ofNat (plan.entries.length + 1) * symSize)
              (UInt64.ofNat plan.strtab.length) 0 1 0 .strTab [] ] } := by
    refine ⟨_, rfl, rfl, fun s present => ?_⟩
    rcases List.mem_cons.mp present with rfl | isLast
    · exact .symTab _
    · rw [List.mem_singleton.mp isLast]
      exact .strTab _
  unfold FileCursor.pushSymtab
  dsimp only
  split
  · exact tables
  · exact tables.trans (.push _ _ _ (fun _ => rfl) .symTabShndx)

theorem extends_rela (cursor : FileCursor) (numbered : OutputSection × Nat) :
    FileCursor.Extends (input.IsMeta plan) cursor (input.pushRela plan cursor numbered) := by
  unfold pushRela
  dsimp only
  split
  · exact .refl cursor
  · split
    · exact .refl cursor
    · rcases @FileCursor.Extends.push (input.IsMeta plan) cursor 8
        (UInt64.ofNat (input.relaBytes plan numbered.1).length) _ (fun _ => rfl)
        (.rela numbered.1 numbered.2 cursor.emitRelocs.length) with
        ⟨more, sections, addresses, each⟩
      exact ⟨more, sections, addresses, each⟩

theorem extends_passed (cursor : FileCursor) {name : Name}
    (listed : name ∈ input.passthroughNames) :
    FileCursor.Extends (input.IsMeta plan) cursor (input.pushPassthrough cursor name) := by
  unfold pushPassthrough
  dsimp only
  split
  · exact .refl cursor
  · refine ⟨[_], rfl, ?_, fun s present => ?_⟩
    · rw [foldl_cons_map (fun c : SectionContribution => (c.key, c.offset))]
      simp [OutputSection.places, fileSection, FileCursor.push]
    · rw [List.mem_singleton.mp present]
      exact .passed name _ listed

/-- What follows the symbol tables. -/
theorem extends_behindSymtabs (cursor : FileCursor) :
    FileCursor.Extends (input.IsMeta plan)
      (if input.config.strip then cursor else cursor.pushSymtab plan)
      (input.placeMeta plan cursor) := by
  have relas (cursor : FileCursor) : FileCursor.Extends (input.IsMeta plan) cursor
      (if input.config.emitRelocs && !input.config.strip then
        input.pushRelas plan cursor else cursor) := by
    split
    · exact .foldl (fun cursor numbered _ => input.extends_rela plan cursor numbered) cursor
    · exact .refl cursor
  exact (relas _).trans (.foldl (fun cursor _ listed =>
    input.extends_passed plan cursor listed) _)

theorem extends_isMeta (cursor : FileCursor) :
    FileCursor.Extends (input.IsMeta plan) cursor (input.placeMeta plan cursor) := by
  have symtabs : FileCursor.Extends (input.IsMeta plan) cursor
      (if input.config.strip then cursor else cursor.pushSymtab plan) := by
    split
    · exact .refl cursor
    · exact input.extends_symtabs plan cursor
  exact symtabs.trans (input.extends_behindSymtabs plan cursor)

/-- What follows the loaded sections is not loaded, and what contributes to it is
passed through. -/
theorem extends_placeMeta (cursor : FileCursor) :
    FileCursor.Extends input.FileOnly cursor (input.placeMeta plan cursor) := by
  rcases input.extends_isMeta plan cursor with ⟨more, sections, addresses, each⟩
  exact ⟨more, sections, addresses, fun s present => (each s present).fileOnly⟩

/-! ## The sections and addresses of a layout -/

@[simp] theorem sections_placement (ordered : Builders) :
    (input.placement ordered).sections =
      (input.placeAll ordered).placement.sections := by
  unfold placement aliasFolds
  split
  · rfl
  · rename_i foldMap _
    have each (entries : List ((_ : SectionKey) × SectionKey))
        (placed : Placement) :
        (entries.foldl (fun placed entry => aliasOne placed entry.1 entry.2)
          placed).sections = placed.sections := by
      induction entries generalizing placed with
      | nil => rfl
      | cons entry rest induction => exact induction _
    exact each foldMap.entries _

theorem fileCursor_extends (ordered : Builders) :
    ∃ more : List OutputSection, (∀ s ∈ more, input.FileOnly s) ∧
      (input.fileCursor ordered).sections =
        (input.placeAll ordered).placement.sections ++ more ∧
      (input.fileCursor ordered).addresses =
        (more.flatMap OutputSection.places).reverse ++
          (input.placement ordered).addresses := by
  rcases input.extends_placeMeta (input.symtabPlan ordered) {
      foff := alignUp ((input.placeAll ordered).fileContentEnd input.base) 8
      sections := (input.placement ordered).sections
      addresses := (input.placement ordered).addresses } with
    ⟨more, sections, addresses, each⟩
  refine ⟨more, each, ?_, addresses⟩
  rw [← sections_placement]
  exact sections

theorem finished_assemble (pre : DynPrebuild) (ordered : Builders)
    (entry : UInt64) :
    List.Forall₂ OutputSection.Finished
      ((input.fileCursor ordered).sections ++
        [shstrtabSection (input.fileCursor ordered)])
      (input.assemble pre ordered entry).outputSections :=
  (input.finished_finishFile pre (input.fileCursor ordered)).imp
    fun _ _ both => both.1

theorem exists_passed {member : Contributor}
    (passed : input.IsPassedThrough member) (ordered : Builders) :
    ∃ s ∈ (input.fileCursor ordered).sections, s.shFlags = 0 ∧
      ∃ c ∈ s.contributions, c.key = member.label := by
  rcases passed with ⟨name, listed, among⟩
  have pushed (names : List Name) (isListed : ∀ name ∈ names,
      name ∈ input.passthroughNames) (present : name ∈ names)
      (cursor : FileCursor) :
      ∃ s ∈ (names.foldl input.pushPassthrough cursor).sections,
        s.shFlags = 0 ∧ ∃ c ∈ s.contributions, c.key = member.label := by
    induction names generalizing cursor with
    | nil => exact absurd present List.not_mem_nil
    | cons first rest induction =>
        have restListed : ∀ name ∈ rest, name ∈ input.passthroughNames :=
          fun name inRest => isListed name (List.mem_cons_of_mem _ inRest)
        rcases List.mem_cons.mp present with rfl | inRest
        · have inKeys : member.label ∈ (input.passthrough name).contributions.map
              SectionContribution.key := by
            rw [passthrough, keys_passthrough]
            exact List.mem_map_of_mem among
          rcases List.mem_map.mp inKeys with ⟨c, isContribution, key⟩
          have filled : ¬ (input.passthrough name).contributions.isEmpty = true := by
            rw [List.isEmpty_iff]
            exact List.ne_nil_of_mem isContribution
          have others := FileCursor.Extends.foldl
            (fun cursor name inRest => input.extends_passed (input.symtabPlan ordered) cursor
              (restListed name inRest)) (input.pushPassthrough cursor name)
          rcases others with ⟨more, sections, _⟩
          rw [List.foldl_cons, sections]
          refine ⟨fileSection (encodeUtf8 (fromUtf8Lossy name)) shtProgbits
            (alignUp cursor.foff (input.passthrough name).maxAlign)
            (input.passthrough name).off 0 (input.passthrough name).maxAlign 0
            .input (input.passthrough name).contributions, ?_, rfl, c,
            isContribution, key⟩
          refine List.mem_append_left _ ?_
          rw [pushPassthrough, if_neg filled]
          exact List.mem_append_right _ List.mem_cons_self
        · exact induction restListed inRest _
  exact pushed _ (fun _ isListed => isListed) listed _

theorem exists_finished {pre : DynPrebuild} {ordered : Builders} {entry : UInt64}
    {s : OutputSection} (present : s ∈ (input.fileCursor ordered).sections) :
    ∃ finished ∈ (input.assemble pre ordered entry).outputSections,
      s.Finished finished :=
  Pairwise.exists_right (input.finished_assemble pre ordered entry)
    (List.mem_append_left _ present)

theorem mem_outputSections {pre : DynPrebuild} {ordered : Builders}
    {entry : UInt64} {s : OutputSection}
    (placed : s ∈ (input.placeAll ordered).placement.sections) :
    ∃ finished ∈ (input.assemble pre ordered entry).outputSections,
      s.Finished finished := by
  rcases input.fileCursor_extends ordered with ⟨more, _, sections, _⟩
  refine input.exists_finished ?_
  rw [sections]
  exact List.mem_append_left _ placed

theorem exists_placed_of_isAlloc {pre : DynPrebuild} {ordered : Builders}
    {entry : UInt64} {finished : OutputSection}
    (present : finished ∈ (input.assemble pre ordered entry).outputSections)
    (isAlloc : finished.shFlags &&& shfAlloc ≠ 0) :
    ∃ s ∈ (input.placeAll ordered).placement.sections, s.Finished finished := by
  rcases Pairwise.exists_left (input.finished_assemble pre ordered entry) present
    with ⟨s, among, isFinished⟩
  rw [isFinished.shFlags] at isAlloc
  rcases input.fileCursor_extends ordered with ⟨more, each, sections, _⟩
  rw [sections] at among
  rcases List.mem_append.mp among with inFile | isNames
  · rcases List.mem_append.mp inFile with placed | fileOnly
    · exact ⟨s, placed, isFinished⟩
    · rw [(each s fileOnly).flags] at isAlloc
      exact absurd UInt64.zero_and isAlloc
  · rw [List.mem_singleton.mp isNames] at isAlloc
    exact absurd UInt64.zero_and isAlloc

end LayoutInput

end Peony
