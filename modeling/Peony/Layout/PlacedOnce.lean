import Peony.Layout.Addresses
import Peony.Symbols.Resolution

namespace Peony

/-! Whether each input section of the output is placed once, and found where it is placed. -/

/-- The input sections that contribute to the sections, with each contribution. -/
def sectionKeys (sections : List OutputSection) : List SectionKey :=
  sections.flatMap fun s => s.contributions.map SectionContribution.key

theorem sectionKeys_append (sections more : List OutputSection) :
    sectionKeys (sections ++ more) = sectionKeys sections ++ sectionKeys more :=
  List.flatMap_append

theorem sectionKeys_append_bare (sections : List OutputSection) {s : OutputSection}
    (bare : s.contributions = []) : sectionKeys (sections ++ [s]) = sectionKeys sections := by
  rw [sectionKeys_append, sectionKeys, sectionKeys, List.flatMap_cons, bare, List.map_nil,
    List.flatMap_nil, List.append_nil, List.append_nil]

theorem sectionKeys_finished {sections finished : List OutputSection}
    (each : List.Forall₂ OutputSection.Finished sections finished) :
    sectionKeys finished = sectionKeys sections := by
  induction each with
  | nil => rfl
  | cons isFinished _ induction =>
      rw [sectionKeys, List.flatMap_cons, isFinished.contributions]
      exact congrArg _ induction

namespace LayoutInput

/-- The section is to appear in the output: it contributes to the image, or it is passed through
as data that is not loaded. -/
def IsEmitted (input : LayoutInput) (member : Contributor) : Prop :=
  member ∈ input.contributors ∨
    (member ∈ inputSections input.objects ∧
      shouldPassthroughNonAlloc input.config.stripDebug member.sec = true)

/-- Every section of the output contributes once to one output section, and is found at the
address of its contribution. -/
structure PlacedOnce (input : LayoutInput) (layout : Layout) : Prop where
  complete : ∀ member, input.IsEmitted member →
    member.label ∈ sectionKeys layout.outputSections
  once : (sectionKeys layout.outputSections).Nodup
  address : ∀ s ∈ layout.outputSections, ∀ c ∈ s.contributions,
    layout.addresses.lookup c.key = some (s.shAddr + c.offset)

variable {input : LayoutInput}

/-! ## What is passed through -/

def passedKeys (input : LayoutInput) : List SectionKey :=
  input.passthroughNames.flatMap fun name =>
    (input.passthroughMembers name).map Icf.Place.label

theorem mem_passedKeys {key : SectionKey} :
    key ∈ input.passedKeys ↔ ∃ member, input.IsPassedThrough member ∧ member.label = key := by
  rw [passedKeys, List.mem_flatMap]
  constructor
  · rintro ⟨name, listed, inKeys⟩
    rcases List.mem_map.mp inKeys with ⟨member, isMember, same⟩
    exact ⟨member, ⟨name, listed, isMember⟩, same⟩
  · rintro ⟨member, ⟨name, listed, isMember⟩, same⟩
    exact ⟨name, listed, List.mem_map.mpr ⟨member, isMember, same⟩⟩

theorem nodup_passedKeys (parsed : ∀ obj ∈ input.objects, obj.Parsed) :
    input.passedKeys.Nodup := by
  have distinct := label_nodup_inputSections parsed
  rw [passedKeys, List.nodup_flatMap]
  constructor
  · intro name _
    exact distinct.sublist (List.Sublist.map _ List.filter_sublist)
  · have names : input.passthroughNames.Nodup := nodup_pushNew List.nodup_nil _
    refine names.imp fun {first second} differ key inFirst inSecond => differ ?_
    rcases List.mem_map.mp inFirst with ⟨member, isMember, rfl⟩
    rcases List.mem_map.mp inSecond with ⟨other, isOther, same⟩
    have isSame := eq_of_label parsed (List.mem_filter.mp isOther).1
      (List.mem_filter.mp isMember).1 same
    subst isSame
    have named := (List.mem_filter.mp isMember).2
    have namedToo := (List.mem_filter.mp isOther).2
    rw [Bool.and_eq_true, beq_iff_eq] at named namedToo
    exact named.1.symm.trans namedToo.1

theorem isPassedThrough_iff {member : Contributor}
    (isInput : member ∈ inputSections input.objects) :
    input.IsPassedThrough member ↔
      member.sec.data.len ≠ 0 ∧ member.sec.name ∈ input.passthroughNames := by
  constructor
  · rintro ⟨name, listed, among⟩
    have passes := (List.mem_filter.mp among).2
    rw [Bool.and_eq_true, beq_iff_eq, bne_iff_ne] at passes
    rcases passes with ⟨rfl, filled⟩
    exact ⟨filled, listed⟩
  · rintro ⟨filled, listed⟩
    refine ⟨member.sec.name, listed, List.mem_filter.mpr ⟨isInput, ?_⟩⟩
    rw [Bool.and_eq_true, beq_iff_eq, bne_iff_ne]
    exact ⟨rfl, filled⟩

theorem isPassedThrough_of_should {member : Contributor}
    (isInput : member ∈ inputSections input.objects)
    (passes : shouldPassthroughNonAlloc input.config.stripDebug member.sec = true) :
    input.IsPassedThrough member := by
  refine (isPassedThrough_iff isInput).mpr ⟨fun isEmpty => ?_, ?_⟩
  · rw [shouldPassthroughNonAlloc, isEmpty, beq_self_eq_true, Bool.or_true, if_pos rfl] at passes
    cases passes
  · rw [passthroughNames, mem_pushNew]
    exact Or.inr (List.mem_map.mpr ⟨member, List.mem_filter.mpr ⟨isInput, passes⟩, rfl⟩)

/-! ## The sections of the file -/

theorem sectionKeys_pushSymtab (plan : SymtabPlan) (cursor : FileCursor) :
    sectionKeys (cursor.pushSymtab plan).sections = sectionKeys cursor.sections := by
  unfold FileCursor.pushSymtab
  have tables (symtab strtab : OutputSection) (bare : symtab.contributions = [])
      (bareToo : strtab.contributions = []) :
      sectionKeys (cursor.sections ++ [symtab, strtab]) = sectionKeys cursor.sections := by
    rw [List.append_cons, sectionKeys_append_bare _ bareToo, sectionKeys_append_bare _ bare]
  simp only
  split
  · exact tables _ _ rfl rfl
  · exact (sectionKeys_append_bare _ rfl).trans (tables _ _ rfl rfl)

theorem sectionKeys_pushRela (plan : SymtabPlan) (cursor : FileCursor)
    (numbered : OutputSection × Nat) :
    sectionKeys (input.pushRela plan cursor numbered).sections =
      sectionKeys cursor.sections := by
  unfold pushRela
  simp only
  split
  · rfl
  · split
    · rfl
    · exact sectionKeys_append_bare _ rfl

theorem sectionKeys_pushRelas (plan : SymtabPlan) (cursor : FileCursor) :
    sectionKeys (input.pushRelas plan cursor).sections = sectionKeys cursor.sections := by
  have each (numbered : List (OutputSection × Nat)) (cursor : FileCursor) :
      sectionKeys (numbered.foldl (input.pushRela plan) cursor).sections =
        sectionKeys cursor.sections := by
    induction numbered generalizing cursor with
    | nil => rfl
    | cons first rest induction =>
        rw [List.foldl_cons, induction]
        exact sectionKeys_pushRela plan cursor first
  exact each _ cursor

theorem sectionKeys_pushPassthrough (cursor : FileCursor) (name : Name) :
    sectionKeys (input.pushPassthrough cursor name).sections =
      sectionKeys cursor.sections ++ (input.passthroughMembers name).map Icf.Place.label := by
  rw [← keys_passthrough, pushPassthrough, ← passthrough]
  simp only
  split
  · rename_i isEmpty
    rw [List.isEmpty_iff.mp isEmpty, List.map_nil, List.append_nil]
  · rw [FileCursor.push, sectionKeys_append]
    refine congrArg _ ?_
    rw [sectionKeys, List.flatMap_cons, List.flatMap_nil, List.append_nil]
    rfl

theorem sectionKeys_fileCursor (ordered : Builders) :
    sectionKeys (input.fileCursor ordered).sections =
      sectionKeys (input.placeAll ordered).placement.sections ++ input.passedKeys := by
  have passes (names : List Name) (cursor : FileCursor) :
      sectionKeys (names.foldl input.pushPassthrough cursor).sections =
        sectionKeys cursor.sections ++ names.flatMap fun name =>
          (input.passthroughMembers name).map Icf.Place.label := by
    induction names generalizing cursor with
    | nil => exact (List.append_nil _).symm
    | cons name rest induction =>
        rw [List.foldl_cons, induction, sectionKeys_pushPassthrough, List.flatMap_cons,
          List.append_assoc]
  rw [fileCursor, layOutMeta, placeMeta, passes]
  refine congrArg (· ++ input.passedKeys) ?_
  rw [← sections_placement]
  have symtabs (cursor : FileCursor) :
      sectionKeys (if input.config.strip then cursor
        else cursor.pushSymtab (input.symtabPlan ordered)).sections =
          sectionKeys cursor.sections := by
    split
    · rfl
    · exact sectionKeys_pushSymtab _ _
  split
  · rw [sectionKeys_pushRelas, symtabs]
  · exact symtabs _

/-! ## Layouts -/

theorem lookup_unfolded {ordered : Builders} {key : SectionKey}
    (unfolded : input.foldsTo key = none) :
    (input.placement ordered).addresses.lookup key =
      (input.placeAll ordered).placement.addresses.lookup key := by
  cases isMap : input.foldMap with
  | none => simp only [placement, aliasFolds, isMap]
  | some foldMap =>
      rw [placement, addresses_aliasFolds isMap]
      refine Assoc.lookup_copyAll_of_not_mem ?_
      rw [← Assoc.lookup_eq_none, lookup_foldPairs, ← unfolded, foldsTo, isMap]
      rfl

section Computed

variable {layout : Layout} (computed : Computed input layout)

include computed

theorem sectionKeys_layout : sectionKeys layout.outputSections =
    sectionKeys (input.loaded computed.pre) ++ input.passedKeys := by
  have assembled := congrArg Layout.outputSections computed.assembled
  rw [assembled, sectionKeys_finished (input.finished_assemble _ _ _),
    sectionKeys_append_bare _ rfl, sectionKeys_fileCursor]
  rfl

theorem keys_perm : (sectionKeys layout.outputSections).Perm
    (input.contributors.map Icf.Place.label ++ input.passedKeys) := by
  rw [sectionKeys_layout computed]
  exact (keys_loaded computed.aligned computed.pre).append_right _

theorem complete_of_computed {member : Contributor} (emitted : input.IsEmitted member) :
    member.label ∈ sectionKeys layout.outputSections := by
  rw [(keys_perm computed).mem_iff, List.mem_append]
  rcases emitted with contributes | ⟨isInput, passes⟩
  · exact Or.inl (List.mem_map_of_mem contributes)
  · exact Or.inr (mem_passedKeys.mpr ⟨member, isPassedThrough_of_should isInput passes, rfl⟩)

theorem once_iff (parsed : ∀ obj ∈ input.objects, obj.Parsed) :
    (sectionKeys layout.outputSections).Nodup ↔
      ∀ member ∈ input.contributors, ¬ input.IsPassedThrough member := by
  rw [(keys_perm computed).nodup_iff, List.nodup_append]
  constructor
  · rintro ⟨-, -, apart⟩ member isContributor passed
    exact apart member.label (List.mem_map_of_mem isContributor) member.label
      (mem_passedKeys.mpr ⟨member, passed, rfl⟩) rfl
  · intro apart
    refine ⟨contributors_nodup parsed, nodup_passedKeys parsed, ?_⟩
    rintro key isPlaced other isPassed rfl
    rcases List.mem_map.mp isPlaced with ⟨member, isContributor, rfl⟩
    rcases mem_passedKeys.mp isPassed with ⟨passed, isPassed, same⟩
    have isSame := eq_of_label parsed isPassed.isInput
      (mem_contributors.mp isContributor).1 same
    exact apart member isContributor (isSame ▸ isPassed)

theorem address_of_once (parsed : ∀ obj ∈ input.objects, obj.Parsed)
    (apart : ∀ member ∈ input.contributors, ¬ input.IsPassedThrough member)
    {s : OutputSection} (present : s ∈ layout.outputSections) {c : SectionContribution}
    (isContribution : c ∈ s.contributions) :
    layout.addresses.lookup c.key = some (s.shAddr + c.offset) := by
  have addresses : layout.addresses =
      (input.fileCursor (input.ordered computed.pre)).addresses :=
    congrArg Layout.addresses computed.assembled
  rw [addresses]
  rw [computed.assembled] at present
  rcases Pairwise.exists_left (input.finished_assemble _ _ _) present with
    ⟨before, among, isFinished⟩
  rw [isFinished.contributions] at isContribution
  rw [isFinished.shAddr]
  rcases List.mem_append.mp among with inFile | isNames
  · rcases input.fileCursor_extends (input.ordered computed.pre) with
      ⟨more, each, sections, found⟩
    rw [sections] at inFile
    rcases List.mem_append.mp inFile with isLoaded | isFileOnly
    · rcases exists_contributor computed.aligned computed.pre isLoaded isContribution with
        ⟨member, isContributor, place⟩
      have unfolded : input.foldsTo member.label = none := by
        have own := (mem_contributors.mp isContributor).2
        rw [contributes, Bool.and_eq_true, Option.isNone_iff_eq_none] at own
        exact own.2
      rw [place.key, lookup_fileCursor, lookup_unfolded unfolded]
      · exact lookup_placed computed.aligned computed.pre parsed isLoaded place
      · intro passed isPassed same
        have isSame := eq_of_label parsed isPassed.isInput
          (mem_contributors.mp isContributor).1 same
        exact apart member isContributor (isSame ▸ isPassed)
    · have isPassed : sectionKeys more = input.passedKeys := by
        have keys := @sectionKeys_fileCursor input (input.ordered computed.pre)
        rw [sections, sectionKeys_append] at keys
        exact List.append_cancel_left keys
      have keys : (more.flatMap OutputSection.places).map Prod.fst = sectionKeys more := by
        rw [List.map_flatMap]
        simp only [OutputSection.places, List.map_map, Function.comp_def]
        rfl
      have distinct : ((more.flatMap OutputSection.places).reverse.map Prod.fst).Nodup := by
        rw [List.map_reverse, keys, isPassed]
        exact List.nodup_reverse.mpr (nodup_passedKeys parsed)
      have inPlaces : (c.key, before.shAddr + c.offset) ∈
          (more.flatMap OutputSection.places).reverse :=
        List.mem_reverse.mpr (List.mem_flatMap.mpr
          ⟨before, isFileOnly, List.mem_map_of_mem isContribution⟩)
      rw [found, List.lookup_append, (Assoc.lookup_eq_some distinct).mpr inPlaces,
        Option.some_or]
  · rw [List.mem_singleton.mp isNames] at isContribution
    exact absurd isContribution List.not_mem_nil

end Computed

end LayoutInput

/-- The sections of a layout are placed once exactly when no section that is loaded has the name
of a section that is passed through. -/
theorem LayoutInput.placedOnce_iff {input : LayoutInput}
    (parsed : ∀ obj ∈ input.objects, obj.Parsed) {layout : Layout}
    (succeeded : input.computeLayoutIcf = .ok layout) :
    input.PlacedOnce layout ↔
      ∀ member ∈ input.contributors, member.sec.data.len ≠ 0 →
        member.sec.name ∉ input.passthroughNames := by
  rcases computed_of_ok succeeded with ⟨computed⟩
  have apart_iff : (∀ member ∈ input.contributors, ¬ input.IsPassedThrough member) ↔
      ∀ member ∈ input.contributors, member.sec.data.len ≠ 0 →
        member.sec.name ∉ input.passthroughNames := by
    refine forall₂_congr fun member isContributor => ?_
    rw [isPassedThrough_iff (mem_contributors.mp isContributor).1, not_and]
  rw [← apart_iff, ← once_iff computed parsed]
  refine ⟨PlacedOnce.once, fun once => ⟨fun member => complete_of_computed computed, once, ?_⟩⟩
  intro s present c isContribution
  exact address_of_once computed parsed ((once_iff computed parsed).mp once) present
    isContribution

/-! Two objects with a comment of one byte each; the second one may be loaded. -/

private def remarkSection (index : Nat) (name : String) (kind : SectionKind) (flags : UInt64) :
    InputSection where
  index := index
  name := nameOf name
  kind := kind
  shType := shtProgbits
  data := ⟨.owned 0, 0, 1⟩
  align := 1
  size := 1
  flags := flags
  relocs := []

private def remarkEntry : InputSymbol where
  index := 1
  name := nameOf "_start"
  binding := .global
  isUndefined := false
  isCommon := false
  isIfunc := false
  stType := 2
  visibility := 0
  sectionIndex := some 1
  value := 0
  size := 1

private def remarkObjects (flags : UInt64) : List InputObject :=
  [InputObject.assemble "code.o" 2 1
      [remarkSection 1 ".text" .text (shfAlloc ||| shfExecinstr),
        remarkSection 2 ".comment" .other 0] [remarkEntry] [],
    InputObject.assemble "note.o" 1 0 [remarkSection 1 ".comment" .readOnly flags] [] []]

private def remarkInput (flags : UInt64) : LayoutInput where
  arena := { mmaps := [], owned := [[0]] }
  objects := remarkObjects flags
  symbols :=
    match SymbolTable.processAll ((remarkObjects flags).map fun obj => ⟨obj, []⟩) with
    | .ok table => table
    | .error _ => SymbolTable.new

private theorem remark_parsed (flags : UInt64) :
    ∀ obj ∈ (remarkInput flags).objects, obj.Parsed := by
  intro obj present
  rw [remarkInput, remarkObjects, List.mem_cons, List.mem_singleton] at present
  rcases present with rfl | rfl
  · exact InputObject.assemble_parsed _ _ _ _ _ _ (by simp [remarkSection])
      (by simp [remarkEntry]) (by simp [remarkSection]) (by simp [remarkEntry])
  · exact InputObject.assemble_parsed _ _ _ _ _ _ (by simp) (by simp)
      (by simp [remarkSection]) (by simp)

theorem LayoutInput.placedOnce_comments :
    ∃ layout, (remarkInput 0).computeLayoutIcf = .ok layout ∧
      (remarkInput 0).PlacedOnce layout := by
  rcases @exists_layout (remarkInput 0) (by decide +kernel) with ⟨layout, succeeded⟩
  exact ⟨layout, succeeded,
    (placedOnce_iff (remark_parsed 0) succeeded).mpr (by decide +kernel)⟩

/-- The loaded comment is placed a second time among those that are not loaded. -/
theorem LayoutInput.loadedComment_not_placedOnce :
    ∃ layout, (remarkInput shfAlloc).computeLayoutIcf = .ok layout ∧
      ¬ (remarkInput shfAlloc).PlacedOnce layout := by
  rcases @exists_layout (remarkInput shfAlloc) (by decide +kernel) with ⟨layout, succeeded⟩
  refine ⟨layout, succeeded, fun placed => ?_⟩
  have twice : (remarkInput shfAlloc).computeLayoutIcf.toOption.any (fun layout =>
      decide (¬ (sectionKeys layout.outputSections).Nodup)) = true := by
    decide +kernel
  rw [succeeded] at twice
  exact of_decide_eq_true twice placed.once

end Peony
