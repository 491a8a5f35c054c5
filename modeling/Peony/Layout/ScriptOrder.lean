import Peony.Layout.Relro

namespace Peony

/-! The order of the output sections, and where it is that of a linker script. -/

/-- The runs of sections that a layout places one after the other: what is read only, what is
executed, and the writable sections by their protection and by whether they have bytes in the
file. -/
inductive PlacementClass where
  | readOnly | executable | relro | data | zeroedTls | zeroed
deriving DecidableEq, Repr

namespace PlacementClass

def of (flags : UInt64) (kind : SectionKind) (name : Name) : PlacementClass :=
  match permOf flags with
  | .ro => .readOnly
  | .rx => .executable
  | .rw =>
      if Builder.isNobitsKind kind then if kind = .tbss then .zeroedTls else .zeroed
      else if isRelro name then .relro
      else .data

/-- The place of the class among the others. -/
def rank : PlacementClass → Nat
  | .readOnly => 0
  | .executable => 1
  | .relro => 2
  | .data => 3
  | .zeroedTls => 4
  | .zeroed => 5

/-- Whether the last sort of the class is that of the script. -/
def IsScripted (class_ : PlacementClass) : Prop := class_ ≠ .relro ∧ class_ ≠ .data

instance (class_ : PlacementClass) : Decidable class_.IsScripted :=
  inferInstanceAs (Decidable (_ ∧ _))

end PlacementClass

def OutputSection.placementClass (s : OutputSection) : PlacementClass :=
  PlacementClass.of s.shFlags s.kind s.name

def Builder.placementClass (b : Builder) : PlacementClass :=
  PlacementClass.of b.shFlags b.kind b.name

def ScriptLayout.Precedes (script : ScriptLayout) (first second : Name) : Prop :=
  ∃ place ∈ script.orderOf first, ∃ other ∈ script.orderOf second, place < other

instance (script : ScriptLayout) (first second : Name) :
    Decidable (script.Precedes first second) := by
  unfold ScriptLayout.Precedes
  infer_instance

/-- In each permission class the sections that the script names are in its order. -/
def Layout.InScriptOrder (script : ScriptLayout) (layout : Layout) : Prop :=
  ∀ first ∈ layout.outputSections, first.isLoaded = true →
    ∀ second ∈ layout.outputSections, second.isLoaded = true →
      permOf first.shFlags = permOf second.shFlags →
      script.Precedes first.name second.name → first.memory.stop ≤ second.memory.start

/-- The classes follow each other, and the sections of a class that the script orders are in the
script's order. -/
structure Layout.KeepsScriptOrder (script : ScriptLayout) (layout : Layout) : Prop where
  classes : ∀ first ∈ layout.outputSections, first.isLoaded = true →
    ∀ second ∈ layout.outputSections, second.isLoaded = true →
      first.placementClass.rank < second.placementClass.rank →
        first.memory.stop ≤ second.memory.start
  within : ∀ first ∈ layout.outputSections, first.isLoaded = true →
    ∀ second ∈ layout.outputSections, second.isLoaded = true →
      first.placementClass = second.placementClass → first.placementClass.IsScripted →
        script.Precedes first.name second.name → first.memory.stop ≤ second.memory.start

/-! ## The sorts -/

/-- The second section need not come before the first one. -/
def PlacedInOrder (script : ScriptLayout) (first second : Builder) : Prop :=
  first.placementClass.rank ≤ second.placementClass.rank ∧
    (first.placementClass = second.placementClass → first.placementClass.IsScripted →
      ¬ script.Precedes second.name first.name)

namespace Builder

theorem not_precedes_of_compareScript {script : ScriptLayout} {a b : Builder}
    (sorted : Sorting.InOrder (compareScript (some script)) a b) :
    ¬ script.Precedes b.name a.name := by
  rintro ⟨place, isPlace, other, isOther, less⟩
  refine sorted ?_
  rw [Option.mem_def] at isPlace isOther
  unfold compareScript compareLex compareOn
  simp only [Option.bind_some, isPlace, isOther, Option.isNone_some, Option.getD_some]
  rw [Nat.compare_eq_gt.mpr less]
  rfl

theorem placementClass_of_perm {b : Builder} (isPerm : b.perm = permOf b.shFlags) :
    (b.perm = .ro → b.placementClass = .readOnly) ∧
      (b.perm = .rx → b.placementClass = .executable) := by
  rw [placementClass, PlacementClass.of, isPerm]
  constructor
  · intro isRo
    rw [isRo]
  · intro isRx
    rw [isRx]

theorem placementClass_of_rw {b : Builder} (isPerm : b.perm = permOf b.shFlags)
    (isRw : b.perm = .rw) :
    b.placementClass =
      if isNobitsKind b.kind then if b.kind = .tbss then .zeroedTls else .zeroed
      else if isRelro b.name then .relro
      else .data := by
  rw [placementClass, PlacementClass.of, ← isPerm, isRw]

end Builder

namespace LayoutInput

variable {input : LayoutInput} {pre : DynPrebuild} {b : Builder}

theorem isNobits_ordered (isPlaced : b ∈ (input.ordered pre).all) :
    b.isNobits = Builder.isNobitsKind b.kind := by
  rcases mem_ordered.mp isPlaced with isGroup | isAdded
  · rcases opens_of_mem_groups isGroup with ⟨first, _, _, _, _, rfl⟩
    rfl
  · simp only [added, List.mem_append] at isAdded
    rcases isAdded with (((((isNote | isTable) | isStub) | isGot) | isSlot) | isDynamic) |
      isBss
    · simp only [addedNotes, List.mem_append, Builder.mem_only] at isNote
      rcases isNote with (⟨_, rfl⟩ | ⟨_, rfl⟩) | ⟨_, rfl⟩ <;> rfl
    · simp only [addedTables, List.mem_append, List.mem_filter, List.mem_flatMap,
        Builder.mem_only] at isTable
      rcases isTable with ⟨⟨dynj, _, listed⟩, _⟩ | ⟨_, rfl⟩
      · simp only [roDyn, List.mem_cons, List.not_mem_nil, or_false] at listed
        rcases listed with rfl | rfl | rfl | rfl | rfl | rfl | rfl | rfl <;> rfl
      · rfl
    · rw [addedStubs, Builder.mem_only] at isStub
      rcases isStub with ⟨_, rfl⟩
      rfl
    · rw [addedGot, Builder.mem_only] at isGot
      rcases isGot with ⟨_, rfl⟩
      rfl
    · rw [addedSlots, Builder.mem_only] at isSlot
      rcases isSlot with ⟨_, rfl⟩
      rfl
    · rcases List.mem_map.mp isDynamic with ⟨_, _, rfl⟩
      rfl
    · rw [addedBss, Builder.mem_only] at isBss
      rcases isBss with ⟨_, rfl⟩
      rfl

/-! ## The classes of what is placed -/

theorem class_ro (present : b ∈ (input.ordered pre).ro) : b.placementClass = .readOnly := by
  have flagged := (flags_ordered (List.mem_append_left _ (List.mem_append_left _ present))).1
  have isRo := ((input.classified_ordered pre input.groups).ro.only b present).1
  exact (Builder.placementClass_of_perm flagged.perm).1 (beq_iff_eq.mp isRo)

theorem class_rx (present : b ∈ (input.ordered pre).rx) : b.placementClass = .executable := by
  have flagged := (flags_ordered (List.mem_append_left _ (List.mem_append_right _ present))).1
  have isRx := ((input.classified_ordered pre input.groups).rx.only b present).1
  exact (Builder.placementClass_of_perm flagged.perm).2 (beq_iff_eq.mp isRx)

theorem class_rwPb (present : b ∈ (input.ordered pre).rwPb) :
    b.placementClass = if isRelro b.name then .relro else .data := by
  have isPlaced : b ∈ (input.ordered pre).all :=
    List.mem_append_right _ (List.mem_append_left _ present)
  have isRw := ((input.classified_ordered pre input.groups).rwPb.only b present).1
  rw [Bool.and_eq_true, beq_iff_eq, Bool.not_eq_true', isNobits_ordered isPlaced] at isRw
  rw [Builder.placementClass_of_rw (flags_ordered isPlaced).1.perm isRw.1, isRw.2]
  rfl

theorem class_rwBss (present : b ∈ (input.ordered pre).rwBss) :
    b.placementClass = if b.kind = .tbss then .zeroedTls else .zeroed := by
  have isPlaced : b ∈ (input.ordered pre).all :=
    List.mem_append_right _ (List.mem_append_right _ present)
  have isRw := ((input.classified_ordered pre input.groups).rwBss.only b present).1
  rw [Bool.and_eq_true, beq_iff_eq, isNobits_ordered isPlaced] at isRw
  rw [Builder.placementClass_of_rw (flags_ordered isPlaced).1.perm isRw.1, if_pos isRw.2]

/-! ## The order of what is placed -/

section Script

variable {script : ScriptLayout} (isScript : input.config.script = some script)

include isScript

theorem inOrder_sorted {builders found : List Builder} {class_ : PlacementClass}
    (isSorted : builders = sortBuildersByScript input.config.script found)
    (each : ∀ b ∈ builders, b.placementClass = class_) :
    builders.Pairwise (PlacedInOrder script) := by
  rw [isScript, Builder.sortBuildersByScript_eq] at isSorted
  have sorted : builders.Pairwise (Sorting.InOrder (Builder.compareScript (some script))) :=
    isSorted ▸ Sorting.pairwise found
  refine List.Pairwise.imp_of_mem ?_ sorted
  intro first second isFirst isSecond inOrder
  refine ⟨?_, fun _ _ => Builder.not_precedes_of_compareScript inOrder⟩
  rw [each first isFirst, each second isSecond]

omit isScript in
theorem inOrder_rwPb :
    (sortBy Builder.compareRelro (input.ordered pre).rwPb).Pairwise
      (PlacedInOrder script) := by
  refine List.Pairwise.imp_of_mem ?_
    (@Sorting.pairwise _ Builder.compareRelro _ (input.ordered pre).rwPb)
  intro first second isFirst isSecond inOrder
  have ofFirst := class_rwPb (mem_sortBy.mp isFirst)
  have ofSecond := class_rwPb (mem_sortBy.mp isSecond)
  unfold Sorting.InOrder Builder.compareRelro at inOrder
  rw [PlacedInOrder, ofFirst, ofSecond]
  cases isRelroFirst : isRelro first.name with
  | true =>
      rw [if_pos rfl]
      exact ⟨by split <;> decide, fun _ scripted => absurd rfl scripted.1⟩
  | false =>
      refine ⟨?_, fun _ scripted => absurd rfl scripted.2⟩
      cases isRelroSecond : isRelro second.name with
      | false => exact Nat.le_refl _
      | true =>
          rw [isRelroFirst, isRelroSecond] at inOrder
          exact absurd rfl inOrder

theorem inOrder_rwBss :
    (sortBy Builder.compareTbss (input.ordered pre).rwBss).Pairwise
      (PlacedInOrder script) := by
  refine List.Pairwise.imp_of_mem ?_ sorted_rwBss
  intro first second isFirst isSecond inOrder
  have ofFirst := class_rwBss (mem_sortBy.mp isFirst)
  have ofSecond := class_rwBss (mem_sortBy.mp isSecond)
  rw [isScript] at inOrder
  have scripted (alike : Builder.compareTbss first second = .eq) :
      ¬ script.Precedes second.name first.name := by
    refine Builder.not_precedes_of_compareScript ?_
    unfold Sorting.InOrder Builder.compareZeroed compareLex at inOrder
    rw [alike] at inOrder
    exact inOrder
  rw [PlacedInOrder, ofFirst, ofSecond]
  unfold Builder.compareTbss at scripted
  by_cases isTls : first.kind = .tbss
  · rw [if_pos isTls]
    by_cases isTlsToo : second.kind = .tbss
    · rw [isTls, isTlsToo] at scripted
      rw [if_pos isTlsToo]
      exact ⟨Nat.le_refl _, fun _ _ => scripted rfl⟩
    · rw [if_neg isTlsToo]
      exact ⟨by decide, nofun⟩
  · rw [if_neg isTls]
    rw [bne_iff_ne.mpr isTls] at scripted
    by_cases isTlsToo : second.kind = .tbss
    · unfold Sorting.InOrder Builder.compareZeroed compareLex Builder.compareTbss at inOrder
      rw [bne_iff_ne.mpr isTls, isTlsToo] at inOrder
      exact absurd rfl inOrder
    · rw [bne_iff_ne.mpr isTlsToo] at scripted
      rw [if_neg isTlsToo]
      exact ⟨Nat.le_refl _, fun _ _ => scripted rfl⟩

theorem inOrder_placedOrder :
    (input.placedOrder pre).Pairwise (PlacedInOrder script) := by
  have across {first second : Builder}
      (below : first.placementClass.rank < second.placementClass.rank) :
      PlacedInOrder script first second :=
    ⟨Nat.le_of_lt below, fun same => absurd below (same ▸ Nat.lt_irrefl _)⟩
  have writable {b : Builder}
      (present : b ∈ sortBy Builder.compareRelro (input.ordered pre).rwPb ++
        sortBy Builder.compareTbss (input.ordered pre).rwBss) :
      1 < b.placementClass.rank := by
    rcases List.mem_append.mp present with inPb | inBss
    · rw [class_rwPb (mem_sortBy.mp inPb)]
      split <;> decide
    · rw [class_rwBss (mem_sortBy.mp inBss)]
      split <;> decide
  rw [placedOrder]
  refine List.pairwise_append.mpr ⟨List.pairwise_append.mpr ⟨?_, ?_, ?_⟩,
    List.pairwise_append.mpr ⟨?_, ?_, ?_⟩, ?_⟩
  · exact inOrder_sorted isScript rfl fun b => class_ro
  · exact inOrder_sorted isScript rfl fun b => class_rx
  · intro first isFirst second isSecond
    refine across ?_
    rw [class_ro isFirst, class_rx isSecond]
    decide
  · exact inOrder_rwPb
  · exact inOrder_rwBss isScript
  · intro first isFirst second isSecond
    refine across ?_
    rw [class_rwPb (mem_sortBy.mp isFirst), class_rwBss (mem_sortBy.mp isSecond)]
    split <;> split <;> decide
  · intro first isFirst second isSecond
    refine across (Nat.lt_of_le_of_lt ?_ (writable isSecond))
    rcases List.mem_append.mp isFirst with inRo | inRx
    · rw [class_ro inRo]
      decide
    · rw [class_rx inRx]
      decide

end Script

/-! ## Layouts -/

theorem placed_inOrder {layout : Layout} (computed : Computed input layout)
    {script : ScriptLayout} (isScript : input.config.script = some script) :
    (layout.outputSections.filter OutputSection.isLoaded).Pairwise fun first second =>
      first.placementClass.rank ≤ second.placementClass.rank ∧
        (first.placementClass = second.placementClass → first.placementClass.IsScripted →
          ¬ script.Precedes second.name first.name) := by
  have finished (s last : OutputSection) (isFinished : s.Finished last) :
      (last.shFlags, last.kind, last.name) = (s.shFlags, s.kind, s.name) := by
    rcases isFinished with ⟨_, _, _, _, _, rfl, _⟩
    rfl
  have raised (b last : Builder) (isRaised : b.RaisedTo last) :
      (last.shFlags, last.kind, last.name) = (b.shFlags, b.kind, b.name) := by
    rcases isRaised with ⟨_, rfl, _⟩
    rfl
  rcases tags_eq computed finished (fun _ _ _ => rfl) raised with ⟨others, unloaded, same⟩
  let isAlloc (tag : UInt64 × SectionKind × Name) : Bool := tag.1 &&& shfAlloc != 0
  let inOrder (first second : UInt64 × SectionKind × Name) : Prop :=
    let firstClass := PlacementClass.of first.1 first.2.1 first.2.2
    let secondClass := PlacementClass.of second.1 second.2.1 second.2.2
    firstClass.rank ≤ secondClass.rank ∧ (firstClass = secondClass → firstClass.IsScripted →
      ¬ script.Precedes second.2.2 first.2.2)
  have kept := congrArg (List.filter isAlloc) same
  have none : (others.map fun s : OutputSection => (s.shFlags, s.kind, s.name)).filter
      isAlloc = [] := by
    rw [List.filter_eq_nil_iff]
    intro tag isTag
    rcases List.mem_map.mp isTag with ⟨s, among, rfl⟩
    rw [unloaded s among]
    exact (by decide : ¬ ((0 : UInt64) &&& shfAlloc != 0) = true)
  rw [List.filter_append, none, List.append_nil, List.filter_map] at kept
  have sorted : ((input.placedOrder computed.pre).map fun b : Builder =>
      (b.shFlags, b.kind, b.name)).Pairwise inOrder :=
    List.pairwise_map.mpr (inOrder_placedOrder isScript)
  have ofLayout : ((layout.outputSections.filter OutputSection.isLoaded).map
      fun s : OutputSection => (s.shFlags, s.kind, s.name)).Pairwise inOrder := by
    have among := sorted.sublist (@List.filter_sublist _ isAlloc _)
    rw [← kept] at among
    exact among
  exact List.pairwise_map.mp ofLayout

/-- The sections of a layout come in the order of their classes, and within the classes that a
linker script sorts in the order of the script. -/
theorem keepsScriptOrder
    (noWrap : ∀ pre, input.prebuildDynamic = .ok pre → input.NoWrap pre)
    {script : ScriptLayout} (isScript : input.config.script = some script) {layout : Layout}
    (succeeded : input.computeLayoutIcf = .ok layout) : layout.KeepsScriptOrder script := by
  rcases computed_of_ok succeeded with ⟨computed⟩
  have placed := placed_inOrder computed isScript
  have laid := List.pairwise_map.mp
    (loaded_laid computed (noWrap computed.pre computed.prebuilt)).pairwise
  have mem {s : OutputSection} (present : s ∈ layout.outputSections)
      (isLoaded : s.isLoaded = true) :
      s ∈ layout.outputSections.filter OutputSection.isLoaded :=
    List.mem_filter.mpr ⟨present, isLoaded⟩
  constructor
  · intro first isFirst firstLoaded second isSecond secondLoaded below
    have distinct : first ≠ second := by
      rintro rfl
      exact Nat.lt_irrefl _ below
    rcases Pairwise.either (laid.and placed) (mem isFirst firstLoaded)
      (mem isSecond secondLoaded) distinct with before | after
    · exact before.1
    · exact absurd after.2.1 (Nat.not_le.mpr below)
  · intro first isFirst firstLoaded second isSecond secondLoaded alike scripted precedes
    have distinct : first ≠ second := by
      rintro rfl
      rcases precedes with ⟨place, isPlace, other, isOther, less⟩
      rw [Option.mem_def] at isPlace isOther
      rw [isPlace, Option.some.injEq] at isOther
      exact absurd less (isOther ▸ Nat.lt_irrefl _)
    rcases Pairwise.either (laid.and placed) (mem isFirst firstLoaded)
      (mem isSecond secondLoaded) distinct with before | after
    · exact before.1
    · have scriptedToo : second.placementClass.IsScripted := alike ▸ scripted
      exact absurd precedes (after.2.2 alike.symm scriptedToo)

/-! A program with two sections besides its code, which a script names in one order. -/

private def scriptedSection (index : Nat) (name : String) (kind : SectionKind)
    (flags : UInt64) : InputSection where
  index := index
  name := nameOf name
  kind := kind
  shType := shtProgbits
  data := ⟨.owned 0, 0, 8⟩
  align := 8
  size := 8
  flags := shfAlloc ||| flags
  relocs := []

private def scriptedEntry : InputSymbol where
  index := 1
  name := nameOf "_start"
  binding := .global
  isUndefined := false
  isCommon := false
  isIfunc := false
  stType := 2
  visibility := 0
  sectionIndex := some 1
  value := 0
  size := 8

private def scriptedObject (kind : SectionKind) (flags : UInt64) (names : List String) :
    InputObject where
  path := "main.o"
  sections := scriptedSection 1 ".text" .text shfExecinstr ::
    (names.zipIdx 2).map fun name => scriptedSection name.2 name.1 kind flags
  symbols := [scriptedEntry]
  sectionMap := IndexLookup.insert default 1 0
  symbolMap := IndexLookup.insert default 1 0
  comdatGroups := []

private def scriptOf (names : List String) : ScriptLayout where
  outputSections := names.map fun name => { name := name.toList, patterns := [name.toList] }
  keepPatterns := []

private def scriptedInput (kind : SectionKind) (flags : UInt64) (names : List String) :
    LayoutInput where
  arena := { mmaps := [], owned := [[0, 0, 0, 0, 0, 0, 0, 0]] }
  objects := [scriptedObject kind flags names]
  symbols :=
    match SymbolTable.processAll [⟨scriptedObject kind flags names, []⟩] with
    | .ok table => table
    | .error _ => SymbolTable.new
  config := { script := some (scriptOf names) }

private def scriptedConstants : LayoutInput := scriptedInput .readOnly 0 [".later", ".early"]

private def scriptedData : LayoutInput :=
  scriptedInput .data shfWrite [".data", ".init_array"]

theorem keepsScriptOrder_constants :
    ∃ layout, scriptedConstants.computeLayoutIcf = .ok layout ∧
      layout.KeepsScriptOrder (scriptOf [".later", ".early"]) := by
  rcases @exists_layout scriptedConstants (by decide +kernel) with ⟨layout, succeeded⟩
  refine ⟨layout, succeeded, keepsScriptOrder ?_ rfl succeeded⟩
  intro pre prebuilt
  have isPre : pre = {} := (Except.ok.inj prebuilt).symm
  subst isPre
  exact noWrap_of_checked (by decide +kernel)

/-- What becomes read-only is placed before the data that the script names first. -/
theorem scriptedData_not_inScriptOrder :
    ∃ layout, scriptedData.computeLayoutIcf = .ok layout ∧
      ¬ layout.InScriptOrder (scriptOf [".data", ".init_array"]) := by
  rcases @exists_layout scriptedData (by decide +kernel) with ⟨layout, succeeded⟩
  refine ⟨layout, succeeded, fun inOrder => ?_⟩
  have placed : scriptedData.computeLayoutIcf.toOption.any (fun layout =>
      layout.outputSections.any fun first => layout.outputSections.any fun second =>
        first.isLoaded && second.isLoaded &&
          decide (permOf first.shFlags = permOf second.shFlags) &&
          decide ((scriptOf [".data", ".init_array"]).Precedes first.name second.name) &&
          decide (second.memory.start < first.memory.stop)) = true := by
    decide +kernel
  rcases List.any_eq_true.mp (any_of_computed placed succeeded) with ⟨first, isFirst, found⟩
  rcases List.any_eq_true.mp found with ⟨second, isSecond, facts⟩
  simp only [Bool.and_eq_true, decide_eq_true_eq] at facts
  rcases facts with ⟨⟨⟨⟨firstLoaded, secondLoaded⟩, samePerm⟩, precedes⟩, below⟩
  exact absurd (inOrder first isFirst firstLoaded second isSecond secondLoaded samePerm precedes)
    (Nat.not_le.mpr below)

end LayoutInput

end Peony
