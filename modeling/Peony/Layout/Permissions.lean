import Peony.Layout.Addresses
import Peony.Layout.Loads
import Peony.Symbols.Resolution

namespace Peony

/-! Whether the flags of the output sections, and the permissions of the segments
they are loaded with, suffice for all that contributes to them. -/

/-- The bits that decide what a section may be used for. -/
def useBits : List UInt64 := [shfWrite, shfExecinstr, shfTls]

def Covers (flags needed : UInt64) : Prop :=
  ∀ bit ∈ useBits, needed &&& bit ≠ 0 → flags &&& bit ≠ 0

def OutputSection.HasMember (s : OutputSection) (member : Contributor) : Prop :=
  ∃ c ∈ s.contributions, c.key = member.label

/-- The segment lets its contents be read, and written and executed as far as the
flags of an input section ask for it. -/
structure ProgramHeader.Permits (header : ProgramHeader) (needed : UInt64) :
    Prop where
  read : header.pFlags &&& pfR ≠ 0
  write : needed &&& shfWrite ≠ 0 → header.pFlags &&& pfW ≠ 0
  execute : needed &&& shfExecinstr ≠ 0 → header.pFlags &&& pfX ≠ 0

namespace LayoutInput

def allLoads (input : LayoutInput) : List Load :=
  match input.prebuildDynamic with
  | .ok pre => input.loads (input.ordered pre)
  | .error _ => []

def LoadedIn (input : LayoutInput) (header : ProgramHeader) (s : OutputSection) :
    Prop :=
  ∃ load ∈ input.allLoads, load.header = header ∧
    ∃ placed ∈ load.sections, placed.Finished s

structure PermissionsCover (input : LayoutInput) (layout : Layout) : Prop where
  flags : ∀ s ∈ layout.outputSections,
    ∀ member ∈ inputSections input.objects, s.HasMember member →
      Covers s.shFlags member.sec.flags
  loads : ∀ header ∈ layout.segments, header.pType = ptLoad →
    ∀ s ∈ layout.outputSections, input.LoadedIn header s →
      ∀ member ∈ inputSections input.objects, s.HasMember member →
        header.Permits member.sec.flags

/-- The input sections that contribute to an output section, in their order. -/
def membersOf (input : LayoutInput) (name : Name) : List Contributor :=
  input.contributors.filter fun member =>
    decide (input.outName member.sec.name = name)

/-- The first contribution of every output section has the flags of all others,
and nothing writable joins one that is executable. What is passed through to the
file has none of the flags. -/
structure FlagsAgree (input : LayoutInput) : Prop where
  grouped : ∀ name first rest, input.membersOf name = first :: rest →
    ∀ member ∈ first :: rest, Covers first.sec.flags member.sec.flags ∧
      (member.sec.flags &&& shfWrite ≠ 0 → first.sec.flags &&& shfExecinstr = 0)
  passed : ∀ member, input.IsPassedThrough member →
    ∀ bit ∈ useBits, member.sec.flags &&& bit = 0

/-! ## Flags -/

theorem and_flagMask {bit : UInt64} (isUse : bit ∈ useBits) (flags : UInt64) :
    (flags &&& flagMask) &&& bit = flags &&& bit := by
  rw [UInt64.and_assoc]
  simp only [useBits, List.mem_cons, List.not_mem_nil, or_false] at isUse
  rcases isUse with rfl | rfl | rfl <;> rfl

theorem covers_masked {flags needed : UInt64} :
    Covers (flags &&& flagMask) needed ↔ Covers flags needed :=
  forall₂_congr fun _ isUse => by rw [and_flagMask isUse]

theorem covers_zero {needed : UInt64} :
    Covers 0 needed ↔ ∀ bit ∈ useBits, needed &&& bit = 0 := by
  refine forall₂_congr fun bit _ => ?_
  rw [UInt64.zero_and]
  simp

/-- A segment of the permission that the flags of the first member select. -/
theorem permits_iff {header : ProgramHeader} {first needed : UInt64}
    (flags : header.pFlags = (permOf first).flags) (covers : Covers first needed) :
    header.Permits needed ↔
      (needed &&& shfWrite ≠ 0 → first &&& shfExecinstr = 0) := by
  have writes := covers shfWrite (by decide)
  have executes := covers shfExecinstr (by decide)
  by_cases isExec : first &&& shfExecinstr = 0
  · have notNeeded : needed &&& shfExecinstr = 0 := by
      by_contra needs
      exact executes needs isExec
    refine iff_of_true ⟨?_, ?_, fun needs => absurd notNeeded needs⟩ fun _ => isExec
    · rw [flags, permOf, isExec]
      cases first &&& shfWrite != 0 <;> decide
    · intro needs
      rw [flags, permOf, isExec, bne_iff_ne.mpr (writes needs)]
      decide
  · have isRx : permOf first = .rx := by
      rw [permOf, bne_iff_ne.mpr isExec]
      rfl
    rw [isRx] at flags
    constructor
    · intro permits needs
      have writable := permits.write needs
      rw [flags] at writable
      exact absurd (by decide) writable
    · intro unwritten
      refine ⟨?_, fun needs => absurd (unwritten needs) isExec, fun _ => ?_⟩ <;>
        rw [flags] <;> decide

/-! ## Members of the placed sections -/

variable {input : LayoutInput}

theorem mem_membersOf {name : Name} {member : Contributor} :
    member ∈ input.membersOf name ↔
      member ∈ input.contributors ∧ input.outName member.sec.name = name := by
  rw [membersOf, List.mem_filter, decide_eq_true_eq]

theorem collect_first (first : Contributor) (members : List Contributor) :
    (input.grouping.collect first members).name = input.outName first.sec.name ∧
      (input.grouping.collect first members).shFlags =
        first.sec.flags &&& flagMask ∧
      (input.grouping.collect first members).perm = permOf first.sec.flags := by
  rw [collect_shape]
  exact ⟨rfl, rfl, rfl⟩

structure FollowsFirst (load : Load) (placed : OutputSection)
    (first : Contributor) : Prop where
  flags : placed.shFlags = first.sec.flags &&& flagMask
  perm : load.perm = permOf first.sec.flags

section Members

variable (aligned : ∀ member ∈ input.contributors,
  member.align.toNat.isPowerOfTwo)
variable (pre : DynPrebuild)

include aligned

theorem exists_first (parsed : ∀ obj ∈ input.objects, obj.Parsed) {load : Load}
    (isLoad : load ∈ input.loads (input.ordered pre)) {placed : OutputSection}
    (isPlaced : placed ∈ load.sections) {member : Contributor}
    (isMember : member ∈ inputSections input.objects)
    (has : placed.HasMember member) :
    ∃ name first rest, input.membersOf name = first :: rest ∧
      member ∈ first :: rest ∧ FollowsFirst load placed first := by
  rcases has with ⟨c, present, key⟩
  rcases Pairwise.exists_left (load_outputs isLoad) isPlaced with
    ⟨raised, isRaised, output⟩
  rcases load_origin (input.classified_ordered pre input.groups)
    (groups_aligned aligned) isLoad isRaised with ⟨b, origin, raises, perm⟩
  rcases raises with ⟨align, rfl, _⟩
  rcases output with ⟨shAddr, rfl, _⟩
  rcases origin with isGroup | bare
  · rcases groups_held aligned isGroup present with
      ⟨other, contributes, holds, outName, _⟩
    have same := eq_of_label parsed (mem_contributors.mp contributes).1 isMember
      (holds.2.1.symm.trans key)
    subst same
    rcases mem_groups.mp isGroup with ⟨first, rest, ofName, isCollected⟩
    refine ⟨b.name, first, rest, ofName, ?_, ?_, ?_⟩
    · rw [← ofName]
      exact mem_membersOf.mpr ⟨contributes, outName⟩
    · change b.shFlags = _
      rw [isCollected]
      exact (collect_first first _).2.1
    · rw [← perm, isCollected]
      exact (collect_first first _).2.2
  · change c ∈ b.contributions at present
    rw [bare.1] at present
    exact absurd present List.not_mem_nil

theorem exists_placed_first {name : Name} {first : Contributor}
    {rest : List Contributor} (ofName : input.membersOf name = first :: rest)
    {member : Contributor} (among : member ∈ first :: rest) :
    ∃ load ∈ input.loads (input.ordered pre), ∃ placed ∈ load.sections,
      placed.HasMember member ∧ FollowsFirst load placed first := by
  have membersAligned : ∀ member ∈ first :: rest,
      member.align.toNat.isPowerOfTwo := by
    intro other isMember
    rw [← ofName] at isMember
    exact aligned other (mem_membersOf.mp isMember).1
  have firstName : input.outName first.sec.name = name := by
    have present : first ∈ input.membersOf name := ofName ▸ List.mem_cons_self
    exact (mem_membersOf.mp present).2
  have shape := @collect_first input first (first :: rest)
  have isGroup : input.grouping.collect first (first :: rest) ∈ input.groups := by
    refine mem_groups.mpr ⟨first, rest, ?_, rfl⟩
    rw [shape.1, firstName]
    exact ofName
  rcases @collect_holds input first member _ among membersAligned with ⟨c, holds⟩
  rcases exists_load (input.classified_ordered pre input.groups)
    (groups_aligned aligned) isGroup with ⟨load, isLoad, perm, raised, present, raises⟩
  rcases Pairwise.exists_right (load_outputs isLoad) present with
    ⟨placed, isPlaced, output⟩
  rcases raises with ⟨align, rfl, _⟩
  rcases output with ⟨shAddr, rfl, _⟩
  exact ⟨load, isLoad, _, isPlaced, ⟨c, holds.1, holds.2.1⟩,
    shape.2.1, perm.trans shape.2.2⟩

end Members

/-! ## When permissions cover what is needed -/

section Computed

variable (parsed : ∀ obj ∈ input.objects, obj.Parsed)
variable {layout : Layout} (computed : Computed input layout)

include computed

theorem allLoads_computed :
    input.allLoads = input.loads (input.ordered computed.pre) := by
  rw [allLoads, computed.prebuilt]

include parsed

theorem covers_of_agree (agree : input.FlagsAgree) {s : OutputSection}
    (present : s ∈ layout.outputSections) {member : Contributor}
    (isMember : member ∈ inputSections input.objects) (has : s.HasMember member) :
    Covers s.shFlags member.sec.flags := by
  rw [computed.assembled] at present
  rcases Pairwise.exists_left (input.finished_assemble _ _ _) present with
    ⟨placed, among, isFinished⟩
  rw [isFinished.shFlags]
  have placedHas : placed.HasMember member := by
    rcases has with ⟨c, inSection, key⟩
    exact ⟨c, isFinished.contributions ▸ inSection, key⟩
  rcases input.fileCursor_extends (input.ordered computed.pre) with
    ⟨more, each, sections, _⟩
  rw [sections, ← sections_loads] at among
  rcases List.mem_append.mp among with inFile | isNames
  · rcases List.mem_append.mp inFile with inLoads | isFileOnly
    · rcases List.mem_flatMap.mp inLoads with ⟨load, isLoad, isPlaced⟩
      rcases exists_first computed.aligned computed.pre parsed isLoad isPlaced
        isMember placedHas with ⟨name, first, rest, ofName, among, follows⟩
      rw [follows.flags, covers_masked]
      exact (agree.grouped name first rest ofName member among).1
    · rcases placedHas with ⟨c, inSection, key⟩
      rcases (each placed isFileOnly).members inSection with
        ⟨other, passed, otherKey⟩
      have same := eq_of_label parsed passed.isInput isMember
        (otherKey.symm.trans key)
      subst same
      rw [(each placed isFileOnly).flags, covers_zero]
      exact agree.passed other passed
  · rcases placedHas with ⟨c, inSection, _⟩
    rw [List.mem_singleton.mp isNames] at inSection
    exact absurd inSection List.not_mem_nil

theorem permissionsCover_of_agree (agree : input.FlagsAgree) :
    input.PermissionsCover layout where
  flags _ present _ isMember has :=
    covers_of_agree parsed computed agree present isMember has
  loads := by
    rintro header _ _ s _ ⟨load, isLoad, rfl, placed, isPlaced, isFinished⟩
      member isMember has
    rw [allLoads_computed computed] at isLoad
    have placedHas : placed.HasMember member := by
      rcases has with ⟨c, inSection, key⟩
      exact ⟨c, isFinished.contributions ▸ inSection, key⟩
    rcases exists_first computed.aligned computed.pre parsed isLoad isPlaced
      isMember placedHas with ⟨name, first, rest, ofName, among, follows⟩
    have agrees := agree.grouped name first rest ofName member among
    refine (permits_iff ?_ agrees.1).mpr agrees.2
    rw [load_flags isLoad, follows.perm]

omit parsed in
theorem agree_of_permissionsCover (cover : input.PermissionsCover layout) :
    input.FlagsAgree where
  grouped := by
    intro name first rest ofName member among
    have isMember : member ∈ inputSections input.objects := by
      rw [← ofName] at among
      exact (mem_contributors.mp (mem_membersOf.mp among).1).1
    rcases exists_placed_first computed.aligned computed.pre ofName among with
      ⟨load, isLoad, placed, isPlaced, has, follows⟩
    have isSection : placed ∈
        (input.placeAll (input.ordered computed.pre)).placement.sections := by
      rw [← sections_loads]
      exact List.mem_flatMap.mpr ⟨load, isLoad, isPlaced⟩
    rcases @mem_outputSections input computed.pre _ computed.entry placed isSection
      with ⟨finished, present, isFinished⟩
    have finishedHas : finished.HasMember member := by
      rcases has with ⟨c, inSection, key⟩
      exact ⟨c, isFinished.contributions.symm ▸ inSection, key⟩
    rw [← computed.assembled] at present
    have covers := cover.flags finished present member isMember finishedHas
    rw [isFinished.shFlags, follows.flags, covers_masked] at covers
    have isHeader : load.header ∈ layout.segments ∧
        load.header.pType = ptLoad := by
      have headers := input.ptLoad_segments (input.ordered computed.pre)
        computed.pre computed.entry
      rw [← computed.assembled] at headers
      have inHeaders : load.header ∈ (input.loads
          (input.ordered computed.pre)).map Load.header :=
        List.mem_map_of_mem isLoad
      rw [← headers, List.mem_filter, beq_iff_eq] at inHeaders
      exact inHeaders
    have permits := cover.loads load.header isHeader.1 isHeader.2 finished present
      ⟨load, (allLoads_computed computed).symm ▸ isLoad, rfl, placed, isPlaced,
        isFinished⟩ member isMember finishedHas
    refine ⟨covers, (permits_iff ?_ covers).mp permits⟩
    rw [load_flags isLoad, follows.perm]
  passed := by
    intro member passed
    rcases input.exists_passed passed (input.ordered computed.pre) with
      ⟨s, inFile, flags, c, inSection, key⟩
    rcases @exists_finished input computed.pre _ computed.entry s inFile with
      ⟨finished, present, isFinished⟩
    rw [← computed.assembled] at present
    have covers := cover.flags finished present member passed.isInput
      ⟨c, isFinished.contributions.symm ▸ inSection, key⟩
    rw [isFinished.shFlags, flags, covers_zero] at covers
    exact covers

end Computed

/-- The flags and permissions cover what is needed exactly when the flags of the
first contributions do. -/
theorem permissionsCover_iff (parsed : ∀ obj ∈ input.objects, obj.Parsed)
    {layout : Layout} (succeeded : input.computeLayoutIcf = .ok layout) :
    input.PermissionsCover layout ↔ input.FlagsAgree := by
  rcases computed_of_ok succeeded with ⟨computed⟩
  exact ⟨agree_of_permissionsCover computed,
    permissionsCover_of_agree parsed computed⟩

/-! Two objects that both have a section `settings`: constant in the first one and
perhaps writable in the second. -/

private def settingsSection (index : Nat) (name : String) (flags : UInt64) :
    InputSection where
  index := index
  name := nameOf name
  kind := if flags &&& shfExecinstr = 0 then .data else .text
  shType := 1
  data := ⟨.owned 0, 0, 4⟩
  align := 4
  size := 4
  flags := flags
  relocs := []

private def startSymbol : InputSymbol where
  index := 1
  name := nameOf "_start"
  binding := .global
  isUndefined := false
  isCommon := false
  isIfunc := false
  stType := 2
  visibility := 0
  sectionIndex := some 1
  value := 0
  size := 4

private def constantObject : InputObject :=
  InputObject.assemble "constant.o" 2 1
    [settingsSection 1 ".text" (shfAlloc ||| shfExecinstr),
      settingsSection 2 "settings" shfAlloc] [startSymbol] []

private def otherObject (flags : UInt64) : InputObject :=
  InputObject.assemble "other.o" 1 0 [settingsSection 1 "settings" flags] [] []

private def settingsInput (flags : UInt64) : LayoutInput where
  arena := { mmaps := [], owned := [[0, 0, 0, 0]] }
  objects := [constantObject, otherObject flags]
  symbols :=
    match SymbolTable.processAll
        [⟨constantObject, []⟩, ⟨otherObject flags, []⟩] with
    | .ok table => table
    | .error _ => SymbolTable.new

private theorem settingsInput_parsed (flags : UInt64) :
    ∀ obj ∈ (settingsInput flags).objects, obj.Parsed := by
  intro obj present
  rw [settingsInput, List.mem_cons, List.mem_singleton] at present
  rcases present with rfl | rfl <;>
    exact InputObject.assemble_parsed _ _ _ _ _ _ (by simp [settingsSection])
      (by simp [startSymbol]) (by simp [settingsSection]) (by simp [startSymbol])

theorem permissionsCover_constants :
    ∃ layout, (settingsInput shfAlloc).computeLayoutIcf = .ok layout ∧
      (settingsInput shfAlloc).PermissionsCover layout := by
  rcases @exists_layout (settingsInput shfAlloc) (by decide +kernel) with
    ⟨layout, computed⟩
  refine ⟨layout, computed,
    (permissionsCover_iff (settingsInput_parsed _) computed).mpr ⟨?_, ?_⟩⟩
  · intro name first rest ofName member among
    rw [← ofName] at among
    have isFirst : first ∈ (settingsInput shfAlloc).membersOf name :=
      ofName ▸ List.mem_cons_self
    have each : ∀ one ∈ (settingsInput shfAlloc).contributors,
        ∀ other ∈ (settingsInput shfAlloc).contributors,
          (settingsInput shfAlloc).outName one.sec.name =
            (settingsInput shfAlloc).outName other.sec.name →
          one.sec.flags = other.sec.flags ∧
            one.sec.flags &&& shfWrite = 0 := by decide +kernel
    have same := each member (mem_membersOf.mp among).1 first
      (mem_membersOf.mp isFirst).1
      ((mem_membersOf.mp among).2.trans (mem_membersOf.mp isFirst).2.symm)
    rw [← same.1]
    exact ⟨fun _ _ needed => needed, fun writable => absurd same.2 writable⟩
  · rintro member ⟨name, listed, _⟩
    have none : (settingsInput shfAlloc).passthroughNames = [] := by decide +kernel
    rw [none] at listed
    exact absurd listed List.not_mem_nil

/-- The writable section ends up in an output section without `SHF_WRITE`. -/
theorem constantSettings_not_permissionsCover :
    ∃ layout,
      (settingsInput (shfAlloc ||| shfWrite)).computeLayoutIcf = .ok layout ∧
        ¬ (settingsInput (shfAlloc ||| shfWrite)).PermissionsCover layout := by
  rcases @exists_layout (settingsInput (shfAlloc ||| shfWrite))
    (by decide +kernel) with ⟨layout, computed⟩
  refine ⟨layout, computed, fun cover => ?_⟩
  have uncovered : (settingsInput (shfAlloc ||| shfWrite)).computeLayoutIcf.toOption.any
      (fun layout => layout.outputSections.any fun s =>
        s.shFlags &&& shfWrite == 0 && s.contributions.any fun c =>
          c.key == (1, 1)) = true := by decide +kernel
  rw [computed] at uncovered
  rcases List.any_eq_true.mp uncovered with ⟨s, present, found⟩
  rw [Bool.and_eq_true, beq_iff_eq, List.any_eq_true] at found
  rcases found.2 with ⟨c, inSection, key⟩
  have isMember : (⟨1, otherObject (shfAlloc ||| shfWrite), 0,
      settingsSection 1 "settings" (shfAlloc ||| shfWrite)⟩ : Contributor) ∈
      inputSections (settingsInput (shfAlloc ||| shfWrite)).objects :=
    mem_inputSections.mpr ⟨rfl, rfl⟩
  exact cover.flags s present _ isMember ⟨c, inSection, beq_iff_eq.mp key⟩ shfWrite
    (by decide) (by decide) found.1

end LayoutInput

end Peony
