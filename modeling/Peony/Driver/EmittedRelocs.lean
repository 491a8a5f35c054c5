import Peony.Driver.RelaDyn
import Peony.Emit.SymbolPlaces
import Peony.Layout.Relro
import Peony.Layout.Storage

namespace Peony

/-! Whether the relocations that an output keeps for its sections are about what they are about
in the inputs. -/

/-- What the symbol and the addend of a relocation stand for together. -/
inductive Denotation where
  | absolute (value : UInt64)
  /-- A place in a section of an object. -/
  | within (key : SectionKey) (offset : UInt64)
  /-- What the definition of a name is, and a distance from it. -/
  | named (name : Name) (addend : UInt64)
deriving DecidableEq, Repr

/-- A symbol of an object and an addend. A local symbol is the one of that object, and that of
a section stands for the section. -/
def InputReloc.denotes (reloc : InputReloc) (objId : Nat) (obj : InputObject) : Denotation :=
  let addend := reloc.addend.toUInt64
  match obj.symbolByIndex reloc.symbol with
  | none => .absolute addend
  | some sym =>
      if sym.binding = .local then
        match sym.sectionIndex with
        | some si => .within (objId, si) (sym.value + addend)
        | none => .absolute (sym.value + addend)
      else .named sym.name addend

namespace LayoutInput

variable (input : LayoutInput)

/-- What the entries of `.symtab` stand for, behind the null symbol. -/
def symtabDenotations (placed : Placement) (addend : UInt64) : List Denotation :=
  if input.config.strip then []
  else
    (input.objects.zipIdx.flatMap fun numbered =>
      numbered.1.symbols.map fun sym => (numbered.2, sym)).filterMap (fun entry =>
        entry.2.sectionIndex.bind fun si => (localPlace placed entry).map fun _ =>
          .within (entry.1, si) (entry.2.value + addend)) ++
    input.definedGlobals.filterMap fun entry =>
      (globalPlace placed entry.2).map fun _ => .named entry.1 addend

/-- What a relocation of the output stands for. -/
def denotes (placed : Placement) (rela : Rela) : Option Denotation :=
  if rela.index = 0 then some (.absolute rela.addend)
  else (input.symtabDenotations placed rela.addend)[rela.index.toNat - 1]?

def targetRelocs (target : OutputSection) :
    List (SectionContribution × InputObject × InputReloc) :=
  target.contributions.flatMap fun c =>
    match input.contributionSection c with
    | some (obj, sec) => sec.relocs.map fun reloc => (c, obj, reloc)
    | none => []

/-- Every relocation that is kept for an output section has the address of the place that it
has in the section, its type, and a symbol and an addend that stand for the same. -/
def KeepsRelocs (layout : Layout) : Prop :=
  ∀ pre, input.prebuildDynamic = .ok pre →
    ∀ relaSection ∈ layout.outputSections, ∀ index, relaSection.source = .relaEmit index →
      ∀ target ∈ layout.outputSections, target.shndx = relaSection.shInfo →
        ∀ place rela,
          Rela.format.readAt (layout.emitRelocs[index]?.getD []) place = some rela →
          ∃ c obj reloc, (input.targetRelocs target)[place]? = some (c, obj, reloc) ∧
            rela.site = target.shAddr + c.offset + reloc.offset ∧
            rela.rType = reloc.rType ∧
            input.denotes (input.placement (input.ordered pre)) rela =
              some (reloc.denotes c.objectId obj)

/-- Whether relocations are to be kept. -/
def keepsAny : Bool := input.config.emitRelocs && !input.config.strip

/-- No relocations are kept: they are not asked for, or what is copied has none. -/
def KeepsNone : Prop :=
  input.keepsAny = true →
    ∀ first, input.Opens first → (input.opened first).source = .input →
      ∀ member ∈ input.membersOf (input.outName first.sec.name), member.sec.relocs = []

/-! ## The records -/

def keptRela (plan : SymtabPlan) (kept : SectionContribution × InputObject × InputReloc) :
    Rela where
  site := kept.1.offset + kept.2.2.offset
  index := ((kept.2.1.symbolByIndex kept.2.2.symbol).map fun sym =>
    symtabIndex plan sym.name).getD 0
  rType := kept.2.2.rType
  addend := kept.2.2.addend.toUInt64

theorem relaBytes_eq (plan : SymtabPlan) (target : OutputSection) :
    input.relaBytes plan target =
      Rela.format.table ((input.targetRelocs target).map (keptRela plan)) := by
  rw [relaBytes, targetRelocs, RecordFormat.table, List.flatMap_map, List.flatMap_assoc]
  congr 1
  funext c
  cases input.contributionSection c with
  | none => rfl
  | some found =>
      dsimp only
      rw [List.flatMap_map]
      rfl

theorem relaBytes_eq_nil_iff (plan : SymtabPlan) (target : OutputSection) :
    input.relaBytes plan target = [] ↔ input.targetRelocs target = [] := by
  rw [relaBytes_eq, ← List.length_eq_zero_iff, RecordFormat.length_table, List.length_map,
    ← List.length_eq_zero_iff]
  have wide : Rela.format.width = 24 := rfl
  rw [wide]
  omega

/-! ## The sections that are pushed -/

/-- Relocations are kept for the section. -/
def IsTarget (target : OutputSection) : Prop :=
  target.source = .input ∧ target.shFlags &&& shfAlloc ≠ 0 ∧ input.targetRelocs target ≠ []

/-- The section has the relocations of the one at the place. -/
def IsRelaOf (plan : SymtabPlan) (blobs : List (List UInt8))
    (numbered : OutputSection × Nat) (s : OutputSection) : Prop :=
  ∃ index, s.source = .relaEmit index ∧ s.shInfo = shndxOf numbered.2 ∧
    blobs[index]? = some (input.relaBytes plan numbered.1)

variable {input} {plan : SymtabPlan}

theorem IsRelaOf.append {blobs : List (List UInt8)} {numbered : OutputSection × Nat}
    {s : OutputSection} (isRela : input.IsRelaOf plan blobs numbered s)
    (more : List (List UInt8)) : input.IsRelaOf plan (blobs ++ more) numbered s := by
  rcases isRela with ⟨index, source, shInfo, isBlob⟩
  refine ⟨index, source, shInfo, ?_⟩
  rw [List.getElem?_append_left (List.getElem?_eq_some_iff.mp isBlob).1]
  exact isBlob

structure PushesRelas (input : LayoutInput) (plan : SymtabPlan)
    (numbered : List (OutputSection × Nat)) (before after : FileCursor) : Prop where
  blobs : ∃ more, after.emitRelocs = before.emitRelocs ++ more
  sections : ∃ more, after.sections = before.sections ++ more ∧
    (∀ s ∈ more, ∃ target ∈ numbered, input.IsTarget target.1 ∧
      input.IsRelaOf plan after.emitRelocs target s) ∧
    ∀ target ∈ numbered, input.IsTarget target.1 →
      ∃ s ∈ more, input.IsRelaOf plan after.emitRelocs target s

theorem pushesRelas_one (cursor : FileCursor) (numbered : OutputSection × Nat) :
    PushesRelas input plan [numbered] cursor (input.pushRela plan cursor numbered) := by
  rcases numbered with ⟨target, place⟩
  have kept (other : ¬ input.IsTarget target) :
      PushesRelas input plan [(target, place)] cursor cursor := by
    refine ⟨⟨[], (List.append_nil _).symm⟩, [], (List.append_nil _).symm,
      fun s absent => absurd absent List.not_mem_nil, fun numbered isTarget isOne => ?_⟩
    rw [List.mem_singleton.mp isTarget] at isOne
    exact absurd isOne other
  rw [pushRela]
  dsimp only
  split
  · rename_i passes
    refine kept fun isTarget => ?_
    rw [Bool.or_eq_true, bne_iff_ne, beq_iff_eq] at passes
    exact passes.elim (absurd isTarget.1) isTarget.2.1
  · rename_i takes
    rw [Bool.or_eq_true, bne_iff_ne, beq_iff_eq, not_or, not_not] at takes
    split
    · rename_i isEmpty
      refine kept fun isTarget => isTarget.2.2 ?_
      exact (input.relaBytes_eq_nil_iff plan target).mp (List.isEmpty_iff.mp isEmpty)
    · rename_i filled
      have isTarget : input.IsTarget target := by
        refine ⟨takes.1, takes.2, fun none => filled (List.isEmpty_iff.mpr ?_)⟩
        exact (input.relaBytes_eq_nil_iff plan target).mpr none
      have isRela (offset size : UInt64) : input.IsRelaOf plan
          (cursor.emitRelocs ++ [input.relaBytes plan target]) (target, place)
          (fileSection (nameOf ".rela" ++ target.name) shtRela offset size
            (UInt32.ofNat (place + 1)) 8 relaSize (.relaEmit cursor.emitRelocs.length) []) :=
        ⟨_, rfl, rfl, List.getElem?_concat_length⟩
      refine ⟨⟨[input.relaBytes plan target], rfl⟩, [_], rfl, fun s present => ?_,
        fun numbered isNumbered _ => ?_⟩
      · rw [List.mem_singleton.mp present]
        exact ⟨_, List.mem_singleton_self _, isTarget, isRela _ _⟩
      · rw [List.mem_singleton.mp isNumbered]
        exact ⟨_, List.mem_singleton_self _, isRela _ _⟩

theorem pushesRelas (cursor : FileCursor) (numbered : List (OutputSection × Nat)) :
    PushesRelas input plan numbered cursor (numbered.foldl (input.pushRela plan) cursor) := by
  induction numbered generalizing cursor with
  | nil => exact ⟨⟨[], (List.append_nil _).symm⟩, [], (List.append_nil _).symm,
      fun s absent => absurd absent List.not_mem_nil,
      fun target absent => absurd absent List.not_mem_nil⟩
  | cons head rest induction =>
      have later := induction (input.pushRela plan cursor head)
      rcases @pushesRelas_one input plan cursor head with
        ⟨⟨blobs, isBlobs⟩, pushed, isPushed, only, all⟩
      rcases later with ⟨⟨moreBlobs, isMoreBlobs⟩, more, isMore, onlyMore, allMore⟩
      rw [List.foldl_cons]
      refine ⟨⟨blobs ++ moreBlobs, ?_⟩, pushed ++ more, ?_, fun s present => ?_,
        fun target isTarget taken => ?_⟩
      · rw [isMoreBlobs, isBlobs, List.append_assoc]
      · rw [isMore, isPushed, List.append_assoc]
      · rw [isMoreBlobs]
        rcases List.mem_append.mp present with isFirst | isLater
        · rcases only s isFirst with ⟨target, isHead, taken, isRela⟩
          rw [List.mem_singleton.mp isHead] at taken isRela
          exact ⟨head, List.mem_cons_self, taken, isRela.append moreBlobs⟩
        · rcases onlyMore s isLater with ⟨target, inRest, taken, isRela⟩
          exact ⟨target, List.mem_cons_of_mem _ inRest, taken, isMoreBlobs ▸ isRela⟩
      · rw [isMoreBlobs]
        rcases List.mem_cons.mp isTarget with rfl | inRest
        · rcases all target (List.mem_singleton_self _) taken with ⟨s, isFirst, isRela⟩
          exact ⟨s, List.mem_append_left _ isFirst, isRela.append moreBlobs⟩
        · rcases allMore target inRest taken with ⟨s, isLater, isRela⟩
          exact ⟨s, List.mem_append_right _ isLater, isMoreBlobs ▸ isRela⟩

/-! ## The sections of the file -/

theorem emitRelocs_pushPassthrough (cursor : FileCursor) (name : Name) :
    (input.pushPassthrough cursor name).emitRelocs = cursor.emitRelocs := by
  rw [pushPassthrough]
  dsimp only
  split
  · rfl
  · rfl

theorem emitRelocs_passthroughs (names : List Name) (cursor : FileCursor) :
    (names.foldl input.pushPassthrough cursor).emitRelocs = cursor.emitRelocs := by
  induction names generalizing cursor with
  | nil => rfl
  | cons name rest induction =>
      rw [List.foldl_cons, induction, emitRelocs_pushPassthrough]

theorem shInfo_nameSections (shstrtab : List UInt8) (sections : List OutputSection) :
    (nameSections shstrtab sections).1.map OutputSection.shInfo =
      sections.map OutputSection.shInfo := by
  induction sections generalizing shstrtab with
  | nil => rfl
  | cons s rest induction => exact congrArg (s.shInfo :: ·) (induction _)

theorem shInfo_linkSections {pre : DynPrebuild} {sections : List OutputSection}
    {place index : Nat} {s linked : OutputSection} (before : sections[place]? = some s)
    (isRela : s.source = .relaEmit index)
    (found : (input.linkSections pre sections)[place]? = some linked) :
    linked.shInfo = s.shInfo := by
  rw [linkSections, List.getElem?_map, List.getElem?_zipIdx, before] at found
  cases found
  have isStatic : linkStatic sections { s with shndx := shndxOf (0 + place) } =
      { s with
        shndx := shndxOf (0 + place)
        shLink := shndxOfSource sections .symTab } := by
    rw [linkStatic, isRela]
  dsimp only
  rw [isStatic, linkDynamic, isRela]
  split
  · rfl
  · rfl

/-- The header of a section with kept relocations names its target in the end. -/
theorem shInfo_finishFile {pre : DynPrebuild} {cursor : FileCursor} {place index : Nat}
    {s finished : OutputSection} (before : cursor.sections[place]? = some s)
    (isRela : s.source = .relaEmit index)
    (found : (input.finishFile pre cursor).sections[place]? = some finished) :
    finished.shInfo = s.shInfo := by
  have inRange := (List.getElem?_eq_some_iff.mp before).1
  have listed : (cursor.sections ++ [shstrtabSection cursor])[place]? = some s := by
    rw [List.getElem?_append_left inRange, before]
  rw [finishFile] at found
  dsimp only at found
  rw [List.getElem?_map] at found
  rcases Option.map_eq_some_iff.mp found with ⟨named, isNamed, rfl⟩
  have infos := congrArg (fun infos => infos[place]?)
    (shInfo_nameSections [0] (input.linkSections pre (cursor.sections ++
      [shstrtabSection cursor])))
  rw [List.getElem?_map, List.getElem?_map] at infos
  have isInfo : (((input.linkSections pre (cursor.sections ++
      [shstrtabSection cursor]))[place]?).map OutputSection.shInfo) = some named.shInfo := by
    rw [← infos]
    exact congrArg (Option.map OutputSection.shInfo) isNamed
  rcases Option.map_eq_some_iff.mp isInfo with ⟨linked, isLinked, same⟩
  rw [← input.shInfo_linkSections listed isRela isLinked, same]
  split
  · rfl
  · rfl

def IsTable (s : OutputSection) : Prop :=
  s.source = .symTab ∨ s.source = .strTab ∨ s.source = .symTabShndx

theorem extends_tables (cursor : FileCursor) :
    FileCursor.Extends IsTable cursor
      (if input.config.strip then cursor else cursor.pushSymtab plan) := by
  have tables : FileCursor.Extends IsTable cursor
      { cursor with
        foff := cursor.foff + UInt64.ofNat (plan.entries.length + 1) * symSize +
          UInt64.ofNat plan.strtab.length
        sections := cursor.sections ++
          [ fileSection (nameOf ".symtab") shtSymtab cursor.foff
              (UInt64.ofNat (plan.entries.length + 1) * symSize)
              (UInt32.ofNat (plan.numLocals + 1)) 8 symSize .symTab [],
            fileSection (nameOf ".strtab") shtStrtab
              (cursor.foff + UInt64.ofNat (plan.entries.length + 1) * symSize)
              (UInt64.ofNat plan.strtab.length) 0 1 0 .strTab [] ] } := by
    refine ⟨_, rfl, rfl, fun s present => ?_⟩
    rcases List.mem_cons.mp present with rfl | isLast
    · exact .inl rfl
    · rw [List.mem_singleton.mp isLast]
      exact .inr (.inl rfl)
  split
  · exact .refl cursor
  · unfold FileCursor.pushSymtab
    dsimp only
    split
    · exact tables
    · exact tables.trans (.push _ _ _ (fun _ => rfl) fun _ => .inr (.inr rfl))

theorem extends_passthroughs (cursor : FileCursor) :
    FileCursor.Extends (fun s => s.source = .input) cursor
      (input.passthroughNames.foldl input.pushPassthrough cursor) := by
  refine .foldl (fun cursor name _ => ?_) cursor
  unfold pushPassthrough
  dsimp only
  split
  · exact .refl cursor
  · refine ⟨[_], rfl, ?_, fun s present => ?_⟩
    · rw [foldl_cons_map (fun c : SectionContribution => (c.key, c.offset))]
      simp [OutputSection.places, fileSection, FileCursor.push]
    · rw [List.mem_singleton.mp present]
      rfl

/-- The sections of a file behind the placed ones: the tables, those of kept relocations, and
those that are passed through. -/
structure FileParts (input : LayoutInput) (ordered : Builders)
    (tables pushed passed : List OutputSection) : Prop where
  sections : (input.fileCursor ordered).sections =
    (input.placeAll ordered).placement.sections ++ (tables ++ (pushed ++ passed))
  tables_of : ∀ s ∈ tables, IsTable s
  passed_of : ∀ s ∈ passed, s.source = .input
  only : ∀ s ∈ pushed, input.keepsAny = true ∧
    ∃ target ∈ (input.placeAll ordered).placement.sections, input.IsTarget target
  all : input.keepsAny = true → ∀ place target,
    (input.placeAll ordered).placement.sections[place]? = some target →
      input.IsTarget target → ∃ s ∈ pushed, input.IsRelaOf (input.symtabPlan ordered)
        (input.fileCursor ordered).emitRelocs (target, place) s

theorem exists_fileParts (input : LayoutInput) (ordered : Builders) :
    ∃ tables pushed passed, FileParts input ordered tables pushed passed := by
  rcases @extends_tables input (input.symtabPlan ordered) (input.metaStart ordered) with
    ⟨tables, withTables, _, tables_of⟩
  generalize isStart : (if input.config.strip then input.metaStart ordered
    else (input.metaStart ordered).pushSymtab (input.symtabPlan ordered)) = start at withTables
  rw [show (input.metaStart ordered).sections = (input.placeAll ordered).placement.sections from
    input.sections_placement ordered] at withTables
  have cursor : input.fileCursor ordered = input.passthroughNames.foldl input.pushPassthrough
      (if input.keepsAny then input.pushRelas (input.symtabPlan ordered) start else start) := by
    rw [← isStart]
    rfl
  rcases @extends_passthroughs input
    (if input.keepsAny then input.pushRelas (input.symtabPlan ordered) start else start) with
    ⟨passed, withPassed, _, passed_of⟩
  have relocs := @emitRelocs_passthroughs input input.passthroughNames
    (if input.keepsAny then input.pushRelas (input.symtabPlan ordered) start else start)
  rw [← cursor] at withPassed relocs
  cases keeps : input.keepsAny with
  | false =>
      rw [keeps] at withPassed
      refine ⟨tables, [], passed, ?_, tables_of, passed_of,
        fun s absent => absurd absent List.not_mem_nil, fun impossible => ?_⟩
      · rw [withPassed, if_neg Bool.false_ne_true, withTables, List.append_assoc,
          List.nil_append]
      · rw [keeps] at impossible
        cases impossible
  | true =>
      rw [keeps, if_pos rfl] at withPassed relocs
      rcases @pushesRelas input (input.symtabPlan ordered) start start.sections.zipIdx with
        ⟨_, pushed, withPushed, only, all⟩
      refine ⟨tables, pushed, passed, ?_, tables_of, passed_of, fun s present => ⟨keeps, ?_⟩,
        fun _ place target isPlace isTarget => ?_⟩
      · rw [withPassed, pushRelas, withPushed, withTables, List.append_assoc, List.append_assoc]
      · rcases only s present with ⟨⟨target, place⟩, isNumbered, isTarget, _⟩
        have isPlace := List.mem_zipIdx_iff_getElem?.mp isNumbered
        refine ⟨target, ?_, isTarget⟩
        have inStart := List.mem_of_getElem? isPlace
        rw [withTables] at inStart
        rcases List.mem_append.mp inStart with isPlaced | isTable
        · exact isPlaced
        · have isInput := isTarget.1
          rcases tables_of target isTable with source | source | source
          · exact absurd (source.symm.trans isInput) (by decide)
          · exact absurd (source.symm.trans isInput) (by decide)
          · exact absurd (source.symm.trans isInput) (by decide)
      · rw [relocs]
        have inStart : start.sections[place]? = some target := by
          rw [withTables, List.getElem?_append_left (List.getElem?_eq_some_iff.mp isPlace).1,
            isPlace]
        exact all (target, place) (List.mem_zipIdx_iff_getElem?.mpr inStart) isTarget

/-! ## The sections whose relocations are kept -/

theorem contributionSection_of_holds {b : Builder} {member : Contributor}
    {c : SectionContribution} (isContributor : member ∈ input.contributors)
    (holds : Holds b member c) :
    input.contributionSection c = some (member.obj, member.sec) := by
  rcases mem_inputSections.mp (List.mem_filter.mp isContributor).1 with ⟨isObject, isSection⟩
  have sameObject : c.objectId = member.objId := congrArg Prod.fst holds.2.1
  rw [contributionSection, sameObject, isObject, holds.2.2.1]
  change (member.obj.sections[member.pos]? >>= fun sec => some (member.obj, sec)) = _
  rw [isSection]
  rfl

section Computed

variable {layout : Layout} (computed : Computed input layout)

include computed

theorem exists_member_of_target {s : OutputSection}
    (isPlaced : s ∈ (input.placeAll (input.ordered computed.pre)).placement.sections)
    (isTarget : input.IsTarget s) :
    ∃ first, input.Opens first ∧ (input.opened first).source = .input ∧
      ∃ member ∈ input.membersOf (input.outName first.sec.name), member.sec.relocs ≠ [] := by
  rcases Pairwise.exists_left (input.placeAll_of (input.ordered computed.pre)).sections
    isPlaced with ⟨raised, among, shAddr, rfl, _⟩
  rcases (input.classified_ordered computed.pre input.groups).exists_origin
    (groups_aligned computed.aligned) among with ⟨b, origin, align, rfl, _⟩
  rcases isTarget with ⟨isInput, _, some⟩
  rcases List.exists_mem_of_ne_nil _ some with ⟨⟨c, obj, reloc⟩, isKept⟩
  rcases List.mem_flatMap.mp isKept with ⟨own, isOwn, inOwn⟩
  have present : own ∈ b.contributions := isOwn
  rcases origin with isGroup | bare
  · rcases groups_held computed.aligned isGroup present with
      ⟨member, isContributor, holds, outName, _⟩
    rw [contributionSection_of_holds isContributor holds] at inOwn
    rcases opens_of_mem_groups isGroup with ⟨first, opens, _, _, _, rfl⟩
    refine ⟨first, opens, isInput, member, mem_membersOf.mpr ⟨isContributor, outName⟩, ?_⟩
    intro none
    dsimp only at inOwn
    rw [none] at inOwn
    exact absurd inOwn List.not_mem_nil
  · rw [bare.1] at present
    exact absurd present List.not_mem_nil

theorem exists_target_of_member {first member : Contributor} (opens : input.Opens first)
    (isInput : (input.opened first).source = .input)
    (among : member ∈ input.membersOf (input.outName first.sec.name))
    (some : member.sec.relocs ≠ []) :
    ∃ s ∈ (input.placeAll (input.ordered computed.pre)).placement.sections,
      input.IsTarget s := by
  rcases opens with ⟨rest, ofName⟩
  rw [ofName] at among
  have members : ∀ other ∈ first :: rest, other ∈ input.contributors := by
    intro other isOther
    rw [← ofName] at isOther
    exact (mem_membersOf.mp isOther).1
  have isGroup : input.grouping.collect first (first :: rest) ∈ input.groups := by
    refine mem_groups.mpr ⟨first, rest, ?_, rfl⟩
    rw [(collect_first first (first :: rest)).1]
    exact ofName
  rcases @collect_holds input first member _ among (fun other isOther =>
    computed.aligned other (members other isOther)) with ⟨c, holds⟩
  have powers := (input.classified_ordered computed.pre input.groups).tls_powers
    (groups_aligned computed.aligned)
  rcases exists_raised powers (mem_ordered.mpr (.inl isGroup)) with
    ⟨raised, isRaised, align, rfl, _⟩
  rcases Pairwise.exists_right (input.placeAll_of (input.ordered computed.pre)).sections
    isRaised with ⟨s, isPlaced, shAddr, rfl, _⟩
  refine ⟨_, isPlaced, ?_, groups_isAlloc isGroup, ?_⟩
  · have shape := @collect_shape input first (first :: rest)
    have source : (input.grouping.collect first (first :: rest)).source = .input := by
      rw [shape]
      exact isInput
    exact source
  · rcases List.exists_mem_of_ne_nil _ some with ⟨reloc, isReloc⟩
    refine @List.ne_nil_of_mem _ (c, member.obj, reloc) _
      (List.mem_flatMap.mpr ⟨c, holds.1, ?_⟩)
    rw [contributionSection_of_holds (members member among) holds]
    exact List.mem_map_of_mem isReloc

theorem exists_finished_at {place : Nat} {s : OutputSection}
    (found : (input.fileCursor (input.ordered computed.pre)).sections[place]? = some s) :
    ∃ finished, layout.outputSections[place]? = some finished ∧ s.Finished finished := by
  have pairs := input.finished_assemble computed.pre (input.ordered computed.pre)
    computed.entry
  rw [← computed.assembled] at pairs
  rcases List.getElem?_eq_some_iff.mp found with ⟨inRange, rfl⟩
  have length := pairs.length_eq
  rw [List.length_append, List.length_singleton] at length
  have inLayout : place < layout.outputSections.length := by omega
  have isFinished := pairs.get (by rw [List.length_append]; omega) inLayout
  rw [List.get_eq_getElem, List.get_eq_getElem, List.getElem_append_left inRange] at isFinished
  exact ⟨_, List.getElem?_eq_getElem inLayout, isFinished⟩

theorem exists_relaSection (keeps : input.keepsAny = true) {s : OutputSection}
    (isPlaced : s ∈ (input.placeAll (input.ordered computed.pre)).placement.sections)
    (isTarget : input.IsTarget s) :
    ∃ relaSection ∈ layout.outputSections, ∃ index, relaSection.source = .relaEmit index ∧
      layout.emitRelocs[index]? =
        some (input.relaBytes (input.symtabPlan (input.ordered computed.pre)) s) ∧
      ∃ target ∈ layout.outputSections, s.Finished target ∧
        target.shndx = relaSection.shInfo := by
  rcases exists_fileParts input (input.ordered computed.pre) with
    ⟨tables, pushed, passed, parts⟩
  rcases List.getElem?_of_mem isPlaced with ⟨place, isPlace⟩
  rcases parts.all keeps place s isPlace isTarget with
    ⟨before, isPushed, index, isRela, shInfo, isBlob⟩
  have inFile : before ∈ (input.fileCursor (input.ordered computed.pre)).sections := by
    rw [parts.sections]
    exact List.mem_append_right _ (List.mem_append_right _ (List.mem_append_left _ isPushed))
  rcases List.getElem?_of_mem inFile with ⟨own, isOwn⟩
  rcases exists_finished_at computed isOwn with ⟨relaSection, isRelaSection, isFinished⟩
  have isFirst : (input.fileCursor (input.ordered computed.pre)).sections[place]? = some s := by
    rw [parts.sections, List.getElem?_append_left (List.getElem?_eq_some_iff.mp isPlace).1,
      isPlace]
  rcases exists_finished_at computed isFirst with ⟨target, isTargetAt, finishes⟩
  have infos : relaSection.shInfo = before.shInfo := by
    have atPlace := isRelaSection
    rw [outputSections_eq computed] at atPlace
    exact shInfo_finishFile isOwn isRela atPlace
  have relocs : layout.emitRelocs =
      (input.fileCursor (input.ordered computed.pre)).emitRelocs :=
    congrArg Layout.emitRelocs computed.assembled
  refine ⟨relaSection, List.mem_of_getElem? isRelaSection, index,
    isFinished.source.trans isRela, relocs ▸ isBlob, target, List.mem_of_getElem? isTargetAt,
    finishes, ?_⟩
  rw [shndx_eq computed isTargetAt, infos, shInfo]

theorem exists_target_of_relaSection {relaSection : OutputSection}
    (present : relaSection ∈ layout.outputSections) {index : Nat}
    (isRela : relaSection.source = .relaEmit index) :
    input.keepsAny = true ∧
      ∃ s ∈ (input.placeAll (input.ordered computed.pre)).placement.sections,
        input.IsTarget s := by
  rcases exists_fileParts input (input.ordered computed.pre) with
    ⟨tables, pushed, passed, parts⟩
  rw [congrArg Layout.outputSections computed.assembled] at present
  rcases Pairwise.exists_left (input.finished_assemble _ _ _) present with
    ⟨before, among, isFinished⟩
  have source : before.source = .relaEmit index := isFinished.source.symm.trans isRela
  rw [parts.sections, List.mem_append, List.mem_append, List.mem_append, List.mem_append]
    at among
  rcases among with (isPlaced | isTable | isPushed | isPassed) | isNames
  · rw [← sections_placement] at isPlaced
    have isFile := isFileSource_placed isPlaced
    rw [source] at isFile
    cases isFile
  · rcases parts.tables_of before isTable with other | other | other
    · cases source.symm.trans other
    · cases source.symm.trans other
    · cases source.symm.trans other
  · exact parts.only before isPushed
  · cases source.symm.trans (parts.passed_of before isPassed)
  · rw [List.mem_singleton.mp isNames] at source
    cases source

/-- The address of a place is not its offset in the section. -/
theorem keepsNone_of_keepsRelocs (noWrap : input.NoWrap computed.pre)
    (kept : input.KeepsRelocs layout) : input.KeepsNone := by
  intro keeps first opens isInput member among
  by_contra some
  rcases exists_target_of_member computed opens isInput among some with
    ⟨s, isPlaced, isTarget⟩
  rcases exists_relaSection computed keeps isPlaced isTarget with
    ⟨relaSection, present, index, isRela, isBlob, target, isMember, isFinished, isInfo⟩
  have relocs : input.targetRelocs target = input.targetRelocs s := by
    rw [targetRelocs, targetRelocs, isFinished.contributions]
  have isLoaded : target.isLoaded = true := by
    rw [OutputSection.isLoaded, isFinished.shFlags]
    exact bne_iff_ne.mpr isTarget.2.1
  have positive := pos_of_isLoaded computed noWrap isMember isLoaded
  rcases List.exists_cons_of_ne_nil isTarget.2.2 with ⟨⟨c, obj, reloc⟩, rest, isList⟩
  generalize input.symtabPlan (input.ordered computed.pre) = plan at isBlob
  have read : Rela.format.readAt (layout.emitRelocs[index]?.getD []) 0 =
      Option.some (keptRela plan (c, obj, reloc)) := by
    have first := @RecordFormat.readAt_table _ _ Rela.format
      (keptRela plan (c, obj, reloc) :: rest.map (keptRela plan)) [] 0 (Nat.succ_pos _)
    rw [List.append_nil] at first
    rw [isBlob, Option.getD_some, relaBytes_eq, isList, List.map_cons]
    exact first
  rcases kept computed.pre computed.prebuilt relaSection present index isRela target isMember
    isInfo 0 _ read with ⟨_, _, _, isFirst, site, _⟩
  rw [relocs, isList] at isFirst
  cases isFirst
  have offsets : c.offset + reloc.offset = target.shAddr + c.offset + reloc.offset := site
  rw [UInt64.add_assoc] at offsets
  rw [UInt64.right_eq_add.mp offsets] at positive
  exact absurd positive (Nat.lt_irrefl 0)

end Computed

/-- The relocations that an output keeps are right if and only if it keeps none: their places
are offsets in the output section and not addresses. -/
theorem keepsRelocs_iff {input : LayoutInput}
    (noWrap : ∀ pre, input.prebuildDynamic = .ok pre → input.NoWrap pre)
    {layout : Layout} (succeeded : input.computeLayoutIcf = .ok layout) :
    input.KeepsRelocs layout ↔ input.KeepsNone := by
  rcases computed_of_ok succeeded with ⟨computed⟩
  constructor
  · exact keepsNone_of_keepsRelocs computed (noWrap computed.pre computed.prebuilt)
  · intro none pre _ relaSection present index isRela
    rcases exists_target_of_relaSection computed present isRela with
      ⟨keeps, s, isPlaced, isTarget⟩
    rcases exists_member_of_target computed isPlaced isTarget with
      ⟨first, opens, isInput, member, among, some⟩
    exact absurd (none keeps first opens isInput member among) some

/-! A program of one section, which refers to itself or to nothing. -/

private def selfSection (relocs : List InputReloc) : InputSection where
  index := 1
  name := nameOf ".text"
  kind := .text
  shType := shtProgbits
  data := ⟨.owned 0, 0, 8⟩
  align := 1
  size := 8
  flags := shfAlloc ||| shfExecinstr
  relocs := relocs

private def selfSymbol : InputSymbol where
  index := 1
  name := nameOf "_start"
  binding := .global
  isUndefined := false
  isCommon := false
  isIfunc := false
  stType := 2
  visibility := 0
  sectionIndex := some 1
  value := 0
  size := 8

private def selfObject (relocs : List InputReloc) : InputObject :=
  InputObject.assemble "self.o" 1 1 [selfSection relocs] [selfSymbol] []

private def selfInput (relocs : List InputReloc) : LayoutInput where
  arena := { mmaps := [], owned := [[0, 0, 0, 0, 0, 0, 0, 0]] }
  objects := [selfObject relocs]
  symbols :=
    match SymbolTable.processAll [⟨selfObject relocs, []⟩] with
    | .ok table => table
    | .error _ => SymbolTable.new
  config := { emitRelocs := true }

private def selfReloc : InputReloc := ⟨0, 1, 1, 0⟩

private theorem selfInput_noWrap {relocs : List InputReloc}
    (known : relocs = [] ∨ relocs = [selfReloc]) :
    ∀ pre, (selfInput relocs).prebuildDynamic = .ok pre → (selfInput relocs).NoWrap pre := by
  intro pre prebuilt
  have isPre : pre = {} := (Except.ok.inj prebuilt).symm
  subst isPre
  rcases known with rfl | rfl
  · exact noWrap_of_checked (by decide +kernel)
  · exact noWrap_of_checked (by decide +kernel)

theorem keepsRelocs_iff_without :
    ∃ layout, (selfInput []).computeLayoutIcf = .ok layout ∧
      (selfInput []).KeepsRelocs layout := by
  rcases @exists_layout (selfInput []) (by decide +kernel) with ⟨layout, computed⟩
  refine ⟨layout, computed,
    (keepsRelocs_iff (selfInput_noWrap (.inl rfl)) computed).mpr ?_⟩
  intro _ first _ _ member among
  have each : ∀ member ∈ inputSections (selfInput []).objects, member.sec.relocs = [] := by
    decide +kernel
  exact each member (List.mem_filter.mp (mem_membersOf.mp among).1).1

/-- The word that refers to the program has offset 0 in `.text` and no such address. -/
theorem selfReloc_not_kept :
    ∃ layout, (selfInput [selfReloc]).computeLayoutIcf = .ok layout ∧
      ¬ (selfInput [selfReloc]).KeepsRelocs layout := by
  rcases @exists_layout (selfInput [selfReloc]) (by decide +kernel) with ⟨layout, succeeded⟩
  rcases computed_of_ok succeeded with ⟨computed⟩
  refine ⟨layout, succeeded, fun kept => ?_⟩
  have none := keepsNone_of_keepsRelocs computed
    (selfInput_noWrap (.inr rfl) computed.pre computed.prebuilt) kept
  have isMember : (⟨0, selfObject [selfReloc], 0, selfSection [selfReloc]⟩ : Contributor) ∈
      (selfInput [selfReloc]).contributors :=
    List.mem_filter.mpr ⟨mem_inputSections.mpr ⟨rfl, rfl⟩, by decide +kernel⟩
  cases ofName : (selfInput [selfReloc]).membersOf
      ((selfInput [selfReloc]).outName (selfSection [selfReloc]).name) with
  | nil =>
      have among := mem_membersOf.mpr ⟨isMember, rfl⟩
      rw [ofName] at among
      exact absurd among List.not_mem_nil
  | cons first rest =>
      have isFirst := mem_membersOf.mp (ofName ▸ List.mem_cons_self)
      have opens : (selfInput [selfReloc]).Opens first := by
        refine ⟨rest, ?_⟩
        rw [isFirst.2, ofName]
      have isInput : ∀ member ∈ inputSections (selfInput [selfReloc]).objects,
          ((selfInput [selfReloc]).opened member).source = .input := by
        decide +kernel
      have relocs := none rfl first opens
        (isInput first (List.mem_filter.mp isFirst.1).1) _
        (mem_membersOf.mpr ⟨isMember, isFirst.2.symm⟩)
      cases relocs

end LayoutInput

end Peony
