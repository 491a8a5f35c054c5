import Peony.Driver.Exclusive
import Peony.Layout.Composition
import Peony.Load.Comdat

namespace Peony

/-! What the deduplication of COMDAT groups means for a link: which sections are kept, that
symbols lie in kept ones, and which of these have an address. -/

/-! ## The table that is laid out -/

namespace SymbolTable

namespace PointsNoMore

theorem modify (table : SymbolTable) (name : Name)
    {change : SymbolResolution → SymbolResolution}
    (keeps : ∀ entry, (change entry).definedIn = entry.definedIn ∧
      (change entry).sectionIndex = entry.sectionIndex) :
    PointsNoMore table (table.modify name change) := by
  rw [SymbolTable.modify]
  split
  · rename_i entry found
    exact put table (Or.inl ⟨entry, found, keeps entry⟩)
  · exact refl table

theorem ensureId (table : SymbolTable) (name : Name) :
    PointsNoMore table (table.ensureId name) := by
  rcases @ensureId_cases table name with ⟨same, _⟩ | ⟨entry, found, _, isPut⟩
  · rw [same]
    exact refl table
  · rw [isPut]
    exact put (table.pushName name) (Or.inl ⟨entry, found, rfl, rfl⟩)

theorem defineAbsolute (table : SymbolTable) (name : Name) (value : UInt64) :
    PointsNoMore table (table.defineAbsolute name value) :=
  put table (Or.inr (Or.inr rfl))

theorem registerLibrary (table : SymbolTable) (library : List SharedExport × String) :
    PointsNoMore table (TableRun.registerLibrary table library) := by
  refine foldl (fun table exported => ?_) library.1 table
  rw [registerSharedExport]
  split
  · rename_i entry found
    split
    · exact put (table.pushName exported.name) (Or.inl ⟨entry, found, rfl, rfl⟩)
    · exact refl table
  · exact refl table

end PointsNoMore

end SymbolTable

namespace Link

open SymbolTable

variable (link : Link)

theorem pointsNoMore_defined {symbols : SymbolTable} (defined : link.defined = some symbols) :
    PointsNoMore link.symbols symbols := by
  have numbered : PointsNoMore link.symbols link.numbered := by
    refine PointsNoMore.foldl (fun table obj => ?_) link.objects link.symbols
    refine PointsNoMore.foldl (fun table reloc => ?_) _ table
    rw [assignWeakGotId]
    split
    · split
      · split
        · exact PointsNoMore.ensureId _ _
        · exact PointsNoMore.refl table
      · exact PointsNoMore.refl table
    · exact PointsNoMore.refl table
  have copied : PointsNoMore link.numbered link.copied := by
    refine PointsNoMore.foldl (fun table name => ?_) _ _
    refine PointsNoMore.modify table name fun entry => ?_
    split <;> exact ⟨rfl, rfl⟩
  have indexed : PointsNoMore link.copied link.indexed := by
    refine PointsNoMore.foldl (fun table entry => ?_) _ _
    exact PointsNoMore.modify table _ fun _ => ⟨rfl, rfl⟩
  have predefined : PointsNoMore link.indexed link.predefined :=
    predefineLinkerSymbols_keeps
      (fun table name points => points.trans (PointsNoMore.defineAbsolute table name 0))
      (PointsNoMore.refl link.indexed)
  rcases Option.map_eq_some_iff.mp defined with ⟨parsed, _, rfl⟩
  have late : PointsNoMore link.predefined (defineAll link.predefined parsed) :=
    PointsNoMore.foldl (fun table (definition : Name × UInt64) =>
      PointsNoMore.defineAbsolute table definition.1 definition.2) parsed link.predefined
  exact (((numbered.trans copied).trans indexed).trans predefined).trans late

/-! ## Deduplication -/

structure GoesOn (resolver : Resolver) : Prop where
  objects : link.objects = resolver.objects
  symbols : ∃ libraries : List (List SharedExport × String),
    link.symbols = libraries.foldl TableRun.registerLibrary resolver.symbols
  live : ∃ collected script, link.live =
    (computeLive resolver.objects false collected resolver.excluded script).asFilter
  foldMap : ∀ foldMap, link.foldMap = some foldMap →
    foldMap = Icf.computeFoldMap link.arena link.objects

/-- Of the copies of a group one is kept, what the others have is excluded, no symbol lies
there, and the allocatable sections that symbols lie in have addresses. -/
structure Deduplicates (resolver : Resolver) (symbols : SymbolTable) (layout : Layout) :
    Prop where
  first : ∀ signature ≠ [], (∃ objId place group,
      IsCopy resolver.objects objId place group ∧ group.signature = signature) →
    ∃! position : Nat × Nat, ∃ group,
      IsCopy resolver.objects position.1 position.2 group ∧ group.signature = signature ∧
        ¬ IsLaterCopy resolver.objects position.1 position.2 group
  excluded : ∀ key, key ∈ resolver.excluded ↔ ∃ place group,
    IsLaterCopy resolver.objects key.1 place group ∧ key.2 ∈ group.members
  apart : ∀ name owner sectionIndex, resolver.symbols.PointsInto name owner sectionIndex →
    (owner.toNat, sectionIndex) ∉ resolver.excluded
  addressed : ∀ name owner sectionIndex, symbols.PointsInto name owner sectionIndex →
    ∀ member ∈ inputSections link.objects, member.label = (owner.toNat, sectionIndex) →
      isAllocatable member.sec = true →
        ∃ address, layout.addressOf owner.toNat sectionIndex = some address

/-- What a section that a symbol lies in is folded onto is emitted too, unless the section
is passed through to the file. -/
def FoldsOntoKept (symbols : SymbolTable) : Prop :=
  ∀ name owner sectionIndex, symbols.PointsInto name owner sectionIndex →
    ∀ member ∈ inputSections link.objects, member.label = (owner.toNat, sectionIndex) →
      isAllocatable member.sec = true →
        (∃ passed, (link.layoutInput symbols).IsPassedThrough passed ∧
          passed.label = member.label) ∨
        ∀ canon ∈ inputSections link.objects,
          (link.layoutInput symbols).foldsTo member.label = some canon.label →
            (link.layoutInput symbols).emits canon = true

section Few

variable {link : Link} {resolver : Resolver} {symbols : SymbolTable}
variable (deduplicated : resolver.Deduplicated)
variable (few : resolver.objects.length ≤ 2 ^ 32) (goesOn : link.GoesOn resolver)
variable (defined : link.defined = some symbols)

include deduplicated few goesOn defined

theorem emits_of_pointsInto {name : Name} {owner : ObjectId} {sectionIndex : Nat}
    (points : symbols.PointsInto name owner sectionIndex) {member : Contributor}
    (isMember : member ∈ inputSections link.objects)
    (label : member.label = (owner.toNat, sectionIndex))
    (allocatable : isAllocatable member.sec = true) :
    (link.layoutInput symbols).emits member = true := by
  rcases goesOn.symbols with ⟨libraries, imported⟩
  have early := link.pointsNoMore_defined defined name owner sectionIndex points
  rw [imported] at early
  have resolved := PointsNoMore.foldl PointsNoMore.registerLibrary libraries
    resolver.symbols name owner sectionIndex early
  rcases deduplicated.points_kept few resolved with
    ⟨⟨obj, isObject, sym, isSym, inSection⟩, kept⟩
  have isOwner : member.objId = owner.toNat := congrArg Prod.fst label
  have isSection : member.sec.index = sectionIndex := congrArg Prod.snd label
  have isObj : member.obj = obj := by
    have found := (mem_inputSections.mp isMember).1
    rw [goesOn.objects, isOwner, isObject, Option.some.injEq] at found
    exact found.symm
  have anchored : member.isAnchored = true := by
    rw [Icf.Place.isAnchored, List.any_eq_true, isObj, isSection]
    exact ⟨sym, isSym, beq_iff_eq.mpr inSection⟩
  have lives : link.live.emits member.label = true := by
    rcases goesOn.live with ⟨collected, script, isLive⟩
    rw [isLive, computeLive, if_neg Bool.false_ne_true, label]
    split
    · rfl
    · change (!decide (_ ∈ resolver.excluded.toFinset)) = true
      rw [Bool.not_eq_true', decide_eq_false_iff_not, List.mem_toFinset]
      exact kept
  change (link.layoutInput symbols).live.emits member.label = true at lives
  rw [LayoutInput.emits, allocatable, anchored, lives, Bool.not_true, Bool.and_false]
  rfl

theorem deduplicates_iff_of_few {layout : Layout}
    (parsed : ∀ obj ∈ resolver.objects, obj.Parsed)
    (succeeded : (link.layoutInput symbols).computeLayoutIcf = .ok layout) :
    link.Deduplicates resolver symbols layout ↔ link.FoldsOntoKept symbols := by
  rcases LayoutInput.computed_of_ok succeeded with ⟨computed⟩
  have isParsed : ∀ obj ∈ link.objects, obj.Parsed := by
    rw [goesOn.objects]
    exact parsed
  constructor
  · intro deduplicates name owner sectionIndex points member isMember label allocatable
    have isEmitted := emits_of_pointsInto deduplicated few goesOn defined points
      isMember label allocatable
    refine (LayoutInput.isSome_addressOf_iff isParsed computed goesOn.foldMap isMember
      isEmitted).mp ?_
    rcases deduplicates.addressed name owner sectionIndex points member isMember label
      allocatable with ⟨address, found⟩
    have sameLabel : layout.addressOf member.objId member.sec.index = some address :=
      (congrArg (fun key : SectionKey => layout.addressOf key.1 key.2) label).trans found
    rw [sameLabel]
    rfl
  · intro ontoKept
    refine ⟨fun signature named => existsUnique_first named,
      fun key => deduplicated.mem_excluded few,
      fun name owner sectionIndex points => (deduplicated.points_kept few points).2, ?_⟩
    intro name owner sectionIndex points member isMember label allocatable
    have isEmitted := emits_of_pointsInto deduplicated few goesOn defined points
      isMember label allocatable
    have found := (LayoutInput.isSome_addressOf_iff isParsed computed goesOn.foldMap
      isMember isEmitted).mpr (ontoKept name owner sectionIndex points member isMember label
        allocatable)
    rw [show layout.addressOf member.objId member.sec.index =
      layout.addressOf owner.toNat sectionIndex from
        congrArg (fun key : SectionKey => layout.addressOf key.1 key.2) label] at found
    exact Option.isSome_iff_exists.mp found

end Few

/-- With at most `2 ^ 32` objects deduplication is safe just when no section that a symbol
lies in is folded onto an excluded one, and with more of them it is safe only if the later
copies are in the first `2 ^ 32`. -/
theorem deduplicates_iff (link : Link) (resolver : Resolver) (symbols : SymbolTable)
    (layout : Layout) (reachable : resolver.Reachable)
    (parsed : ∀ obj ∈ resolver.objects, obj.Parsed) (goesOn : link.GoesOn resolver)
    (defined : link.defined = some symbols)
    (succeeded : (link.layoutInput symbols).computeLayoutIcf = .ok layout) :
    (resolver.objects.length ≤ 2 ^ 32 →
      (link.Deduplicates resolver symbols layout ↔ link.FoldsOntoKept symbols)) ∧
    (link.Deduplicates resolver symbols layout → ∀ objId place group,
      IsLaterCopy resolver.objects objId place group → group.members ≠ [] →
        objId < 2 ^ 32) := by
  have deduplicated := reachable.deduplicated
  refine ⟨fun few => ?_, fun deduplicates objId place group isLater members => ?_⟩
  · exact deduplicates_iff_of_few deduplicated few goesOn defined parsed succeeded
  · rcases List.exists_mem_of_ne_nil group.members members with ⟨member, isMember⟩
    have isExcluded := (deduplicates.excluded (objId, member)).mpr
      ⟨place, group, isLater, isMember⟩
    rcases deduplicated.mem_excluded_mod.mp isExcluded with ⟨_, _, _, _, wrapped, _⟩
    exact wrapped.trans_lt (Nat.mod_lt _ (by decide))

/-! ### A copy that is excluded and folded onto

Two objects have different copies of a function, and the second has a function of its own
with the bytes of the copy that it loses. -/

private def copyArena : InputArena where
  mmaps := []
  owned := [[0x31, 0xc0, 0xc3], [0xb0, 1, 0xc3], [0xc3], []]

private def copySection (index : Nat) (name : String) (owned len : UInt32) : InputSection where
  index := index
  name := nameOf name
  kind := .text
  shType := 1
  data := ⟨.owned owned, 0, len⟩
  align := 1
  size := len.toUInt64
  flags := 6
  relocs := []

/-- The table by which an object says which symbols have significant addresses: none. -/
private def addrsigSection (index : Nat) : InputSection where
  index := index
  name := nameOf ".llvm_addrsig"
  kind := .other
  shType := Icf.shtLlvmAddrsig
  data := ⟨.owned 3, 0, 0⟩
  align := 1
  size := 0
  flags := 0
  relocs := []

private def copySymbol (index : Nat) (name : String) (sectionIndex : Nat) : InputSymbol where
  index := index
  name := nameOf name
  binding := .global
  isUndefined := false
  isCommon := false
  isIfunc := false
  stType := 2
  visibility := 2
  sectionIndex := some sectionIndex
  value := 0
  size := 3

private def firstCopy : InputObject :=
  InputObject.assemble "first.o" 3 2
    [copySection 1 ".text.f" 0 3, copySection 2 ".text._start" 2 1, addrsigSection 3]
    [copySymbol 1 "f" 1, copySymbol 2 "_start" 2] [⟨nameOf "f", [1]⟩]

private def laterCopy : InputObject :=
  InputObject.assemble "later.o" 3 2
    [copySection 1 ".text.f" 1 3, copySection 2 ".text.g" 1 3, addrsigSection 3]
    [copySymbol 1 "f" 1, copySymbol 2 "g" 2] [⟨nameOf "f", [1]⟩]

private def copiesResolver : Resolver :=
  match Resolver.empty.resolveAll [firstCopy, laterCopy] with
  | .ok resolver => resolver
  | .error _ => Resolver.empty

def copiesLink (icf : Bool) : Link where
  args := {}
  baseAddress := 0x400000
  arena := copyArena
  objects := copiesResolver.objects
  symbols := copiesResolver.symbols
  live := (computeLive copiesResolver.objects false
    (gcSectionsRootedWithStats copiesResolver.objects copiesResolver.symbols
      (nameOf "_start") false) copiesResolver.excluded none).asFilter
  foldMap := if icf then some (Icf.computeFoldMap copyArena copiesResolver.objects) else none

private theorem copies_reachable : copiesResolver.Reachable := by
  have stable : Resolver.Stable Resolver.Reachable :=
    fun reachable resolved => reachable.resolve _ resolved
  rw [copiesResolver]
  split
  · rename_i resolver resolved
    exact stable.resolveAll Resolver.Reachable.empty resolved
  · exact Resolver.Reachable.empty

private theorem copies_objects : copiesResolver.objects = [firstCopy, laterCopy] := rfl

private theorem copies_parsed : ∀ obj ∈ copiesResolver.objects, obj.Parsed := by
  intro obj present
  rw [copies_objects, List.mem_cons, List.mem_singleton] at present
  rcases present with rfl | rfl <;>
    exact InputObject.assemble_parsed _ _ _ _ _ _ (by decide) (by decide)
      (by decide) (by decide)

private theorem copies_goesOn (icf : Bool) : (copiesLink icf).GoesOn copiesResolver where
  objects := rfl
  symbols := ⟨[], rfl⟩
  live := ⟨gcSectionsRootedWithStats copiesResolver.objects copiesResolver.symbols
    (nameOf "_start") false, none, rfl⟩
  foldMap foldMap isMap := by
    cases icf with
    | false => exact nomatch isMap
    | true => exact (Option.some.inj isMap).symm

def copiesTable : SymbolTable := defineAll (copiesLink false).predefined []

private theorem copies_layout (icf : Bool) : ∃ layout,
    ((copiesLink icf).layoutInput copiesTable).computeLayoutIcf = .ok layout :=
  LayoutInput.exists_layout (by cases icf <;> decide +kernel)

theorem deduplicates_copies : ∃ layout,
    ((copiesLink false).layoutInput copiesTable).computeLayoutIcf = .ok layout ∧
      (copiesLink false).Deduplicates copiesResolver copiesTable layout := by
  rcases copies_layout false with ⟨layout, computed⟩
  refine ⟨layout, computed, (deduplicates_iff (copiesLink false) copiesResolver copiesTable
    layout copies_reachable copies_parsed (copies_goesOn false) rfl computed).1 ?_ |>.mpr ?_⟩
  · rw [copies_objects]
    decide
  · intro name owner sectionIndex _ member _ _ _
    exact Or.inr fun canon _ impossible => nomatch impossible

/-- The function that is folded onto the excluded copy has no address. -/
theorem copies_not_deduplicates : copiesResolver.Reachable ∧
    (∀ obj ∈ copiesResolver.objects, obj.Parsed) ∧
    (copiesLink true).GoesOn copiesResolver ∧
    (copiesLink true).defined = some copiesTable ∧
    ∃ layout, ((copiesLink true).layoutInput copiesTable).computeLayoutIcf = .ok layout ∧
      ¬ (copiesLink true).Deduplicates copiesResolver copiesTable layout := by
  rcases copies_layout true with ⟨layout, computed⟩
  refine ⟨copies_reachable, copies_parsed, copies_goesOn true, rfl, layout, computed,
    fun holds => ?_⟩
  have isMember : (⟨1, laterCopy, 1, copySection 2 ".text.g" 1 3⟩ : Contributor) ∈
      inputSections (copiesLink true).objects := by
    rw [show (copiesLink true).objects = [firstCopy, laterCopy] from copies_objects]
    exact mem_inputSections.mpr ⟨rfl, rfl⟩
  have points : copiesTable.PointsInto (nameOf "g") 1 2 := ⟨_, rfl, rfl, rfl⟩
  rcases holds.addressed _ _ _ points _ isMember rfl rfl with ⟨address, found⟩
  have unplaced : ((copiesLink true).layoutInput copiesTable).computeLayoutIcf.toOption.bind
      (fun layout => layout.addressOf 1 2) = none := by decide +kernel
  rw [computed] at unplaced
  exact nomatch unplaced.symm.trans found

end Link

end Peony
