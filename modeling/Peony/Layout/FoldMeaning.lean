import Mathlib.Data.List.Forall2
import Peony.Layout.Icf

namespace Peony

/-! What a fold must preserve: the canonical section stands for the duplicate
only if both hold the same bytes and every relocation of one designates the
definition that the relocation of the other designates. -/

structure ParsedObject extends InputObject where
  distinct : (sections.map InputSection.index).Nodup

namespace Icf

/-! ## Sections of a link -/

structure Place where
  objId : Nat
  obj : InputObject
  pos : Nat
  sec : InputSection

namespace Place

/-- How the fold map names a section. -/
def label (place : Place) : Nat × Nat := (place.objId, place.sec.index)

def position (place : Place) : Nat × Nat × Nat :=
  (place.objId, place.pos, place.sec.index)

def key (arena : InputArena) (taint : AddrTaint) (place : Place) :
    Option FoldKey :=
  foldKeyFor arena place.obj place.objId place.pos taint

def bytes (arena : InputArena) (place : Place) : List UInt8 :=
  arena.bytes place.sec.data

def sameBytes (arena : InputArena) (left right : Place) : Bool :=
  left.bytes arena == right.bytes arena

end Place

def placesOf (objId : Nat) (obj : InputObject) : List Place :=
  obj.sections.zipIdx.map fun (sec, pos) => ⟨objId, obj, pos, sec⟩

/-- All sections of a link, in the order the fold visits them. -/
def places (objects : List InputObject) : List Place :=
  objects.zipIdx.flatMap fun (obj, objId) => placesOf objId obj

theorem mem_places {objects : List InputObject} {place : Place} :
    place ∈ places objects ↔
      objects[place.objId]? = some place.obj ∧
        place.obj.sections[place.pos]? = some place.sec := by
  obtain ⟨objId, obj, pos, sec⟩ := place
  simp only [places, placesOf, List.mem_flatMap, List.mem_map, Prod.exists,
    Place.mk.injEq, List.mem_zipIdx_iff_getElem?]
  constructor
  · rintro ⟨obj', objId', found, sec', pos', inside, rfl, rfl, rfl, rfl⟩
    exact ⟨found, inside⟩
  · rintro ⟨found, inside⟩
    exact ⟨obj, objId, found, sec, pos, inside, rfl, rfl, rfl, rfl⟩

theorem label_nodup_placesOf (objId : Nat) (object : ParsedObject) :
    ((placesOf objId object.toInputObject).map Place.label).Nodup := by
  have labels : (placesOf objId object.toInputObject).map Place.label =
      object.sections.map fun sec => (objId, sec.index) := by
    simp only [placesOf, List.map_map]
    conv_rhs => rw [← List.zipIdx_map_fst 0 object.sections, List.map_map]
    rfl
  have paired := object.distinct.map (f := fun index => (objId, index))
    fun left right equal => (Prod.mk.inj equal).2
  rw [List.map_map] at paired
  rw [labels]
  exact paired

/-- No two sections of a link share a label. -/
theorem label_nodup_places (objects : List ParsedObject) :
    ((places (objects.map ParsedObject.toInputObject)).map
      Place.label).Nodup := by
  rw [places, List.map_flatMap, List.nodup_flatMap]
  constructor
  · rintro ⟨obj, objId⟩ member
    rw [List.mem_zipIdx_iff_getElem?, List.getElem?_map,
      Option.map_eq_some_iff] at member
    obtain ⟨object, -, rfl⟩ := member
    exact label_nodup_placesOf objId object
  · have distinctIds : (List.zipIdx (objects.map
        ParsedObject.toInputObject)).Pairwise
          fun left right => left.2 ≠ right.2 := by
      apply List.pairwise_map.mp
      rw [List.zipIdx_map_snd]
      exact List.nodup_range'
    refine distinctIds.imp fun {left right} different => ?_
    intro label leftMember rightMember
    obtain ⟨leftPlace, leftPlaced, leftLabel⟩ := List.mem_map.mp leftMember
    obtain ⟨rightPlace, rightPlaced, rightLabel⟩ := List.mem_map.mp rightMember
    obtain ⟨⟨leftSec, leftPos⟩, -, rfl⟩ := List.mem_map.mp leftPlaced
    obtain ⟨⟨rightSec, rightPos⟩, -, rfl⟩ := List.mem_map.mp rightPlaced
    exact different (congrArg Prod.fst (leftLabel.trans rightLabel.symm))

/-! ## The fold map as a choice of representatives -/

section Run

variable (arena : InputArena) (objects : List InputObject)

def representatives (visited : List Place) :
    Representatives.State Place FoldKey (Nat × Nat) :=
  Representatives.run (Place.key arena (addressTaint arena objects))
    (Place.sameBytes arena) Place.label visited

structure Chooses (state : FoldState)
    (chosen : Representatives.State Place FoldKey (Nat × Nat)) : Prop where
  canonical : ∀ key, state.canonical.lookup key =
    (chosen.canonical.lookup key).map Place.position
  folds : state.folds = chosen.folds
  placed : ∀ key place, chosen.canonical.lookup key = some place →
    place ∈ places objects

variable {arena objects}

theorem bytesAt_place {place : Place} (member : place ∈ places objects) :
    bytesAt arena objects place.objId place.pos = some (place.bytes arena) := by
  obtain ⟨found, inside⟩ := mem_places.mp member
  simp [bytesAt, found, inside, Place.bytes]

theorem Chooses.foldSection {state : FoldState}
    {chosen : Representatives.State Place FoldKey (Nat × Nat)}
    (chooses : Chooses objects state chosen) {place : Place}
    (member : place ∈ places objects) :
    Chooses objects
      (Icf.foldSection arena objects (addressTaint arena objects)
        place.objId place.obj state place.pos)
      (Representatives.visit
        (Place.key arena (addressTaint arena objects))
        (Place.sameBytes arena) Place.label chosen place) := by
  obtain ⟨-, inside⟩ := mem_places.mp member
  unfold Icf.foldSection Representatives.visit
  rw [inside]
  cases keyed : Place.key arena (addressTaint arena objects) place with
  | none =>
      rw [Place.key] at keyed
      simpa [keyed] using chooses
  | some key =>
      rw [Place.key] at keyed
      simp only [keyed, chooses.canonical]
      cases known : chosen.canonical.lookup key with
      | none =>
          refine ⟨fun other => ?_, chooses.folds, fun other found => ?_⟩
          · by_cases equal : other = key
            · subst equal
              simp [Place.position]
            · simp [AList.lookup_insert_ne equal, chooses.canonical]
          · by_cases equal : other = key
            · subst equal
              simpa using fun equal => equal ▸ member
            · simpa [AList.lookup_insert_ne equal] using
                chooses.placed other found
      | some representative =>
          have placed := chooses.placed key representative known
          simp only [Option.map_some, Place.position, bytesAt_place member,
            bytesAt_place placed, Option.some.injEq, Place.sameBytes,
            beq_iff_eq]
          split
          · exact ⟨chooses.canonical, by
              simp [chooses.folds, Place.label], chooses.placed⟩
          · exact chooses

theorem chooses_foldl {state : FoldState}
    {chosen : Representatives.State Place FoldKey (Nat × Nat)}
    (chooses : Chooses objects state chosen) (visited : List Place)
    (members : ∀ place ∈ visited, place ∈ places objects) :
    Chooses objects
      (visited.foldl
        (fun state place => Icf.foldSection arena objects
          (addressTaint arena objects) place.objId place.obj state place.pos)
        state)
      (visited.foldl
        (Representatives.visit (Place.key arena (addressTaint arena objects))
          (Place.sameBytes arena) Place.label)
        chosen) := by
  induction visited generalizing state chosen with
  | nil => exact chooses
  | cons place rest induction =>
      exact induction (chooses.foldSection (members place (by simp)))
        fun other member => members other (by simp [member])

end Run

theorem foldObject_eq (arena : InputArena) (objects : List InputObject)
    (taint : AddrTaint) (state : FoldState) (objId : Nat) (obj : InputObject) :
    foldObject arena objects taint state objId obj =
      (placesOf objId obj).foldl
        (fun state place => foldSection arena objects taint place.objId
          place.obj state place.pos) state := by
  rw [foldObject, placesOf, List.foldl_map, List.range_eq_range',
    ← List.zipIdx_map_snd 0 obj.sections, List.foldl_map]

theorem computeFoldMap_eq (arena : InputArena) (objects : List InputObject) :
    computeFoldMap arena objects =
      (representatives arena objects (places objects)).folds := by
  have flat : computeFoldMap arena objects =
      ((places objects).foldl
        (fun state place => foldSection arena objects
          (addressTaint arena objects) place.objId place.obj state place.pos)
        (⟨∅, ∅⟩ : FoldState)).folds := by
    simp only [computeFoldMap, places, List.foldl_flatMap, foldObject_eq]
  rw [flat]
  exact (chooses_foldl ⟨fun _ => rfl, rfl, fun _ _ found => by cases found⟩
    (places objects) fun _ member => member).folds

/-! ## Meaning -/

/-- What a relocation target designates: a global resolution, known by its
name, or a place in a section of its own object. -/
inductive Designation where
  | resolution (name : Name)
  | place (objId : Nat) (sectionIndex : Option Nat) (value : UInt64)
deriving DecidableEq

def designates (objId : Nat) (sym : InputSymbol) : Designation :=
  if sym.binding = Binding.local then
    .place objId sym.sectionIndex sym.value
  else .resolution sym.name

def Place.designated (place : Place) (reloc : InputReloc) :
    Option Designation :=
  (place.obj.symbolByIndex reloc.symbol).map (designates place.objId)

structure SameReloc (dup canon : Place) (left right : InputReloc) : Prop where
  offset : left.offset = right.offset
  rType : left.rType = right.rType
  addend : left.addend = right.addend
  target : ∃ designation, dup.designated left = some designation ∧
    canon.designated right = some designation

structure SameMeaning (arena : InputArena) (dup canon : Place) : Prop where
  bytes : dup.bytes arena = canon.bytes arena
  flags : dup.sec.flags = canon.sec.flags
  relocs : List.Forall₂ (SameReloc dup canon) dup.sec.relocs canon.sec.relocs

/-- Every fold puts in the place of a section one with the same meaning. A
label names one section, as the sections of an object have distinct indices. -/
def FoldsPreserveMeaning (arena : InputArena) (objects : List ParsedObject) :
    Prop :=
  let objs := objects.map ParsedObject.toInputObject
  ∀ dup canon, (computeFoldMap arena objs).lookup dup = some canon →
    ∃ dupPlace ∈ places objs, ∃ canonPlace ∈ places objs,
      dupPlace.label = dup ∧ canonPlace.label = canon ∧
        SameMeaning arena dupPlace canonPlace

/-! ## What the fold key guarantees -/

/-- `canon` is the first section with the fold key of `dup`, another one, and
holds the same bytes. -/
def FoldsOnto (arena : InputArena) (objects : List InputObject)
    (dup canon : Place) : Prop :=
  Representatives.Folded (Place.key arena (addressTaint arena objects))
    (Place.sameBytes arena) (places objects) dup canon

def Place.localTarget (place : Place) (reloc : InputReloc) :
    Option (Nat × Option Nat × UInt64) :=
  (place.obj.symbolByIndex reloc.symbol).bind fun sym =>
    if sym.binding = Binding.local then
      some (place.objId, sym.sectionIndex, sym.value)
    else none

def LocalTargetsAgree (dup canon : Place) : Prop :=
  List.Forall₂
    (fun left right => dup.localTarget left = canon.localTarget right)
    dup.sec.relocs canon.sec.relocs

structure SameRelocKey (dup canon : Place) (left right : InputReloc) :
    Prop where
  offset : left.offset = right.offset
  rType : left.rType = right.rType
  addend : left.addend = right.addend
  name : ∃ name, relocTargetName dup.obj left.symbol = some name ∧
    relocTargetName canon.obj right.symbol = some name

theorem relocKeys_cons {obj : InputObject} {reloc : InputReloc}
    {rest : List InputReloc} {keys : List (UInt64 × UInt32 × Int64 × Name)}
    (keyed : relocKeys obj (reloc :: rest) = some keys) :
    ∃ name restKeys, relocTargetName obj reloc.symbol = some name ∧
      relocKeys obj rest = some restKeys ∧
      keys = (reloc.offset, reloc.rType, reloc.addend, name) :: restKeys := by
  simp only [relocKeys, List.mapM_cons, Option.bind_eq_bind,
    Option.bind_eq_some_iff, Option.pure_def, Option.some.injEq] at keyed
  obtain ⟨entry, ⟨name, named, rfl⟩, restKeys, restKeyed, rfl⟩ := keyed
  exact ⟨name, restKeys, named, restKeyed, rfl⟩

theorem sameRelocKeys {dup canon : Place} {left right : List InputReloc}
    {keys : List (UInt64 × UInt32 × Int64 × Name)}
    (leftKeyed : relocKeys dup.obj left = some keys)
    (rightKeyed : relocKeys canon.obj right = some keys) :
    List.Forall₂ (SameRelocKey dup canon) left right := by
  induction left generalizing right keys with
  | nil =>
      obtain rfl : [] = keys := by simpa [relocKeys] using leftKeyed
      cases right with
      | nil => exact .nil
      | cons reloc rest =>
          obtain ⟨_, _, -, -, impossible⟩ := relocKeys_cons rightKeyed
          cases impossible
  | cons leftReloc leftRest induction =>
      obtain ⟨name, restKeys, leftNamed, leftRestKeyed, rfl⟩ :=
        relocKeys_cons leftKeyed
      cases right with
      | nil => simp [relocKeys] at rightKeyed
      | cons rightReloc rightRest =>
          obtain ⟨rightName, rightKeys, rightNamed, rightRestKeyed, equal⟩ :=
            relocKeys_cons rightKeyed
          simp only [List.cons.injEq, Prod.mk.injEq] at equal
          obtain ⟨⟨offset, rType, addend, rfl⟩, rfl⟩ := equal
          exact .cons ⟨offset, rType, addend, name, leftNamed, rightNamed⟩
            (induction leftRestKeyed rightRestKeyed)

theorem key_fields {arena : InputArena} {objects : List InputObject}
    {taint : AddrTaint} {place : Place} {key : FoldKey}
    (member : place ∈ places objects)
    (keyed : place.key arena taint = some key) :
    key.flags = place.sec.flags ∧
      relocKeys place.obj place.sec.relocs = some key.relocs := by
  obtain ⟨-, inside⟩ := mem_places.mp member
  simp only [Place.key, foldKeyFor, inside, Option.bind_eq_bind,
    Option.bind_some] at keyed
  split at keyed
  · cases keyed
  · split at keyed
    · cases keyed
    · obtain ⟨relocs, relocsKeyed, built⟩ := Option.bind_eq_some_iff.mp keyed
      obtain rfl := Option.some.inj built
      exact ⟨rfl, relocsKeyed⟩

theorem FoldsOnto.keys {arena : InputArena} {objects : List InputObject}
    {dup canon : Place} (folds : FoldsOnto arena objects dup canon) :
    dup.bytes arena = canon.bytes arena ∧ dup.sec.flags = canon.sec.flags ∧
      List.Forall₂ (SameRelocKey dup canon) dup.sec.relocs
        canon.sec.relocs := by
  obtain ⟨key, dupKeyed, first⟩ := folds.keyed
  have canonMember := Representatives.first_mem first
  have canonKeyed := Representatives.key_of_first first
  obtain ⟨dupFlags, dupRelocs⟩ := key_fields folds.member dupKeyed
  obtain ⟨canonFlags, canonRelocs⟩ := key_fields canonMember canonKeyed
  exact ⟨by simpa [Place.sameBytes] using folds.equal,
    dupFlags.symm.trans canonFlags, sameRelocKeys dupRelocs canonRelocs⟩

/-! ## When folding preserves meaning -/

theorem sameReloc_iff {dup canon : Place} {left right : InputReloc}
    (keys : SameRelocKey dup canon left right) :
    SameReloc dup canon left right ↔
      dup.localTarget left = canon.localTarget right := by
  obtain ⟨offset, rType, addend, name, leftNamed, rightNamed⟩ := keys
  obtain ⟨leftSym, leftFound, leftName⟩ := Option.map_eq_some_iff.mp leftNamed
  obtain ⟨rightSym, rightFound, rightName⟩ :=
    Option.map_eq_some_iff.mp rightNamed
  have targets : SameReloc dup canon left right ↔
      designates dup.objId leftSym = designates canon.objId rightSym := by
    constructor
    · intro same
      obtain ⟨designation, leftTo, rightTo⟩ := same.target
      simp only [Place.designated, leftFound, rightFound, Option.map_some,
        Option.some.injEq] at leftTo rightTo
      rw [leftTo, rightTo]
    · intro equal
      exact ⟨offset, rType, addend, designates dup.objId leftSym,
        by simp [Place.designated, leftFound],
        by simp [Place.designated, rightFound, equal]⟩
  rw [targets, Place.localTarget, Place.localTarget, leftFound, rightFound]
  by_cases leftLocal : leftSym.binding = Binding.local <;>
    by_cases rightLocal : rightSym.binding = Binding.local <;>
      simp [designates, leftLocal, rightLocal, leftName, rightName]

theorem FoldsOnto.sameMeaning_iff {arena : InputArena}
    {objects : List InputObject} {dup canon : Place}
    (folds : FoldsOnto arena objects dup canon) :
    SameMeaning arena dup canon ↔ LocalTargetsAgree dup canon := by
  obtain ⟨bytes, flags, keys⟩ := folds.keys
  constructor
  · intro same
    exact List.Forall₂.mp (fun _ _ key => (sameReloc_iff key).mp) keys
      same.relocs
  · intro agree
    exact ⟨bytes, flags,
      List.Forall₂.mp (fun _ _ key => (sameReloc_iff key).mpr) keys agree⟩

/-- Folding preserves meaning exactly when no two sections that fold together
differ in the local symbols their relocations target. -/
theorem foldsPreserveMeaning_iff (arena : InputArena)
    (objects : List ParsedObject) :
    FoldsPreserveMeaning arena objects ↔
      ∀ dup canon,
        FoldsOnto arena (objects.map ParsedObject.toInputObject) dup canon →
          LocalTargetsAgree dup canon := by
  have distinct := label_nodup_places objects
  unfold FoldsPreserveMeaning
  simp only [computeFoldMap_eq]
  constructor
  · intro preserves dup canon folds
    have canonMember : canon ∈ places
        (objects.map ParsedObject.toInputObject) := by
      obtain ⟨_, -, first⟩ := folds.keyed
      exact Representatives.first_mem first
    obtain ⟨dup', dupMember', canon', canonMember', dupLabel, canonLabel,
      same⟩ := preserves dup.label canon.label
        (Representatives.lookup_of_folded distinct folds)
    obtain rfl := List.inj_on_of_nodup_map distinct dupMember' folds.member
      dupLabel
    obtain rfl := List.inj_on_of_nodup_map distinct canonMember' canonMember
      canonLabel
    exact folds.sameMeaning_iff.mp same
  · intro agree dup canon recorded
    obtain ⟨dupPlace, canonPlace, dupLabel, canonLabel, folds⟩ :=
      Representatives.folded_of_lookup _ distinct.of_map recorded
    obtain ⟨_, -, first⟩ := folds.keyed
    exact ⟨dupPlace, folds.member, canonPlace,
      Representatives.first_mem first, dupLabel, canonLabel,
      (FoldsOnto.sameMeaning_iff folds).mpr (agree _ _ folds)⟩

/-! Two objects, each with a local function that calls its own static helper
`h`. The callers are equal byte for byte; the helpers are not. -/

private def callerArena : InputArena where
  mmaps := []
  owned := [[0xe8, 0, 0, 0, 0, 0xc3], [0x90, 0xc3], [0xcc, 0xc3], []]

private def codeSection (index : Nat) (owned len : UInt32)
    (relocs : List InputReloc) : InputSection where
  index := index
  name := [46, 116, 101, 120, 116]
  kind := .text
  shType := 1
  data := ⟨.owned owned, 0, len⟩
  align := 1
  size := len.toUInt64
  flags := 6
  relocs := relocs

private def localSymbol (index : Nat) (name : Name) (sectionIndex : Nat) :
    InputSymbol where
  index := index
  name := name
  binding := Binding.local
  isUndefined := false
  isCommon := false
  isIfunc := false
  stType := 2
  visibility := 0
  sectionIndex := some sectionIndex
  value := 0
  size := 2

/-- An object with an empty `.llvm_addrsig` table, so nothing in it is
address-significant. -/
private def callerObject (helper : UInt32) : ParsedObject where
  path := ""
  sections :=
    [codeSection 1 0 6 [⟨1, 4, 1, -4⟩], codeSection 2 helper 2 [],
      { codeSection 3 3 0 [] with kind := .other, shType := shtLlvmAddrsig }]
  symbols := [localSymbol 1 [104] 2]
  sectionMap := .sparse ∅
  symbolMap := (default : IndexLookup).insert 1 0
  comdatGroups := []
  distinct := by simp [codeSection]

private def callerPlace (objId : Nat) (helper : UInt32) : Place where
  objId := objId
  obj := (callerObject helper).toInputObject
  pos := 0
  sec := codeSection 1 0 6 [⟨1, 4, 1, -4⟩]

/-- The second caller is folded onto the first, which calls another helper. -/
theorem callers_not_foldsPreserveMeaning :
    ¬ FoldsPreserveMeaning callerArena [callerObject 1, callerObject 2] := by
  intro preserves
  have folded : (computeFoldMap callerArena
      [(callerObject 1).toInputObject,
        (callerObject 2).toInputObject]).lookup (1, 1) = some (0, 1) := by
    decide
  obtain ⟨dup, dupMember, canon, canonMember, dupLabel, canonLabel, same⟩ :=
    preserves (1, 1) (0, 1) folded
  have distinct := label_nodup_places [callerObject 1, callerObject 2]
  have dupPlace : callerPlace 1 2 ∈ places
      ([callerObject 1, callerObject 2].map ParsedObject.toInputObject) :=
    mem_places.mpr ⟨rfl, rfl⟩
  have canonPlace : callerPlace 0 1 ∈ places
      ([callerObject 1, callerObject 2].map ParsedObject.toInputObject) :=
    mem_places.mpr ⟨rfl, rfl⟩
  obtain rfl := List.inj_on_of_nodup_map distinct dupMember dupPlace dupLabel
  obtain rfl := List.inj_on_of_nodup_map distinct canonMember canonPlace
    canonLabel
  cases same.relocs with
  | cons call _ =>
      obtain ⟨designation, dupTo, canonTo⟩ := call.target
      have apart : (callerPlace 1 2).designated ⟨1, 4, 1, -4⟩ ≠
          (callerPlace 0 1).designated ⟨1, 4, 1, -4⟩ := by decide
      exact apart (dupTo.trans canonTo.symm)

end Icf

end Peony
