import Peony.Gc.Traversal
import Peony.Layout.FoldMeaning
import Peony.Symbols.Resolution

namespace Peony

/-! Whose addresses a link can observe, which of these uses the fold takes note
of, and when no section with an observed address is folded. -/

namespace Icf

/-! ## Uses of an address -/

def addrsigTable (arena : InputArena) (obj : InputObject) : Option (List Nat) :=
  (obj.sections.find? fun sec => sec.shType == shtLlvmAddrsig).bind fun sec =>
    addrsigPositions obj (arena.bytes sec.data).length (arena.bytes sec.data)

def rX8664Plt32 : UInt32 := 4

/-- A way in which the address of a definition can be observed. -/
inductive AddressUse where
  /-- The table of an object lists the symbol. -/
  | listed (objId : Nat) (sym : InputSymbol)
  /-- A relocation of an object goes through the symbol. -/
  | referenced (objId : Nat) (reloc : InputReloc) (sym : InputSymbol)
  /-- The output exports the name. -/
  | exported (name : Name)

/-- The use is one of the definition in the section. `exports` chooses among the
symbols that can be exported. -/
inductive Observes (arena : InputArena) (objects : List InputObject)
    (symbols : SymbolTable) (exports : Name → Bool) :
    AddressUse → SectionKey → Prop where
  | listed {objId pos : Nat} {obj : InputObject} {positions : List Nat}
      {sym : InputSymbol} {key : SectionKey} :
      objects[objId]? = some obj → addrsigTable arena obj = some positions →
      pos ∈ positions → obj.symbols[pos]? = some sym →
      GcObjectTargets.symbolTarget objId sym symbols = some key →
      Observes arena objects symbols exports (.listed objId sym) key
  | referenced {objId : Nat} {obj : InputObject} {sec : InputSection}
      {reloc : InputReloc} {sym : InputSymbol} {key : SectionKey} :
      objects[objId]? = some obj → addrsigTable arena obj = none →
      sec ∈ obj.sections → reloc ∈ sec.relocs → reloc.rType ≠ rX8664Plt32 →
      obj.symbolByIndex reloc.symbol = some sym →
      GcObjectTargets.symbolTarget objId sym symbols = some key →
      Observes arena objects symbols exports (.referenced objId reloc sym) key
  | exported {name : Name} {res : SymbolResolution} {key : SectionKey} :
      symbols.lookup name = some res → res.isExport = true →
      exports name = true → Gc.definingSection res = some key →
      Observes arena objects symbols exports (.exported name) key

/-- The symbol is one of the section's own definitions. -/
def Place.Defines (place : Place) (sym : InputSymbol) : Prop :=
  sym ∈ place.obj.symbols ∧ sym.sectionIndex = some place.sec.index ∧
    sym.isUndefined = false

def Unfolded (folds : FoldMap) (key : SectionKey) : Prop :=
  folds.lookup key = none ∧ ∀ dup, folds.lookup dup ≠ some key

/-- What the inputs say against folding a section: its object has no table that
decodes, or that table lists a definition of the section, or a relocation of a type
that counts names one of them or goes through the section itself, or one shows by its
name, its binding or its visibility. -/
inductive Marked (arena : InputArena) (objects : List InputObject)
    (place : Place) : Prop where
  | untabled : addrsigTable arena place.obj = none → Marked arena objects place
  | listed {positions : List Nat} {pos : Nat} {own : InputSymbol} :
      addrsigTable arena place.obj = some positions → pos ∈ positions →
      place.obj.symbols[pos]? = some own → place.Defines own →
      Marked arena objects place
  | named {obj : InputObject} {sec : InputSection} {reloc : InputReloc}
      {sym own : InputSymbol} :
      obj ∈ objects → sec ∈ obj.sections → reloc ∈ sec.relocs →
      relocTakesAddress reloc.rType = true →
      obj.symbolByIndex reloc.symbol = some sym →
      place.Defines own → own.name ≠ [] → own.name = sym.name →
      Marked arena objects place
  | pointed {sec : InputSection} {reloc : InputReloc} {sym : InputSymbol} :
      sec ∈ place.obj.sections → reloc ∈ sec.relocs →
      relocTakesAddress reloc.rType = true →
      place.obj.symbolByIndex reloc.symbol = some sym →
      sym.name = [] → sym.sectionIndex = some place.sec.index →
      Marked arena objects place
  | shown {own : InputSymbol} :
      place.Defines own → own.name ≠ [] →
      (isCxxUnique own.name = true ∨ own.binding = .weak ∨
        (own.binding ≠ .local ∧ own.visibility = 0)) →
      Marked arena objects place

/-- The bytes of a text section, its flags and its relocations by name, whatever is
said against folding it. -/
def Place.content (arena : InputArena) (place : Place) : Option FoldKey :=
  if place.sec.kind != .text || place.sec.data.len == 0 then none
  else do
    let relocs ← relocKeys place.obj place.sec.relocs
    return {
      flags := place.sec.flags
      digest := contentDigest (arena.bytes place.sec.data)
      len := place.sec.data.len
      relocs := relocs }

/-- Two sections with the same content, of which one stands behind the other and no
unmarked section with that content in front of them. -/
structure Alike (arena : InputArena) (objects : List InputObject)
    (canon dup : Place) : Prop where
  content : ∃ key, canon.content arena = some key ∧ dup.content arena = some key ∧
    ∃ before after, places objects = before ++ canon :: after ∧ dup ∈ after ∧
      ∀ place ∈ before, place.content arena = some key → Marked arena objects place
  bytes : dup.sameBytes arena canon = true

/-! ## What the scan of all objects collects -/

section Collected

variable {Item Value : Type} {step : AddrTaint → Item → AddrTaint}
variable {collected : AddrTaint → List Value} {adds : Item → Value → Prop}

theorem mem_foldl_iff
    (each : ∀ taint item value, value ∈ collected (step taint item) ↔
      value ∈ collected taint ∨ adds item value)
    (items : List Item) (taint : AddrTaint) (value : Value) :
    value ∈ collected (items.foldl step taint) ↔
      value ∈ collected taint ∨ ∃ item ∈ items, adds item value := by
  induction items generalizing taint with
  | nil => simp
  | cons first rest induction =>
      rw [List.foldl_cons, induction, each, or_assoc, List.exists_mem_cons_iff]

end Collected

def TakesName (obj : InputObject) (reloc : InputReloc) (name : Name) : Prop :=
  relocTakesAddress reloc.rType = true ∧
    ∃ sym, obj.symbolByIndex reloc.symbol = some sym ∧ sym.name ≠ [] ∧ name = sym.name

def TakesSection (obj : InputObject) (objId : Nat) (reloc : InputReloc)
    (key : Nat × Nat) : Prop :=
  relocTakesAddress reloc.rType = true ∧
    ∃ sym, obj.symbolByIndex reloc.symbol = some sym ∧ sym.name = [] ∧
      ∃ sectionIndex, sym.sectionIndex = some sectionIndex ∧
        key = (objId, sectionIndex)

section Steps

variable (arena : InputArena) (taint : AddrTaint) (obj : InputObject) (objId : Nat)

theorem parseAddrsig_eq :
    parseAddrsig arena taint obj objId =
      match addrsigTable arena obj with
      | none => taint
      | some positions =>
          { taint with
            objectsWithAddrsig := objId :: taint.objectsWithAddrsig
            addrsigSyms :=
              positions.map (fun pos => (objId, pos)) ++ taint.addrsigSyms } := by
  unfold parseAddrsig addrsigTable
  cases obj.sections.find? fun sec => sec.shType == shtLlvmAddrsig with
  | none => rfl
  | some sec => rfl

theorem mem_byName_reloc (reloc : InputReloc) (name : Name) :
    name ∈ (taintOneReloc obj objId taint reloc).byName ↔
      name ∈ taint.byName ∨ TakesName obj reloc name := by
  unfold taintOneReloc TakesName
  cases relocTakesAddress reloc.rType with
  | false => simp
  | true =>
      cases obj.symbolByIndex reloc.symbol with
      | none => simp
      | some sym =>
          cases isName : sym.name with
          | nil =>
              cases isSection : sym.sectionIndex <;> simp [isName, isSection]
          | cons byte rest => simp [isName, or_comm]

theorem mem_bySection_reloc (reloc : InputReloc) (key : Nat × Nat) :
    key ∈ (taintOneReloc obj objId taint reloc).bySection ↔
      key ∈ taint.bySection ∨ TakesSection obj objId reloc key := by
  unfold taintOneReloc TakesSection
  cases relocTakesAddress reloc.rType with
  | false => simp
  | true =>
      cases obj.symbolByIndex reloc.symbol with
      | none => simp
      | some sym =>
          cases isName : sym.name with
          | nil =>
              cases isSection : sym.sectionIndex <;>
                simp [isName, isSection, or_comm]
          | cons byte rest => simp [isName]

theorem taintRelocs_tables (relocs : List InputReloc) :
    (relocs.foldl (taintOneReloc obj objId) taint).objectsWithAddrsig =
        taint.objectsWithAddrsig ∧
      (relocs.foldl (taintOneReloc obj objId) taint).addrsigSyms =
        taint.addrsigSyms := by
  induction relocs generalizing taint with
  | nil => exact ⟨rfl, rfl⟩
  | cons reloc rest induction =>
      have kept : (taintOneReloc obj objId taint reloc).objectsWithAddrsig =
            taint.objectsWithAddrsig ∧
          (taintOneReloc obj objId taint reloc).addrsigSyms = taint.addrsigSyms := by
        unfold taintOneReloc
        split
        · exact ⟨rfl, rfl⟩
        · split
          · exact ⟨rfl, rfl⟩
          · split
            · split <;> exact ⟨rfl, rfl⟩
            · exact ⟨rfl, rfl⟩
      rw [List.foldl_cons, (induction _).1, (induction _).2]
      exact kept

end Steps

section Scan

variable (arena : InputArena) (objects : List InputObject)

theorem mem_addressTaint {Value : Type} (collected : AddrTaint → List Value)
    (adds : InputObject → Nat → Value → Prop) (empty : collected .empty = [])
    (each : ∀ taint obj objId value,
      value ∈ collected (taintObject arena taint objId obj) ↔
        value ∈ collected taint ∨ adds obj objId value) (value : Value) :
    value ∈ collected (addressTaint arena objects) ↔
      ∃ (obj : InputObject) (objId : Nat),
        objects[objId]? = some obj ∧ adds obj objId value := by
  have scanned := @mem_foldl_iff (InputObject × Nat) Value
    (fun taint numbered => taintObject arena taint numbered.2 numbered.1) collected
    (fun numbered => adds numbered.1 numbered.2)
    (fun taint numbered => each taint numbered.1 numbered.2)
  rw [addressTaint, scanned, empty]
  simp only [List.not_mem_nil, false_or, Prod.exists, List.mem_zipIdx_iff_getElem?]

theorem mem_byName (name : Name) :
    name ∈ (addressTaint arena objects).byName ↔
      ∃ (obj : InputObject) (objId : Nat), objects[objId]? = some obj ∧
        ∃ reloc ∈ obj.sections.flatMap InputSection.relocs, TakesName obj reloc name := by
  refine mem_addressTaint arena objects AddrTaint.byName
    (fun obj _ name => ∃ reloc ∈ obj.sections.flatMap InputSection.relocs,
      TakesName obj reloc name) rfl
    (fun taint obj objId name => ?_) name
  have parsed (taint : AddrTaint) :
      (parseAddrsig arena taint obj objId).byName = taint.byName := by
    rw [parseAddrsig_eq]
    split <;> rfl
  rw [taintObject, parsed]
  exact mem_foldl_iff (fun taint => mem_byName_reloc taint obj objId) _ taint name

theorem mem_bySection (key : Nat × Nat) :
    key ∈ (addressTaint arena objects).bySection ↔
      ∃ (obj : InputObject) (objId : Nat), objects[objId]? = some obj ∧
        ∃ reloc ∈ obj.sections.flatMap InputSection.relocs,
          TakesSection obj objId reloc key := by
  refine mem_addressTaint arena objects AddrTaint.bySection
    (fun obj objId key => ∃ reloc ∈ obj.sections.flatMap InputSection.relocs,
      TakesSection obj objId reloc key) rfl
    (fun taint obj objId key => ?_) key
  have parsed (taint : AddrTaint) :
      (parseAddrsig arena taint obj objId).bySection = taint.bySection := by
    rw [parseAddrsig_eq]
    split <;> rfl
  rw [taintObject, parsed]
  exact mem_foldl_iff (fun taint => mem_bySection_reloc taint obj objId) _ taint key

theorem mem_objectsWithAddrsig (id : Nat) :
    id ∈ (addressTaint arena objects).objectsWithAddrsig ↔
      ∃ (obj : InputObject) (objId : Nat), objects[objId]? = some obj ∧
        ((addrsigTable arena obj).isSome = true ∧ id = objId) := by
  refine mem_addressTaint arena objects AddrTaint.objectsWithAddrsig
    (fun obj objId id => (addrsigTable arena obj).isSome = true ∧ id = objId) rfl
    (fun taint obj objId id => ?_) id
  rw [taintObject, parseAddrsig_eq]
  cases addrsigTable arena obj with
  | none => simp [(taintRelocs_tables taint obj objId _).1]
  | some positions => simp [(taintRelocs_tables taint obj objId _).1, or_comm]

theorem mem_addrsigSyms (listed : Nat × Nat) :
    listed ∈ (addressTaint arena objects).addrsigSyms ↔
      ∃ (obj : InputObject) (objId : Nat), objects[objId]? = some obj ∧
        ∃ positions, addrsigTable arena obj = some positions ∧
          ∃ pos ∈ positions, listed = (objId, pos) := by
  refine mem_addressTaint arena objects AddrTaint.addrsigSyms
    (fun obj objId listed => ∃ positions, addrsigTable arena obj = some positions ∧
      ∃ pos ∈ positions, listed = (objId, pos)) rfl
    (fun taint obj objId listed => ?_) listed
  rw [taintObject, parseAddrsig_eq]
  cases addrsigTable arena obj with
  | none => simp [(taintRelocs_tables taint obj objId _).2]
  | some positions =>
      simp [(taintRelocs_tables taint obj objId _).2, or_comm, eq_comm]

end Scan

/-! ## What is significant is marked -/

section Significant

variable {arena : InputArena} {objects : List InputObject} {place : Place}

theorem symbolSignificant_iff {sym : InputSymbol} {pos : Nat} {taint : AddrTaint} :
    symbolSignificant place.objId place.sec.index taint pos sym = true ↔
      sym.sectionIndex = some place.sec.index ∧ sym.isUndefined = false ∧
        ((place.objId, pos) ∈ taint.addrsigSyms ∨ sym.name ≠ [] ∧
          (isCxxUnique sym.name = true ∨ sym.name ∈ taint.byName ∨
            sym.binding = .weak ∨ (sym.binding ≠ .local ∧ sym.visibility = 0))) := by
  unfold symbolSignificant
  simp only [List.isEmpty_iff]
  grind

/-- A section is not eligible exactly when it is marked. -/
theorem significant_iff_marked (member : place ∈ places objects) :
    definesAddressSignificant place.obj place.objId place.sec
        (addressTaint arena objects) = true ↔ Marked arena objects place := by
  have isObject := (mem_places.mp member).1
  have own {obj : InputObject} (found : objects[place.objId]? = some obj) :
      obj = place.obj := Option.some.inj (found.symm.trans isObject)
  have tabled : place.objId ∈ (addressTaint arena objects).objectsWithAddrsig ↔
      addrsigTable arena place.obj ≠ none := by
    rw [mem_objectsWithAddrsig, ← Option.isSome_iff_ne_none]
    constructor
    · rintro ⟨obj, objId, found, isSome, rfl⟩
      rwa [← own found]
    · exact fun isSome => ⟨_, _, isObject, isSome, rfl⟩
  have pointed : (place.objId, place.sec.index) ∈ (addressTaint arena objects).bySection ↔
      ∃ reloc ∈ place.obj.sections.flatMap InputSection.relocs,
        relocTakesAddress reloc.rType = true ∧
          ∃ sym, place.obj.symbolByIndex reloc.symbol = some sym ∧ sym.name = [] ∧
            sym.sectionIndex = some place.sec.index := by
    rw [mem_bySection]
    constructor
    · rintro ⟨obj, objId, found, reloc, among, takes, sym, isSym, nameless, index, isIndex,
        same⟩
      rw [Prod.mk.injEq] at same
      rcases same with ⟨rfl, rfl⟩
      rw [own found] at among isSym
      exact ⟨reloc, among, takes, sym, isSym, nameless, isIndex⟩
    · rintro ⟨reloc, among, takes, sym, isSym, nameless, isIndex⟩
      exact ⟨_, _, isObject, reloc, among, takes, sym, isSym, nameless, _, isIndex, rfl⟩
  unfold definesAddressSignificant
  simp only [Bool.if_true_left, Bool.or_eq_true, Bool.not_eq_true', decide_eq_true_eq,
    Bool.eq_false_iff, ne_eq, List.contains_iff_mem, List.any_eq_true, Prod.exists,
    List.mem_zipIdx_iff_getElem?, symbolSignificant_iff, tabled, pointed]
  constructor
  · rintro (untabled | ⟨reloc, among, takes, sym, isSym, nameless, isIndex⟩ |
      ⟨sym, pos, atPos, isSection, isDefined, why⟩)
    · exact .untabled (not_not.mp untabled)
    · rcases List.mem_flatMap.mp among with ⟨sec, isSec, isReloc⟩
      exact .pointed isSec isReloc takes isSym nameless isIndex
    · have defines : place.Defines sym :=
        ⟨List.mem_of_getElem? atPos, isSection, Bool.eq_false_iff.mpr isDefined⟩
      rcases why with isListed | ⟨named, unique | taken | shown⟩
      · rw [mem_addrsigSyms] at isListed
        rcases isListed with ⟨obj, objId, found, positions, table, pos, isPos, same⟩
        rw [Prod.mk.injEq] at same
        rcases same with ⟨rfl, rfl⟩
        rw [own found] at table
        exact .listed table isPos atPos defines
      · exact .shown defines named (.inl unique)
      · rw [mem_byName] at taken
        rcases taken with ⟨obj, objId, found, reloc, among, takes, other, isOther, _, same⟩
        rcases List.mem_flatMap.mp among with ⟨sec, isSec, isReloc⟩
        exact .named (List.mem_of_getElem? found) isSec isReloc takes isOther defines
          named same
      · exact .shown defines named (.inr shown)
  · rintro (untabled | ⟨table, isPos, atPos, defines⟩ |
      ⟨isObj, isSec, isReloc, takes, isOther, defines, named, same⟩ |
      ⟨isSec, isReloc, takes, isSym, nameless, isIndex⟩ | ⟨defines, named, shown⟩)
    · exact .inl (not_not.mpr untabled)
    · refine .inr (.inr ⟨_, _, atPos, defines.2.1, Bool.eq_false_iff.mp defines.2.2,
        .inl ?_⟩)
      rw [mem_addrsigSyms]
      exact ⟨_, _, isObject, _, table, _, isPos, rfl⟩
    · rcases List.getElem?_of_mem defines.1 with ⟨pos, atPos⟩
      rcases List.getElem?_of_mem isObj with ⟨objId, found⟩
      refine .inr (.inr ⟨_, _, atPos, defines.2.1, Bool.eq_false_iff.mp defines.2.2,
        .inr ⟨named, .inr (.inl ?_)⟩⟩)
      rw [mem_byName]
      exact ⟨_, _, found, _, List.mem_flatMap.mpr ⟨_, isSec, isReloc⟩, takes, _, isOther,
        same ▸ named, same⟩
    · exact .inr (.inl ⟨_, List.mem_flatMap.mpr ⟨_, isSec, isReloc⟩, takes, _, isSym,
        nameless, isIndex⟩)
    · rcases List.getElem?_of_mem defines.1 with ⟨pos, atPos⟩
      refine .inr (.inr ⟨_, _, atPos, defines.2.1, Bool.eq_false_iff.mp defines.2.2,
        .inr ⟨named, ?_⟩⟩)
      rcases shown with unique | shown
      · exact .inl unique
      · exact .inr (.inr shown)

theorem key_eq_some (member : place ∈ places objects) {key : FoldKey} :
    place.key arena (addressTaint arena objects) = some key ↔
      ¬ Marked arena objects place ∧ place.content arena = some key := by
  rw [← significant_iff_marked member, Place.key, foldKeyFor, (mem_places.mp member).2,
    Place.content]
  simp only [Option.bind_eq_bind, Option.bind_some]
  split
  · simp
  · split
    · rename_i isSignificant
      simp [isSignificant]
    · rename_i notSignificant
      exact (and_iff_right notSignificant).symm

theorem Alike.canon_mem {canon dup : Place} (alike : Alike arena objects canon dup) :
    canon ∈ places objects := by
  rcases alike.content with ⟨_, _, _, before, after, split, _⟩
  simp [split]

theorem Alike.dup_mem {canon dup : Place} (alike : Alike arena objects canon dup) :
    dup ∈ places objects := by
  rcases alike.content with ⟨_, _, _, before, after, split, isAfter, _⟩
  simp [split, isAfter]

theorem foldsOnto_iff (distinct : (places objects).Nodup) {canon dup : Place} :
    FoldsOnto arena objects dup canon ↔
      Alike arena objects canon dup ∧ ¬ Marked arena objects canon ∧
        ¬ Marked arena objects dup := by
  have unkeyed {place : Place} (member : place ∈ places objects) {key : FoldKey} :
      (!decide (place.key arena (addressTaint arena objects) = some key)) = true ↔
        (place.content arena = some key → Marked arena objects place) := by
    rw [Bool.not_eq_true', decide_eq_false_iff_not, key_eq_some member, not_and',
      not_not]
  constructor
  · rintro ⟨isDup, ⟨key, keyed, first⟩, different, equal⟩
    rw [Representatives.first, List.find?_eq_some_iff_append, decide_eq_true_eq] at first
    rcases first with ⟨isCanon, before, after, split, notBefore⟩
    have canonMember : canon ∈ places objects := by simp [split]
    rw [key_eq_some isDup] at keyed
    rw [key_eq_some canonMember] at isCanon
    have marked : ∀ place ∈ before, place.content arena = some key →
        Marked arena objects place := by
      intro place present
      have member : place ∈ places objects := by simp [split, present]
      exact (unkeyed member).mp (notBefore place present)
    refine ⟨⟨⟨key, isCanon.2, keyed.2, before, after, split, ?_, marked⟩, equal⟩,
      isCanon.1, keyed.1⟩
    have among := isDup
    rw [split, List.mem_append, List.mem_cons] at among
    rcases among with isBefore | rfl | isAfter
    · exact absurd (marked dup isBefore keyed.2) keyed.1
    · exact absurd rfl different
    · exact isAfter
  · rintro ⟨alike, canonFree, dupFree⟩
    have canonMember := alike.canon_mem
    have dupMember := alike.dup_mem
    rcases alike with ⟨⟨key, canonContent, dupContent, before, after, split, isAfter,
      marked⟩, equal⟩
    refine ⟨dupMember, ⟨key, (key_eq_some dupMember).mpr ⟨dupFree, dupContent⟩, ?_⟩, ?_,
      equal⟩
    · rw [Representatives.first, List.find?_eq_some_iff_append, decide_eq_true_eq]
      refine ⟨(key_eq_some canonMember).mpr ⟨canonFree, canonContent⟩, before, after,
        split, fun place present => ?_⟩
      have member : place ∈ places objects := by simp [split, present]
      exact (unkeyed member).mpr (marked place present)
    · rintro rfl
      rw [split, List.nodup_append] at distinct
      exact (List.nodup_cons.mp distinct.2.1).1 isAfter

end Significant

/-! ## When no observed address is folded -/

theorem unfolded_of_free {arena : InputArena} {objects : List ParsedObject}
    {key : SectionKey}
    (free : ∀ canon dup, FoldsOnto arena (objects.map ParsedObject.toInputObject) dup
      canon → canon.label ≠ key ∧ dup.label ≠ key) :
    Unfolded (computeFoldMap arena (objects.map ParsedObject.toInputObject)) key := by
  have distinct := List.Nodup.of_map _ (label_nodup_places objects)
  rw [computeFoldMap_eq]
  constructor
  · cases recorded : (representatives arena
        (objects.map ParsedObject.toInputObject)
        (places (objects.map ParsedObject.toInputObject))).folds.lookup key with
    | none => rfl
    | some canon =>
        rcases Representatives.folded_of_lookup _ distinct recorded with
          ⟨dupPlace, canonPlace, dupLabel, _, folds⟩
        exact absurd dupLabel (free _ _ folds).2
  · intro dup recorded
    rcases Representatives.folded_of_lookup _ distinct recorded with
      ⟨dupPlace, canonPlace, _, canonLabel, folds⟩
    exact (free _ _ folds).1 canonLabel

/-- The fold takes note of the use: a listing in the section's own object, a
reference whose type counts and that names a definition of the section or goes
through the section itself, and an export that a definition shows. -/
def AddressUse.Noted (place : Place) : AddressUse → Prop
  | .listed objId sym => objId = place.objId ∧ place.Defines sym
  | .referenced objId reloc sym =>
      relocTakesAddress reloc.rType = true ∧
        (if sym.name = [] then
          objId = place.objId ∧ sym.sectionIndex = some place.sec.index
        else ∃ own, place.Defines own ∧ own.name = sym.name)
  | .exported _ =>
      ∃ own, place.Defines own ∧ own.name ≠ [] ∧
        (isCxxUnique own.name = true ∨ own.binding = .weak ∨
          (own.binding ≠ .local ∧ own.visibility = 0))

theorem Observes.marked {arena : InputArena} {objects : List InputObject}
    {symbols : SymbolTable} {exports : Name → Bool} {use : AddressUse} {place : Place}
    (member : place ∈ places objects)
    (observes : Observes arena objects symbols exports use place.label)
    (noted : use.Noted place) : Marked arena objects place := by
  have own {obj : InputObject} (found : objects[place.objId]? = some obj) :
      obj = place.obj := Option.some.inj (found.symm.trans (mem_places.mp member).1)
  cases observes with
  | listed isObject table isListed atPos _ =>
      rcases noted with ⟨rfl, defines⟩
      rw [own isObject] at table atPos
      exact .listed table isListed atPos defines
  | @referenced objId obj sec reloc sym _ isObject _ isSection isReloc _ isSymbol _ =>
      rcases noted with ⟨takesAddress, target⟩
      split at target
      · rename_i nameless
        rcases target with ⟨rfl, isDefined⟩
        rw [own isObject] at isSection isSymbol
        exact .pointed isSection isReloc takesAddress isSymbol nameless isDefined
      · rename_i named
        rcases target with ⟨definition, defines, sameName⟩
        exact .named (List.mem_of_getElem? isObject) isSection isReloc takesAddress
          isSymbol defines (sameName ▸ named) sameName
  | exported =>
      rcases noted with ⟨definition, defines, named, shown⟩
      exact .shown defines named shown

theorem unfolded_of_noted (arena : InputArena) (objects : List ParsedObject)
    (symbols : SymbolTable) (exports : Name → Bool)
    (noted : ∀ use, ∀ place ∈ places (objects.map ParsedObject.toInputObject),
      Observes arena (objects.map ParsedObject.toInputObject) symbols exports use
        place.label → use.Noted place)
    {use : AddressUse} {key : SectionKey}
    (observes : Observes arena (objects.map ParsedObject.toInputObject) symbols exports
      use key) :
    Unfolded (computeFoldMap arena (objects.map ParsedObject.toInputObject)) key := by
  have distinct := List.Nodup.of_map _ (label_nodup_places objects)
  refine unfolded_of_free fun canon dup folds => ?_
  rcases (foldsOnto_iff distinct).mp folds with ⟨alike, canonFree, dupFree⟩
  constructor
  · rintro rfl
    exact canonFree (observes.marked alike.canon_mem
      (noted use canon alike.canon_mem observes))
  · rintro rfl
    exact dupFree (observes.marked alike.dup_mem
      (noted use dup alike.dup_mem observes))

/-- No definition whose address is observed takes part in a fold, exactly when the
inputs mark one of any two alike sections of which one has an observed address. -/
theorem observed_unfolded_iff (arena : InputArena)
    (objects : List ParsedObject) (symbols : SymbolTable)
    (exports : Name → Bool) :
    (∀ use key, Observes arena (objects.map ParsedObject.toInputObject) symbols
        exports use key →
      Unfolded
        (computeFoldMap arena (objects.map ParsedObject.toInputObject)) key) ↔
      ∀ canon dup, Alike arena (objects.map ParsedObject.toInputObject) canon dup →
        ∀ use,
          Observes arena (objects.map ParsedObject.toInputObject) symbols exports use
              canon.label ∨
            Observes arena (objects.map ParsedObject.toInputObject) symbols exports use
              dup.label →
          Marked arena (objects.map ParsedObject.toInputObject) canon ∨
            Marked arena (objects.map ParsedObject.toInputObject) dup := by
  have labels := label_nodup_places objects
  have distinct := List.Nodup.of_map _ labels
  constructor
  · intro unfolded canon dup alike use observed
    by_contra unmarked
    rw [not_or] at unmarked
    have recorded := Representatives.lookup_of_folded labels
      ((foldsOnto_iff distinct).mpr ⟨alike, unmarked⟩)
    rw [computeFoldMap_eq] at unfolded
    rcases observed with isCanon | isDup
    · exact (unfolded use canon.label isCanon).2 dup.label recorded
    · cases (unfolded use dup.label isDup).1.symm.trans recorded
  · intro marked use key observes
    refine unfolded_of_free fun canon dup folds => ?_
    rcases (foldsOnto_iff distinct).mp folds with ⟨alike, canonFree, dupFree⟩
    have isMarked := marked canon dup alike use
    constructor
    · rintro rfl
      exact (isMarked (.inl observes)).elim canonFree dupFree
    · rintro rfl
      exact (isMarked (.inr observes)).elim canonFree dupFree

/-! One object defines two hidden functions with equal bytes. Another one lists
both, which it does not define, in its table. -/

private def hiddenArena : InputArena where
  mmaps := []
  owned := [[0x31, 0xc0, 0xc3], [], [1, 2]]

private def plainSection (index : Nat) (kind : SectionKind) (shType : UInt32)
    (owned len : UInt32) (relocs : List InputReloc) : InputSection where
  index := index
  name := nameOf ".text"
  kind := kind
  shType := shType
  data := ⟨.owned owned, 0, len⟩
  align := 1
  size := len.toUInt64
  flags := 6
  relocs := relocs

private def hiddenSymbol (index : Nat) (name : String)
    (sectionIndex : Option Nat) : InputSymbol where
  index := index
  name := nameOf name
  binding := .global
  isUndefined := sectionIndex.isNone
  isCommon := false
  isIfunc := false
  stType := 2
  visibility := 2
  sectionIndex := sectionIndex
  value := 0
  size := 3

private def definingObject : ParsedObject where
  path := "functions.o"
  sections := [plainSection 1 .text 1 0 3 [], plainSection 2 .text 1 0 3 [],
    plainSection 3 .other shtLlvmAddrsig 1 0 []]
  symbols := [hiddenSymbol 1 "f" (some 1), hiddenSymbol 2 "g" (some 2)]
  sectionMap := .sparse ∅
  symbolMap := ((default : IndexLookup).insert 1 0).insert 2 1
  comdatGroups := []
  distinct := by decide

private def listingObject : ParsedObject where
  path := "compare.o"
  sections := [plainSection 1 .text 1 0 3 [],
    plainSection 2 .other shtLlvmAddrsig 2 2 []]
  symbols := [hiddenSymbol 1 "f" none, hiddenSymbol 2 "g" none]
  sectionMap := .sparse ∅
  symbolMap := ((default : IndexLookup).insert 1 0).insert 2 1
  comdatGroups := []
  distinct := by decide

private def hiddenTable : SymbolTable :=
  match SymbolTable.processAll
      [⟨definingObject.toInputObject, []⟩, ⟨listingObject.toInputObject, []⟩] with
  | .ok table => table
  | .error _ => SymbolTable.new

/-- The two functions are folded although their addresses are listed. -/
theorem listedElsewhere_folded :
    ¬ ∀ use key, Observes hiddenArena
        ([definingObject, listingObject].map ParsedObject.toInputObject)
        hiddenTable (fun _ => true) use key →
      Unfolded (computeFoldMap hiddenArena
        ([definingObject, listingObject].map ParsedObject.toInputObject))
        key := by
  intro unfolded
  have isObject : ([definingObject, listingObject].map
      ParsedObject.toInputObject)[1]? = some listingObject.toInputObject := rfl
  have table : addrsigTable hiddenArena listingObject.toInputObject =
      some [0, 1] := by decide +kernel
  have isSymbol : listingObject.symbols[1]? = some (hiddenSymbol 2 "g" none) :=
    rfl
  have observes : Observes hiddenArena
      ([definingObject, listingObject].map ParsedObject.toInputObject)
      hiddenTable (fun _ => true) (.listed 1 (hiddenSymbol 2 "g" none)) (0, 2) :=
    .listed isObject table (by decide) isSymbol (by decide +kernel)
  have folded : (computeFoldMap hiddenArena
      ([definingObject, listingObject].map
        ParsedObject.toInputObject)).lookup (0, 2) = some (0, 1) := by
    decide +kernel
  cases (unfolded _ _ observes).1.symm.trans folded

end Icf

end Peony
