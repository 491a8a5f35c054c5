import Peony.Emit.Relocatable
import Peony.Foundation.Alignment
import Peony.Foundation.Assoc
import Peony.Foundation.Pairwise
import Peony.Layout.Grouping
import Peony.Object.Parsed

namespace Peony

/-! What a relocatable link must preserve: every relocation is there once, at the
place and with the symbol it had, and every definition designates the byte that
its input designates. -/

namespace Relocatable

/-! ## Places in the integers -/

def sameName (objects : List InputObject) (name : Name) : List Icf.Place :=
  (members objects).filter fun place => decide (outName place.sec.name = name)

def mask (sec : InputSection) : UInt64 := max sec.align 1 - 1

/-- The sections of one name behind one another, each at its alignment. -/
def naturalParts : Nat → List Icf.Place → List (Icf.Place × Nat)
  | _, [] => []
  | size, place :: rest =>
      let off := Alignment.roundBits size (mask place.sec).toNat
      (place, off) :: naturalParts (off + place.sec.size.toNat) rest

def isAt (objId secPos : Nat) (place : Icf.Place) : Bool :=
  place.objId == objId && place.pos == secPos

def mergedNames (objects : List InputObject) : List Name :=
  Grouping.firstKeys ((members objects).map fun place => outName place.sec.name)

def sectionNumber (objects : List InputObject) (name : Name) : Nat :=
  (mergedNames objects).idxOf name + 1

/-- The number of the merged section that an input section belongs to, and its
offset in it; a section that is dropped has none. -/
def naturalPlace (objects : List InputObject) (objId secPos : Nat) :
    Option (Nat × Nat) :=
  ((members objects).find? (isAt objId secPos)).bind fun place =>
    ((naturalParts 0 (sameName objects (outName place.sec.name))).find? fun part =>
      isAt objId secPos part.1).map fun part =>
        (sectionNumber objects (outName place.sec.name), part.2)

/-! ## What a symbol designates -/

/-- What the section index of a symbol says. -/
inductive SymPlace where
  | undef | abs | common | reserved
  | section (number : Nat)
deriving DecidableEq, Repr

def symPlace (shndx : UInt16) : SymPlace :=
  if shndx = shnUndef then .undef
  else if shndx = shnAbs then .abs
  else if shndx = shnCommon then .common
  else if 0xff00 ≤ shndx.toNat then .reserved
  else .section shndx.toNat

def localTarget (objects : List InputObject) (objId : Nat) (obj : InputObject)
    (sym : InputSymbol) : Option (SymPlace × Nat) :=
  if sym.stType = sttFile then some (.abs, sym.value.toNat)
  else
    match sym.sectionIndex with
    | some si =>
        ((obj.sectionPos si).bind (naturalPlace objects objId)).map fun placed =>
          (.section placed.1, placed.2 + sym.value.toNat)
    | none => some (.abs, sym.value.toNat)

def globalTarget (objects : List InputObject) (res : SymbolResolution) :
    Option (SymPlace × Nat) :=
  match res.common with
  | some common => some (.common, common.2.toNat)
  | none =>
      match res.definedIn, res.sectionIndex with
      | some defined, some si =>
          (((objects[defined.toNat]?).bind fun obj =>
            (obj.sectionPos si).bind (naturalPlace objects defined.toNat))).map
              fun placed => (.section placed.1, placed.2 + res.value.toNat)
      | some _, none => some (.abs, res.value.toNat)
      | none, _ => some (.undef, 0)

def symEntry (objects : List InputObject) (symbols : SymbolTable) (number : UInt32) :
    Option SymRequest :=
  if number = 0 then none else (symRequests objects symbols)[number.toNat - 1]?

/-- The entry under a number stands for the given symbol, under its name, and
designates what it must. -/
def Stands (objects : List InputObject) (symbols : SymbolTable) (number : UInt32)
    (source : SymSource) (name : Name) (target : SymPlace × Nat) : Prop :=
  ∃ entry, symEntry objects symbols number = some entry ∧
    entry.source = source ∧ entry.name = name ∧
      (symPlace entry.shndx, entry.value.toNat) = target

/-! ## What a relocation carries -/

/-- The relocation of the output is that of the input: at its place in the merged
section, of its type and with its addend, and its symbol is the same. -/
structure Carries (objects : List InputObject) (symbols : SymbolTable)
    (source : Icf.Place × InputReloc) (rela : Rela) : Prop where
  rType : rela.rType = source.2.rType
  addend : rela.addend = source.2.addend
  offset : ∃ number off,
    naturalPlace objects source.1.objId source.1.pos = some (number, off) ∧
      rela.offset.toNat = off + source.2.offset.toNat
  symbol : ∃ sym, source.1.obj.symbolByIndex source.2.symbol = some sym ∧
    if sym.binding = .local then
      ∃ target, localTarget objects source.1.objId source.1.obj sym = some target ∧
        Stands objects symbols rela.sym (.local source.1.objId sym.index) sym.name
          target
    else ∃ target, Stands objects symbols rela.sym (.global sym.name) sym.name target

/-- The relocations of all sections that are merged under one name. -/
def relocSources (objects : List InputObject) (name : Name) :
    List (Icf.Place × InputReloc) :=
  (sameName objects name).flatMap fun place =>
    place.sec.relocs.map fun reloc => (place, reloc)

structure Preserves (objects : List InputObject) (symbols : SymbolTable) : Prop where
  relocs : ∀ out ∈ outSections objects,
    List.Forall₂ (Carries objects symbols) (relocSources objects out.name)
      (relasOf objects symbols out)
  locals : ∀ objId obj sym, objects[objId]? = some obj → sym ∈ obj.symbols →
    sym.binding = .local →
      ∃ number target, localTarget objects objId obj sym = some target ∧
        Stands objects symbols number (.local objId sym.index) sym.name target
  globals : ∀ name res, symbols.lookup name = some res →
    ∃ number target, globalTarget objects res = some target ∧
      Stands objects symbols number (.global name) name target

/-! ## When it is preserved -/

/-- What is designated has a number that a symbol can hold and an address that is
a word. -/
def Encodable (target : SymPlace × Nat) : Prop :=
  target.2 < 2 ^ 64 ∧ ∀ number, target.1 = .section number → number < 0xff00

def localSymbols (objects : List InputObject) : List (Nat × InputObject × InputSymbol) :=
  objects.zipIdx.flatMap fun obj =>
    (obj.1.symbols.filter fun sym => sym.binding == .local).map fun sym =>
      (obj.2, obj.1, sym)

/-- Every definition lies in a section that is merged, under a number below the
reserved ones and at an offset that is a word; there are less than 2^32 symbols;
and every relocation lies at an offset that is a word and names a symbol. -/
structure Encodes (objects : List InputObject) (symbols : SymbolTable) : Prop where
  count : (localSymbols objects).length + symbols.resolutions.entries.length < 2 ^ 32
  locals : ∀ objId obj sym, objects[objId]? = some obj → sym ∈ obj.symbols →
    sym.binding = .local →
      ∃ target, localTarget objects objId obj sym = some target ∧ Encodable target
  globals : ∀ name res, symbols.lookup name = some res →
    ∃ target, globalTarget objects res = some target ∧ Encodable target
  relocs : ∀ place ∈ members objects, ∀ reloc ∈ place.sec.relocs,
    (∃ number off, naturalPlace objects place.objId place.pos = some (number, off) ∧
      off + reloc.offset.toNat < 2 ^ 64) ∧
    ∃ sym, place.obj.symbolByIndex reloc.symbol = some sym ∧
      (sym.binding = .local ∨ (symbols.lookup sym.name).isSome)

/-! ## The offsets of the parts -/

def Agrees (exact : Nat) (word : UInt64) : Prop :=
  exact < 2 ^ 64 → word.toNat = exact

theorem Agrees.add {exact : Nat} {word : UInt64} (agrees : Agrees exact word)
    (more : UInt64) : Agrees (exact + more.toNat) (word + more) := by
  intro fits
  have same := agrees (Nat.lt_of_le_of_lt (Nat.le_add_right _ _) fits)
  rw [UInt64.toNat_add, same, Nat.mod_eq_of_lt fits]

theorem alignUp_eq (value : UInt64) (sec : InputSection) :
    alignUp value (max sec.align 1) = Alignment.roundMask value (mask sec) := by
  rw [alignUp, Alignment.roundMask, mask]
  have positive : 1 ≤ (max sec.align 1).toNat := by
    rw [toNat_max]
    exact Nat.le_max_right _ _
  generalize max sec.align 1 = align at positive ⊢
  by_cases small : align ≤ 1
  · have one : align = 1 := by
      have bound := UInt64.le_iff_toNat_le.mp small
      exact UInt64.toNat_inj.mp (Nat.le_antisymm bound positive)
    rw [if_pos small, one]
    simp
  · rw [if_neg small]
    congr 1
    grind

def wordParts : UInt64 → List Icf.Place → List (Icf.Place × UInt64)
  | _, [] => []
  | size, place :: rest =>
      let off := Alignment.roundMask size (mask place.sec)
      (place, off) :: wordParts (off + place.sec.size) rest

def partOf (part : Icf.Place × UInt64) : Part := ⟨part.1.objId, part.1.pos, part.2⟩

theorem foldl_add_parts (out : OutSection) (places : List Icf.Place) :
    (places.foldl OutSection.add out).parts =
      out.parts ++ (wordParts out.size places).map partOf := by
  induction places generalizing out with
  | nil => simp [wordParts]
  | cons place rest induction =>
      rw [List.foldl_cons, induction, wordParts, List.map_cons]
      simp only [OutSection.add, alignUp_eq, List.append_assoc, List.cons_append,
        List.nil_append, partOf]

theorem Agrees.round {exact : Nat} {word : UInt64} (agrees : Agrees exact word)
    (mask : UInt64) :
    Agrees (Alignment.roundBits exact mask.toNat) (Alignment.roundMask word mask) := by
  intro fits
  have isWord := Nat.lt_of_le_of_lt (Alignment.le_roundBits exact mask.toNat) fits
  have same := agrees isWord
  have sum : exact + mask.toNat < 2 ^ 64 := by
    by_contra overflow
    have above := Alignment.le_roundBits_of_overflow isWord mask.toNat_lt
      (Nat.not_lt.mp overflow)
    omega
  rw [← same] at sum ⊢
  exact Alignment.toNat_roundMask_of_sum sum

theorem parts_agree {exact : Nat} {word : UInt64} (agrees : Agrees exact word)
    (places : List Icf.Place) :
    List.Forall₂ (fun natural part => natural.1 = part.1 ∧ Agrees natural.2 part.2)
      (naturalParts exact places) (wordParts word places) := by
  induction places generalizing exact word with
  | nil => exact .nil
  | cons place rest induction =>
      have rounded := agrees.round (mask place.sec)
      exact .cons ⟨rfl, rounded⟩ (induction (rounded.add place.sec.size))

theorem map_fst_wordParts (word : UInt64) (places : List Icf.Place) :
    (wordParts word places).map Prod.fst = places := by
  induction places generalizing word with
  | nil => rfl
  | cons place rest induction => exact congrArg (place :: ·) (induction _)

/-! ## The merged sections -/

variable {objects : List InputObject}

theorem map_name_outSections : (outSections objects).map OutSection.name =
    mergedNames objects :=
  merging.labels_gather (members objects)

theorem nodup_mergedNames : (mergedNames objects).Nodup :=
  @map_name_outSections objects ▸ merging.nodup_gather (members objects)

theorem mem_mergedNames {name : Name} :
    name ∈ mergedNames objects ↔
      ∃ place ∈ members objects, outName place.sec.name = name := by
  rw [← map_name_outSections]
  exact merging.mem_labels_gather

theorem mem_sameName {name : Name} {place : Icf.Place} :
    place ∈ sameName objects name ↔
      place ∈ members objects ∧ outName place.sec.name = name := by
  rw [sameName, List.mem_filter, decide_eq_true_eq]

theorem parts_eq {out : OutSection} (present : out ∈ outSections objects) :
    out.parts = (wordParts 0 (sameName objects out.name)).map partOf := by
  rcases (merging.mem_gather (members objects) out).mp present with
    ⟨first, rest, ofName, built⟩
  have named : sameName objects out.name = first :: rest := ofName
  rw [named]
  conv_lhs => rw [built]
  exact foldl_add_parts (OutSection.start first) (first :: rest)

theorem getElem?_outSections {name : Name} (isName : name ∈ mergedNames objects) :
    ∃ out, (outSections objects)[(mergedNames objects).idxOf name]? = some out ∧
      out.name = name := by
  have found := List.getElem?_idxOf isName
  rw [← map_name_outSections, List.getElem?_map] at found
  rw [← map_name_outSections]
  exact Option.map_eq_some_iff.mp found

theorem name_of_getElem? {idx : Nat} {out : OutSection}
    (isOut : (outSections objects)[idx]? = some out) :
    (mergedNames objects).idxOf out.name = idx := by
  have isName : (mergedNames objects)[idx]? = some out.name := by
    rw [← map_name_outSections, List.getElem?_map, isOut]
    rfl
  rcases List.getElem?_eq_some_iff.mp isName with ⟨inside, equal⟩
  rw [← equal]
  exact nodup_mergedNames.idxOf_getElem idx inside

theorem place_eq_of_isAt {first second : Icf.Place} (isFirst : first ∈ members objects)
    (isSecond : second ∈ members objects)
    (same : isAt first.objId first.pos second = true) : second = first := by
  have firstPlace := Icf.mem_places.mp (List.mem_of_mem_filter isFirst)
  have secondPlace := Icf.mem_places.mp (List.mem_of_mem_filter isSecond)
  rcases first with ⟨objId, obj, pos, sec⟩
  rcases second with ⟨otherId, otherObj, otherPos, otherSec⟩
  simp only [isAt, Bool.and_eq_true, beq_iff_eq] at same
  rcases same with ⟨rfl, rfl⟩
  simp only at firstPlace secondPlace
  rw [firstPlace.1, Option.some.injEq] at secondPlace
  rcases secondPlace with ⟨rfl, isSec⟩
  rw [firstPlace.2, Option.some.injEq] at isSec
  rw [isSec]

theorem isAt_self (place : Icf.Place) : isAt place.objId place.pos place = true := by
  simp [isAt]

/-! ## Where a section went -/

theorem find?_agree {Left Right : Type} {related : Left → Right → Prop}
    {testLeft : Left → Bool} {testRight : Right → Bool}
    (same : ∀ left right, related left right → testLeft left = testRight right)
    {lefts : List Left} {rights : List Right}
    (pairs : List.Forall₂ related lefts rights) {right : Right}
    (found : rights.find? testRight = some right) :
    ∃ left, lefts.find? testLeft = some left ∧ related left right := by
  induction pairs with
  | nil => cases found
  | @cons left other lefts rights head _ induction =>
      rw [List.find?_cons] at found ⊢
      rw [same left other head]
      cases isFound : testRight other with
      | true =>
          rw [isFound] at found
          cases found
          exact ⟨left, rfl, head⟩
      | false =>
          rw [isFound] at found
          exact induction found

theorem part_of_member {name : Name} {part : Icf.Place × UInt64}
    (isPart : part ∈ wordParts 0 (sameName objects name)) :
    part.1 ∈ members objects ∧ outName part.1.sec.name = name := by
  have isMember : part.1 ∈ sameName objects name := by
    rw [← map_fst_wordParts 0 (sameName objects name)]
    exact List.mem_map_of_mem isPart
  exact mem_sameName.mp isMember

theorem find?_members {place : Icf.Place} (present : place ∈ members objects) :
    (members objects).find? (isAt place.objId place.pos) = some place := by
  have isSome : ((members objects).find? (isAt place.objId place.pos)).isSome :=
    List.find?_isSome.mpr ⟨place, present, isAt_self place⟩
  rcases Option.isSome_iff_exists.mp isSome with ⟨other, found⟩
  rw [found, place_eq_of_isAt present (List.mem_of_find?_eq_some found)
    (List.find?_some found)]

theorem find?_wordParts {place : Icf.Place} (present : place ∈ members objects) :
    ∃ word, (wordParts 0 (sameName objects (outName place.sec.name))).find?
      (fun part => isAt place.objId place.pos part.1) = some (place, word) := by
  have isSame : place ∈ sameName objects (outName place.sec.name) :=
    mem_sameName.mpr ⟨present, rfl⟩
  rw [← map_fst_wordParts 0 (sameName objects (outName place.sec.name))] at isSame
  rcases List.mem_map.mp isSame with ⟨witness, isWitness, isPlace⟩
  have isSome : ((wordParts 0 (sameName objects (outName place.sec.name))).find?
      fun part => isAt place.objId place.pos part.1).isSome := by
    refine List.find?_isSome.mpr ⟨witness, isWitness, ?_⟩
    rw [isPlace]
    exact isAt_self place
  rcases Option.isSome_iff_exists.mp isSome with ⟨part, found⟩
  have atPart : isAt place.objId place.pos part.1 = true := by
    simpa only using List.find?_some found
  have isHere := place_eq_of_isAt present
    (part_of_member (List.mem_of_find?_eq_some found)).1 atPart
  exact ⟨part.2, found.trans (congrArg some (Prod.ext isHere rfl))⟩

theorem idx_of_part {place : Icf.Place} (present : place ∈ members objects)
    {out : OutSection} {idx : Nat} (isOut : (outSections objects)[idx]? = some out)
    {part : Part} (isPart : part ∈ out.parts)
    (isHere : (part.objId == place.objId && part.secPos == place.pos) = true) :
    idx = (mergedNames objects).idxOf (outName place.sec.name) := by
  rw [parts_eq (List.mem_of_getElem? isOut)] at isPart
  rcases List.mem_map.mp isPart with ⟨source, isSource, rfl⟩
  have inName := part_of_member isSource
  have isSelf := place_eq_of_isAt present inName.1 isHere
  rw [← name_of_getElem? isOut, ← inName.2, isSelf]

theorem placement_of_member {place : Icf.Place} (present : place ∈ members objects)
    {word : UInt64} (found : (wordParts 0 (sameName objects
        (outName place.sec.name))).find?
      (fun part => isAt place.objId place.pos part.1) = some (place, word)) :
    placement objects place.objId place.pos =
      some ((mergedNames objects).idxOf (outName place.sec.name), word) := by
  rcases getElem?_outSections (mem_mergedNames.mpr ⟨place, present, rfl⟩) with
    ⟨out, isOut, named⟩
  have partFound : (out.parts.find? fun part => part.objId == place.objId &&
      part.secPos == place.pos) = some (partOf (place, word)) := by
    rw [parts_eq (List.mem_of_getElem? isOut), named, List.find?_map]
    exact congrArg (Option.map partOf) found
  have isSome : (placement objects place.objId place.pos).isSome := by
    rw [placement, List.findSome?_isSome_iff]
    refine ⟨(out, _), List.mk_mem_zipIdx_iff_getElem?.mpr isOut, ?_⟩
    simp only [partFound, Option.map_some, Option.isSome_some]
  rcases Option.isSome_iff_exists.mp isSome with ⟨result, isResult⟩
  rcases List.exists_of_findSome?_eq_some isResult with ⟨other, isOther, isHit⟩
  rcases Option.map_eq_some_iff.mp isHit with ⟨hit, isPart, rfl⟩
  have otherOut := List.mk_mem_zipIdx_iff_getElem?.mp isOther
  have index := idx_of_part present otherOut (List.mem_of_find?_eq_some isPart)
    (by simpa only using List.find?_some isPart)
  have sameOut : other.1 = out := by
    rw [index, isOut] at otherOut
    exact (Option.some.inj otherOut).symm
  rw [sameOut, partFound] at isPart
  rw [isResult, index, ← Option.some.inj isPart]
  rfl

theorem exists_placement {place : Icf.Place} (present : place ∈ members objects) :
    ∃ exact word, (place, word) ∈ wordParts 0 (sameName objects
        (outName place.sec.name)) ∧
      placement objects place.objId place.pos =
        some ((mergedNames objects).idxOf (outName place.sec.name), word) ∧
      naturalPlace objects place.objId place.pos =
        some (sectionNumber objects (outName place.sec.name), exact) ∧
      Agrees exact word := by
  rcases find?_wordParts present with ⟨word, found⟩
  rcases find?_agree
      (fun (natural : Icf.Place × Nat) (part : Icf.Place × UInt64) related =>
        congrArg (isAt place.objId place.pos) related.1)
      (@parts_agree 0 0 (fun _ => rfl) (sameName objects (outName place.sec.name)))
      found with ⟨natural, isNatural, -, agrees⟩
  refine ⟨natural.2, word, List.mem_of_find?_eq_some found,
    placement_of_member present found, ?_, agrees⟩
  rw [naturalPlace, find?_members present, Option.bind_some, isNatural]
  rfl

theorem placement_eq_none {objId secPos : Nat}
    (absent : ∀ place ∈ members objects, isAt objId secPos place = false) :
    placement objects objId secPos = none ∧ naturalPlace objects objId secPos = none := by
  constructor
  · rw [placement, List.findSome?_eq_none_iff]
    intro out isOut
    rw [Option.map_eq_none_iff, List.find?_eq_none]
    intro part isPart
    rw [parts_eq (List.mem_of_getElem? (List.mk_mem_zipIdx_iff_getElem?.mp isOut))]
      at isPart
    rcases List.mem_map.mp isPart with ⟨source, isSource, rfl⟩
    have elsewhere := absent source.1 (part_of_member isSource).1
    rw [isAt] at elsewhere
    simp only [partOf, elsewhere]
    decide
  · have none : (members objects).find? (isAt objId secPos) = none :=
      List.find?_eq_none.mpr fun place present =>
        Bool.eq_false_iff.mp (absent place present)
    rw [naturalPlace, none, Option.bind_none]

/-- Where a section went, and where it must go. -/
theorem placement_cases (objId secPos : Nat) :
    (placement objects objId secPos = none ∧
      naturalPlace objects objId secPos = none) ∨
    ∃ idx exact word, placement objects objId secPos = some (idx, word) ∧
      naturalPlace objects objId secPos = some (idx + 1, exact) ∧ Agrees exact word := by
  by_cases isMember : ∃ place ∈ members objects, isAt objId secPos place = true
  · rcases isMember with ⟨place, present, isHere⟩
    simp only [isAt, Bool.and_eq_true, beq_iff_eq] at isHere
    rcases isHere with ⟨rfl, rfl⟩
    rcases exists_placement present with ⟨exact, word, -, placed, natural, agrees⟩
    exact Or.inr ⟨_, exact, word, placed, natural, agrees⟩
  · left
    refine placement_eq_none fun place present => ?_
    cases isHere : isAt objId secPos place with
    | false => rfl
    | true => exact absurd ⟨place, present, isHere⟩ isMember

/-! ## Symbols -/

structure Meets (target : SymPlace × Nat) (shndx : UInt16) (value : UInt64) : Prop where
  value : Agrees target.2 value
  shndx :
    match target.1 with
    | .section number => 0 < number ∧ shndx = UInt16.ofNat number
    | place => symPlace shndx = place

/-- What is read off a section index and a value can be encoded. -/
theorem encodable_of_designates {target : SymPlace × Nat} {shndx : UInt16}
    {value : UInt64} (designates : (symPlace shndx, value.toNat) = target) :
    Encodable target := by
  rw [← designates]
  refine ⟨value.toNat_lt, fun number isSection => ?_⟩
  simp only [symPlace] at isSection
  split at isSection
  · cases isSection
  split at isSection
  · cases isSection
  split at isSection
  · cases isSection
  split at isSection
  · cases isSection
  · cases isSection
    omega

theorem symPlace_ofNat {number : Nat} (positive : 0 < number)
    (below : number < 0xff00) :
    symPlace (UInt16.ofNat number) = .section number := by
  have small : (UInt16.ofNat number).toNat = number :=
    UInt16.toNat_ofNat_of_lt (Nat.lt_trans below (by decide))
  have distinct {other : UInt16} (differs : number ≠ other.toNat) :
      UInt16.ofNat number ≠ other := by
    intro equal
    rw [← equal, small] at differs
    exact differs rfl
  have notUndef : number ≠ shnUndef.toNat := Nat.ne_of_gt positive
  have notAbs : number ≠ shnAbs.toNat :=
    Nat.ne_of_lt (Nat.lt_trans below (by decide))
  have notCommon : number ≠ shnCommon.toNat :=
    Nat.ne_of_lt (Nat.lt_trans below (by decide))
  rw [symPlace, if_neg (distinct notUndef), if_neg (distinct notAbs),
    if_neg (distinct notCommon), small, if_neg (Nat.not_le.mpr below)]

theorem Meets.designates {target : SymPlace × Nat} {shndx : UInt16}
    {value : UInt64} (meets : Meets target shndx value) (encodable : Encodable target) :
    (symPlace shndx, value.toNat) = target := by
  rcases meets with ⟨agrees, place⟩
  rcases target with ⟨targetPlace, targetValue⟩
  rw [Prod.mk.injEq]
  refine ⟨?_, agrees encodable.1⟩
  cases targetPlace with
  | «section» number =>
      simp only at place
      rw [place.2]
      exact symPlace_ofNat place.1 (encodable.2 number rfl)
  | undef => exact place
  | abs => exact place
  | common => exact place
  | reserved => exact place

theorem localPlace_cases (objId : Nat) (obj : InputObject) (sym : InputSymbol) :
    (localPlace objects objId obj sym = none ∧
      localTarget objects objId obj sym = none) ∨
    ∃ place target, localPlace objects objId obj sym = some place ∧
      localTarget objects objId obj sym = some target ∧
        Meets target place.1 place.2 := by
  rw [localPlace, localTarget]
  split
  · exact Or.inr ⟨_, _, rfl, rfl, fun _ => rfl, rfl⟩
  cases sym.sectionIndex with
  | none => exact Or.inr ⟨_, _, rfl, rfl, fun _ => rfl, rfl⟩
  | some si =>
      simp only
      cases obj.sectionPos si with
      | none => exact Or.inl ⟨rfl, rfl⟩
      | some pos =>
          rw [Option.bind_some, Option.bind_some]
          rcases placement_cases objId pos with
            ⟨noWord, noExact⟩ | ⟨idx, exact, word, placed, natural, agrees⟩
          · rw [noWord, noExact]
            exact Or.inl ⟨rfl, rfl⟩
          · rw [placed, natural]
            refine Or.inr ⟨_, _, rfl, rfl, ?_, Nat.succ_pos idx, rfl⟩
            simp only [UInt64.add_comm sym.value word]
            exact agrees.add sym.value

theorem globalPlace_cases (res : SymbolResolution) :
    globalTarget objects res = none ∨
    ∃ target, globalTarget objects res = some target ∧
      Meets target (globalPlace objects res).1 (globalPlace objects res).2.1 := by
  rw [globalTarget, globalPlace]
  cases res.common with
  | some common => exact Or.inr ⟨_, rfl, fun _ => rfl, rfl⟩
  | none =>
      simp only
      cases res.definedIn with
      | none => exact Or.inr ⟨_, rfl, fun _ => rfl, rfl⟩
      | some defined =>
          cases res.sectionIndex with
          | none => exact Or.inr ⟨_, rfl, fun _ => rfl, rfl⟩
          | some si =>
              simp only
              cases objects[defined.toNat]? with
              | none => exact Or.inl rfl
              | some obj =>
                  simp only [Option.bind_some]
                  cases obj.sectionPos si with
                  | none => exact Or.inl rfl
                  | some pos =>
                      simp only [Option.bind_some]
                      rcases @placement_cases objects defined.toNat pos with
                        ⟨noWord, noExact⟩ | ⟨idx, exact, word, placed, natural, agrees⟩
                      · rw [noWord, noExact]
                        exact Or.inl rfl
                      · rw [placed, natural]
                        refine Or.inr ⟨_, rfl, ?_, Nat.succ_pos idx, rfl⟩
                        simp only [UInt64.add_comm res.value word]
                        exact agrees.add res.value

theorem length_filterMap_of_isSome {Item Value : Type} {value : Item → Option Value}
    {items : List Item} (all : ∀ item ∈ items, (value item).isSome) :
    (items.filterMap value).length = items.length := by
  induction items with
  | nil => rfl
  | cons head rest induction =>
      rcases Option.isSome_iff_exists.mp (all head List.mem_cons_self) with
        ⟨result, isResult⟩
      rw [List.filterMap_cons_some isResult, List.length_cons, List.length_cons,
        induction fun item present => all item (List.mem_cons_of_mem _ present)]

theorem mem_localSymbols {objId : Nat} {obj : InputObject} {sym : InputSymbol} :
    (objId, obj, sym) ∈ localSymbols objects ↔
      objects[objId]? = some obj ∧ sym ∈ obj.symbols ∧ sym.binding = .local := by
  simp only [localSymbols, List.mem_flatMap, List.mem_map, List.mem_filter,
    beq_iff_eq, Prod.exists, Prod.mk.injEq, List.mk_mem_zipIdx_iff_getElem?]
  constructor
  · rintro ⟨otherObj, otherId, isObj, otherSym, ⟨isSym, isLocal⟩, rfl, rfl, rfl⟩
    exact ⟨isObj, isSym, isLocal⟩
  · rintro ⟨isObj, isSym, isLocal⟩
    exact ⟨obj, objId, isObj, sym, ⟨isSym, isLocal⟩, rfl, rfl, rfl⟩

theorem localRequests_eq : localRequests objects =
    (localSymbols objects).filterMap fun entry =>
      localRequest objects entry.1 entry.2.1 entry.2.2 := by
  rw [localRequests, localSymbols, List.filterMap_flatMap]
  congr 1
  funext obj
  rw [List.filterMap_map, List.filterMap_filter]
  congr 1
  funext sym
  rw [Function.comp_apply]
  by_cases isLocal : sym.binding = .local
  · simp [isLocal]
  · simp [localRequest, isLocal]

theorem source_of_localRequest {objId : Nat} {obj : InputObject} {sym : InputSymbol}
    {request : SymRequest} (requested : localRequest objects objId obj sym = some request) :
    request.source = .local objId (sym.index % 2 ^ 32) := by
  rw [localRequest] at requested
  split at requested
  · cases requested
  · rcases Option.map_eq_some_iff.mp requested with ⟨place, -, rfl⟩
    rfl

theorem mem_localRequests {request : SymRequest} : request ∈ localRequests objects ↔
    ∃ objId obj sym, objects[objId]? = some obj ∧ sym ∈ obj.symbols ∧
      sym.binding = .local ∧ localRequest objects objId obj sym = some request := by
  rw [localRequests_eq, List.mem_filterMap]
  constructor
  · rintro ⟨⟨objId, obj, sym⟩, isEntry, requested⟩
    rcases mem_localSymbols.mp isEntry with ⟨isObj, isSym, isLocal⟩
    exact ⟨objId, obj, sym, isObj, isSym, isLocal, requested⟩
  · rintro ⟨objId, obj, sym, isObj, isSym, isLocal, requested⟩
    exact ⟨(objId, obj, sym), mem_localSymbols.mpr ⟨isObj, isSym, isLocal⟩, requested⟩

theorem mem_globalRequests {symbols : SymbolTable} {request : SymRequest} :
    request ∈ globalRequests objects symbols ↔
      ∃ name res, symbols.lookup name = some res ∧
        globalRequest objects name res = request := by
  rw [globalRequests, List.mem_map]
  constructor
  · rintro ⟨⟨name, res⟩, present, rfl⟩
    exact ⟨name, res, AList.mem_lookup_iff.mpr present, rfl⟩
  · rintro ⟨name, res, found, rfl⟩
    exact ⟨⟨name, res⟩, AList.mem_lookup_iff.mp found, rfl⟩

/-! ## Numbers -/

section Parsed

variable {symbols : SymbolTable} (parsed : ∀ obj ∈ objects, obj.Parsed)

include parsed

theorem index_mod_of_local {objId : Nat} {obj : InputObject} {sym : InputSymbol}
    (isObj : objects[objId]? = some obj) (isSym : sym ∈ obj.symbols) :
    sym.index % 2 ^ 32 = sym.index :=
  Nat.mod_eq_of_lt ((parsed obj (List.mem_of_getElem? isObj)).symbolIndex_lt sym isSym)

def SymSource.localIndex : SymSource → Nat
  | .local _ index => index
  | .global _ => 0

def SymSource.globalName : SymSource → Name
  | .local _ _ => []
  | .global name => name

theorem nodup_localSources :
    ((localRequests objects).map SymRequest.source).Nodup := by
  have keys : ((localSymbols objects).map fun entry =>
      SymSource.local entry.1 entry.2.2.index).Nodup := by
    rw [localSymbols, List.map_flatMap, List.nodup_flatMap]
    constructor
    · rintro ⟨obj, objId⟩ isObj
      have distinct := (parsed obj (List.fst_mem_of_mem_zipIdx isObj)).distinctSymbols
      have locals := (List.Sublist.map InputSymbol.index
        (List.filter_sublist (p := fun sym : InputSymbol =>
          sym.binding == .local))).nodup distinct
      rw [List.map_map]
      refine List.Nodup.of_map SymSource.localIndex ?_
      rw [List.map_map]
      exact locals
    · have distinctIds : objects.zipIdx.Pairwise fun left right => left.2 ≠ right.2 := by
        refine List.pairwise_map.mp ?_
        rw [List.zipIdx_map_snd]
        exact List.nodup_range'
      refine distinctIds.imp fun {left right} different => ?_
      intro source isLeft isRight
      simp only [List.map_map, List.mem_map, Function.comp_apply] at isLeft isRight
      rcases isLeft with ⟨leftSym, -, rfl⟩
      rcases isRight with ⟨rightSym, -, same⟩
      exact different (SymSource.local.inj same).1.symm
  have sub : ((localRequests objects).map SymRequest.source).Sublist
      ((localSymbols objects).map fun entry =>
        SymSource.local entry.1 entry.2.2.index) := by
    rw [localRequests_eq, List.map_filterMap]
    have bounded : ∀ entry ∈ localSymbols objects,
        entry.2.2.index % 2 ^ 32 = entry.2.2.index := fun entry present =>
      have isLocal := mem_localSymbols.mp present
      index_mod_of_local parsed isLocal.1 isLocal.2.1
    generalize localSymbols objects = entries at bounded
    induction entries with
    | nil => exact .slnil
    | cons entry rest induction =>
        have later := induction fun other present =>
          bounded other (List.mem_cons_of_mem _ present)
        rw [List.filterMap_cons, List.map_cons]
        cases requested : localRequest objects entry.1 entry.2.1 entry.2.2 with
        | none => exact later.cons _
        | some request =>
            have isSource : request.source =
                SymSource.local entry.1 entry.2.2.index := by
              rw [localRequest] at requested
              split at requested
              · cases requested
              · rcases Option.map_eq_some_iff.mp requested with ⟨place, -, rfl⟩
                exact congrArg _ (bounded entry List.mem_cons_self)
            simp only [Option.map_some, isSource]
            exact later.cons_cons _
  exact sub.nodup keys

theorem nodup_sources :
    ((symRequests objects symbols).map SymRequest.source).Nodup := by
  rw [symRequests, List.map_append, List.nodup_append]
  refine ⟨nodup_localSources parsed, ?_, ?_⟩
  · have names : (symbols.resolutions.entries.map Sigma.fst).Nodup :=
      symbols.resolutions.nodupKeys
    rw [globalRequests, List.map_map]
    refine List.Nodup.of_map SymSource.globalName ?_
    rw [List.map_map]
    exact names
  · intro first isFirst second isSecond same
    rcases List.mem_map.mp isFirst with ⟨request, isRequest, rfl⟩
    rcases List.mem_map.mp isSecond with ⟨other, isOther, rfl⟩
    rcases mem_globalRequests.mp isOther with ⟨name, res, -, rfl⟩
    rcases mem_localRequests.mp isRequest with ⟨objId, obj, sym, -, -, -, requested⟩
    rw [source_of_localRequest requested] at same
    cases same

theorem symNumber_eq {i : Nat} {request : SymRequest}
    (isRequest : (symRequests objects symbols)[i]? = some request) :
    symNumber objects symbols request.source = some (UInt32.ofNat (i + 1)) := by
  have keys : (symNumbers objects symbols).map Prod.fst =
      (symRequests objects symbols).map SymRequest.source := by
    rw [symNumbers, List.map_map]
    conv_rhs => rw [← List.zipIdx_map_fst 0 (symRequests objects symbols), List.map_map]
    rfl
  have distinct : ((symNumbers objects symbols).reverse.map Prod.fst).Nodup := by
    rw [List.map_reverse, List.nodup_reverse, keys]
    exact nodup_sources parsed
  rw [symNumber, Assoc.lookup_eq_some distinct, List.mem_reverse, symNumbers]
  exact List.mem_map.mpr
    ⟨(request, i), List.mk_mem_zipIdx_iff_getElem?.mpr isRequest, rfl⟩

omit parsed in
theorem exists_request {source : SymSource} {number : UInt32}
    (found : symNumber objects symbols source = some number) :
    ∃ request ∈ symRequests objects symbols, request.source = source := by
  rw [symNumber] at found
  have present := List.mem_reverse.mp (Assoc.mem_of_lookup found)
  rw [symNumbers] at present
  rcases List.mem_map.mp present with ⟨entry, isEntry, same⟩
  exact ⟨entry.1, List.fst_mem_of_mem_zipIdx isEntry, (Prod.mk.inj same).1⟩

theorem stands_of_request {request : SymRequest}
    (isRequest : request ∈ symRequests objects symbols)
    (count : (symRequests objects symbols).length < 2 ^ 32) :
    ∃ number, symNumber objects symbols request.source = some number ∧
      Stands objects symbols number request.source request.name
        (symPlace request.shndx, request.value.toNat) := by
  rcases List.getElem?_of_mem isRequest with ⟨i, atIndex⟩
  have inside := (List.getElem?_eq_some_iff.mp atIndex).1
  refine ⟨UInt32.ofNat (i + 1), symNumber_eq parsed atIndex, request, ?_, rfl, rfl, rfl⟩
  have small : (UInt32.ofNat (i + 1)).toNat = i + 1 :=
    UInt32.toNat_ofNat_of_lt (show i + 1 < 2 ^ 32 by omega)
  have nonzero : UInt32.ofNat (i + 1) ≠ 0 := by
    intro isZero
    rw [isZero] at small
    exact absurd small (Nat.succ_ne_zero i).symm
  rw [symEntry, if_neg nonzero, small, Nat.add_sub_cancel]
  exact atIndex

theorem exists_unnumbered (many : 2 ^ 32 ≤ (symRequests objects symbols).length) :
    ∃ request ∈ symRequests objects symbols, ∀ number name target,
      ¬ Stands objects symbols number request.source name target := by
  have inside : 2 ^ 32 - 1 < (symRequests objects symbols).length := by omega
  have isLast := List.getElem?_eq_getElem inside
  generalize (symRequests objects symbols)[2 ^ 32 - 1] = last at isLast
  refine ⟨last, List.mem_of_getElem? isLast, ?_⟩
  rintro number name target ⟨entry, isEntry, sameSource, -, -⟩
  rw [symEntry] at isEntry
  split at isEntry
  · cases isEntry
  · have bound := number.toNat_lt
    have sources : ((symRequests objects symbols).map SymRequest.source)[2 ^ 32 - 1]? =
        ((symRequests objects symbols).map SymRequest.source)[number.toNat - 1]? := by
      rw [List.getElem?_map, List.getElem?_map, isLast, isEntry, Option.map_some,
        Option.map_some, sameSource]
    have same := (List.getElem?_inj (by rwa [List.length_map])
      (nodup_sources parsed)).mp sources
    omega

theorem stands_of_local {objId : Nat} {obj : InputObject} {sym : InputSymbol}
    (isObj : objects[objId]? = some obj) (isSym : sym ∈ obj.symbols)
    (isLocal : sym.binding = .local) {target : SymPlace × Nat}
    (isTarget : localTarget objects objId obj sym = some target)
    (encodable : Encodable target)
    (count : (symRequests objects symbols).length < 2 ^ 32) :
    ∃ number, symNumber objects symbols (.local objId sym.index) = some number ∧
      Stands objects symbols number (.local objId sym.index) sym.name target := by
  rcases localPlace_cases objId obj sym with
    ⟨-, noTarget⟩ | ⟨place, other, placed, isOther, meets⟩
  · rw [noTarget] at isTarget
    cases isTarget
  rw [isOther, Option.some.injEq] at isTarget
  subst isTarget
  have requested : localRequest objects objId obj sym = some
      { source := .local objId sym.index
        name := sym.name
        info := stInfo stbLocal sym.stType
        other := sym.visibility
        shndx := place.1
        value := place.2
        size := sym.size } := by
    rw [localRequest, placed, Option.map_some, index_mod_of_local parsed isObj isSym]
    simp [isLocal]
  have isRequest := mem_localRequests.mpr ⟨objId, obj, sym, isObj, isSym, isLocal, requested⟩
  rcases stands_of_request parsed
      (List.mem_append_left (globalRequests objects symbols) isRequest) count with
    ⟨number, isNumber, stands⟩
  exact ⟨number, isNumber, (meets.designates encodable) ▸ stands⟩

theorem stands_of_global {name : Name} {res : SymbolResolution}
    (found : symbols.lookup name = some res) {target : SymPlace × Nat}
    (isTarget : globalTarget objects res = some target) (encodable : Encodable target)
    (count : (symRequests objects symbols).length < 2 ^ 32) :
    ∃ number, symNumber objects symbols (.global name) = some number ∧
      Stands objects symbols number (.global name) name target := by
  rcases @globalPlace_cases objects res with
    noTarget | ⟨other, isOther, meets⟩
  · rw [noTarget] at isTarget
    cases isTarget
  rw [isOther, Option.some.injEq] at isTarget
  subst isTarget
  have isRequest : globalRequest objects name res ∈ globalRequests objects symbols :=
    mem_globalRequests.mpr ⟨name, res, found, rfl⟩
  rcases stands_of_request parsed
      (List.mem_append_right (localRequests objects) isRequest) count with
    ⟨number, isNumber, stands⟩
  exact ⟨number, isNumber, (meets.designates encodable) ▸ stands⟩

theorem symNumber_local_eq_none {objId : Nat} {obj : InputObject} {sym : InputSymbol}
    (isObj : objects[objId]? = some obj) (isSym : sym ∈ obj.symbols)
    (isGlobal : sym.binding ≠ .local) :
    symNumber objects symbols (.local objId sym.index) = none := by
  cases found : symNumber objects symbols (.local objId sym.index) with
  | none => rfl
  | some number =>
      rcases exists_request found with ⟨request, isRequest, isSource⟩
      rcases List.mem_append.mp isRequest with isLocal | isOther
      · rcases mem_localRequests.mp isLocal with
          ⟨otherId, otherObj, other, isOtherObj, isOther, otherLocal, requested⟩
        rw [source_of_localRequest requested] at isSource
        rcases SymSource.local.inj isSource with ⟨rfl, sameIndex⟩
        rw [isObj, Option.some.injEq] at isOtherObj
        subst isOtherObj
        have isIndex := index_mod_of_local parsed isObj isOther
        have same := (parsed obj (List.mem_of_getElem? isObj)).symbol_eq_of_index
          isSym isOther (isIndex.symm.trans sameIndex).symm
        rw [same] at isGlobal
        exact absurd otherLocal isGlobal
      · rcases mem_globalRequests.mp isOther with ⟨name, res, -, rfl⟩
        cases isSource

end Parsed

/-! ## Relocations -/

def relaOf (objects : List InputObject) (symbols : SymbolTable)
    (part : Icf.Place × UInt64) (reloc : InputReloc) : Rela where
  offset := part.2 + reloc.offset
  sym := outSymFor objects symbols part.1.objId part.1.obj (reloc.symbol % 2 ^ 32)
  rType := reloc.rType
  addend := reloc.addend

def partRelocs (objects : List InputObject) (name : Name) :
    List ((Icf.Place × UInt64) × InputReloc) :=
  (wordParts 0 (sameName objects name)).flatMap fun part =>
    part.1.sec.relocs.map fun reloc => (part, reloc)

theorem relocSources_eq (name : Name) : relocSources objects name =
    (partRelocs objects name).map fun entry => (entry.1.1, entry.2) := by
  rw [relocSources, partRelocs, List.map_flatMap]
  conv_lhs => rw [← map_fst_wordParts 0 (sameName objects name), List.flatMap_map]
  simp only [List.map_map]
  rfl

theorem relasOf_eq {symbols : SymbolTable} {out : OutSection}
    (isOut : out ∈ outSections objects) : relasOf objects symbols out =
      (partRelocs objects out.name).map fun entry =>
        relaOf objects symbols entry.1 entry.2 := by
  rw [relasOf, parts_eq isOut, partRelocs, List.map_flatMap, List.flatMap_map]
  refine List.flatMap_congr fun part isPart => ?_
  have isMember := (part_of_member isPart).1
  have isPlace := Icf.mem_places.mp (List.mem_of_mem_filter isMember)
  rw [relasOfPart, partOf]
  simp only [isPlace.1, isPlace.2, List.map_map]
  rfl

theorem nodup_members (parsed : ∀ obj ∈ objects, obj.Parsed) :
    (members objects).Nodup :=
  List.Nodup.filter _ (List.Nodup.of_map _ (label_nodup_inputSections parsed))

theorem word_unique (parsed : ∀ obj ∈ objects, obj.Parsed) {name : Name}
    {place : Icf.Place} {first second : UInt64}
    (isFirst : (place, first) ∈ wordParts 0 (sameName objects name))
    (isSecond : (place, second) ∈ wordParts 0 (sameName objects name)) :
    first = second := by
  have distinct : ((wordParts 0 (sameName objects name)).map Prod.fst).Nodup := by
    rw [map_fst_wordParts]
    exact List.Nodup.filter _ (nodup_members parsed)
  exact (Prod.mk.inj (List.inj_on_of_nodup_map distinct isFirst isSecond rfl)).2

theorem relocs_iff {symbols : SymbolTable} :
    (∀ out ∈ outSections objects,
      List.Forall₂ (Carries objects symbols) (relocSources objects out.name)
        (relasOf objects symbols out)) ↔
    ∀ part ∈ (mergedNames objects).flatMap fun name =>
        wordParts 0 (sameName objects name),
      ∀ reloc ∈ part.1.sec.relocs,
        Carries objects symbols (part.1, reloc) (relaOf objects symbols part reloc) := by
  have each {out : OutSection} (isOut : out ∈ outSections objects) :
      List.Forall₂ (Carries objects symbols) (relocSources objects out.name)
        (relasOf objects symbols out) ↔
      ∀ part ∈ wordParts 0 (sameName objects out.name), ∀ reloc ∈ part.1.sec.relocs,
        Carries objects symbols (part.1, reloc) (relaOf objects symbols part reloc) := by
    rw [relocSources_eq, relasOf_eq isOut, List.forall₂_map_left_iff,
      List.forall₂_map_right_iff, List.forall₂_same]
    constructor
    · intro all part isPart reloc isReloc
      exact all (part, reloc) (List.mem_flatMap.mpr
        ⟨part, isPart, List.mem_map_of_mem isReloc⟩)
    · intro all entry isEntry
      rcases List.mem_flatMap.mp isEntry with ⟨part, isPart, isPair⟩
      rcases List.mem_map.mp isPair with ⟨reloc, isReloc, rfl⟩
      exact all part isPart reloc isReloc
  constructor
  · intro all part isPart
    rcases List.mem_flatMap.mp isPart with ⟨name, isName, inName⟩
    rcases getElem?_outSections isName with ⟨out, isOut, rfl⟩
    have present := List.mem_of_getElem? isOut
    exact (each present).mp (all out present) part inName
  · intro all out isOut
    refine (each isOut).mpr fun part isPart => all part (List.mem_flatMap.mpr
      ⟨out.name, ?_, isPart⟩)
    rw [← map_name_outSections]
    exact List.mem_map_of_mem isOut

/-! ## When a relocatable link preserves its inputs -/

section Preservation

variable {symbols : SymbolTable} (parsed : ∀ obj ∈ objects, obj.Parsed)

namespace Preserves

variable (preserves : Preserves objects symbols)

include preserves

theorem encodes_local {objId : Nat} {obj : InputObject} {sym : InputSymbol}
    (isObj : objects[objId]? = some obj) (isSym : sym ∈ obj.symbols)
    (isLocal : sym.binding = .local) :
    ∃ target, localTarget objects objId obj sym = some target ∧ Encodable target := by
  rcases preserves.locals objId obj sym isObj isSym isLocal with
    ⟨number, target, isTarget, entry, -, -, -, designates⟩
  exact ⟨target, isTarget, encodable_of_designates designates⟩

theorem encodes_global {name : Name} {res : SymbolResolution}
    (found : symbols.lookup name = some res) :
    ∃ target, globalTarget objects res = some target ∧ Encodable target := by
  rcases preserves.globals name res found with
    ⟨number, target, isTarget, entry, -, -, -, designates⟩
  exact ⟨target, isTarget, encodable_of_designates designates⟩

/-- No local symbol is left out. -/
theorem length_localRequests :
    (localRequests objects).length = (localSymbols objects).length := by
  rw [localRequests_eq]
  apply length_filterMap_of_isSome
  intro entry present
  have isLocal := mem_localSymbols.mp present
  rcases preserves.encodes_local isLocal.1 isLocal.2.1 isLocal.2.2 with ⟨target, isTarget, -⟩
  rcases localPlace_cases entry.1 entry.2.1 entry.2.2 with
    ⟨-, noTarget⟩ | ⟨place, other, placed, -, -⟩
  · rw [noTarget] at isTarget
    cases isTarget
  · rw [localRequest, placed]
    simp [isLocal.2.2]

include parsed

theorem numbered {request : SymRequest} (isRequest : request ∈ symRequests objects symbols) :
    ∃ number name target, Stands objects symbols number request.source name target := by
  rcases List.mem_append.mp isRequest with isLocal | isGlobal
  · rcases mem_localRequests.mp isLocal with
      ⟨objId, obj, sym, isObj, isSym, isLocal, requested⟩
    rcases preserves.locals objId obj sym isObj isSym isLocal with ⟨number, target, -, stands⟩
    rw [← index_mod_of_local parsed isObj isSym, ← source_of_localRequest requested] at stands
    exact ⟨number, _, target, stands⟩
  · rcases mem_globalRequests.mp isGlobal with ⟨name, res, found, rfl⟩
    rcases preserves.globals name res found with ⟨number, target, -, stands⟩
    exact ⟨number, _, target, stands⟩

theorem count :
    (localSymbols objects).length + symbols.resolutions.entries.length < 2 ^ 32 := by
  have total : (symRequests objects symbols).length =
      (localSymbols objects).length + symbols.resolutions.entries.length := by
    rw [symRequests, List.length_append, preserves.length_localRequests, globalRequests,
      List.length_map]
  rw [← total]
  by_contra many
  rcases exists_unnumbered parsed (Nat.not_lt.mp many) with ⟨request, isRequest, unnumbered⟩
  rcases preserves.numbered parsed isRequest with ⟨number, name, target, stands⟩
  exact unnumbered number name target stands

omit parsed in
theorem encodes_reloc {place : Icf.Place} (present : place ∈ members objects)
    {reloc : InputReloc} (isReloc : reloc ∈ place.sec.relocs) :
    (∃ number off, naturalPlace objects place.objId place.pos = some (number, off) ∧
      off + reloc.offset.toNat < 2 ^ 64) ∧
    ∃ sym, place.obj.symbolByIndex reloc.symbol = some sym ∧
      (sym.binding = .local ∨ (symbols.lookup sym.name).isSome) := by
  rcases exists_placement present with ⟨exact, word, isPart, -, -, -⟩
  have carries := relocs_iff.mp preserves.relocs (place, word)
    (List.mem_flatMap.mpr ⟨_, mem_mergedNames.mpr ⟨place, present, rfl⟩, isPart⟩)
    reloc isReloc
  rcases carries.offset with ⟨number, off, natural, isOffset⟩
  refine ⟨⟨number, off, natural, isOffset ▸ UInt64.toNat_lt _⟩, ?_⟩
  rcases carries.symbol with ⟨sym, isSym, same⟩
  refine ⟨sym, isSym, ?_⟩
  split at same
  · rename_i isLocal
    exact Or.inl isLocal
  · right
    rcases same with ⟨target, entry, isEntry, isSource, -, -⟩
    rw [symEntry] at isEntry
    split at isEntry
    · cases isEntry
    rcases List.mem_append.mp (List.mem_of_getElem? isEntry) with isLocal | isGlobal
    · rcases mem_localRequests.mp isLocal with ⟨_, _, _, -, -, -, requested⟩
      rw [source_of_localRequest requested] at isSource
      cases isSource
    · rcases mem_globalRequests.mp isGlobal with ⟨name, res, found, rfl⟩
      cases isSource
      rw [found]
      rfl

theorem encodes : Encodes objects symbols where
  count := preserves.count parsed
  locals _ _ _ isObj isSym isLocal := preserves.encodes_local isObj isSym isLocal
  globals _ _ found := preserves.encodes_global found
  relocs _ present _ isReloc := preserves.encodes_reloc present isReloc

end Preserves

namespace Encodes

variable (encodes : Encodes objects symbols)

include encodes

theorem count_requests : (symRequests objects symbols).length < 2 ^ 32 := by
  apply Nat.lt_of_le_of_lt _ encodes.count
  rw [symRequests, List.length_append, localRequests_eq, globalRequests, List.length_map]
  exact Nat.add_le_add_right (List.length_filterMap_le _ _) _

include parsed

/-- The symbol that a relocation is given stands for the one that it names. -/
theorem outSymFor_stands {place : Icf.Place} (present : place ∈ members objects)
    {raw : Nat} {sym : InputSymbol} (isSym : place.obj.symbolByIndex raw = some sym)
    (known : sym.binding = .local ∨ (symbols.lookup sym.name).isSome) :
    if sym.binding = .local then
      ∃ target, localTarget objects place.objId place.obj sym = some target ∧
        Stands objects symbols (outSymFor objects symbols place.objId place.obj sym.index)
          (.local place.objId sym.index) sym.name target
    else ∃ target,
      Stands objects symbols (outSymFor objects symbols place.objId place.obj sym.index)
        (.global sym.name) sym.name target := by
  have isPlace := Icf.mem_places.mp (List.mem_of_mem_filter present)
  have objParsed := parsed _ (List.mem_of_getElem? isPlace.1)
  rcases (objParsed.symbolByIndex_iff _ _).mp isSym with ⟨inSymbols, isIndex⟩
  rw [outSymFor]
  split
  · rename_i isLocal
    rcases encodes.locals _ _ sym isPlace.1 inSymbols isLocal with
      ⟨target, isTarget, encodable⟩
    rcases stands_of_local parsed isPlace.1 inSymbols isLocal isTarget encodable
      encodes.count_requests with ⟨number, isNumber, stands⟩
    rw [isNumber]
    exact ⟨target, isTarget, stands⟩
  · rename_i isGlobal
    rcases Option.isSome_iff_exists.mp (known.resolve_left isGlobal) with ⟨res, found⟩
    rcases encodes.globals sym.name res found with ⟨target, isTarget, encodable⟩
    rcases stands_of_global parsed found isTarget encodable encodes.count_requests with
      ⟨number, isNumber, stands⟩
    rw [symNumber_local_eq_none parsed isPlace.1 inSymbols isGlobal, isIndex, isSym]
    simp only [Option.bind_some, isNumber, Option.getD_some]
    exact ⟨target, stands⟩

theorem carries {name : Name} {part : Icf.Place × UInt64}
    (isPart : part ∈ wordParts 0 (sameName objects name)) {reloc : InputReloc}
    (isReloc : reloc ∈ part.1.sec.relocs) :
    Carries objects symbols (part.1, reloc) (relaOf objects symbols part reloc) := by
  rcases part_of_member isPart with ⟨present, rfl⟩
  rcases exists_placement present with ⟨exact, word, isWord, -, natural, agrees⟩
  have isWord := word_unique parsed isPart isWord
  rcases encodes.relocs part.1 present reloc isReloc with
    ⟨⟨number, off, isNatural, fits⟩, sym, isSym, known⟩
  rw [natural, Option.some.injEq, Prod.mk.injEq] at isNatural
  rcases isNatural with ⟨rfl, rfl⟩
  have isPlace := Icf.mem_places.mp (List.mem_of_mem_filter present)
  have objParsed := parsed _ (List.mem_of_getElem? isPlace.1)
  rcases (objParsed.symbolByIndex_iff _ _).mp isSym with ⟨inSymbols, isIndex⟩
  have raw : reloc.symbol % 2 ^ 32 = sym.index := by
    rw [← isIndex]
    exact index_mod_of_local parsed isPlace.1 inSymbols
  have sameSym : (relaOf objects symbols part reloc).sym =
      outSymFor objects symbols part.1.objId part.1.obj sym.index :=
    congrArg (outSymFor objects symbols part.1.objId part.1.obj) raw
  refine ⟨rfl, rfl, ⟨_, exact, natural, ?_⟩, sym, isSym, ?_⟩
  · exact (isWord ▸ agrees : Agrees exact part.2).add reloc.offset fits
  · rw [sameSym]
    exact encodes.outSymFor_stands parsed present isSym known

theorem preserves : Preserves objects symbols where
  relocs := by
    apply relocs_iff.mpr
    intro part isPart reloc isReloc
    rcases List.mem_flatMap.mp isPart with ⟨name, -, inName⟩
    exact encodes.carries parsed inName isReloc
  locals objId obj sym isObj isSym isLocal := by
    rcases encodes.locals objId obj sym isObj isSym isLocal with ⟨target, isTarget, encodable⟩
    rcases stands_of_local parsed isObj isSym isLocal isTarget encodable
      encodes.count_requests with ⟨number, -, stands⟩
    exact ⟨number, target, isTarget, stands⟩
  globals name res found := by
    rcases encodes.globals name res found with ⟨target, isTarget, encodable⟩
    rcases stands_of_global parsed found isTarget encodable encodes.count_requests with
      ⟨number, -, stands⟩
    exact ⟨number, target, isTarget, stands⟩

end Encodes

end Preservation

/-- A relocatable link of parsed objects preserves its inputs exactly when all of
them can be encoded. -/
theorem preserves_iff {symbols : SymbolTable} (parsed : ∀ obj ∈ objects, obj.Parsed) :
    Preserves objects symbols ↔ Encodes objects symbols :=
  ⟨fun preserves => preserves.encodes parsed, fun encodes => encodes.preserves parsed⟩

def callSection (index : Nat) (name : String) (relocs : List InputReloc) :
    InputSection where
  index := index
  name := nameOf name
  kind := .text
  shType := shtProgbits
  data := .empty
  align := 16
  size := 5
  flags := shfAlloc ||| shfExecinstr
  relocs := relocs

def calleeSymbol : InputSymbol where
  index := 1
  name := nameOf "callee"
  binding := .local
  isUndefined := false
  isCommon := false
  isIfunc := false
  stType := sttFunc
  visibility := 0
  sectionIndex := some 2
  value := 1
  size := 4

/-- Two sections of one name; the first calls a function of the second. -/
def callObject : InputObject :=
  .assemble "call.o" 3 2
    [callSection 1 ".text" [⟨1, 4, 1, -4⟩], callSection 2 ".text" []] [calleeSymbol] []

theorem callObject_parsed : callObject.Parsed :=
  InputObject.assemble_parsed _ _ _ _ _ _ (by decide) (by decide) (by decide) (by decide)

theorem callObject_encodes : Encodes [callObject] SymbolTable.new := by
  have target : localTarget [callObject] 0 callObject calleeSymbol =
      some (.section 1, 17) := by decide +kernel
  refine ⟨by decide +kernel, ?_, ?_, ?_⟩
  · intro objId obj sym isObj isSym isLocal
    cases objId with
    | succ objId => cases isObj
    | zero =>
        cases isObj
        rw [List.mem_singleton.mp isSym]
        refine ⟨_, target, by decide, fun number isNumber => ?_⟩
        cases isNumber
        decide
  · intro name res found
    cases found
  · have members : members [callObject] =
        [⟨0, callObject, 0, callSection 1 ".text" [⟨1, 4, 1, -4⟩]⟩,
          ⟨0, callObject, 1, callSection 2 ".text" []⟩] := by rfl
    intro place present reloc isReloc
    rw [members, List.mem_cons, List.mem_singleton] at present
    rcases present with rfl | rfl
    · rw [List.mem_singleton.mp isReloc]
      exact ⟨⟨1, 0, by decide +kernel, by decide⟩, calleeSymbol, by decide +kernel,
        Or.inl rfl⟩
    · cases isReloc

theorem callObject_preserved : Preserves [callObject] SymbolTable.new :=
  (preserves_iff fun _ present => List.mem_singleton.mp present ▸ callObject_parsed).mpr
    callObject_encodes

/-! ## More sections than a symbol can number -/

/-- A name of three characters below 0x80. -/
private def tag (i : Nat) : Name :=
  [UInt8.ofNat (48 + i / 4096), UInt8.ofNat (48 + i / 64 % 64),
    UInt8.ofNat (48 + i % 64)]

private theorem outName_tag {i : Nat} (small : i < 0xff00) : outName (tag i) = tag i := by
  have first : 48 + i / 4096 < 0x80 := by omega
  have second : 48 + i / 64 % 64 < 0x80 := by omega
  have third : 48 + i % 64 < 0x80 := by omega
  exact encodeUtf8_fromUtf8Lossy fun byte present => by
    rw [tag, List.mem_cons, List.mem_cons, List.mem_singleton] at present
    rcases present with rfl | rfl | rfl <;>
      rw [UInt8.toNat_ofNat', Nat.mod_eq_of_lt (by omega)] <;> assumption

private theorem tag_injective {i j : Nat} (isSmall : i < 0xff00) (isOther : j < 0xff00)
    (same : tag i = tag j) : i = j := by
  have value {n m : Nat} (isByte : n < 256) (isOther : m < 256)
      (same : UInt8.ofNat n = UInt8.ofNat m) : n = m := by
    have naturals := congrArg UInt8.toNat same
    rwa [UInt8.toNat_ofNat', UInt8.toNat_ofNat', Nat.mod_eq_of_lt isByte,
      Nat.mod_eq_of_lt isOther] at naturals
  rw [tag, tag, List.cons.injEq, List.cons.injEq, List.cons.injEq] at same
  have first := value (by omega) (by omega) same.1
  have second := value (by omega) (by omega) same.2.1
  have third := value (by omega) (by omega) same.2.2.1
  omega

private def taggedSection (i : Nat) : InputSection where
  index := i + 1
  name := tag i
  kind := .data
  shType := shtProgbits
  data := .empty
  align := 1
  size := 0
  flags := shfAlloc
  relocs := []

private def lastSymbol (count : Nat) : InputSymbol where
  index := 1
  name := nameOf "last"
  binding := .local
  isUndefined := false
  isCommon := false
  isIfunc := false
  stType := sttObject
  visibility := 0
  sectionIndex := some count
  value := 0
  size := 0

private def manySections (count : Nat) : InputObject :=
  .assemble "many.o" (count + 1) 2 ((List.range count).map taggedSection)
    [lastSymbol count] []

section ManySections

variable {count : Nat} (small : count ≤ 0xff00)

include small

private theorem manySections_parsed : (manySections count).Parsed := by
  refine InputObject.assemble_parsed _ _ _ _ _ _ ?_ (List.nodup_singleton _) ?_ ?_
  · rw [List.map_map]
    exact List.Nodup.map (fun first second same => Nat.succ.inj same) List.nodup_range
  · intro sec present
    rcases List.mem_map.mp present with ⟨i, isSmall, rfl⟩
    have isIndex := List.mem_range.mp isSmall
    change i + 1 < 2 ^ 32
    omega
  · intro sym present
    rw [List.mem_singleton.mp present]
    exact Nat.one_lt_two_pow (by decide)

private theorem names_manySections :
    mergedNames [manySections count] = (List.range count).map tag := by
  have all : members [manySections count] = Icf.placesOf 0 (manySections count) := by
    rw [members, Icf.places, List.zipIdx_singleton, List.flatMap_singleton]
    refine List.filter_eq_self.mpr fun place present => ?_
    rcases List.mem_map.mp present with ⟨entry, isEntry, rfl⟩
    rcases List.mem_map.mp (List.fst_mem_of_mem_zipIdx isEntry) with ⟨i, -, isSection⟩
    change isMerged entry.1 = true
    rw [← isSection]
    rfl
  have names : (members [manySections count]).map (fun place => outName place.sec.name) =
      (List.range count).map tag := by
    rw [all, Icf.placesOf, List.map_map]
    change ((manySections count).sections.zipIdx.map
      ((fun sec : InputSection => outName sec.name) ∘ Prod.fst)) = _
    rw [← List.map_map, List.zipIdx_map_fst]
    change ((List.range count).map taggedSection).map _ = _
    rw [List.map_map]
    refine List.map_congr_left fun i isSmall => outName_tag ?_
    exact Nat.lt_of_lt_of_le (List.mem_range.mp isSmall) small
  rw [mergedNames, names]
  refine Grouping.firstKeys_of_nodup (List.Nodup.map_on ?_ List.nodup_range)
  intro i isSmall j isOther same
  exact tag_injective (Nat.lt_of_lt_of_le (List.mem_range.mp isSmall) small)
    (Nat.lt_of_lt_of_le (List.mem_range.mp isOther) small) same

private theorem lastTarget (positive : 0 < count) : ∃ offset,
    localTarget [manySections count] 0 (manySections count) (lastSymbol count) =
      some (.section count, offset) := by
  have atLast : (manySections count).sections[count - 1]? =
      some (taggedSection (count - 1)) := by
    change ((List.range count).map taggedSection)[count - 1]? = _
    rw [List.getElem?_map, List.getElem?_range (by omega), Option.map_some]
  have present : (⟨0, manySections count, count - 1, taggedSection (count - 1)⟩ :
      Icf.Place) ∈ members [manySections count] :=
    List.mem_filter.mpr ⟨Icf.mem_places.mpr ⟨rfl, atLast⟩, rfl⟩
  rcases exists_placement present with ⟨offset, word, -, -, natural, -⟩
  have number : sectionNumber [manySections count] (outName (tag (count - 1))) =
      count := by
    have distinct : ((List.range count).map tag).Nodup :=
      names_manySections small ▸ nodup_mergedNames
    have inRange : count - 1 < ((List.range count).map tag).length := by
      rw [List.length_map, List.length_range]
      omega
    have atName : ((List.range count).map tag)[count - 1] = tag (count - 1) := by
      rw [List.getElem_map, List.getElem_range]
    rw [sectionNumber, outName_tag (by omega), names_manySections small, ← atName,
      distinct.idxOf_getElem]
    omega
  have inSection : (manySections count).sectionPos count = some (count - 1) :=
    ((manySections_parsed small).sectionPos_iff _ _).mpr
      ⟨_, atLast, Nat.sub_add_cancel positive⟩
  refine ⟨offset + 0, ?_⟩
  have isObject : (lastSymbol count).stType ≠ sttFile := show sttObject ≠ sttFile by decide
  rw [localTarget, if_neg isObject]
  change (((manySections count).sectionPos count).bind _).map _ = _
  rw [inSection, Option.bind_some, natural, Option.map_some]
  change some (SymPlace.section (sectionNumber _ (outName (tag (count - 1)))), _) = _
  rw [number]
  rfl

end ManySections

/-- A symbol of the last of 0xff00 sections has a reserved section index. -/
theorem manySections_not_preserved :
    (∀ obj ∈ [manySections 0xff00], obj.Parsed) ∧
      ¬ Preserves [manySections 0xff00] SymbolTable.new := by
  constructor
  · intro obj present
    rw [List.mem_singleton.mp present]
    exact manySections_parsed (Nat.le_refl _)
  · intro preserves
    rcases lastTarget (Nat.le_refl 0xff00) (by decide) with ⟨offset, isLast⟩
    rcases preserves.locals 0 _ (lastSymbol 0xff00) rfl (List.mem_singleton_self _) rfl
      with ⟨number, target, isTarget, entry, -, -, -, designates⟩
    rw [isLast, Option.some.injEq] at isTarget
    subst isTarget
    exact absurd ((encodable_of_designates designates).2 0xff00 rfl) (by decide)

end Relocatable

end Peony
