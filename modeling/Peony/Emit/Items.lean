import Mathlib.Data.List.ReduceOption
import Mathlib.Data.List.Sort
import Peony.Emit.Filter
import Peony.Foundation.Fallible
import Peony.Reloc.Apply

namespace Peony

/-! The work items of an emission: the input sections that are copied to the
output, each with its range of the file, and the validation of these ranges. -/

/-! ## Collection -/

structure WorkItem where
  fileOff : UInt64
  fileLen : UInt64
  sectionVa : UInt64
  obj : InputObject
  isec : InputSection
  objId : Nat
  inputSectionIndex : Nat

def saturatingAdd (first second : UInt64) : UInt64 :=
  if first.toNat + second.toNat < 2 ^ 64 then first + second
  else 0xFFFFFFFFFFFFFFFF

def workItemOf (objects : List InputObject) (sec : OutputSection)
    (c : SectionContribution) : Option WorkItem := do
  let obj ← objects[c.objectId]?
  let isec ← obj.sections[c.sectionPos]?
  return {
    fileOff := saturatingAdd sec.shOffset c.offset
    fileLen := isec.data.len.toUInt64
    sectionVa := saturatingAdd sec.shAddr c.offset
    obj := obj
    isec := isec
    objId := c.objectId
    inputSectionIndex := c.sectionIndex }

def collectInputWorkItems (layout : Layout) (objects : List InputObject)
    (filter : SectionWriteFilter) : List WorkItem :=
  (layout.outputSections.filter fun sec =>
      sec.source == .input && filter.collectsOutputSection sec.name).flatMap
    fun sec =>
      (sec.contributions.filter fun c => filter.writesContribution c.objectId).filterMap
        (workItemOf objects sec)

/-! ## Footprints -/

/-- The bytes before the offset of a relocation and the length of all that it can
read or write; types that touch nothing have none. -/
def footprintShape (rType : UInt32) : Option (Nat × Nat) :=
  match RelocType.ofCode rType with
  | some .r64 | some .pc64 | some .gotoff64 | some .size64 | some .tpoff64
  | some .dtpoff64 => some (0, 8)
  | some .r32 | some .r32s | some .pc32 | some .size32 | some .plt32
  | some .gotpcrel | some .gotpcrelx | some .rexGotpcrelx | some .got32
  | some .gotpc32 | some .tpoff32 | some .dtpoff32 | some .gottpoff => some (0, 4)
  | some .r16 | some .pc16 => some (0, 2)
  | some .r8 | some .pc8 => some (0, 1)
  | some .tlsgd => some (4, 16)
  | some .tlsld => some (3, 12)
  | some .gotpc32Tlsdesc => some (3, 7)
  | some .tlsdescCall => some (0, 2)
  | some .none | some .dtpmod64 | some .tlsdesc | none => none

inductive WorkRangeError where
  | overflow (itemIndex fileOff fileLen : Nat)
  | outOfBounds (itemIndex fileOff fileLen bufLen : Nat)
  | overlap (firstIndex firstStart firstEnd secondIndex secondStart secondEnd : Nat)
  | relocationBeforeSection (itemIndex relocIndex : Nat) (rType : UInt32)
      (offset : UInt64) (prefixLen : Nat)
  | relocationOutOfBounds (itemIndex relocIndex : Nat) (rType : UInt32)
      (offset : UInt64) (width sectionLen : Nat)
deriving DecidableEq, Repr

structure RelocationFootprint where
  start : Nat
  len : Nat
deriving DecidableEq, Repr

def relocationFootprint (itemIndex relocIndex : Nat) (reloc : InputReloc) :
    Except WorkRangeError (Option RelocationFootprint) :=
  match footprintShape reloc.rType with
  | none => .ok none
  | some (prefixLen, len) =>
      if reloc.offset.toNat < prefixLen then
        .error (.relocationBeforeSection itemIndex relocIndex reloc.rType
          reloc.offset prefixLen)
      else .ok (some ⟨reloc.offset.toNat - prefixLen, len⟩)

/-! ## Validation -/

structure WorkRange where
  itemIndex : Nat
  start : Nat
  stop : Nat
deriving DecidableEq, Repr

namespace WorkRange

def contains (range : WorkRange) (start stop : Nat) : Bool :=
  range.start ≤ start && stop ≤ range.stop

def fromParts (itemIndex : Nat) (fileOff fileLen : UInt64) (bufLen : Nat) :
    Except WorkRangeError (Option WorkRange) :=
  let stop := fileOff.toNat + fileLen.toNat
  if fileLen = 0 then .ok none
  else if 2 ^ 64 ≤ stop then
    .error (.overflow itemIndex fileOff.toNat fileLen.toNat)
  else if bufLen < stop then
    .error (.outOfBounds itemIndex fileOff.toNat fileLen.toNat bufLen)
  else .ok (some ⟨itemIndex, fileOff.toNat, stop⟩)

/-- The order of the sort key: start, end and index. -/
def Before (first second : WorkRange) : Prop :=
  first.start < second.start ∨ first.start = second.start ∧
    (first.stop < second.stop ∨ first.stop = second.stop ∧
      first.itemIndex ≤ second.itemIndex)

instance : DecidableRel Before := fun first second => by
  unfold Before
  infer_instance

instance : Std.Total Before where
  total first second := by
    unfold Before
    omega

instance : IsTrans WorkRange Before where
  trans first second third := by
    unfold Before
    omega

end WorkRange

/-- A footprint whose end overflows the word lies outside of the section too. -/
def validateReloc (itemIndex : Nat) (isec : InputSection) (reloc : InputReloc)
    (relocIndex : Nat) : Except WorkRangeError Unit := do
  match ← relocationFootprint itemIndex relocIndex reloc with
  | none => .ok ()
  | some footprint =>
      if isec.data.len.toNat < footprint.start + footprint.len then
        .error (.relocationOutOfBounds itemIndex relocIndex reloc.rType
          reloc.offset footprint.len isec.data.len.toNat)
      else .ok ()

def validateItemContainment (itemIndex : Nat) (isec : InputSection)
    (accepted : WorkRange) : Except WorkRangeError Unit :=
  let acceptedLen := accepted.stop - accepted.start
  if acceptedLen < isec.data.len.toNat then
    .error (.outOfBounds itemIndex accepted.start isec.data.len.toNat acceptedLen)
  else isec.relocs.zipIdx.forM fun reloc =>
    validateReloc itemIndex isec reloc.1 reloc.2

/-- Compare every range with the one before it. -/
def validateAdjacent : Option WorkRange → List WorkRange →
    Except WorkRangeError Unit
  | _, [] => .ok ()
  | none, current :: rest => validateAdjacent (some current) rest
  | some first, current :: rest =>
      if current.start < first.stop then
        .error (.overlap first.itemIndex first.start first.stop current.itemIndex
          current.start current.stop)
      else validateAdjacent (some current) rest

def validateWorkRanges (ranges : List WorkRange) : Except WorkRangeError Unit :=
  validateAdjacent none (ranges.insertionSort WorkRange.Before)

def acceptItem (bufLen : Nat) (item : WorkItem) (itemIndex : Nat) :
    Except WorkRangeError (Option WorkRange) := do
  match ← WorkRange.fromParts itemIndex item.fileOff item.fileLen bufLen with
  | none => .ok none
  | some range =>
      validateItemContainment itemIndex item.isec range
      .ok (some range)

def validateWorkItemRanges (items : List WorkItem) (bufLen : Nat) :
    Except WorkRangeError (List (Option WorkRange)) := do
  let itemRanges ← items.zipIdx.mapM fun item => acceptItem bufLen item.1 item.2
  validateWorkRanges itemRanges.reduceOption
  return itemRanges

/-! ## What validation accepts -/

def WorkItem.Covers (item : WorkItem) (place : Nat) : Prop :=
  item.fileOff.toNat ≤ place ∧ place < item.fileOff.toNat + item.fileLen.toNat

def InputReloc.Inside (reloc : InputReloc) (isec : InputSection) : Prop :=
  ∀ prefixLen len, footprintShape reloc.rType = some (prefixLen, len) →
    prefixLen ≤ reloc.offset.toNat ∧
      reloc.offset.toNat - prefixLen + len ≤ isec.data.len.toNat

/-- The range of the item lies inside of the buffer, its section in the range and
the footprints of the relocations in the section. -/
structure WorkItem.Fits (item : WorkItem) (bufLen : Nat) : Prop where
  noOverflow : item.fileOff.toNat + item.fileLen.toNat < 2 ^ 64
  inside : item.fileOff.toNat + item.fileLen.toNat ≤ bufLen
  data : item.isec.data.len.toNat ≤ item.fileLen.toNat
  footprints : ∀ reloc ∈ item.isec.relocs, reloc.Inside item.isec

structure ItemsFit (items : List WorkItem) (bufLen : Nat) : Prop where
  fits : ∀ item ∈ items, item.fileLen ≠ 0 → item.Fits bufLen
  disjoint : items.Pairwise fun first second =>
    ∀ place, ¬ (first.Covers place ∧ second.Covers place)

theorem relocationFootprint_of_shape {itemIndex relocIndex : Nat}
    {reloc : InputReloc} {prefixLen len : Nat}
    (shape : footprintShape reloc.rType = some (prefixLen, len)) :
    relocationFootprint itemIndex relocIndex reloc =
      if reloc.offset.toNat < prefixLen then
        .error (.relocationBeforeSection itemIndex relocIndex reloc.rType
          reloc.offset prefixLen)
      else .ok (some ⟨reloc.offset.toNat - prefixLen, len⟩) := by
  rw [relocationFootprint, shape]

theorem validateReloc_ok_iff {itemIndex : Nat} {isec : InputSection}
    {reloc : InputReloc} {relocIndex : Nat} :
    validateReloc itemIndex isec reloc relocIndex = .ok () ↔ reloc.Inside isec := by
  rw [InputReloc.Inside, validateReloc]
  cases shape : footprintShape reloc.rType with
  | none =>
      rw [relocationFootprint, shape]
      exact ⟨fun _ prefixLen len impossible => (by cases impossible), fun _ => rfl⟩
  | some both =>
      rcases both with ⟨prefixLen, len⟩
      rw [relocationFootprint_of_shape shape]
      by_cases before : reloc.offset.toNat < prefixLen
      · rw [if_pos before]
        constructor
        · intro impossible
          cases impossible
        · intro inside
          exact absurd (inside prefixLen len rfl).1 (Nat.not_le.mpr before)
      · rw [if_neg before]
        change (if isec.data.len.toNat < reloc.offset.toNat - prefixLen + len then _
          else _) = _ ↔ _
        split
        · rename_i outside
          constructor
          · intro impossible
            cases impossible
          · intro inside
            exact absurd (inside prefixLen len rfl).2 (Nat.not_le.mpr outside)
        · rename_i inside
          refine ⟨fun _ first second isShape => ?_, fun _ => rfl⟩
          cases isShape
          exact ⟨Nat.not_lt.mp before, Nat.not_lt.mp inside⟩

theorem validateItemContainment_ok_iff {itemIndex : Nat} {isec : InputSection}
    {accepted : WorkRange} :
    validateItemContainment itemIndex isec accepted = .ok () ↔
      isec.data.len.toNat ≤ accepted.stop - accepted.start ∧
        ∀ reloc ∈ isec.relocs, reloc.Inside isec := by
  rw [validateItemContainment]
  split
  · rename_i outside
    constructor
    · intro impossible
      cases impossible
    · intro both
      exact absurd both.1 (Nat.not_le.mpr outside)
  · rename_i inside
    rw [forM_ok_iff]
    constructor
    · intro all
      refine ⟨Nat.not_lt.mp inside, fun reloc present => ?_⟩
      rcases List.getElem?_of_mem present with ⟨index, isReloc⟩
      have member : (reloc, index) ∈ isec.relocs.zipIdx :=
        List.mk_mem_zipIdx_iff_getElem?.mpr isReloc
      exact validateReloc_ok_iff.mp (all _ member)
    · intro both reloc present
      exact validateReloc_ok_iff.mpr
        (both.2 reloc.1 (List.fst_mem_of_mem_zipIdx present))

def WorkItem.range (item : WorkItem) (itemIndex : Nat) : Option WorkRange :=
  if item.fileLen = 0 then none
  else some ⟨itemIndex, item.fileOff.toNat,
    item.fileOff.toNat + item.fileLen.toNat⟩

theorem acceptItem_ok_iff {bufLen : Nat} {item : WorkItem} {itemIndex : Nat}
    {accepted : Option WorkRange} :
    acceptItem bufLen item itemIndex = .ok accepted ↔
      accepted = item.range itemIndex ∧ (item.fileLen ≠ 0 → item.Fits bufLen) := by
  rw [acceptItem, WorkRange.fromParts, WorkItem.range]
  by_cases empty : item.fileLen = 0
  · rw [if_pos empty, if_pos empty]
    constructor
    · intro equal
      cases equal
      exact ⟨rfl, fun nonempty => absurd empty nonempty⟩
    · rintro ⟨rfl, -⟩
      rfl
  rw [if_neg empty, if_neg empty]
  by_cases overflow : 2 ^ 64 ≤ item.fileOff.toNat + item.fileLen.toNat
  · rw [if_pos overflow]
    constructor
    · intro impossible
      cases impossible
    · intro both
      exact absurd (both.2 empty).noOverflow (Nat.not_lt.mpr overflow)
  rw [if_neg overflow]
  by_cases outside : bufLen < item.fileOff.toNat + item.fileLen.toNat
  · rw [if_pos outside]
    constructor
    · intro impossible
      cases impossible
    · intro both
      exact absurd (both.2 empty).inside (Nat.not_le.mpr outside)
  rw [if_neg outside]
  change (validateItemContainment itemIndex item.isec
    ⟨itemIndex, item.fileOff.toNat, item.fileOff.toNat + item.fileLen.toNat⟩ >>=
      fun _ => Except.ok _) = _ ↔ _
  have contained := @validateItemContainment_ok_iff itemIndex item.isec
    ⟨itemIndex, item.fileOff.toNat, item.fileOff.toNat + item.fileLen.toNat⟩
  rw [Nat.add_sub_cancel_left] at contained
  cases checked : validateItemContainment itemIndex item.isec
      ⟨itemIndex, item.fileOff.toNat, item.fileOff.toNat + item.fileLen.toNat⟩ with
  | error error =>
      constructor
      · intro impossible
        cases impossible
      · intro both
        have fits := both.2 empty
        rw [contained.mpr ⟨fits.data, fits.footprints⟩] at checked
        cases checked
  | ok done =>
      constructor
      · intro equal
        cases equal
        have both := contained.mp checked
        exact ⟨rfl, fun _ => ⟨Nat.not_le.mp overflow, Nat.not_lt.mp outside, both.1,
          both.2⟩⟩
      · rintro ⟨rfl, -⟩
        rfl

/-! ### The sweep -/

theorem validateAdjacent_ok_iff {ranges : List WorkRange}
    (sorted : ranges.Pairwise fun first second => first.start ≤ second.start)
    (nonempty : ∀ range ∈ ranges, range.start < range.stop)
    (previous : Option WorkRange) :
    validateAdjacent previous ranges = .ok () ↔
      (∀ first ∈ previous, ∀ range ∈ ranges, first.stop ≤ range.start) ∧
        ranges.Pairwise fun first second => first.stop ≤ second.start := by
  induction ranges generalizing previous with
  | nil => simp [validateAdjacent]
  | cons current rest induction =>
      rw [List.pairwise_cons] at sorted
      have later := induction sorted.2
        (fun range present => nonempty range (List.mem_cons_of_mem _ present))
        (some current)
      simp only [Option.mem_some_iff, forall_eq'] at later
      rw [List.pairwise_cons]
      cases previous with
      | none =>
          rw [validateAdjacent, later]
          simp
      | some first =>
          rw [validateAdjacent]
          split
          · rename_i overlap
            constructor
            · intro impossible
              cases impossible
            · intro both
              exact absurd (both.1 first rfl current List.mem_cons_self)
                (Nat.not_le.mpr overlap)
          · rename_i apart
            rw [later]
            simp only [Option.mem_some_iff, forall_eq', List.forall_mem_cons]
            constructor
            · rintro ⟨above, separate⟩
              refine ⟨⟨Nat.not_lt.mp apart, fun range present => ?_⟩, above, separate⟩
              have stop := nonempty current List.mem_cons_self
              have start := above range present
              omega
            · rintro ⟨-, above, separate⟩
              exact ⟨above, separate⟩

def WorkRange.Apart (first second : WorkRange) : Prop :=
  first.stop ≤ second.start ∨ second.stop ≤ first.start

theorem validateWorkRanges_ok_iff {ranges : List WorkRange}
    (nonempty : ∀ range ∈ ranges, range.start < range.stop) :
    validateWorkRanges ranges = .ok () ↔ ranges.Pairwise WorkRange.Apart := by
  have perm := List.perm_insertionSort WorkRange.Before ranges
  have ordered := List.pairwise_insertionSort WorkRange.Before ranges
  have sorted : (ranges.insertionSort WorkRange.Before).Pairwise
      fun first second => first.start ≤ second.start := by
    refine ordered.imp fun {first second} before => ?_
    rw [WorkRange.Before] at before
    omega
  have nonemptySorted : ∀ range ∈ ranges.insertionSort WorkRange.Before,
      range.start < range.stop := fun range present =>
    nonempty range (perm.mem_iff.mp present)
  have symmetric : ∀ {first second : WorkRange}, first.Apart second →
      second.Apart first := fun apart => Or.symm apart
  rw [validateWorkRanges, validateAdjacent_ok_iff sorted nonemptySorted,
    ← perm.pairwise_iff symmetric]
  constructor
  · intro both
    exact both.2.imp Or.inl
  · intro apart
    refine ⟨fun first impossible => (by cases impossible), ?_⟩
    refine (sorted.and apart).imp_of_mem fun {first second} isFirst isSecond both => ?_
    have firstNonempty := nonemptySorted first isFirst
    have secondNonempty := nonemptySorted second isSecond
    rcases both with ⟨before, below | above⟩
    · exact below
    · omega

/-! ### All items -/

theorem mapM_ok_iff {Item Value Error : Type} {action : Item → Except Error Value}
    {value : Item → Value} {holds : Item → Prop}
    (each : ∀ item result, action item = .ok result ↔ result = value item ∧ holds item)
    {items : List Item} {results : List Value} :
    items.mapM action = .ok results ↔
      results = items.map value ∧ ∀ item ∈ items, holds item := by
  induction items generalizing results with
  | nil =>
      rw [List.mapM_nil]
      constructor
      · intro equal
        cases equal
        exact ⟨rfl, fun item absent => absurd absent List.not_mem_nil⟩
      · rintro ⟨rfl, -⟩
        rfl
  | cons head rest induction =>
      rw [List.mapM_cons, List.forall_mem_cons, List.map_cons]
      cases isHead : action head with
      | error error =>
          constructor
          · intro impossible
            cases impossible
          · intro both
            rw [(each head _).mpr ⟨rfl, both.2.1⟩] at isHead
            cases isHead
      | ok result =>
          rcases (each head result).mp isHead with ⟨rfl, holdsHead⟩
          cases isRest : rest.mapM action with
          | error error =>
              constructor
              · intro impossible
                cases impossible
              · intro both
                rw [induction.mpr ⟨rfl, both.2.2⟩] at isRest
                cases isRest
          | ok others =>
              rcases induction.mp isRest with ⟨rfl, holdsRest⟩
              constructor
              · intro equal
                cases equal
                exact ⟨rfl, holdsHead, holdsRest⟩
              · rintro ⟨rfl, -⟩
                rfl

def workRanges (items : List WorkItem) : List (Option WorkRange) :=
  items.zipIdx.map fun item => item.1.range item.2

theorem range_nonempty {items : List WorkItem} {range : WorkRange}
    (present : range ∈ (workRanges items).reduceOption) : range.start < range.stop := by
  rcases List.mem_map.mp (List.reduceOption_mem_iff.mp present) with
    ⟨item, -, isRange⟩
  rw [WorkItem.range] at isRange
  split at isRange
  · cases isRange
  · rename_i nonempty
    cases isRange
    have positive : item.1.fileLen.toNat ≠ 0 := fun isZero =>
      nonempty (UInt64.toNat_inj.mp isZero)
    exact Nat.lt_add_of_pos_right (Nat.pos_of_ne_zero positive)

theorem apart_iff {first second : WorkItem} (firstIndex secondIndex : Nat) :
    (∀ one ∈ first.range firstIndex, ∀ other ∈ second.range secondIndex,
        one.Apart other) ↔
      ∀ place, ¬ (first.Covers place ∧ second.Covers place) := by
  rw [WorkItem.range, WorkItem.range]
  simp only [WorkItem.Covers]
  by_cases emptyFirst : first.fileLen = 0
  · have length : first.fileLen.toNat = 0 := congrArg UInt64.toNat emptyFirst
    rw [if_pos emptyFirst]
    exact ⟨fun _ place covers => by omega, fun _ one impossible => by cases impossible⟩
  by_cases emptySecond : second.fileLen = 0
  · have length : second.fileLen.toNat = 0 := congrArg UInt64.toNat emptySecond
    rw [if_pos emptySecond]
    exact ⟨fun _ place covers => by omega,
      fun _ one _ other impossible => by cases impossible⟩
  have firstLength : first.fileLen.toNat ≠ 0 := fun isZero =>
    emptyFirst (UInt64.toNat_inj.mp isZero)
  have secondLength : second.fileLen.toNat ≠ 0 := fun isZero =>
    emptySecond (UInt64.toNat_inj.mp isZero)
  rw [if_neg emptyFirst, if_neg emptySecond]
  simp only [Option.mem_some_iff, forall_eq', WorkRange.Apart]
  constructor
  · intro apart place covers
    omega
  · intro separate
    by_contra overlap
    rcases Nat.le_total first.fileOff.toNat second.fileOff.toNat with below | above
    · exact separate second.fileOff.toNat (by omega)
    · exact separate first.fileOff.toNat (by omega)

theorem pairwise_apart_iff {items : List WorkItem} (start : Nat) :
    ((items.zipIdx start).map
        fun item => item.1.range item.2).reduceOption.Pairwise WorkRange.Apart ↔
      items.Pairwise fun first second =>
        ∀ place, ¬ (first.Covers place ∧ second.Covers place) := by
  induction items generalizing start with
  | nil => simp
  | cons head rest induction =>
      rw [List.zipIdx_cons, List.map_cons, List.pairwise_cons]
      have separate : (∀ one ∈ head.range start,
          ∀ other ∈ ((rest.zipIdx (start + 1)).map fun item =>
            item.1.range item.2).reduceOption, one.Apart other) ↔
          ∀ second ∈ rest, ∀ place, ¬ (head.Covers place ∧ second.Covers place) := by
        constructor
        · intro all second present
          rcases List.getElem?_of_mem present with ⟨index, isSecond⟩
          refine (apart_iff start (start + 1 + index)).mp fun one isOne other isOther =>
            all one isOne other ?_
          refine List.reduceOption_mem_iff.mpr (List.mem_map.mpr
            ⟨(second, start + 1 + index), ?_, isOther⟩)
          refine List.mk_mem_zipIdx_iff_le_and_getElem?_sub.mpr ⟨Nat.le_add_right _ _, ?_⟩
          rw [Nat.add_sub_cancel_left]
          exact isSecond
        · intro all one isOne other present
          rcases List.mem_map.mp (List.reduceOption_mem_iff.mp present) with
            ⟨second, isSecond, isOther⟩
          exact (apart_iff start second.2).mpr
            (all second.1 (List.fst_mem_of_mem_zipIdx isSecond)) one isOne other isOther
      cases isRange : head.range start with
      | none =>
          rw [isRange] at separate
          rw [List.reduceOption_cons_of_none, induction]
          exact ⟨fun later => ⟨separate.mp fun one impossible => (by cases impossible),
            later⟩, And.right⟩
      | some range =>
          rw [isRange] at separate
          rw [List.reduceOption_cons_of_some, List.pairwise_cons, induction, ← separate]
          simp

theorem validateWorkItemRanges_ok_iff {items : List WorkItem} {bufLen : Nat}
    {ranges : List (Option WorkRange)} :
    validateWorkItemRanges items bufLen = .ok ranges ↔
      ranges = workRanges items ∧ ItemsFit items bufLen := by
  have accepted := @mapM_ok_iff (WorkItem × Nat) (Option WorkRange) WorkRangeError
    (fun item => acceptItem bufLen item.1 item.2) (fun item => item.1.range item.2)
    (fun item => item.1.fileLen ≠ 0 → item.1.Fits bufLen)
    (fun item result => acceptItem_ok_iff) items.zipIdx
  have everywhere : (∀ item ∈ items.zipIdx, item.1.fileLen ≠ 0 → item.1.Fits bufLen) ↔
      ∀ item ∈ items, item.fileLen ≠ 0 → item.Fits bufLen := by
    constructor
    · intro all item present
      rcases List.getElem?_of_mem present with ⟨index, isItem⟩
      exact all (item, index) (List.mk_mem_zipIdx_iff_getElem?.mpr isItem)
    · intro all item present
      exact all item.1 (List.fst_mem_of_mem_zipIdx present)
  have swept := @validateWorkRanges_ok_iff (workRanges items).reduceOption
    fun range => range_nonempty
  have apart : (workRanges items).reduceOption.Pairwise WorkRange.Apart ↔ _ :=
    pairwise_apart_iff 0
  rw [validateWorkItemRanges]
  cases isMapped : items.zipIdx.mapM fun item => acceptItem bufLen item.1 item.2 with
  | error error =>
      constructor
      · intro impossible
        cases impossible
      · intro both
        rw [accepted.mpr ⟨rfl, everywhere.mpr both.2.fits⟩] at isMapped
        cases isMapped
  | ok itemRanges =>
      rcases accepted.mp isMapped with ⟨rfl, fits⟩
      change (validateWorkRanges (workRanges items).reduceOption >>= fun _ =>
        Except.ok (workRanges items)) = _ ↔ _
      cases isSwept : validateWorkRanges (workRanges items).reduceOption with
      | error error =>
          constructor
          · intro impossible
            cases impossible
          · intro both
            rw [swept.mpr (apart.mpr both.2.disjoint)] at isSwept
            cases isSwept
      | ok done =>
          constructor
          · intro equal
            cases equal
            exact ⟨rfl, everywhere.mp fits, apart.mp (swept.mp isSwept)⟩
          · rintro ⟨rfl, -⟩
            rfl

end Peony
