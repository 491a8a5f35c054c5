import Peony.Foundation.Sorting
import Peony.Verification.Incremental

namespace Peony

/-! The checker of partial emission is sound and complete, and an emission that it
accepts leaves the image of the full link. -/

/-! ## The image and its sections -/

theorem imageLength_eq (image : ImageBytes) :
    imageLength image = .ok (UInt64.ofNat image.bytes.length) := if_pos image.bounded

theorem ImageBytes.toNat_length (image : ImageBytes) :
    (UInt64.ofNat image.bytes.length).toNat = image.bytes.length :=
  UInt64.toNat_ofNat_of_lt' image.bounded

theorem checkedImageLen_ok_iff {witness : PartialEmitPreservationWitness}
    {imageLen : UInt64} :
    checkedImageLen witness = .ok imageLen ↔
      (witness.previousBytes.bytes.length = witness.partialBytes.bytes.length ∧
        witness.partialBytes.bytes.length = witness.fullBytes.bytes.length) ∧
      imageLen.toNat = witness.previousBytes.bytes.length := by
  have previous := witness.previousBytes.toNat_length
  have partially := witness.partialBytes.toNat_length
  have fully := witness.fullBytes.toNat_length
  rw [checkedImageLen, imageLength_eq, imageLength_eq, imageLength_eq]
  change (if _ then _ else _) = _ ↔ _
  simp only [← UInt64.toNat_inj, previous, partially, fully]
  split
  · rename_i same
    rw [and_iff_right same, Except.ok.injEq, ← UInt64.toNat_inj, previous, eq_comm]
  · rename_i different
    exact ⟨nofun, fun both => absurd both.1 different⟩

structure IncrementalColorWitness.IsRange (sec : IncrementalColorWitness)
    (found : SectionRange) : Prop where
  name : found.sec = sec.sectionName
  start : found.range.start = sec.fileOffset
  stop : found.range.stop.toNat = sec.fileOffset.toNat + sec.size.toNat

namespace IncrementalColorWitness

variable {sec : IncrementalColorWitness} {found : SectionRange}

theorem IsRange.has_iff (isRange : sec.IsRange found) {place : Nat} :
    found.range.Has place ↔ sec.Has place := by
  rw [RangeBounds.has_iff, Has, isRange.start, isRange.stop]

theorem IsRange.unique {other : SectionRange} (isRange : sec.IsRange found)
    (isOther : sec.IsRange other) : found = other := by
  rcases found with ⟨_, ⟨_, stop, _⟩⟩
  rcases other with ⟨_, ⟨_, last, _⟩⟩
  have sameStop : stop = last :=
    UInt64.toNat_inj.mp (isRange.stop.trans isOther.stop.symm)
  cases isRange.name.trans isOther.name.symm
  cases isRange.start.trans isOther.start.symm
  cases sameStop
  rfl

theorem exists_isRange (fits : sec.fileOffset.toNat + sec.size.toNat < 2 ^ 64) :
    ∃ found, sec.IsRange found := by
  rcases RangeBounds.exists_fromStartLen_iff.mpr fits with ⟨range, made⟩
  have ends := RangeBounds.fromStartLen_ok_iff.mp made
  exact ⟨⟨sec.sectionName, range⟩, rfl, ends.1, ends.2⟩

end IncrementalColorWitness

def SectionRange.pushed (ranges : List SectionRange × List SectionRange)
    (color : IncrementalColorWitnessKind) (found : SectionRange) :
    List SectionRange × List SectionRange :=
  match color with
  | .red => (ranges.1 ++ [found], ranges.2)
  | .green => (ranges.1, ranges.2 ++ [found])

section Sections

variable {image : RangeBounds} {imageLen : UInt64}
variable {ranges out : List SectionRange × List SectionRange}
variable (whole : image.start = 0)
include whole

theorem contains_image_iff {range : RangeBounds} :
    image.contains range = true ↔ range.stop.toNat ≤ image.stop.toNat := by
  rw [RangeBounds.contains_iff, whole]
  exact and_iff_right (Nat.zero_le _)

theorem pushSection_ok_iff {sec : IncrementalColorWitness} :
    pushSection image imageLen ranges sec = .ok out ↔
      ∃ found, sec.IsRange found ∧ found.range.stop.toNat ≤ image.stop.toNat ∧
        out = found.pushed ranges sec.color := by
  rw [pushSection, bind_ok_iff]
  constructor
  · rintro ⟨range, made, pushed⟩
    have ends := RangeBounds.fromStartLen_ok_iff.mp (mapError_ok_iff.mp made)
    split at pushed
    · rename_i inside
      refine ⟨⟨sec.sectionName, range⟩, ⟨rfl, ends.1, ends.2⟩,
        (contains_image_iff whole).mp inside, ?_⟩
      cases isColor : sec.color <;> rw [isColor] at pushed <;> cases pushed <;> rfl
    · exact nomatch pushed
  · rintro ⟨⟨name, range⟩, isRange, inside, rfl⟩
    refine ⟨range, mapError_ok_iff.mpr
      (RangeBounds.fromStartLen_ok_iff.mpr ⟨isRange.start, isRange.stop⟩), ?_⟩
    have isName : name = sec.sectionName := isRange.name
    rw [if_pos ((contains_image_iff whole).mpr inside), isName]
    cases sec.color <;> rfl

theorem pushSections_ok {sections : List IncrementalColorWitness}
    (pushed : sections.foldlM (pushSection image imageLen) ranges = .ok out) :
    (∀ sec ∈ sections, sec.fileOffset.toNat + sec.size.toNat ≤ image.stop.toNat) ∧
      (∀ found, found ∈ out.1 ↔ found ∈ ranges.1 ∨
        ∃ sec ∈ sections, sec.color = .red ∧ sec.IsRange found) ∧
      ∀ found, found ∈ out.2 ↔ found ∈ ranges.2 ∨
        ∃ sec ∈ sections, sec.color = .green ∧ sec.IsRange found := by
  induction sections generalizing ranges with
  | nil =>
      cases pushed
      simp
  | cons sec rest induction =>
      rcases bind_ok pushed with ⟨next, first, later⟩
      rcases (pushSection_ok_iff whole).mp first with ⟨found, isRange, inside, rfl⟩
      rcases induction later with ⟨restInside, isRed, isGreen⟩
      rw [isRange.stop] at inside
      have only : ∀ other, sec.IsRange other ↔ other = found := fun other =>
        ⟨fun isOther => isOther.unique isRange, fun same => same ▸ isRange⟩
      refine ⟨List.forall_mem_cons.mpr ⟨inside, restInside⟩, fun other => ?_,
        fun other => ?_⟩
      · rw [isRed other, List.exists_mem_cons_iff, only]
        cases sec.color <;> simp [SectionRange.pushed, or_assoc]
      · rw [isGreen other, List.exists_mem_cons_iff, only]
        cases sec.color <;> simp [SectionRange.pushed, or_assoc]

theorem exists_pushSections {sections : List IncrementalColorWitness}
    (inside : ∀ sec ∈ sections,
      sec.fileOffset.toNat + sec.size.toNat ≤ image.stop.toNat) :
    ∃ out, sections.foldlM (pushSection image imageLen) ranges = .ok out := by
  induction sections generalizing ranges with
  | nil => exact ⟨ranges, rfl⟩
  | cons sec rest induction =>
      rcases List.forall_mem_cons.mp inside with ⟨first, others⟩
      rcases sec.exists_isRange (first.trans_lt image.stop.toNat_lt) with
        ⟨found, isRange⟩
      rcases @induction (found.pushed ranges sec.color) others with ⟨out, later⟩
      refine ⟨out, bind_ok_iff.mpr ⟨_, (pushSection_ok_iff whole).mpr
        ⟨found, isRange, ?_, rfl⟩, later⟩⟩
      rw [isRange.stop]
      exact first

end Sections

/-! ## Writes -/

theorem rangeCoveredBy_eq (stop cursor : UInt64) (reds : List SectionRange) :
    rangeCoveredBy stop cursor reds =
      Sweep.covers (fun red : SectionRange => red.range.start.toNat)
        (fun red => red.range.stop.toNat) stop.toNat cursor.toNat reds := by
  induction reds generalizing cursor with
  | nil => rfl
  | cons red rest induction =>
      rw [rangeCoveredBy, Sweep.covers, induction, induction, toNat_max]
      simp only [UInt64.le_iff_toNat_le, UInt64.lt_iff_toNat_lt, toNat_max]

instance : Std.TransCmp SectionRange.cmp :=
  inferInstanceAs (Std.TransCmp (compareLex _ (compareLex _ _)))

theorem sorted_starts (ranges : List SectionRange) :
    (sortBy SectionRange.cmp ranges).Pairwise fun red other =>
      red.range.start.toNat ≤ other.range.start.toNat := by
  refine (Sorting.pairwise ranges).imp ?_
  intro red other inOrder
  apply Nat.le_of_not_lt
  intro isAfter
  apply inOrder
  have order : compare red.range.start other.range.start = .gt :=
    Std.compare_eq_gt.mpr (UInt64.lt_iff_toNat_lt.mpr isAfter)
  rw [SectionRange.cmp, compareLex, compareOn, order]
  rfl


theorem rangeCoveredByRed_iff {range : RangeBounds} (nonempty : range.isEmpty = false)
    (ranges : List SectionRange) :
    rangeCoveredByRed range (sortBy SectionRange.cmp ranges) = true ↔
      ∀ place, range.Has place → ∃ red ∈ ranges, red.range.Has place := by
  have isBefore := RangeBounds.isEmpty_eq_false_iff.mp nonempty
  rw [rangeCoveredByRed, nonempty, if_neg Bool.false_ne_true, rangeCoveredBy_eq,
    Sweep.covers_iff (sorted_starts ranges) isBefore]
  refine forall_congr' fun place => ?_
  rw [RangeBounds.has_iff, and_imp]
  refine imp_congr_right fun _ => imp_congr_right fun _ => exists_congr fun red => ?_
  exact and_congr_left fun _ => (List.perm_insertionSort _ ranges).mem_iff

theorem rangesOverlap_iff {range other : RangeBounds} (nonempty : range.isEmpty = false)
    (otherNonempty : other.isEmpty = false) :
    rangesOverlap range other = true ↔ ∃ place, range.Has place ∧ other.Has place := by
  rw [RangeBounds.isEmpty_eq_false_iff] at nonempty otherNonempty
  rw [rangesOverlap, Bool.and_eq_true, decide_eq_true_iff, decide_eq_true_iff,
    UInt64.lt_iff_toNat_lt, UInt64.lt_iff_toNat_lt]
  simp only [RangeBounds.has_iff]
  constructor
  · rintro ⟨first, second⟩
    refine ⟨max range.start.toNat other.start.toNat, ?_⟩
    omega
  · rintro ⟨place, has, otherHas⟩
    omega

theorem checkWrite_ok_iff {image : RangeBounds} {imageLen : UInt64}
    (whole : image.start = 0) {reds greens : List SectionRange}
    {write : PartialEmitWriteWitness} (nonempty : write.range.isEmpty = false)
    (greensNonempty : ∀ green ∈ greens, green.range.isEmpty = false) :
    checkWrite image imageLen (sortBy SectionRange.cmp reds) greens write = .ok () ↔
      write.range.stop.toNat ≤ image.stop.toNat ∧
        (∀ place, write.range.Has place → ¬ ∃ green ∈ greens, green.range.Has place) ∧
        ∀ place, write.range.Has place → ∃ red ∈ reds, red.range.Has place := by
  rw [checkWrite, unless_ok_iff, Decidable.not_not, contains_image_iff whole,
    ← rangeCoveredByRed_iff nonempty]
  refine and_congr_right fun _ => ?_
  have untouched : (∀ place, write.range.Has place →
      ¬ ∃ green ∈ greens, green.range.Has place) ↔
      (greens.find? fun green => rangesOverlap write.range green.range) = none := by
    rw [List.find?_eq_none]
    constructor
    · intro apart green present overlap
      rcases (rangesOverlap_iff nonempty (greensNonempty green present)).mp overlap with
        ⟨place, has, greenHas⟩
      exact apart place has ⟨green, present, greenHas⟩
    · rintro disjoint place has ⟨green, present, greenHas⟩
      exact disjoint green present
        ((rangesOverlap_iff nonempty (greensNonempty green present)).mpr
          ⟨place, has, greenHas⟩)
  rw [untouched]
  cases greens.find? fun green => rangesOverlap write.range green.range with
  | some green => exact ⟨nofun, fun both => nomatch both.1⟩
  | none =>
      rw [and_iff_right rfl]
      simp only [ite_not]
      split
      · rename_i covered
        exact iff_of_true rfl covered
      · rename_i uncovered
        exact ⟨nofun, fun covered => absurd covered uncovered⟩

/-! ## Bytes -/

theorem compareByte_ok_iff {sec : SectionRange} {bytes : ByteSlices}
    {comparison : ByteComparison} {offset : Nat} (left : offset < bytes.left.length)
    (right : offset < bytes.right.length) :
    compareByte sec bytes comparison offset = .ok () ↔
      bytes.left[offset]? = bytes.right[offset]? := by
  rw [compareByte, List.getElem?_eq_getElem left, List.getElem?_eq_getElem right]
  simp only [ite_not]
  rw [Option.some.injEq]
  split
  · rename_i same
    exact iff_of_true rfl same
  · rename_i different
    exact ⟨nofun, fun same => absurd same different⟩

theorem compareRange_ok_iff {sec : SectionRange} {bytes : ByteSlices}
    {comparison : ByteComparison} (left : sec.range.stop.toNat ≤ bytes.left.length)
    (right : sec.range.stop.toNat ≤ bytes.right.length) :
    compareRange sec bytes comparison = .ok () ↔
      ∀ place, sec.range.Has place → bytes.left[place]? = bytes.right[place]? := by
  have ordered := sec.range.start_le_stop
  have offsets : ∀ place,
      place ∈ List.range' sec.range.start.toNat
        (sec.range.stop.toNat - sec.range.start.toNat) ↔ sec.range.Has place := by
    intro place
    rw [List.mem_range'_1, RangeBounds.has_iff, Nat.add_sub_cancel' ordered]
  rw [compareRange, forM_ok_iff]
  refine forall_congr' fun place => ?_
  rw [offsets]
  refine imp_congr_right fun has => compareByte_ok_iff ?_ ?_
  · exact has.2.trans_le left
  · exact has.2.trans_le right


theorem compareRanges_ok_iff {sections : List SectionRange} {bytes : ByteSlices}
    {comparison : ByteComparison} {inside : Nat → Prop}
    (isInside : ∀ place, (∃ sec ∈ sections, sec.range.Has place) ↔ inside place)
    (left : ∀ sec ∈ sections, sec.range.stop.toNat ≤ bytes.left.length)
    (right : ∀ sec ∈ sections, sec.range.stop.toNat ≤ bytes.right.length) :
    (∀ sec ∈ sections, compareRange sec bytes comparison = .ok ()) ↔
      ∀ place, inside place → bytes.left[place]? = bytes.right[place]? := by
  constructor
  · intro all place isIn
    rcases (isInside place).mpr isIn with ⟨sec, present, has⟩
    exact (compareRange_ok_iff (left sec present) (right sec present)).mp
      (all sec present) place has
  · intro all sec present
    refine (compareRange_ok_iff (left sec present) (right sec present)).mpr ?_
    exact fun place has => all place ((isInside place).mp ⟨sec, present, has⟩)

/-! ## Soundness and completeness -/

namespace PartialEmitPreservationWitness

variable {witness : PartialEmitPreservationWitness}

theorem checked_iff :
    checkPartialEmitPreservation witness = .ok () ↔
      ∃ imageLen, checkedImageLen witness = .ok imageLen ∧
        ∃ image, RangeBounds.fromStartLen 0 imageLen = .ok image ∧
          ∃ ranges, witness.sections.foldlM (pushSection image imageLen) ([], []) =
              .ok ranges ∧
            (∀ write ∈ witness.writes, checkWrite image imageLen
              (sortBy SectionRange.cmp ranges.1) ranges.2 write = .ok ()) ∧
            (∀ green ∈ ranges.2, compareRange green
              ⟨witness.previousBytes.bytes, witness.partialBytes.bytes⟩
                .greenPreviousPartial = .ok ()) ∧
            ∀ red ∈ ranges.1, compareRange red
              ⟨witness.partialBytes.bytes, witness.fullBytes.bytes⟩ .redPartialFull =
                .ok () := by
  simp only [checkPartialEmitPreservation, bind_ok_iff, exists_done_iff, mapError_ok_iff,
    forM_ok_iff, sortBy, (List.perm_insertionSort _ _).mem_iff]

section Ranges

variable {image : RangeBounds} {imageLen : UInt64}
variable {ranges : List SectionRange × List SectionRange}
variable (whole : image.start = 0)
variable (pushed : witness.sections.foldlM (pushSection image imageLen) ([], []) =
  .ok ranges)
include whole pushed

theorem mem_reds {found : SectionRange} :
    found ∈ ranges.1 ↔ ∃ sec ∈ witness.sections, sec.color = .red ∧ sec.IsRange found := by
  rw [(pushSections_ok whole pushed).2.1 found, or_iff_right List.not_mem_nil]

theorem mem_greens {found : SectionRange} :
    found ∈ ranges.2 ↔
      ∃ sec ∈ witness.sections, sec.color = .green ∧ sec.IsRange found := by
  rw [(pushSections_ok whole pushed).2.2 found, or_iff_right List.not_mem_nil]

theorem exists_isRange_of_mem {sec : IncrementalColorWitness}
    (present : sec ∈ witness.sections) : ∃ found, sec.IsRange found :=
  sec.exists_isRange (((pushSections_ok whole pushed).1 sec present).trans_lt
    image.stop.toNat_lt)

theorem inRed_iff {place : Nat} :
    (∃ red ∈ ranges.1, red.range.Has place) ↔ witness.InRed place := by
  constructor
  · rintro ⟨red, present, has⟩
    rcases (mem_reds whole pushed).mp present with ⟨sec, isSection, isRed, isRange⟩
    exact ⟨sec, isSection, isRed, isRange.has_iff.mp has⟩
  · rintro ⟨sec, isSection, isRed, has⟩
    rcases exists_isRange_of_mem whole pushed isSection with ⟨found, isRange⟩
    exact ⟨found, (mem_reds whole pushed).mpr ⟨sec, isSection, isRed, isRange⟩,
      isRange.has_iff.mpr has⟩

theorem inGreen_iff {place : Nat} :
    (∃ green ∈ ranges.2, green.range.Has place) ↔ witness.InGreen place := by
  constructor
  · rintro ⟨green, present, has⟩
    rcases (mem_greens whole pushed).mp present with ⟨sec, isSection, isGreen, isRange⟩
    exact ⟨sec, isSection, isGreen, isRange.has_iff.mp has⟩
  · rintro ⟨sec, isSection, isGreen, has⟩
    rcases exists_isRange_of_mem whole pushed isSection with ⟨found, isRange⟩
    exact ⟨found, (mem_greens whole pushed).mpr ⟨sec, isSection, isGreen, isRange⟩,
      isRange.has_iff.mpr has⟩

theorem greens_nonempty
    (greensNonempty : ∀ sec ∈ witness.sections, sec.color = .green → sec.size ≠ 0)
    (green : SectionRange) (present : green ∈ ranges.2) :
    green.range.isEmpty = false := by
  rcases (mem_greens whole pushed).mp present with ⟨sec, isSection, isGreen, isRange⟩
  have nonzero : sec.size.toNat ≠ 0 := fun zero =>
    greensNonempty sec isSection isGreen (UInt64.toNat_inj.mp zero)
  rw [RangeBounds.isEmpty_eq_false_iff, isRange.start, isRange.stop]
  omega

section Parts

variable (samePartial :
  witness.previousBytes.bytes.length = witness.partialBytes.bytes.length)
variable (sameFull : witness.partialBytes.bytes.length = witness.fullBytes.bytes.length)
variable (isStop : image.stop.toNat = witness.previousBytes.bytes.length)
include samePartial sameFull isStop

theorem compares_iff :
    ((∀ green ∈ ranges.2, compareRange green
        ⟨witness.previousBytes.bytes, witness.partialBytes.bytes⟩
          .greenPreviousPartial = .ok ()) ∧
      ∀ red ∈ ranges.1, compareRange red
        ⟨witness.partialBytes.bytes, witness.fullBytes.bytes⟩ .redPartialFull = .ok ()) ↔
      (∀ place, witness.InGreen place →
        witness.previousBytes.bytes[place]? = witness.partialBytes.bytes[place]?) ∧
      ∀ place, witness.InRed place →
        witness.partialBytes.bytes[place]? = witness.fullBytes.bytes[place]? := by
  have inside := (pushSections_ok whole pushed).1
  have greensInside : ∀ green ∈ ranges.2,
      green.range.stop.toNat ≤ witness.previousBytes.bytes.length := by
    intro green present
    rcases (mem_greens whole pushed).mp present with ⟨sec, isSection, _, isRange⟩
    rw [isRange.stop, ← isStop]
    exact inside sec isSection
  have redsInside : ∀ red ∈ ranges.1,
      red.range.stop.toNat ≤ witness.previousBytes.bytes.length := by
    intro red present
    rcases (mem_reds whole pushed).mp present with ⟨sec, isSection, _, isRange⟩
    rw [isRange.stop, ← isStop]
    exact inside sec isSection
  refine and_congr ?_ ?_
  · refine compareRanges_ok_iff (fun _ => inGreen_iff whole pushed) greensInside ?_
    rw [← samePartial]
    exact greensInside
  · refine compareRanges_ok_iff (fun _ => inRed_iff whole pushed) ?_ ?_
    · rw [← samePartial]
      exact redsInside
    · rw [← sameFull, ← samePartial]
      exact redsInside

end Parts

end Ranges

variable (writesNonempty : ∀ write ∈ witness.writes, write.range.isEmpty = false)
variable (greensNonempty : ∀ sec ∈ witness.sections, sec.color = .green → sec.size ≠ 0)
include writesNonempty greensNonempty

theorem writes_iff {image : RangeBounds} {imageLen : UInt64}
    {ranges : List SectionRange × List SectionRange} (whole : image.start = 0)
    (pushed : witness.sections.foldlM (pushSection image imageLen) ([], []) =
      .ok ranges) :
    (∀ write ∈ witness.writes, checkWrite image imageLen
        (sortBy SectionRange.cmp ranges.1) ranges.2 write = .ok ()) ↔
      (∀ write ∈ witness.writes, write.range.stop.toNat ≤ image.stop.toNat) ∧
        (∀ place, witness.InWrite place → ¬ witness.InGreen place) ∧
        ∀ place, witness.InWrite place → witness.InRed place := by
  have each : ∀ write ∈ witness.writes,
      checkWrite image imageLen (sortBy SectionRange.cmp ranges.1) ranges.2 write =
          .ok () ↔
        write.range.stop.toNat ≤ image.stop.toNat ∧
          (∀ place, write.range.Has place → ¬ witness.InGreen place) ∧
          ∀ place, write.range.Has place → witness.InRed place := by
    intro write present
    rw [checkWrite_ok_iff whole (writesNonempty write present)
      (greens_nonempty whole pushed greensNonempty)]
    simp only [inRed_iff whole pushed, inGreen_iff whole pushed]
  constructor
  · intro all
    refine ⟨fun write present => ((each write present).mp (all write present)).1, ?_, ?_⟩
    · rintro place ⟨write, present, has⟩
      exact ((each write present).mp (all write present)).2.1 place has
    · rintro place ⟨write, present, has⟩
      exact ((each write present).mp (all write present)).2.2 place has
  · rintro ⟨inside, apart, covered⟩ write present
    exact (each write present).mpr ⟨inside write present,
      fun place has => apart place ⟨write, present, has⟩,
      fun place has => covered place ⟨write, present, has⟩⟩

theorem checked_iff_preserved :
    checkPartialEmitPreservation witness = .ok () ↔ witness.Preserved := by
  rw [checked_iff]
  constructor
  · rintro ⟨imageLen, isLength, image, isImage, ranges, pushed, writes, compared⟩
    rcases checkedImageLen_ok_iff.mp isLength with ⟨⟨samePartial, sameFull⟩, isLength⟩
    rcases RangeBounds.fromStartLen_ok_iff.mp isImage with ⟨whole, isStop⟩
    have isEnd : image.stop.toNat = witness.previousBytes.bytes.length := by
      rw [isStop, isLength]
      exact Nat.zero_add _
    rcases (writes_iff writesNonempty greensNonempty whole pushed).mp writes with
      ⟨inside, apart, covered⟩
    rcases (compares_iff whole pushed samePartial sameFull isEnd).mp compared with
      ⟨greenKept, redRight⟩
    exact {
      partialLength := samePartial
      fullLength := sameFull
      sectionsInside := isEnd ▸ (pushSections_ok whole pushed).1
      writesInside := isEnd ▸ inside
      covered := covered
      apart := apart
      greenKept := greenKept
      redRight := redRight }
  · intro preserved
    have isLength := witness.previousBytes.toNat_length
    refine ⟨_, checkedImageLen_ok_iff.mpr
      ⟨⟨preserved.partialLength, preserved.fullLength⟩, isLength⟩, ?_⟩
    rcases RangeBounds.exists_fromStartLen_iff.mpr
      (show (0 : UInt64).toNat + (UInt64.ofNat witness.previousBytes.bytes.length).toNat <
        2 ^ 64 by
          rw [isLength]
          exact (Nat.zero_add _).trans_lt witness.previousBytes.bounded) with
      ⟨image, isImage⟩
    rcases RangeBounds.fromStartLen_ok_iff.mp isImage with ⟨whole, isStop⟩
    have isEnd : image.stop.toNat = witness.previousBytes.bytes.length := by
      rw [isStop, isLength]
      exact Nat.zero_add _
    rcases exists_pushSections whole (isEnd ▸ preserved.sectionsInside) with
      ⟨ranges, pushed⟩
    refine ⟨image, isImage, ranges, pushed, ?_, ?_⟩
    · exact (writes_iff writesNonempty greensNonempty whole pushed).mpr
        ⟨isEnd ▸ preserved.writesInside, preserved.apart, preserved.covered⟩
    · exact (compares_iff whole pushed preserved.partialLength preserved.fullLength
        isEnd).mpr ⟨preserved.greenKept, preserved.redRight⟩

omit writesNonempty greensNonempty in
theorem Preserved.partial_eq_full (preserved : witness.Preserved)
    (kept : ∀ place, ¬ witness.InWrite place →
      witness.partialBytes.bytes[place]? = witness.previousBytes.bytes[place]?)
    (agrees : ∀ place, ¬ witness.InRed place →
      witness.previousBytes.bytes[place]? = witness.fullBytes.bytes[place]?) :
    witness.partialBytes.bytes = witness.fullBytes.bytes := by
  apply List.ext_getElem?
  intro place
  by_cases isRed : witness.InRed place
  · exact preserved.redRight place isRed
  · have unwritten : ¬ witness.InWrite place := isRed ∘ preserved.covered place
    exact (kept place unwritten).trans (agrees place isRed)

/-- The checker accepts exactly the witnesses whose writes stay in red sections that
are as in the full link, and off green sections that are kept. Where the emission
changed only what it wrote, and the full link only red sections, the emission then
leaves the image of the full link. -/
theorem checkPartialEmitPreservation_iff :
    (checkPartialEmitPreservation witness = .ok () ↔ witness.Preserved) ∧
      (checkPartialEmitPreservation witness = .ok () →
        (∀ place, ¬ witness.InWrite place →
          witness.partialBytes.bytes[place]? = witness.previousBytes.bytes[place]?) →
        (∀ place, ¬ witness.InRed place →
          witness.previousBytes.bytes[place]? = witness.fullBytes.bytes[place]?) →
        witness.partialBytes.bytes = witness.fullBytes.bytes) := by
  have accepted := checked_iff_preserved writesNonempty greensNonempty
  exact ⟨accepted, fun checked => (accepted.mp checked).partial_eq_full⟩

omit writesNonempty greensNonempty

/-- One write over two red sections that touch, with an empty one between them. -/
private def rewritten : PartialEmitPreservationWitness where
  sections :=
    [⟨".text", 2, 1, .red⟩, ⟨".note", 2, 0, .red⟩, ⟨".init", 1, 1, .red⟩,
      ⟨".data", 3, 1, .green⟩]
  writes := [⟨"sections", ⟨1, 3, by decide⟩⟩]
  previousBytes := ⟨[1, 2, 3, 4], by decide⟩
  partialBytes := ⟨[1, 7, 8, 4], by decide⟩
  fullBytes := ⟨[1, 7, 8, 4], by decide⟩

theorem checkPartialEmitPreservation_rewritten :
    rewritten.Preserved ∧ rewritten.partialBytes.bytes = rewritten.fullBytes.bytes :=
  ⟨(@checkPartialEmitPreservation_iff rewritten (by decide) (by decide)).1.mp
    (by decide +kernel), rfl⟩

end PartialEmitPreservationWitness

end Peony
