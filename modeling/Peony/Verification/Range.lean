import Mathlib.Algebra.Group.Nat.Defs
import Peony.Foundation.Fallible
import Peony.Foundation.Sweep

namespace Peony

/-! The half-open ranges of the witnesses. -/

structure SectionRefWitness where
  objectId : Nat
  sectionIndex : Nat
deriving DecidableEq, Repr

inductive WitnessError where
  | rangeStartAfterEnd (start stop : UInt64)
  | rangeEndOverflow (start len : UInt64)
  | layoutInvalidAlignment (owner : String) (alignment : UInt64)
  | layoutMisaligned (owner : String) (start alignment : UInt64)
  | layoutFileOutOfBounds (owner : String) (rangeEnd fileSize : UInt64)
  | layoutPageCongruence (owner : String) (fileStart virtualStart alignment : UInt64)
  | layoutNonAllocVirtualAddress (owner : String) (virtualEnd : UInt64)
  | layoutRangeOverlap (kind first second : String) (firstEnd secondStart : UInt64)
  | layoutContributionRangeMismatch (outputSection : String) (sec : SectionRefWitness)
      (declaredStart declaredEnd computedStart computedEnd : UInt64)
  | layoutContributionOutOfBounds (outputSection : String) (sec : SectionRefWitness)
      (contributionEnd sectionSize : UInt64)
  | layoutDuplicateContributionOwner (sec : SectionRefWitness)
  | layoutSegmentFileLargerThanMemory (segment : String) (fileSize memorySize : UInt64)
  | layoutSectionOutsideLoadSegment (sec : String)
deriving DecidableEq, Repr

/-- The range from `start` to before `stop`. `new` refuses any other two ends. -/
structure RangeBounds where
  start : UInt64
  stop : UInt64
  ordered : start ≤ stop
deriving DecidableEq, Repr

namespace RangeBounds

def new (start stop : UInt64) : Except WitnessError RangeBounds :=
  if ordered : start ≤ stop then .ok ⟨start, stop, ordered⟩
  else .error (.rangeStartAfterEnd start stop)

def fromStartLen (start len : UInt64) : Except WitnessError RangeBounds :=
  if start.toNat + len.toNat < 2 ^ 64 then new start (start + len)
  else .error (.rangeEndOverflow start len)

def contains (range other : RangeBounds) : Bool :=
  decide (range.start ≤ other.start) && decide (other.stop ≤ range.stop)

def len (range : RangeBounds) : UInt64 := range.stop - range.start

def isEmpty (range : RangeBounds) : Bool := range.start == range.stop

def Has (range : RangeBounds) (place : Nat) : Prop :=
  Sweep.Has (fun range : RangeBounds => range.start.toNat)
    (fun range => range.stop.toNat) range place

variable {range other : RangeBounds} {start size : UInt64}

theorem has_iff {place : Nat} :
    range.Has place ↔ range.start.toNat ≤ place ∧ place < range.stop.toNat := Iff.rfl

theorem start_le_stop (range : RangeBounds) :
    range.start.toNat ≤ range.stop.toNat := UInt64.le_iff_toNat_le.mp range.ordered

theorem isEmpty_eq_false_iff :
    range.isEmpty = false ↔ range.start.toNat < range.stop.toNat := by
  rw [isEmpty, beq_eq_false_iff_ne, ne_eq, ← UInt64.toNat_inj]
  have ordered := range.start_le_stop
  omega

theorem toNat_len (range : RangeBounds) :
    range.len.toNat = range.stop.toNat - range.start.toNat :=
  UInt64.toNat_sub_of_le _ _ range.ordered

theorem contains_iff :
    range.contains other = true ↔
      range.start.toNat ≤ other.start.toNat ∧ other.stop.toNat ≤ range.stop.toNat := by
  rw [contains, Bool.and_eq_true, decide_eq_true_iff, decide_eq_true_iff,
    UInt64.le_iff_toNat_le, UInt64.le_iff_toNat_le]

theorem fromStartLen_ok_iff :
    fromStartLen start size = .ok range ↔
      range.start = start ∧ range.stop.toNat = start.toNat + size.toNat := by
  rw [fromStartLen]
  split
  · rename_i fits
    have sum : (start + size).toNat = start.toNat + size.toNat := by
      rw [UInt64.toNat_add]
      exact Nat.mod_eq_of_lt fits
    have ordered : start ≤ start + size := by
      rw [UInt64.le_iff_toNat_le, sum]
      exact Nat.le_add_right _ _
    rw [new, dif_pos ordered]
    constructor
    · intro made
      cases made
      exact ⟨rfl, sum⟩
    · rintro ⟨isStart, isStop⟩
      rcases range with ⟨first, last, _⟩
      have isFirst : first = start := isStart
      have isLast : last = start + size := by
        rw [← UInt64.toNat_inj, sum]
        exact isStop
      subst isFirst isLast
      rfl
  · rename_i overflows
    refine ⟨nofun, fun made => ?_⟩
    have bounded := range.stop.toNat_lt
    omega

theorem exists_fromStartLen_iff :
    (∃ range, fromStartLen start size = .ok range) ↔
      start.toNat + size.toNat < 2 ^ 64 := by
  constructor
  · rintro ⟨range, made⟩
    rw [← (fromStartLen_ok_iff.mp made).2]
    exact range.stop.toNat_lt
  · intro fits
    rw [fromStartLen, if_pos fits, new]
    split
    · exact ⟨_, rfl⟩
    · rename_i wraps
      apply absurd _ wraps
      rw [UInt64.le_iff_toNat_le, UInt64.toNat_add, Nat.mod_eq_of_lt fits]
      exact Nat.le_add_right _ _

end RangeBounds

end Peony
