import Peony.Layout.Config
import Peony.Verification.Range

namespace Peony

/-! The checker of partial emission: it compares the image before an emission, the image
that the emission leaves, and the image of a full link. -/

/-! ## Witnesses -/

inductive IncrementalColorWitnessKind where
  | red
  | green
deriving DecidableEq, Repr

structure IncrementalColorWitness where
  sectionName : String
  fileOffset : UInt64
  size : UInt64
  color : IncrementalColorWitnessKind
deriving DecidableEq, Repr

structure PartialEmitWriteWitness where
  label : String
  range : RangeBounds
deriving DecidableEq, Repr

/-- The bytes of a vector, which are as many as a `usize` counts. -/
structure ImageBytes where
  bytes : List UInt8
  bounded : bytes.length < 2 ^ 64
deriving DecidableEq, Repr

structure PartialEmitPreservationWitness where
  sections : List IncrementalColorWitness
  writes : List PartialEmitWriteWitness
  previousBytes : ImageBytes
  partialBytes : ImageBytes
  fullBytes : ImageBytes
deriving DecidableEq, Repr

inductive IncrementalPreservationError where
  | range (error : WitnessError)
  | imageLengthTooLarge (len : Nat)
  | imageLengthMismatch (previousLen partialLen fullLen : UInt64)
  | sectionOutOfBounds (sec : String) (sectionStart sectionEnd imageLen : UInt64)
  | writeOutOfBounds (writeLabel : String) (writeStart writeEnd imageLen : UInt64)
  | writeTouchesGreen (writeLabel greenSection : String)
      (writeStart writeEnd greenStart greenEnd : UInt64)
  | writeOutsideRed (writeLabel : String) (writeStart writeEnd : UInt64)
  | greenByteChanged (sec : String) (offset : UInt64) (previous partialByte : UInt8)
  | redByteMismatch (sec : String) (offset : UInt64) (partialByte full : UInt8)
  | byteOffsetTooLarge (offset : UInt64)
deriving DecidableEq, Repr

/-- The checker returns an error, or it reads behind the end of a slice. -/
inductive PreservationFault where
  | rejected (error : IncrementalPreservationError)
  | indexPanic
deriving DecidableEq, Repr

/-! ## The checker -/

structure SectionRange where
  sec : String
  range : RangeBounds
deriving DecidableEq, Repr

inductive ByteComparison where
  | greenPreviousPartial
  | redPartialFull
deriving DecidableEq, Repr

structure ByteSlices where
  left : List UInt8
  right : List UInt8

def imageLength (image : ImageBytes) : Except IncrementalPreservationError UInt64 :=
  if image.bytes.length < 2 ^ 64 then .ok (UInt64.ofNat image.bytes.length)
  else .error (.imageLengthTooLarge image.bytes.length)

def checkedImageLen (witness : PartialEmitPreservationWitness) :
    Except IncrementalPreservationError UInt64 := do
  let previousLen ← imageLength witness.previousBytes
  let partialLen ← imageLength witness.partialBytes
  let fullLen ← imageLength witness.fullBytes
  if previousLen = partialLen ∧ partialLen = fullLen then .ok previousLen
  else .error (.imageLengthMismatch previousLen partialLen fullLen)

def pushSection (image : RangeBounds) (imageLen : UInt64)
    (ranges : List SectionRange × List SectionRange) (sec : IncrementalColorWitness) :
    Except IncrementalPreservationError (List SectionRange × List SectionRange) := do
  let range ← (RangeBounds.fromStartLen sec.fileOffset sec.size).mapError .range
  if image.contains range then
    match sec.color with
    | .red => .ok (ranges.1 ++ [⟨sec.sectionName, range⟩], ranges.2)
    | .green => .ok (ranges.1, ranges.2 ++ [⟨sec.sectionName, range⟩])
  else
    .error (.sectionOutOfBounds sec.sectionName range.start range.stop imageLen)

/-- By the first ends, then by the last ends, then by the names. -/
def SectionRange.cmp : SectionRange → SectionRange → Ordering :=
  compareLex (compareOn fun found => found.range.start)
    (compareLex (compareOn fun found => found.range.stop)
      (compareOn fun found => found.sec))

def rangeCoveredBy (stop : UInt64) : UInt64 → List SectionRange → Bool
  | _, [] => false
  | cursor, red :: rest =>
      if red.range.stop ≤ cursor then rangeCoveredBy stop cursor rest
      else if cursor < red.range.start then false
      else if stop ≤ max cursor red.range.stop then true
      else rangeCoveredBy stop (max cursor red.range.stop) rest

def rangeCoveredByRed (range : RangeBounds) (redRanges : List SectionRange) : Bool :=
  if range.isEmpty then true
  else rangeCoveredBy range.stop range.start redRanges

def rangesOverlap (left right : RangeBounds) : Bool :=
  decide (left.start < right.stop) && decide (right.start < left.stop)

def checkWrite (image : RangeBounds) (imageLen : UInt64)
    (redRanges greenRanges : List SectionRange) (write : PartialEmitWriteWitness) :
    Except IncrementalPreservationError Unit :=
  if ¬ image.contains write.range then
    .error (.writeOutOfBounds write.label write.range.start write.range.stop imageLen)
  else
    match greenRanges.find? fun green => rangesOverlap write.range green.range with
    | some green =>
        .error (.writeTouchesGreen write.label green.sec write.range.start
          write.range.stop green.range.start green.range.stop)
    | none =>
        if ¬ rangeCoveredByRed write.range redRanges then
          .error (.writeOutsideRed write.label write.range.start write.range.stop)
        else .ok ()

def compareByte (sec : SectionRange) (bytes : ByteSlices) (comparison : ByteComparison)
    (offset : Nat) : Except PreservationFault Unit :=
  match bytes.left[offset]?, bytes.right[offset]? with
  | some left, some right =>
      if left ≠ right then
        .error (.rejected (match comparison with
          | .greenPreviousPartial =>
              .greenByteChanged sec.sec (UInt64.ofNat offset) left right
          | .redPartialFull =>
              .redByteMismatch sec.sec (UInt64.ofNat offset) left right))
      else .ok ()
  | _, _ => .error .indexPanic

/-- The offsets of a section, in order. -/
def compareRange (sec : SectionRange) (bytes : ByteSlices) (comparison : ByteComparison) :
    Except PreservationFault Unit :=
  (List.range' sec.range.start.toNat
    (sec.range.stop.toNat - sec.range.start.toNat)).forM
      (compareByte sec bytes comparison)

def checkPartialEmitPreservation (witness : PartialEmitPreservationWitness) :
    Except PreservationFault Unit := do
  let imageLen ← (checkedImageLen witness).mapError .rejected
  let image ← (RangeBounds.fromStartLen 0 imageLen).mapError
    fun error => .rejected (.range error)
  let ranges ← (witness.sections.foldlM (pushSection image imageLen) ([], [])).mapError
    .rejected
  let redRanges := sortBy SectionRange.cmp ranges.1
  (witness.writes.forM (checkWrite image imageLen redRanges ranges.2)).mapError .rejected
  ranges.2.forM fun green =>
    compareRange green ⟨witness.previousBytes.bytes, witness.partialBytes.bytes⟩
      .greenPreviousPartial
  redRanges.forM fun red =>
    compareRange red ⟨witness.partialBytes.bytes, witness.fullBytes.bytes⟩
      .redPartialFull

/-! ## What the checker is for -/

/-- The offset is in the section. -/
def IncrementalColorWitness.Has (sec : IncrementalColorWitness) (place : Nat) : Prop :=
  sec.fileOffset.toNat ≤ place ∧ place < sec.fileOffset.toNat + sec.size.toNat

namespace PartialEmitPreservationWitness

variable (witness : PartialEmitPreservationWitness)

def InRed (place : Nat) : Prop :=
  ∃ sec ∈ witness.sections, sec.color = .red ∧ sec.Has place

def InGreen (place : Nat) : Prop :=
  ∃ sec ∈ witness.sections, sec.color = .green ∧ sec.Has place

def InWrite (place : Nat) : Prop :=
  ∃ write ∈ witness.writes, write.range.Has place

/-- The facts that make a partial emission as good as a full link. -/
structure Preserved : Prop where
  partialLength : witness.previousBytes.bytes.length = witness.partialBytes.bytes.length
  fullLength : witness.partialBytes.bytes.length = witness.fullBytes.bytes.length
  sectionsInside : ∀ sec ∈ witness.sections,
    sec.fileOffset.toNat + sec.size.toNat ≤ witness.previousBytes.bytes.length
  writesInside : ∀ write ∈ witness.writes,
    write.range.stop.toNat ≤ witness.previousBytes.bytes.length
  covered : ∀ place, witness.InWrite place → witness.InRed place
  apart : ∀ place, witness.InWrite place → ¬ witness.InGreen place
  greenKept : ∀ place, witness.InGreen place →
    witness.previousBytes.bytes[place]? = witness.partialBytes.bytes[place]?
  redRight : ∀ place, witness.InRed place →
    witness.partialBytes.bytes[place]? = witness.fullBytes.bytes[place]?

end PartialEmitPreservationWitness

end Peony
