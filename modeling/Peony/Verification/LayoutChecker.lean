import Peony.Layout.Compute
import Peony.Verification.Range

namespace Peony

/-! The checker of a layout. -/

/-! ## Witnesses -/

structure RangeWitness where
  file : RangeBounds
  va : RangeBounds
deriving DecidableEq, Repr

structure ContributionOwnerWitness where
  sec : SectionRefWitness
  outputOffset : UInt64
  size : UInt64
  range : RangeBounds
deriving DecidableEq, Repr

structure LayoutWindowWitness where
  outputSectionName : String
  flags : UInt64
  range : RangeWitness
  alignment : UInt64
  contributions : List ContributionOwnerWitness
deriving DecidableEq, Repr

structure LayoutSegmentWitness where
  index : Nat
  segmentType : UInt32
  range : RangeWitness
  alignment : UInt64
deriving DecidableEq, Repr

structure LayoutWitness where
  imageBase : UInt64
  fileSize : UInt64
  outputSections : List LayoutWindowWitness
  segments : List LayoutSegmentWitness
deriving DecidableEq, Repr

def LayoutWindowWitness.isAlloc (sec : LayoutWindowWitness) : Bool :=
  sec.flags &&& shfAlloc != 0

def LayoutSegmentWitness.isLoad (segment : LayoutSegmentWitness) : Bool :=
  segment.segmentType == ptLoad

/-! ## Common checks -/

structure NamedRange where
  owner : String
  range : RangeBounds
deriving DecidableEq, Repr

def segmentOwner (segment : LayoutSegmentWitness) : String :=
  "program header " ++ toString segment.index ++ " type 0x" ++
    String.ofList (Nat.toDigits 16 segment.segmentType.toNat)

def sectionRefOwner (sec : SectionRefWitness) : String :=
  "object " ++ toString sec.objectId ++ " section " ++ toString sec.sectionIndex

def isPowerOfTwo (word : UInt64) : Bool := word != 0 && word &&& (word - 1) == 0

def checkAlignmentValue (owner : String) (alignment : UInt64) (allowZero : Bool) :
    Except WitnessError Unit :=
  if allowZero && alignment == 0 then .ok ()
  else if alignment != 0 && isPowerOfTwo alignment then .ok ()
  else .error (.layoutInvalidAlignment owner alignment)

def checkAlignedStart (owner : String) (start alignment : UInt64) :
    Except WitnessError Unit :=
  if alignment ≤ 1 ∨ start % alignment = 0 then .ok ()
  else .error (.layoutMisaligned owner start alignment)

def checkFileBounds (owner : String) (range : RangeBounds) (fileSize : UInt64) :
    Except WitnessError Unit :=
  if range.stop ≤ fileSize then .ok ()
  else .error (.layoutFileOutOfBounds owner range.stop fileSize)

/-- By the first ends, then by the last ends. -/
def NamedRange.cmp : NamedRange → NamedRange → Ordering :=
  compareLex (compareOn fun named => named.range.start)
    (compareOn fun named => named.range.stop)

def checkNeighbours (kind : String) :
    Option NamedRange → List NamedRange → Except WitnessError Unit
  | _, [] => .ok ()
  | none, second :: rest => checkNeighbours kind (some second) rest
  | some first, second :: rest =>
      if first.range.stop > second.range.start then
        .error (.layoutRangeOverlap kind first.owner second.owner first.range.stop
          second.range.start)
      else checkNeighbours kind (some second) rest

def checkNonOverlapping (kind : String) (ranges : List NamedRange) :
    Except WitnessError Unit :=
  checkNeighbours kind none (sortBy NamedRange.cmp ranges)

/-! ## Segments -/

def checkSegment (fileSize : UInt64) (segment : LayoutSegmentWitness) :
    Except WitnessError Unit := do
  let owner := segmentOwner segment
  checkAlignmentValue owner segment.alignment true
  checkFileBounds owner segment.range.file fileSize
  if segment.range.file.len > segment.range.va.len then
    .error (.layoutSegmentFileLargerThanMemory owner segment.range.file.len
      segment.range.va.len)
  else if segment.alignment > 1 ∧
      segment.range.file.start % segment.alignment ≠
        segment.range.va.start % segment.alignment then
    .error (.layoutPageCongruence owner segment.range.file.start
      segment.range.va.start segment.alignment)
  else .ok ()

def LayoutSegmentWitness.fileRange (segment : LayoutSegmentWitness) :
    Option NamedRange :=
  if segment.range.file.isEmpty then none
  else some ⟨segmentOwner segment, segment.range.file⟩

def LayoutSegmentWitness.vaRange (segment : LayoutSegmentWitness) :
    Option NamedRange :=
  if segment.range.va.isEmpty then none
  else some ⟨segmentOwner segment, segment.range.va⟩

def LayoutWitness.loadSegments (witness : LayoutWitness) : List LayoutSegmentWitness :=
  witness.segments.filter LayoutSegmentWitness.isLoad

def checkSegments (witness : LayoutWitness) :
    Except WitnessError (List LayoutSegmentWitness) := do
  witness.segments.forM (checkSegment witness.fileSize)
  checkNonOverlapping "PT_LOAD file"
    (witness.loadSegments.filterMap LayoutSegmentWitness.fileRange)
  checkNonOverlapping "PT_LOAD virtual"
    (witness.loadSegments.filterMap LayoutSegmentWitness.vaRange)
  return witness.loadSegments

/-! ## Output sections -/

def sectionIsInLoadSegments (sec : LayoutWindowWitness)
    (loadSegments : List LayoutSegmentWitness) : Bool :=
  (loadSegments.any fun segment => segment.range.va.contains sec.range.va) &&
    (sec.range.file.isEmpty ||
      loadSegments.any fun segment => segment.range.file.contains sec.range.file)

def checkNonAllocVirtualRange (sec : LayoutWindowWitness) (owner : String) :
    Except WitnessError Unit :=
  if sec.range.va.isEmpty then .ok ()
  else .error (.layoutNonAllocVirtualAddress owner sec.range.va.stop)

def checkAllocSectionWindow (witness : LayoutWitness)
    (loadSegments : List LayoutSegmentWitness) (sec : LayoutWindowWitness)
    (owner : String) : Except WitnessError Unit := do
  checkAlignedStart owner sec.range.va.start sec.alignment
  if sec.range.va.start < witness.imageBase ∨
      sec.range.va.start - witness.imageBase ≠ sec.range.file.start then
    .error (.layoutPageCongruence owner sec.range.file.start sec.range.va.start
      sec.alignment)
  else if sectionIsInLoadSegments sec loadSegments then .ok ()
  else .error (.layoutSectionOutsideLoadSegment sec.outputSectionName)

def checkSectionWindow (witness : LayoutWitness)
    (loadSegments : List LayoutSegmentWitness) (sec : LayoutWindowWitness) :
    Except WitnessError Unit := do
  let owner := sec.outputSectionName
  checkAlignmentValue owner sec.alignment false
  checkFileBounds owner sec.range.file witness.fileSize
  (if sec.range.file.isEmpty then .ok ()
    else checkAlignedStart owner sec.range.file.start sec.alignment)
  if sec.isAlloc then checkAllocSectionWindow witness loadSegments sec owner
  else checkNonAllocVirtualRange sec owner

def checkContributionRange (sec : LayoutWindowWitness)
    (contribution : ContributionOwnerWitness) (sectionSize : UInt64) :
    Except WitnessError Unit := do
  let computed ← RangeBounds.fromStartLen contribution.outputOffset contribution.size
  if computed ≠ contribution.range then
    .error (.layoutContributionRangeMismatch sec.outputSectionName contribution.sec
      contribution.range.start contribution.range.stop computed.start computed.stop)
  else if contribution.range.stop ≤ sectionSize then .ok ()
  else
    .error (.layoutContributionOutOfBounds sec.outputSectionName contribution.sec
      contribution.range.stop sectionSize)

def checkContributionOrder (prior : Option ContributionOwnerWitness)
    (contribution : ContributionOwnerWitness) : Except WitnessError Unit :=
  match prior with
  | none => .ok ()
  | some previous =>
      if previous.range.stop ≤ contribution.range.start then .ok ()
      else
        .error (.layoutRangeOverlap "contribution" (sectionRefOwner previous.sec)
          (sectionRefOwner contribution.sec) previous.range.stop
          contribution.range.start)

def LayoutWindowWitness.size (sec : LayoutWindowWitness) : UInt64 :=
  max sec.range.file.len sec.range.va.len

def checkContributionsFrom (sec : LayoutWindowWitness) :
    Option ContributionOwnerWitness → List SectionRefWitness →
      List ContributionOwnerWitness → Except WitnessError (List SectionRefWitness)
  | _, owners, [] => .ok owners
  | prior, owners, contribution :: rest => do
      checkContributionRange sec contribution sec.size
      checkContributionOrder prior contribution
      if contribution.sec ∈ owners then
        .error (.layoutDuplicateContributionOwner contribution.sec)
      else
        checkContributionsFrom sec (some contribution) (contribution.sec :: owners) rest

def checkContributions (owners : List SectionRefWitness) (sec : LayoutWindowWitness) :
    Except WitnessError (List SectionRefWitness) :=
  checkContributionsFrom sec none owners sec.contributions

def checkOutputSection (witness : LayoutWitness)
    (loadSegments : List LayoutSegmentWitness) (owners : List SectionRefWitness)
    (sec : LayoutWindowWitness) : Except WitnessError (List SectionRefWitness) := do
  checkSectionWindow witness loadSegments sec
  checkContributions owners sec

def LayoutWindowWitness.fileRange (sec : LayoutWindowWitness) : Option NamedRange :=
  if sec.range.file.isEmpty then none else some ⟨sec.outputSectionName, sec.range.file⟩

def LayoutWindowWitness.vaRange (sec : LayoutWindowWitness) : Option NamedRange :=
  if sec.isAlloc && !sec.range.va.isEmpty then
    some ⟨sec.outputSectionName, sec.range.va⟩
  else none

def checkOutputSections (witness : LayoutWitness)
    (loadSegments : List LayoutSegmentWitness) : Except WitnessError Unit := do
  let _ ← witness.outputSections.foldlM (checkOutputSection witness loadSegments) []
  checkNonOverlapping "output section file"
    (witness.outputSections.filterMap LayoutWindowWitness.fileRange)
  checkNonOverlapping "output section virtual"
    (witness.outputSections.filterMap LayoutWindowWitness.vaRange)

def checkLayoutWitness (witness : LayoutWitness) : Except WitnessError Unit := do
  let loadSegments ← checkSegments witness
  checkOutputSections witness loadSegments

/-! ## What the checker is for -/

def LayoutSegmentWitness.fileOffset (segment : LayoutSegmentWitness) (address : Nat) :
    Nat :=
  segment.range.file.start.toNat + (address - segment.range.va.start.toNat)

structure LayoutSegmentWitness.Loads (segment : LayoutSegmentWitness)
    (sec : LayoutWindowWitness) : Prop where
  addresses : segment.range.va.contains sec.range.va = true
  bytes : segment.range.file.contains sec.range.file = true
  onto : ∀ place, sec.range.file.Has place ↔
    ∃ address, sec.range.va.Has address ∧ segment.fileOffset address = place

def AllApart {Item : Type} (range : Item → RangeBounds) (items : List Item) : Prop :=
  items.Pairwise fun item other =>
    ∀ place, ¬ ((range item).Has place ∧ (range other).Has place)

namespace LayoutWitness

variable (witness : LayoutWitness)

structure Sound : Prop where
  sectionFiles : AllApart (fun sec => sec.range.file) witness.outputSections
  sectionAddresses : AllApart (fun sec => sec.range.va) witness.outputSections
  loadFiles : AllApart (fun segment => segment.range.file) witness.loadSegments
  loadAddresses : AllApart (fun segment => segment.range.va) witness.loadSegments
  contributionsApart : ∀ sec ∈ witness.outputSections,
    AllApart (fun contribution => contribution.range) sec.contributions
  contributionsInside : ∀ sec ∈ witness.outputSections,
    ∀ contribution ∈ sec.contributions, contribution.range.stop ≤ sec.size
  ownedOnce : (witness.outputSections.flatMap fun sec =>
    sec.contributions.map fun contribution => contribution.sec).Nodup
  loaded : ∀ sec ∈ witness.outputSections, sec.isAlloc = true →
    sec.range.file.isEmpty = false →
    ∃ segment ∈ witness.loadSegments, segment.Loads sec

/-- A section with bytes that is loaded has as many addresses, and what is loaded with
its bytes is mapped at the image base. -/
def MapsAtBase : Prop :=
  ∀ sec ∈ witness.outputSections, sec.isAlloc = true →
    sec.range.file.isEmpty = false →
    sec.range.va.len = sec.range.file.len ∧
      ∀ segment ∈ witness.loadSegments,
        segment.range.file.contains sec.range.file = true →
        segment.range.va.start.toNat =
          witness.imageBase.toNat + segment.range.file.start.toNat

end LayoutWitness

end Peony
