import Peony.Foundation.Linked
import Peony.Layout.StringTable

namespace Peony

/-! The version tables of a dynamic output, and how a loader reads them. -/

/-! ## Records -/

/-- The record of a library, which says where the versions of it start. -/
structure Verneed where
  version : UInt16 := 1
  cnt : UInt16
  fileOff : UInt32
  aux : UInt32 := 16
  next : UInt32
deriving DecidableEq

namespace Verneed

def bytes (need : Verneed) : List UInt8 :=
  le16 need.version ++ (le16 need.cnt ++ (le32 need.fileOff ++ (le32 need.aux ++
    le32 need.next)))

def ofBytes (bytes : List UInt8) : Verneed where
  version := UInt16.ofNat (fromLeBytes (bytes.take 2))
  cnt := UInt16.ofNat (fromLeBytes ((bytes.drop 2).take 2))
  fileOff := UInt32.ofNat (readU32 (bytes.drop 4))
  aux := UInt32.ofNat (readU32 (bytes.drop 8))
  next := UInt32.ofNat (readU32 (bytes.drop 12))

theorem ofBytes_bytes (need : Verneed) : ofBytes need.bytes = need := by
  have last := ofNat_readU32_le32 need.next []
  rw [List.append_nil] at last
  change Verneed.mk (UInt16.ofNat (fromLeBytes ((le16 need.version ++ _).take 2)))
    (UInt16.ofNat (fromLeBytes ((le16 need.cnt ++ _).take 2)))
    (UInt32.ofNat (readU32 (le32 need.fileOff ++ _)))
    (UInt32.ofNat (readU32 (le32 need.aux ++ _)))
    (UInt32.ofNat (readU32 (le32 need.next))) = need
  rw [ofNat_fromLeBytes_le16, ofNat_fromLeBytes_le16, ofNat_readU32_le32,
    ofNat_readU32_le32, last]

def format : RecordFormat Verneed UInt8 where
  width := 16
  write := bytes
  read := ofBytes
  positive := by decide
  length_write _ := rfl
  read_write := ofBytes_bytes

end Verneed

/-- The record of one version. -/
structure Vernaux where
  hash : UInt32
  flags : UInt16 := 0
  other : UInt16
  nameOff : UInt32
  next : UInt32
deriving DecidableEq

namespace Vernaux

def bytes (aux : Vernaux) : List UInt8 :=
  le32 aux.hash ++ (le16 aux.flags ++ (le16 aux.other ++ (le32 aux.nameOff ++
    le32 aux.next)))

def ofBytes (bytes : List UInt8) : Vernaux where
  hash := UInt32.ofNat (readU32 bytes)
  flags := UInt16.ofNat (fromLeBytes ((bytes.drop 4).take 2))
  other := UInt16.ofNat (fromLeBytes ((bytes.drop 6).take 2))
  nameOff := UInt32.ofNat (readU32 (bytes.drop 8))
  next := UInt32.ofNat (readU32 (bytes.drop 12))

theorem ofBytes_bytes (aux : Vernaux) : ofBytes aux.bytes = aux := by
  have last := ofNat_readU32_le32 aux.next []
  rw [List.append_nil] at last
  change Vernaux.mk (UInt32.ofNat (readU32 (le32 aux.hash ++ _)))
    (UInt16.ofNat (fromLeBytes ((le16 aux.flags ++ _).take 2)))
    (UInt16.ofNat (fromLeBytes ((le16 aux.other ++ _).take 2)))
    (UInt32.ofNat (readU32 (le32 aux.nameOff ++ _)))
    (UInt32.ofNat (readU32 (le32 aux.next))) = aux
  rw [ofNat_fromLeBytes_le16, ofNat_fromLeBytes_le16, ofNat_readU32_le32,
    ofNat_readU32_le32, last]

def format : RecordFormat Vernaux UInt8 where
  width := 16
  write := bytes
  read := ofBytes
  positive := by decide
  length_write _ := rfl
  read_write := ofBytes_bytes

end Vernaux

/-- An entry of `.gnu.version`. -/
def halfFormat : RecordFormat UInt16 UInt8 where
  width := 2
  write := le16
  read bytes := UInt16.ofNat (fromLeBytes (bytes.take 2))
  positive := by decide
  length_write := length_le16
  read_write word := by
    have whole := ofNat_fromLeBytes_le16 word []
    rw [List.append_nil] at whole
    exact whole

/-! ## Reading -/

structure LibraryVersions where
  file : Name
  versions : List (Name × UInt16)
deriving DecidableEq

/-- The versions from an offset on, each found by the `next` of the one before. -/
def versionsAt (dynstr bytes : List UInt8) (offset : Nat) : Option (List (Name × UInt16)) :=
  Vernaux.format.follow (fun aux => aux.next.toNat)
    (fun _ _ aux => some (stringAt dynstr aux.nameOff.toNat, aux.other))
    bytes.length bytes offset

/-- The libraries of `.gnu.version_r`, which is read only where a library is counted. The walk
fails where a record is not within the section. -/
def decodeVersions (blobs : DynBlobs) : Option (List LibraryVersions) :=
  if blobs.verneedNum = 0 then some []
  else
    Verneed.format.follow (fun need => need.next.toNat)
      (fun bytes offset need =>
        (versionsAt blobs.dynstr bytes (offset + need.aux.toNat)).map fun versions =>
          { file := stringAt blobs.dynstr need.fileOff.toNat, versions := versions })
      blobs.gnuVersionR.length blobs.gnuVersionR 0

def versionIndex (blobs : DynBlobs) (index : Nat) : Option UInt16 :=
  halfFormat.readAt blobs.gnuVersion index

/-! ## What is written is read back -/

section Written

variable (needs : List VersionNeed)

/-- The record of a version at a place among `count` ones. Nothing stands between the
records. -/
def auxBlock (count : Nat) (entry : VersionNeed × Nat) : RecordFormat.Block Vernaux UInt8 :=
  ({ hash := elfSysvHash entry.1.version
     other := entry.1.index
     nameOff := entry.1.nameOff
     next := if entry.2 + 1 < count then 16 else 0 }, [])

theorem vernaux_eq :
    DynamicInfo.vernaux needs = needs.zipIdx.flatMap fun entry =>
      Vernaux.format.blockBytes (auxBlock needs.length entry) := by
  rw [DynamicInfo.vernaux]
  apply List.flatMap_congr
  intro entry _
  rw [RecordFormat.blockBytes, auxBlock, List.append_nil]
  change _ = Vernaux.bytes _
  rw [Vernaux.bytes]
  simp only [List.append_assoc]

theorem length_vernaux : (DynamicInfo.vernaux needs).length = 16 * needs.length := by
  have each (entries : List (VersionNeed × Nat)) :
      (entries.flatMap fun entry =>
        Vernaux.format.blockBytes (auxBlock needs.length entry)).length =
        16 * entries.length := by
    induction entries with
    | nil => rfl
    | cons entry rest induction =>
        rw [List.flatMap_cons, List.length_append, induction, List.length_cons, Nat.mul_succ,
          Nat.add_comm]
        rfl
  rw [vernaux_eq, each, List.length_zipIdx]

theorem linked_auxBlocks (filled : needs ≠ []) :
    Vernaux.format.Linked (fun aux => aux.next.toNat)
      (needs.zipIdx.map (auxBlock needs.length)) := by
  apply RecordFormat.linked_of_getElem
  · intro none
    rw [List.map_eq_nil_iff, List.zipIdx_eq_nil_iff] at none
    exact filled none
  · intro place inRange
    simp only [auxBlock, List.getElem_map, List.getElem_zipIdx, Nat.zero_add, List.length_map,
      List.length_zipIdx]
    split <;> rfl

/-- The versions of a library are read one after the other. -/
theorem versionsAt_vernaux (filled : needs ≠ []) (dynstr front rest : List UInt8) :
    versionsAt dynstr (front ++ (DynamicInfo.vernaux needs ++ rest)) front.length =
      some (needs.map fun need => (stringAt dynstr need.nameOff.toNat, need.index)) := by
  have enough : needs.zipIdx.length ≤
      (front ++ (DynamicInfo.vernaux needs ++ rest)).length := by
    rw [List.length_zipIdx, List.length_append, List.length_append, length_vernaux]
    omega
  have walked := @RecordFormat.follow_linked _ _ _ Vernaux.format _ _ _
    (fun _ _ aux => some (stringAt dynstr aux.nameOff.toNat, aux.other))
    (fun entry => (stringAt dynstr entry.1.nameOff.toNat, entry.1.index)) _
    (linked_auxBlocks needs filled) _ enough (fun _ _ _ _ => rfl) front rest
  rw [← vernaux_eq] at walked
  rw [versionsAt, walked]
  conv =>
    rhs
    rw [← List.zipIdx_map_fst 0 needs, List.map_map]
  rfl

end Written

namespace DynamicInfo

variable (dynj : DynamicInfo) (sonameOff : List UInt32) (needs : List VersionNeed)

def needsOf (lib : Nat) : List VersionNeed := needs.filter fun need => need.lib == lib

def needBlock (count : Nat) (entry : Nat × Nat) : RecordFormat.Block Verneed UInt8 :=
  ({ cnt := UInt16.ofNat (needsOf needs entry.1).length
     fileOff := sonameOff.getD entry.1 0
     next := if entry.2 + 1 < count then
       16 + 16 * (UInt16.ofNat (needsOf needs entry.1).length).toUInt32 else 0 },
    vernaux (needsOf needs entry.1))

theorem verneed_eq :
    dynj.verneed sonameOff needs = (dynj.activeLibs needs).zipIdx.flatMap fun entry =>
      Verneed.format.blockBytes
        (needBlock sonameOff needs (dynj.activeLibs needs).length entry) := by
  rw [verneed]
  apply List.flatMap_congr
  intro entry _
  rw [RecordFormat.blockBytes, needBlock]
  change _ = Verneed.bytes _ ++ _
  rw [Verneed.bytes, needsOf]
  simp only [List.append_assoc]

theorem needsOf_ne_nil {lib : Nat} (active : lib ∈ dynj.activeLibs needs) :
    needsOf needs lib ≠ [] := by
  rcases List.any_eq_true.mp (List.mem_filter.mp active).2 with ⟨need, present, isLib⟩
  exact List.ne_nil_of_mem (List.mem_filter.mpr ⟨present, isLib⟩)

theorem linked_needBlocks (filled : dynj.activeLibs needs ≠ [])
    (few : needs.length < 2 ^ 16) :
    Verneed.format.Linked (fun need => need.next.toNat)
      ((dynj.activeLibs needs).zipIdx.map
        (needBlock sonameOff needs (dynj.activeLibs needs).length)) := by
  apply RecordFormat.linked_of_getElem
  · intro none
    rw [List.map_eq_nil_iff, List.zipIdx_eq_nil_iff] at none
    exact filled none
  · intro place inRange
    simp only [needBlock, List.getElem_map, List.getElem_zipIdx, Nat.zero_add, List.length_map,
      List.length_zipIdx, length_vernaux]
    split
    · have bound : (needsOf needs (dynj.activeLibs needs)[place]).length < 2 ^ 16 :=
        Nat.lt_of_le_of_lt (List.length_filter_le _ _) few
      have small : (UInt16.ofNat (needsOf needs
          (dynj.activeLibs needs)[place]).length).toUInt32.toNat = _ :=
        UInt16.toNat_ofNat_of_lt bound
      rw [UInt32.toNat_add, UInt32.toNat_mul, small]
      change (16 + 16 * _ % 2 ^ 32) % 2 ^ 32 = 16 + _
      omega
    · rfl

theorem length_activeLibs_le : (dynj.activeLibs needs).length ≤ needs.length := by
  have distinct : (dynj.activeLibs needs).Nodup := List.nodup_range.filter _
  have wanted : dynj.activeLibs needs ⊆ needs.map VersionNeed.lib := by
    intro lib active
    rcases List.any_eq_true.mp (List.mem_filter.mp active).2 with ⟨need, present, isLib⟩
    exact List.mem_map.mpr ⟨need, present, beq_iff_eq.mp isLib⟩
  have fewer := (distinct.subperm wanted).length_le
  rwa [List.length_map] at fewer

theorem length_verneed_ge :
    (dynj.activeLibs needs).length ≤ (dynj.verneed sonameOff needs).length := by
  have each (count : Nat) (entries : List (Nat × Nat)) :
      entries.length ≤ (entries.flatMap fun entry =>
        Verneed.format.blockBytes (needBlock sonameOff needs count entry)).length := by
    induction entries with
    | nil => exact Nat.zero_le _
    | cons entry rest induction =>
        have first : 1 ≤ (Verneed.format.blockBytes
            (needBlock sonameOff needs count entry)).length := by
          rw [RecordFormat.blockBytes, List.length_append, Verneed.format.length_write]
          exact Nat.le_trans Verneed.format.positive (Nat.le_add_right _ _)
        rw [List.flatMap_cons, List.length_append, List.length_cons]
        omega
  rw [verneed_eq]
  have whole := each (dynj.activeLibs needs).length (dynj.activeLibs needs).zipIdx
  rwa [List.length_zipIdx] at whole

/-- The library that a loader reads from the record of `lib`. -/
def decodedLibrary (dynstr : List UInt8) (lib : Nat) : LibraryVersions where
  file := stringAt dynstr (sonameOff.getD lib 0).toNat
  versions := (needsOf needs lib).map fun need =>
    (stringAt dynstr need.nameOff.toNat, need.index)

theorem decodeVersions_verneed (few : needs.length < 2 ^ 16) (blobs : DynBlobs)
    (count : blobs.verneedNum = UInt64.ofNat (dynj.activeLibs needs).length)
    (bytes : dynj.activeLibs needs ≠ [] →
      blobs.gnuVersionR = dynj.verneed sonameOff needs) :
    decodeVersions blobs =
      some ((dynj.activeLibs needs).map (decodedLibrary sonameOff needs blobs.dynstr)) := by
  have fewer := dynj.length_activeLibs_le needs
  by_cases none : dynj.activeLibs needs = []
  · have uncounted : blobs.verneedNum = 0 := by
      rw [count, none]
      rfl
    rw [decodeVersions, if_pos uncounted, none]
    rfl
  · have counted : blobs.verneedNum ≠ 0 := by
      intro zero
      rw [count, ← UInt64.toNat_inj, UInt64.toNat_ofNat'] at zero
      change _ % 2 ^ 64 = 0 at zero
      exact none (List.length_eq_zero_iff.mp (by omega))
    have enough : (dynj.activeLibs needs).zipIdx.length ≤ blobs.gnuVersionR.length := by
      rw [bytes none, List.length_zipIdx]
      exact dynj.length_verneed_ge sonameOff needs
    have visits : ∀ entry ∈ (dynj.activeLibs needs).zipIdx, ∀ front rest : List UInt8,
        ((versionsAt blobs.dynstr (front ++ (Verneed.format.blockBytes
          (needBlock sonameOff needs (dynj.activeLibs needs).length entry) ++ rest))
            (front.length + 16)).map fun versions =>
          ({ file := stringAt blobs.dynstr (sonameOff.getD entry.1 0).toNat
             versions := versions } : LibraryVersions)) =
          some (decodedLibrary sonameOff needs blobs.dynstr entry.1) := by
      intro entry present front rest
      have active : entry.1 ∈ dynj.activeLibs needs := by
        have isLib := List.mem_zipIdx_iff_getElem?.mp present
        exact List.mem_of_getElem? isLib
      have read := versionsAt_vernaux (needsOf needs entry.1)
        (dynj.needsOf_ne_nil needs active) blobs.dynstr
        (front ++ Verneed.format.write
          (needBlock sonameOff needs (dynj.activeLibs needs).length entry).1) rest
      rw [List.length_append, Verneed.format.length_write, List.append_assoc,
        ← List.append_assoc (Verneed.format.write _)] at read
      rw [RecordFormat.blockBytes]
      change Option.map _ (versionsAt _ (front ++
        (Verneed.format.write _ ++ vernaux (needsOf needs entry.1) ++ rest)) _) = _
      change versionsAt _ _ (front.length + 16) = _ at read
      rw [read]
      rfl
    have walked := @RecordFormat.follow_linked _ _ _ Verneed.format _ _ _
      (fun bytes offset need =>
        (versionsAt blobs.dynstr bytes (offset + need.aux.toNat)).map fun versions =>
          ({ file := stringAt blobs.dynstr need.fileOff.toNat
             versions := versions } : LibraryVersions))
      (fun entry : Nat × Nat => decodedLibrary sonameOff needs blobs.dynstr entry.1) _
      (dynj.linked_needBlocks sonameOff needs none few) _ enough visits [] []
    rw [← verneed_eq, List.append_nil, ← bytes none] at walked
    rw [decodeVersions, if_neg counted]
    refine walked.trans ?_
    conv =>
      rhs
      rw [← List.zipIdx_map_fst 0 (dynj.activeLibs needs), List.map_map]
    rfl

end DynamicInfo

end Peony
