import Peony.Driver.Link
import Peony.Foundation.Records
import Peony.Object.Words

namespace Peony

/-! The entries of `.dynamic`, in which the values of `.rela.dyn` are corrected after the
layout. -/

open LayoutInput

/-! ## Entries of `.dynamic` -/

structure DynEntry where
  tag : UInt64
  value : UInt64
deriving DecidableEq

namespace DynEntry

theorem width_positive : 0 < 16 := by decide

def format : RecordFormat DynEntry UInt8 where
  width := 16
  write entry := dynTag entry.tag entry.value
  read bytes := ⟨wordOf bytes, wordOf (bytes.drop 8)⟩
  positive := width_positive
  length_write _ := rfl
  read_write entry := by
    simp only [dynTag, wordOf_append, drop_toLeBytes, wordOf_toLeBytes]

def valueOf (tag : UInt64) (entries : List DynEntry) : Option UInt64 :=
  ((entries.takeWhile fun entry => entry.tag != 0).find? fun entry =>
    entry.tag == tag).map DynEntry.value

def setFirst (tag value : UInt64) : List DynEntry → List DynEntry
  | [] => []
  | entry :: rest =>
      if entry.tag = tag then ⟨entry.tag, value⟩ :: rest
      else if entry.tag = 0 then entry :: rest
      else entry :: setFirst tag value rest

theorem patchTag_table (tag value : UInt64) {fuel : Nat} {entries : List DynEntry}
    (enough : entries.length ≤ fuel) :
    Layout.patchTag tag value fuel (format.table entries) =
      format.table (setFirst tag value entries) := by
  induction entries generalizing fuel with
  | nil =>
      cases fuel with
      | zero => rfl
      | succ fuel => exact if_pos (by decide)
  | cons entry rest induction =>
      cases fuel with
      | zero => exact absurd enough (Nat.not_succ_le_zero _)
      | succ fuel =>
          have long : ¬ (format.write entry ++ format.table rest).length < 16 := by
            rw [List.length_append, format.length_write]
            exact Nat.not_lt.mpr (Nat.le_add_right _ _)
          have isTag : (format.write entry ++ format.table rest).take 8 =
              toLeBytes entry.tag := rfl
          have whole : (format.write entry ++ format.table rest).take 16 =
              format.write entry := format.take_write entry _
          have others : (format.write entry ++ format.table rest).drop 16 =
              format.table rest := format.drop_write entry _
          rw [RecordFormat.table_cons, Layout.patchTag, if_neg long, isTag, whole, others,
            setFirst]
          simp only [toLeBytes_inj]
          split
          · rw [RecordFormat.table_cons]
            rfl
          · split
            · rw [RecordFormat.table_cons]
            · rw [RecordFormat.table_cons, induction (Nat.le_of_succ_le_succ enough)]

theorem valueOf_cons (tag : UInt64) (entry : DynEntry) (rest : List DynEntry) :
    valueOf tag (entry :: rest) =
      if entry.tag = 0 then none
      else if entry.tag = tag then some entry.value
      else valueOf tag rest := by
  by_cases ends : entry.tag = 0
  · rw [valueOf, List.takeWhile_cons_of_neg (by simp [ends]), if_pos ends]
    rfl
  · rw [valueOf, List.takeWhile_cons_of_pos (by simp [ends]), if_neg ends]
    by_cases isTag : entry.tag = tag
    · rw [List.find?_cons_of_pos (by simp [isTag]), if_pos isTag]
      rfl
    · rw [List.find?_cons_of_neg (by simp [isTag]), if_neg isTag]
      rfl

theorem valueOf_setFirst_self {tag : UInt64} (nonzero : tag ≠ 0) (value : UInt64)
    (entries : List DynEntry) :
    valueOf tag (setFirst tag value entries) =
      (valueOf tag entries).map fun _ => value := by
  induction entries with
  | nil => rfl
  | cons entry rest induction =>
      rw [setFirst, valueOf_cons]
      by_cases isTag : entry.tag = tag
      · have notEnd : entry.tag ≠ 0 := isTag ▸ nonzero
        rw [if_pos isTag, valueOf_cons, if_neg notEnd, if_neg notEnd, if_pos isTag,
          if_pos isTag]
        rfl
      · rw [if_neg isTag]
        by_cases ends : entry.tag = 0
        · rw [if_pos ends, valueOf_cons, if_pos ends]
          rfl
        · rw [if_neg ends, valueOf_cons, if_neg ends, if_neg ends, if_neg isTag,
            if_neg isTag, induction]

theorem valueOf_setFirst_other {tag other : UInt64} (different : other ≠ tag)
    (value : UInt64) (entries : List DynEntry) :
    valueOf other (setFirst tag value entries) = valueOf other entries := by
  induction entries with
  | nil => rfl
  | cons entry rest induction =>
      rw [setFirst]
      split
      · rename_i isTag
        have notOther : entry.tag ≠ other := fun same => different (same.symm.trans isTag)
        rw [valueOf_cons, valueOf_cons, if_neg notOther, if_neg notOther]
      · split
        · rfl
        · rw [valueOf_cons, valueOf_cons, induction]

/-! ### Tags of other sections -/

/-- Neither the end of the table nor a tag that is patched. -/
def IsFixed (entry : DynEntry) : Prop :=
  entry.tag ≠ 0 ∧ entry.tag ≠ 8 ∧ entry.tag ≠ 0x6ffffff9

instance (entry : DynEntry) : Decidable entry.IsFixed :=
  inferInstanceAs (Decidable (_ ∧ _ ∧ _))

theorem valueOf_append_of_fixed {tag : UInt64} (patched : tag = 8 ∨ tag = 0x6ffffff9)
    {entries : List DynEntry} (fixed : ∀ entry ∈ entries, entry.IsFixed)
    (rest : List DynEntry) : valueOf tag (entries ++ rest) = valueOf tag rest := by
  induction entries with
  | nil => rfl
  | cons entry others induction =>
      rcases fixed entry List.mem_cons_self with ⟨notEnd, notSize, notCount⟩
      have notTag : entry.tag ≠ tag := by
        rcases patched with rfl | rfl
        · exact notSize
        · exact notCount
      rw [List.cons_append, valueOf_cons, if_neg notEnd, if_neg notTag]
      exact induction fun other isOther => fixed other (List.mem_cons_of_mem _ isOther)

/-- Bytes that are a table of entries that no patch changes. -/
def AreFixed (bytes : List UInt8) : Prop :=
  ∃ entries, bytes = format.table entries ∧ ∀ entry ∈ entries, entry.IsFixed

namespace AreFixed

variable {bytes more : List UInt8}

theorem nil : AreFixed [] := ⟨[], rfl, fun _ absent => absurd absent List.not_mem_nil⟩

theorem append (first : AreFixed bytes) (second : AreFixed more) :
    AreFixed (bytes ++ more) := by
  rcases first with ⟨entries, rfl, fixed⟩
  rcases second with ⟨others, rfl, fixedToo⟩
  refine ⟨entries ++ others, (format.table_append entries others).symm, ?_⟩
  intro entry present
  rcases List.mem_append.mp present with isFirst | isSecond
  · exact fixed entry isFirst
  · exact fixedToo entry isSecond

theorem single {tag : UInt64} (fixed : (⟨tag, 0⟩ : DynEntry).IsFixed) (value : UInt64) :
    AreFixed (dynTag tag value) := by
  refine ⟨[⟨tag, value⟩], (List.append_nil _).symm, fun entry present => ?_⟩
  rw [List.mem_singleton.mp present]
  exact fixed

theorem ofIf {condition : Prop} [Decidable condition] (first : AreFixed bytes)
    (second : AreFixed more) : AreFixed (if condition then bytes else more) := by
  split
  · exact first
  · exact second

theorem flatMap {Item : Type} {write : Item → List UInt8} {items : List Item}
    (each : ∀ item ∈ items, AreFixed (write item)) : AreFixed (items.flatMap write) := by
  induction items with
  | nil => exact nil
  | cons item rest induction =>
      rw [List.flatMap_cons]
      exact (each item List.mem_cons_self).append
        (induction fun other isOther => each other (List.mem_cons_of_mem _ isOther))

end AreFixed

end DynEntry

namespace LayoutInput

variable (input : LayoutInput)

theorem flagTags_fixed (dynj : DynamicInfo) : DynEntry.AreFixed (input.flagTags dynj) := by
  have flags (bits : UInt64) : DynEntry.AreFixed (dynTag 30 0x8 ++ dynTag 0x6ffffffb bits) :=
    (DynEntry.AreFixed.single (by decide) _).append (DynEntry.AreFixed.single (by decide) _)
  rw [flagTags]
  exact .ofIf (flags _) (.ofIf (flags _) (.ofIf (.single (by decide) _) .nil))

theorem addressTag_fixed (sections : List OutputSection) (name : Name) {tag : UInt64}
    (fixed : (⟨tag, 0⟩ : DynEntry).IsFixed) :
    DynEntry.AreFixed (addressTag sections name tag) := by
  rw [addressTag]
  split
  · exact .single fixed _
  · exact .nil

theorem arrayTags_fixed (sections : List OutputSection) (name : Name)
    {address size : UInt64} (addressFixed : (⟨address, 0⟩ : DynEntry).IsFixed)
    (sizeFixed : (⟨size, 0⟩ : DynEntry).IsFixed) :
    DynEntry.AreFixed (arrayTags sections name address size) := by
  rw [arrayTags]
  split
  · exact (DynEntry.AreFixed.single addressFixed _).append (.single sizeFixed _)
  · exact .nil

/-- The tags of `.rela.dyn`: its size, when it has room for any entry, and the number of the
relative ones, when there are any. -/
def relaTags (dynj : DynamicInfo) (sections : List OutputSection) : List DynEntry :=
  (if input.nRelaDyn dynj > 0 then
    [⟨7, vaOf sections .relaDyn⟩, ⟨8, UInt64.ofNat (input.nRelaDyn dynj) * relaSize⟩,
      ⟨9, relaSize⟩]
  else []) ++
    (if dynj.nRelative > dynj.nIrelative then
      [⟨0x6ffffff9, UInt64.ofNat (dynj.nRelative - dynj.nIrelative)⟩]
    else [])

theorem frontTags_fixed (pre : DynPrebuild) (dynj : DynamicInfo)
    (sections : List OutputSection) :
    DynEntry.AreFixed (pre.neededOff.flatMap (fun off => dynTag 1 off.toUInt64) ++
      (match pre.sonameDtOff with
        | some off => dynTag 14 off.toUInt64
        | none => []) ++
      (match pre.rpathDtOff with
        | some off => dynTag (if dynj.enableNewDtags then 29 else 15) off.toUInt64
        | none => []) ++
      (if pre.blobs.hash.isEmpty then [] else dynTag 4 (vaOf sections .hash)) ++
      (if pre.blobs.gnuHash.isEmpty then []
        else dynTag 0x6ffffef5 (vaOf sections .gnuHash)) ++
      dynTag 5 (vaOf sections .dynStr) ++ dynTag 6 (vaOf sections .dynSym) ++
      dynTag 10 (UInt64.ofNat pre.blobs.dynstr.length) ++ dynTag 11 24) := by
  have needed : DynEntry.AreFixed
      (pre.neededOff.flatMap fun off => dynTag 1 off.toUInt64) :=
    .flatMap fun _ _ => .single (by decide) _
  have soname : DynEntry.AreFixed (match pre.sonameDtOff with
      | some off => dynTag 14 off.toUInt64
      | none => []) := by
    cases pre.sonameDtOff with
    | some off => exact .single (by decide) _
    | none => exact .nil
  have rpath : DynEntry.AreFixed (match pre.rpathDtOff with
      | some off => dynTag (if dynj.enableNewDtags then 29 else 15) off.toUInt64
      | none => []) := by
    cases pre.rpathDtOff with
    | some off =>
        cases dynj.enableNewDtags with
        | true => exact .single (by decide) _
        | false => exact .single (by decide) _
    | none => exact .nil
  have hash : DynEntry.AreFixed
      (if pre.blobs.hash.isEmpty then [] else dynTag 4 (vaOf sections .hash)) :=
    .ofIf .nil (.single (by decide) _)
  have gnuHash : DynEntry.AreFixed (if pre.blobs.gnuHash.isEmpty then []
      else dynTag 0x6ffffef5 (vaOf sections .gnuHash)) :=
    .ofIf .nil (.single (by decide) _)
  have tables := (((needed.append soname).append rpath).append hash).append gnuHash
  exact (((tables.append (.single (by decide) _)).append
    (.single (by decide) _)).append (.single (by decide) _)).append (.single (by decide) _)

theorem backTags_fixed (pre : DynPrebuild) (dynj : DynamicInfo)
    (sections : List OutputSection) :
    DynEntry.AreFixed ((if input.pltSyms.isEmpty then []
      else
        dynTag 3 (vaOf sections .gotPlt) ++
          dynTag 2 (UInt64.ofNat input.pltSyms.length * relaSize) ++
          dynTag 20 7 ++ dynTag 23 (vaOf sections .relaPlt)) ++
      (if pre.blobs.verneedNum > 0 then
        dynTag 0x6ffffff0 (vaOf sections .gnuVersion) ++
          dynTag 0x6ffffffe (vaOf sections .gnuVersionR) ++
          dynTag 0x6fffffff pre.blobs.verneedNum
      else []) ++
      input.flagTags dynj ++
      addressTag sections (nameOf ".init") 12 ++
      addressTag sections (nameOf ".fini") 13 ++
      arrayTags sections (nameOf ".init_array") 25 27 ++
      arrayTags sections (nameOf ".fini_array") 26 28) := by
  have plt : DynEntry.AreFixed (if input.pltSyms.isEmpty then []
      else
        dynTag 3 (vaOf sections .gotPlt) ++
          dynTag 2 (UInt64.ofNat input.pltSyms.length * relaSize) ++
          dynTag 20 7 ++ dynTag 23 (vaOf sections .relaPlt)) :=
    .ofIf .nil ((((DynEntry.AreFixed.single (by decide) _).append
      (.single (by decide) _)).append (.single (by decide) _)).append
      (.single (by decide) _))
  have versions : DynEntry.AreFixed (if pre.blobs.verneedNum > 0 then
      dynTag 0x6ffffff0 (vaOf sections .gnuVersion) ++
        dynTag 0x6ffffffe (vaOf sections .gnuVersionR) ++
        dynTag 0x6fffffff pre.blobs.verneedNum
      else []) :=
    .ofIf (((DynEntry.AreFixed.single (by decide) _).append
      (.single (by decide) _)).append (.single (by decide) _)) .nil
  have flags := (plt.append versions).append (input.flagTags_fixed dynj)
  exact (((flags.append (addressTag_fixed sections _ (by decide))).append
    (addressTag_fixed sections _ (by decide))).append
    (arrayTags_fixed sections _ (by decide) (by decide))).append
    (arrayTags_fixed sections _ (by decide) (by decide))

theorem table_relaTags (dynj : DynamicInfo) (sections : List OutputSection) :
    DynEntry.format.table (input.relaTags dynj sections) =
      (if input.nRelaDyn dynj > 0 then
        dynTag 7 (vaOf sections .relaDyn) ++
          dynTag 8 (UInt64.ofNat (input.nRelaDyn dynj) * relaSize) ++
          dynTag 9 relaSize
      else []) ++
      (if dynj.nRelative > dynj.nIrelative then
        dynTag 0x6ffffff9 (UInt64.ofNat (dynj.nRelative - dynj.nIrelative))
      else []) := by
  rw [relaTags, RecordFormat.table_append]
  congr 1
  · split <;> rfl
  · split <;> rfl

private theorem append_regroup (front size count plt versions flags start stop first last
    ending : List UInt8) :
    front ++ size ++ count ++ plt ++ versions ++ flags ++ start ++ stop ++ first ++ last ++
        ending =
      front ++ (size ++ count) ++
        (plt ++ versions ++ flags ++ start ++ stop ++ first ++ last) ++ ending := by
  simp only [List.append_assoc]

theorem exists_dynamicEntries (pre : DynPrebuild) (dynj : DynamicInfo)
    (sections : List OutputSection) :
    ∃ front back, input.dynamicBytes pre dynj sections =
        DynEntry.format.table (front ++ input.relaTags dynj sections ++ back ++ [⟨0, 0⟩]) ∧
      (∀ entry ∈ front, entry.IsFixed) ∧ ∀ entry ∈ back, entry.IsFixed := by
  rcases frontTags_fixed pre dynj sections with ⟨front, isFront, frontFixed⟩
  rcases input.backTags_fixed pre dynj sections with ⟨back, isBack, backFixed⟩
  refine ⟨front, back, ?_, frontFixed, backFixed⟩
  have last : DynEntry.format.table [⟨0, 0⟩] = dynTag 0 0 := List.append_nil _
  have joined : DynEntry.format.table
      (front ++ input.relaTags dynj sections ++ back ++ [⟨0, 0⟩]) =
      DynEntry.format.table front ++ DynEntry.format.table (input.relaTags dynj sections) ++
        DynEntry.format.table back ++ dynTag 0 0 := by
    rw [RecordFormat.table_append, RecordFormat.table_append, RecordFormat.table_append, last]
  rw [joined, ← isFront, ← isBack, table_relaTags]
  exact append_regroup _ _ _ _ _ _ _ _ _ _ _

theorem valueOf_relaTags (dynj : DynamicInfo) (sections : List OutputSection)
    {rest : List DynEntry} (behind : ∀ tag : UInt64, tag = 8 ∨ tag = 0x6ffffff9 →
      DynEntry.valueOf tag rest = none) :
    (DynEntry.valueOf 8 (input.relaTags dynj sections ++ rest)).isSome =
        decide (input.nRelaDyn dynj > 0) ∧
      (DynEntry.valueOf 0x6ffffff9 (input.relaTags dynj sections ++ rest)).isSome =
        decide (dynj.nRelative > dynj.nIrelative) := by
  have noSize := behind 8 (.inl rfl)
  have noCount := behind 0x6ffffff9 (.inr rfl)
  rw [relaTags]
  by_cases room : input.nRelaDyn dynj > 0
  · by_cases counted : dynj.nRelative > dynj.nIrelative
    · simp [room, counted, DynEntry.valueOf_cons]
    · simp [room, counted, DynEntry.valueOf_cons, noCount]
  · by_cases counted : dynj.nRelative > dynj.nIrelative
    · simp [room, counted, DynEntry.valueOf_cons, noSize]
    · simp [room, counted, noSize, noCount]

theorem exists_relaValues (pre : DynPrebuild) (dynj : DynamicInfo)
    (sections : List OutputSection) :
    ∃ entries, input.dynamicBytes pre dynj sections = DynEntry.format.table entries ∧
      (DynEntry.valueOf 8 entries).isSome = decide (input.nRelaDyn dynj > 0) ∧
      (DynEntry.valueOf 0x6ffffff9 entries).isSome =
        decide (dynj.nRelative > dynj.nIrelative) := by
  rcases input.exists_dynamicEntries pre dynj sections with
    ⟨front, back, isTable, frontFixed, backFixed⟩
  have behind (tag : UInt64) (patched : tag = 8 ∨ tag = 0x6ffffff9) :
      DynEntry.valueOf tag (back ++ [⟨0, 0⟩]) = none := by
    rw [DynEntry.valueOf_append_of_fixed patched backFixed]
    rfl
  refine ⟨_, isTable, ?_⟩
  rw [List.append_assoc, List.append_assoc,
    DynEntry.valueOf_append_of_fixed (.inl rfl) frontFixed,
    DynEntry.valueOf_append_of_fixed (.inr rfl) frontFixed]
  exact input.valueOf_relaTags dynj sections behind

end LayoutInput

end Peony
