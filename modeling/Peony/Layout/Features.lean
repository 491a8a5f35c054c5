import Mathlib.Data.List.Perm.Subperm
import Mathlib.Data.Nat.Bitwise
import Peony.Layout.Property
import Peony.Object.Words

namespace Peony

/-! The features that the merged property note advertises, against those that the
objects advertise. -/

/-! ## Reading notes -/

/-- A note of an object file. -/
structure Note where
  noteType : UInt32
  name : List UInt8
  desc : List UInt8
deriving DecidableEq

/-- The notes of a section, from the current one on. -/
def readNotes : Nat → List UInt8 → List Note
  | 0, _ => []
  | fuel + 1, rest =>
      if rest.length < 12 then []
      else
        let namesz := readU32 rest
        let descsz := readU32 (rest.drop 4)
        let descOff := 12 + padTo 4 namesz
        if rest.length < descOff + descsz then []
        else
          ⟨UInt32.ofNat (readU32 (rest.drop 8)), (rest.drop 12).take namesz,
              (rest.drop descOff).take descsz⟩ ::
            readNotes fuel (rest.drop (descOff + padTo 4 descsz))

def sectionNotes (data : List UInt8) : List Note := readNotes data.length data

structure RawProp where
  prType : UInt32
  data : List UInt8

/-- The properties of a descriptor, from the current one on. -/
def readProps : Nat → List UInt8 → List RawProp
  | 0, _ => []
  | fuel + 1, rest =>
      if rest.length < 8 then []
      else
        let datasz := readU32 (rest.drop 4)
        if rest.length < 8 + datasz then []
        else
          ⟨UInt32.ofNat (readU32 rest), (rest.drop 8).take datasz⟩ ::
            readProps fuel (rest.drop (8 + padTo 8 datasz))

namespace RawProp

def word (prop : RawProp) : UInt32 := UInt32.ofNat (readU32 prop.data)

/-- What the linker takes of a property: the word, when there is one. -/
def read (prop : RawProp) : List GnuProp :=
  if 4 ≤ prop.data.length then [⟨prop.prType, prop.word⟩] else []

/-- The property of the features that every object has to have is one word. -/
def IsFeature (prop : RawProp) : Prop :=
  prop.prType = GnuProperty.x86Feature1And ∧ prop.data.length = 4

instance (prop : RawProp) : Decidable prop.IsFeature :=
  inferInstanceAs (Decidable (prop.prType = GnuProperty.x86Feature1And ∧ prop.data.length = 4))

end RawProp

namespace Note

def props (note : Note) : List RawProp := readProps note.desc.length note.desc

def IsProperty (note : Note) : Prop := note.noteType = 5 ∧ note.name = nameOf "GNU\x00"

instance (note : Note) : Decidable note.IsProperty :=
  inferInstanceAs (Decidable (note.noteType = 5 ∧ note.name = nameOf "GNU\x00"))

def features (note : Note) : List UInt32 :=
  if note.IsProperty then
    note.props.filterMap fun prop => if prop.IsFeature then some prop.word else none
  else []

/-- What the linker takes for features, though it stands in another kind of note or of
property. -/
def strayFeatures (note : Note) : List UInt32 :=
  note.props.filterMap fun prop =>
    if prop.prType = GnuProperty.x86Feature1And ∧ 4 ≤ prop.data.length ∧
        ¬ (note.IsProperty ∧ prop.data.length = 4) then some prop.word else none

/-- All that the linker takes of a note. -/
def taken (note : Note) : List GnuProp := note.props.flatMap RawProp.read

end Note

def propertySections (obj : InputObject) : List InputSection :=
  obj.sections.filter fun sec => sec.name == propertyName

def objectNotes (arena : InputArena) (obj : InputObject) : List Note :=
  (propertySections obj).flatMap fun sec => sectionNotes (arena.bytes sec.data)

/-- The properties that the linker takes from an object. -/
def objectProps (arena : InputArena) (obj : InputObject) : List GnuProp :=
  (objectNotes arena obj).flatMap Note.taken

/-- The values of the property whose bits every object has to set. -/
def featureValues (props : List GnuProp) : List UInt32 :=
  props.filterMap fun prop =>
    if prop.prType = GnuProperty.x86Feature1And then some prop.value else none

def SetsBit (values : List UInt32) (bit : Nat) : Prop :=
  values ≠ [] ∧ ∀ value ∈ values, value.toNat.testBit bit = true

theorem setsBit_congr {values others : List UInt32}
    (same : ∀ value, value ∈ values ↔ value ∈ others) (bit : Nat) :
    SetsBit values bit ↔ SetsBit others bit := by
  have empty : values = [] ↔ others = [] := by
    rw [List.eq_nil_iff_forall_not_mem, List.eq_nil_iff_forall_not_mem]
    exact forall_congr' fun value => not_congr (same value)
  rw [SetsBit, SetsBit, ne_eq, ne_eq, empty]
  exact and_congr_right fun _ => forall_congr' fun value => imp_congr_left (same value)

/-! ## What the merge takes -/

theorem readU32_take {data : List UInt8} {size : Nat} (long : 4 ≤ size) :
    readU32 (data.take size) = readU32 data := by
  rw [readU32, readU32, List.take_take, Nat.min_eq_left long]

theorem parsePropertyDescriptor_eq (fuel : Nat) (rest : List UInt8) :
    parsePropertyDescriptor fuel rest = (readProps fuel rest).flatMap RawProp.read := by
  induction fuel generalizing rest with
  | zero => rfl
  | succ fuel induction =>
      rw [parsePropertyDescriptor, readProps]
      split
      · rfl
      · dsimp only
        split
        · rfl
        · rename_i long fits
          have length : ((rest.drop 8).take (readU32 (rest.drop 4))).length =
              readU32 (rest.drop 4) := by
            rw [List.length_take, List.length_drop]
            omega
          rw [List.flatMap_cons, ← induction, RawProp.read, length]
          split
          · rename_i isWord
            rw [RawProp.word, readU32_take isWord]
            rfl
          · rfl

theorem mergeNotes_eq (fuel : Nat) (data : List UInt8) (merge : PropertyMerge) :
    mergeNotes fuel data merge =
      ((readNotes fuel data).flatMap Note.taken).foldl PropertyMerge.add merge := by
  induction fuel generalizing data merge with
  | zero => rfl
  | succ fuel induction =>
      rw [mergeNotes, readNotes]
      split
      · rfl
      · dsimp only
        split
        · rfl
        · rw [List.flatMap_cons, List.foldl_append, induction, parsePropertyDescriptor_eq]
          rfl

def mergedProps (arena : InputArena) (objects : List InputObject) : PropertyMerge :=
  (objects.flatMap (objectProps arena)).foldl PropertyMerge.add {}

theorem mergeGnuPropertyNotes_eq (arena : InputArena) (objects : List InputObject) :
    mergeGnuPropertyNotes arena objects =
      if ((objects.flatMap fun obj => obj.sections).filter fun sec =>
          sec.name == propertyName).isEmpty then none
      else
        let desc := (mergedProps arena objects).props.flatMap encodeProp
        some (le32 4 ++ le32 (UInt32.ofNat desc.length) ++ le32 5 ++
          nameOf "GNU\x00" ++ desc) := by
  have folded : ((objects.flatMap fun obj => obj.sections).filter fun sec =>
        sec.name == propertyName).foldl (fun merge sec =>
          mergeNotes (arena.bytes sec.data).length (arena.bytes sec.data) merge) {} =
      mergedProps arena objects := by
    have perSection : (fun (merge : PropertyMerge) (sec : InputSection) =>
        mergeNotes (arena.bytes sec.data).length (arena.bytes sec.data) merge) =
        fun merge sec => ((sectionNotes (arena.bytes sec.data)).flatMap Note.taken).foldl
          PropertyMerge.add merge := by
      funext merge sec
      exact mergeNotes_eq _ _ _
    have perObject (obj : InputObject) : objectProps arena obj =
        (propertySections obj).flatMap fun sec =>
          (sectionNotes (arena.bytes sec.data)).flatMap Note.taken := by
      rw [objectProps, objectNotes, List.flatMap_assoc]
    rw [perSection, ← List.foldl_flatMap, mergedProps, List.filter_flatMap,
      List.flatMap_assoc, funext perObject]
    rfl
  rw [mergeGnuPropertyNotes]
  dsimp only
  rw [folded]

/-! ## Notes that are written and read back -/

/-- The property as it stands in a descriptor, padded to eight bytes. -/
def RawProp.encode (prop : RawProp) : List UInt8 :=
  le32 prop.prType ++ le32 (UInt32.ofNat prop.data.length) ++
    (prop.data ++ List.replicate (padTo 8 prop.data.length - prop.data.length) 0)

theorem le_padTo {align : Nat} (positive : 0 < align) (value : Nat) :
    value ≤ padTo align value := by
  have rounded := Nat.div_add_mod (value + (align - 1)) align
  have below := Nat.mod_lt (value + (align - 1)) positive
  rw [padTo, Nat.mul_comm]
  omega

theorem padTo_of_dvd {align value : Nat} (positive : 0 < align) (aligned : align ∣ value) :
    padTo align value = value := by
  rcases aligned with ⟨count, rfl⟩
  rw [padTo, Nat.mul_add_div positive, Nat.div_eq_of_lt (by omega), Nat.add_zero,
    Nat.mul_comm]

theorem readU32_append {word : UInt32} {rest : List UInt8} :
    readU32 (le32 word ++ rest) = word.toNat := by
  have four : (le32 word ++ rest).take 4 = le32 word := by
    rw [← length_le32 word]
    exact List.take_left
  rw [readU32, four, fromLeBytes_le32]

theorem drop_le32 (word : UInt32) (rest : List UInt8) :
    (le32 word ++ rest).drop 4 = rest := by
  rw [← length_le32 word]
  exact List.drop_left

namespace RawProp

/-- The bytes that bring the data to a multiple of eight. -/
def padding (prop : RawProp) : List UInt8 :=
  List.replicate (padTo 8 prop.data.length - prop.data.length) 0

theorem length_padded (prop : RawProp) :
    (prop.data ++ prop.padding).length = padTo 8 prop.data.length := by
  have padded := le_padTo (by decide : 0 < 8) prop.data.length
  rw [padding, List.length_append, List.length_replicate]
  omega

theorem length_encode (prop : RawProp) :
    prop.encode.length = 8 + padTo 8 prop.data.length := by
  have padded := prop.length_padded
  rw [padding] at padded
  rw [encode, List.length_append, padded, List.length_append, length_le32, length_le32]

end RawProp

/-- The properties of a descriptor are read back one by one. -/
theorem readProps_encode (prop : RawProp)
    (bounded : prop.data.length < 4294967296) (rest : List UInt8) (fuel : Nat) :
    readProps (fuel + 1) (prop.encode ++ rest) = prop :: readProps fuel rest := by
  have size : (UInt32.ofNat prop.data.length).toNat = prop.data.length :=
    UInt32.toNat_ofNat_of_lt' bounded
  have shape : prop.encode ++ rest = le32 prop.prType ++
      (le32 (UInt32.ofNat prop.data.length) ++ (prop.data ++ prop.padding ++ rest)) := by
    simp only [RawProp.encode, RawProp.padding, List.append_assoc]
  have behindType : (prop.encode ++ rest).drop 4 =
      le32 (UInt32.ofNat prop.data.length) ++ (prop.data ++ prop.padding ++ rest) := by
    rw [shape, drop_le32]
  have behindSize : (prop.encode ++ rest).drop 8 = prop.data ++ prop.padding ++ rest := by
    rw [show 8 = 4 + 4 from rfl, ← List.drop_drop, behindType, drop_le32]
  have datasz : readU32 ((prop.encode ++ rest).drop 4) = prop.data.length := by
    rw [behindType, readU32_append, size]
  have length : (prop.encode ++ rest).length = 8 + padTo 8 prop.data.length + rest.length := by
    rw [List.length_append, prop.length_encode]
  have padded := le_padTo (by decide : 0 < 8) prop.data.length
  have more : (prop.encode ++ rest).drop (8 + padTo 8 prop.data.length) = rest := by
    rw [← prop.length_encode, List.drop_left]
  rw [readProps, if_neg (by omega)]
  dsimp only
  rw [datasz, if_neg (by omega), more, behindSize, List.append_assoc, List.take_left, shape,
    ofNat_readU32_le32]

theorem readProps_encodeAll (props : List RawProp)
    (bounded : ∀ prop ∈ props, prop.data.length < 4294967296) (fuel : Nat)
    (enough : props.length ≤ fuel) :
    readProps fuel (props.flatMap RawProp.encode) = props := by
  induction props generalizing fuel with
  | nil =>
      cases fuel with
      | zero => rfl
      | succ fuel => rfl
  | cons prop rest induction =>
      cases fuel with
      | zero => cases enough
      | succ fuel =>
          rw [List.flatMap_cons, readProps_encode prop (bounded prop List.mem_cons_self),
            induction (fun other present => bounded other (List.mem_cons_of_mem _ present))
              fuel (Nat.le_of_succ_le_succ enough)]

/-- The note of some properties. -/
def encodeNote (props : List RawProp) : List UInt8 :=
  let desc := props.flatMap RawProp.encode
  le32 4 ++ le32 (UInt32.ofNat desc.length) ++ le32 5 ++ nameOf "GNU\x00" ++ desc

theorem eight_dvd_length_encode (props : List RawProp) :
    8 ∣ (props.flatMap RawProp.encode).length := by
  induction props with
  | nil => exact Nat.dvd_zero 8
  | cons prop rest induction =>
      rw [List.flatMap_cons, List.length_append, prop.length_encode]
      refine Nat.dvd_add (Nat.dvd_add (Nat.dvd_refl 8) ?_) induction
      exact Nat.dvd_mul_left _ _

/-- A note of properties that is written is read back. -/
theorem sectionNotes_encodeNote (props : List RawProp)
    (bounded : (props.flatMap RawProp.encode).length < 4294967296) :
    sectionNotes (encodeNote props) =
      [⟨5, nameOf "GNU\x00", props.flatMap RawProp.encode⟩] := by
  have eight := eight_dvd_length_encode props
  rw [sectionNotes, encodeNote]
  generalize props.flatMap RawProp.encode = desc at bounded eight ⊢
  have size : (UInt32.ofNat desc.length).toNat = desc.length :=
    UInt32.toNat_ofNat_of_lt' bounded
  have aligned : padTo 4 desc.length = desc.length :=
    padTo_of_dvd (by decide) (Nat.dvd_trans (by decide) eight)
  have shape : le32 4 ++ le32 (UInt32.ofNat desc.length) ++ le32 5 ++ nameOf "GNU\x00" ++
      desc = le32 4 ++ (le32 (UInt32.ofNat desc.length) ++
        (le32 5 ++ (nameOf "GNU\x00" ++ desc))) := by
    simp only [List.append_assoc]
  have name : (nameOf "GNU\x00").length = 4 := rfl
  have length : (le32 4 ++ (le32 (UInt32.ofNat desc.length) ++
      (le32 5 ++ (nameOf "GNU\x00" ++ desc)))).length = desc.length + 15 + 1 := by
    rw [List.length_append, List.length_append, List.length_append, List.length_append, name,
      length_le32, length_le32, length_le32]
    omega
  have behindType : (le32 4 ++ (le32 (UInt32.ofNat desc.length) ++
      (le32 5 ++ (nameOf "GNU\x00" ++ desc)))).drop 8 =
        le32 5 ++ (nameOf "GNU\x00" ++ desc) := by
    rw [show 8 = 4 + 4 from rfl, ← List.drop_drop, drop_le32, drop_le32]
  have behindHeader : (le32 4 ++ (le32 (UInt32.ofNat desc.length) ++
      (le32 5 ++ (nameOf "GNU\x00" ++ desc)))).drop 12 = nameOf "GNU\x00" ++ desc := by
    rw [show 12 = 8 + 4 from rfl, ← List.drop_drop, behindType, drop_le32]
  have behindName : (le32 4 ++ (le32 (UInt32.ofNat desc.length) ++
      (le32 5 ++ (nameOf "GNU\x00" ++ desc)))).drop 16 = desc := by
    rw [show 16 = 12 + 4 from rfl, ← List.drop_drop, behindHeader, ← name, List.drop_left]
  have namesz : readU32 (le32 4 ++ (le32 (UInt32.ofNat desc.length) ++
      (le32 5 ++ (nameOf "GNU\x00" ++ desc)))) = 4 := readU32_append
  have descsz : readU32 ((le32 4 ++ (le32 (UInt32.ofNat desc.length) ++
      (le32 5 ++ (nameOf "GNU\x00" ++ desc)))).drop 4) = desc.length := by
    rw [drop_le32, readU32_append, size]
  have start : 12 + padTo 4 4 = 16 := rfl
  have behind : (le32 4 ++ (le32 (UInt32.ofNat desc.length) ++
      (le32 5 ++ (nameOf "GNU\x00" ++ desc)))).drop (16 + desc.length) = [] :=
    List.drop_eq_nil_of_le (by omega)
  have nothing (fuel : Nat) : readNotes fuel [] = [] := by
    cases fuel <;> rfl
  rw [shape, length, readNotes, length, if_neg (by omega)]
  dsimp only
  rw [namesz, descsz, start, if_neg (by omega), aligned, behind, nothing, behindName,
    behindHeader, behindType, ofNat_readU32_le32, List.take_length, ← name, List.take_left]

/-! ## The intersected value -/

def valuesAt (prType : UInt32) (entries : List (UInt32 × UInt32)) : List UInt32 :=
  (entries.filter fun entry => entry.1 == prType).map Prod.snd

/-- The kept value of a type once another one is seen. -/
def meet (value : UInt32) : List UInt32 → List UInt32
  | [] => [value]
  | kept :: rest => (kept &&& value) :: rest

structure Intersection (seen kept : List UInt32) : Prop where
  nil : seen = [] → kept = []
  bits : seen ≠ [] → ∃ value, kept = [value] ∧ ∀ bit,
    value.toNat.testBit bit = true ↔ ∀ one ∈ seen, one.toNat.testBit bit = true

theorem valuesAt_intersectAt_ne {prType other value : UInt32} (different : prType ≠ other)
    (entries : List (UInt32 × UInt32)) :
    valuesAt other (intersectAt prType value entries) = valuesAt other entries := by
  induction entries with
  | nil => simp [intersectAt, valuesAt, different]
  | cons entry rest induction =>
      rw [intersectAt]
      split
      · rename_i same
        simp [valuesAt, same, different]
      · unfold valuesAt at induction ⊢
        rw [List.filter_cons, List.filter_cons]
        split
        · rw [List.map_cons, List.map_cons, induction]
        · exact induction

theorem valuesAt_intersectAt_self (prType value : UInt32)
    (entries : List (UInt32 × UInt32)) :
    valuesAt prType (intersectAt prType value entries) =
      meet value (valuesAt prType entries) := by
  induction entries with
  | nil => simp [intersectAt, valuesAt, meet]
  | cons entry rest induction =>
      rw [intersectAt]
      split
      · rename_i same
        simp [valuesAt, same, meet]
      · rename_i different
        unfold valuesAt at induction ⊢
        rw [List.filter_cons_of_neg (by simpa using different),
          List.filter_cons_of_neg (by simpa using different)]
        exact induction

theorem Intersection.snoc {seen kept : List UInt32} (intersection : Intersection seen kept)
    (value : UInt32) : Intersection (seen ++ [value]) (meet value kept) := by
  refine ⟨fun impossible => absurd impossible (by simp), fun _ => ?_⟩
  by_cases nothing : seen = []
  · rw [intersection.nil nothing, nothing]
    exact ⟨value, rfl, by simp⟩
  · rcases intersection.bits nothing with ⟨first, rfl, bits⟩
    refine ⟨first &&& value, rfl, fun bit => ?_⟩
    rw [UInt32.toNat_and, Nat.testBit_and, Bool.and_eq_true, bits, List.forall_mem_append,
      List.forall_mem_singleton]

theorem Intersection.setsBit_iff {seen kept : List UInt32}
    (intersection : Intersection seen kept) (bit : Nat) :
    SetsBit kept bit ↔ SetsBit seen bit := by
  by_cases nothing : seen = []
  · rw [nothing, intersection.nil nothing]
  · rcases intersection.bits nothing with ⟨value, rfl, bits⟩
    rw [SetsBit, SetsBit, List.forall_mem_singleton, bits]
    exact ⟨fun both => ⟨nothing, both.2⟩, fun both => ⟨by simp, both.2⟩⟩

theorem types_intersectAt (prType value : UInt32) (entries : List (UInt32 × UInt32)) :
    (intersectAt prType value entries).map Prod.fst =
      if prType ∈ entries.map Prod.fst then entries.map Prod.fst
      else entries.map Prod.fst ++ [prType] := by
  induction entries with
  | nil => rfl
  | cons entry rest induction =>
      rw [intersectAt]
      by_cases same : entry.1 = prType
      · rw [if_pos same, List.map_cons, List.map_cons, same, if_pos List.mem_cons_self]
      · rw [if_neg same, List.map_cons, List.map_cons, induction]
        by_cases present : prType ∈ rest.map Prod.fst
        · rw [if_pos present, if_pos (List.mem_cons_of_mem _ present)]
        · rw [if_neg present, if_neg, List.cons_append]
          intro either
          rcases List.mem_cons.mp either with isHead | isRest
          · exact same isHead.symm
          · exact present isRest

def intersectedTypes : List UInt32 :=
  [GnuProperty.x86Feature1And, GnuProperty.x86Feature2Used, GnuProperty.x86Isa1Needed]

/-- The invariant of the merge: the intersected types, each once, and the intersection of
the feature values. -/
structure MergeInvariant (seen : List GnuProp) (merge : PropertyMerge) : Prop where
  nodup : (merge.featureAnd.map Prod.fst).Nodup
  types : ∀ prType ∈ merge.featureAnd.map Prod.fst, prType ∈ intersectedTypes
  intersection : Intersection (featureValues seen)
    (valuesAt GnuProperty.x86Feature1And merge.featureAnd)

theorem MergeInvariant.start : MergeInvariant [] {} where
  nodup := List.nodup_nil
  types _ absent := absurd absent List.not_mem_nil
  intersection := ⟨fun _ => rfl, fun impossible => absurd rfl impossible⟩

theorem featureValues_snoc (seen : List GnuProp) (prop : GnuProp) :
    featureValues (seen ++ [prop]) =
      if prop.prType = GnuProperty.x86Feature1And then featureValues seen ++ [prop.value]
      else featureValues seen := by
  rw [featureValues, List.filterMap_append]
  split
  · rename_i isFeature
    simp [featureValues, isFeature]
  · rename_i other
    simp [featureValues, other]

theorem MergeInvariant.add {seen : List GnuProp} {merge : PropertyMerge}
    (invariant : MergeInvariant seen merge) (prop : GnuProp) :
    MergeInvariant (seen ++ [prop]) (merge.add prop) := by
  have others (notFeature : prop.prType ≠ GnuProperty.x86Feature1And) :
      featureValues (seen ++ [prop]) = featureValues seen := by
    rw [featureValues_snoc, if_neg notFeature]
  rw [PropertyMerge.add]
  split
  · rename_i isIntersected
    have isType : prop.prType ∈ intersectedTypes := by
      simpa [intersectedTypes] using isIntersected
    refine ⟨?_, fun prType present => ?_, ?_⟩
    · rw [types_intersectAt]
      split
      · exact invariant.nodup
      · rename_i absent
        exact List.nodup_append.mpr ⟨invariant.nodup, List.nodup_singleton _,
          fun first isFirst second isSecond same => absent (by
            rw [← List.mem_singleton.mp isSecond, ← same]
            exact isFirst)⟩
    · rw [types_intersectAt] at present
      split at present
      · exact invariant.types prType present
      · rcases List.mem_append.mp present with earlier | isLast
        · exact invariant.types prType earlier
        · rw [List.mem_singleton.mp isLast]
          exact isType
    · by_cases isFeature : prop.prType = GnuProperty.x86Feature1And
      · rw [featureValues_snoc, if_pos isFeature, ← isFeature, valuesAt_intersectAt_self,
          isFeature]
        exact invariant.intersection.snoc prop.value
      · rw [others isFeature, valuesAt_intersectAt_ne isFeature]
        exact invariant.intersection
  · rename_i notIntersected
    have notFeature : prop.prType ≠ GnuProperty.x86Feature1And :=
      fun isFeature => notIntersected (Or.inl isFeature)
    split
    · exact ⟨invariant.nodup, invariant.types, by
        rw [others notFeature]
        exact invariant.intersection⟩
    · exact ⟨invariant.nodup, invariant.types, by
        rw [others notFeature]
        exact invariant.intersection⟩

theorem mergeInvariant_mergedProps (arena : InputArena) (objects : List InputObject) :
    MergeInvariant (objects.flatMap (objectProps arena)) (mergedProps arena objects) := by
  have fromHere (seen props : List GnuProp) {merge : PropertyMerge}
      (invariant : MergeInvariant seen merge) :
      MergeInvariant (seen ++ props) (props.foldl PropertyMerge.add merge) := by
    induction props generalizing seen merge with
    | nil =>
        rw [List.append_nil]
        exact invariant
    | cons prop rest induction =>
        rw [← List.singleton_append, ← List.append_assoc]
        exact induction (seen ++ [prop]) (invariant.add prop)
  exact fromHere [] _ MergeInvariant.start

/-! ## The output -/

theorem mem_featureValues {props : List GnuProp} {value : UInt32} :
    value ∈ featureValues props ↔ ⟨GnuProperty.x86Feature1And, value⟩ ∈ props := by
  rw [featureValues, List.mem_filterMap]
  constructor
  · rintro ⟨prop, present, isValue⟩
    split at isValue
    · rename_i isFeature
      cases isValue
      rw [← isFeature]
      exact present
    · cases isValue
  · intro present
    exact ⟨_, present, if_pos rfl⟩

theorem mem_featureValues_props (merge : PropertyMerge) (value : UInt32) :
    value ∈ featureValues merge.props ↔
      value ∈ valuesAt GnuProperty.x86Feature1And merge.featureAnd := by
  have split : (⟨GnuProperty.x86Feature1And, value⟩ : GnuProp) ∈ merge.props ↔
      ∃ entry ∈ merge.featureAnd.insertionSort (fun first second => first.1 ≤ second.1),
        GnuProp.mk entry.1 entry.2 = ⟨GnuProperty.x86Feature1And, value⟩ := by
    rw [PropertyMerge.props, List.mem_append, List.mem_map]
    refine or_iff_right ?_
    cases merge.isaUsed with
    | none => exact List.not_mem_nil
    | some used =>
        intro impossible
        have same := congrArg GnuProp.prType (List.mem_singleton.mp impossible)
        exact absurd same (show GnuProperty.x86Feature1And ≠ GnuProperty.x86Isa1Used by decide)
  rw [mem_featureValues, split, valuesAt, List.mem_map]
  constructor
  · rintro ⟨entry, present, same⟩
    have isFeature : entry.1 = GnuProperty.x86Feature1And := congrArg GnuProp.prType same
    exact ⟨entry, List.mem_filter.mpr ⟨(List.mem_insertionSort _).mp present,
      beq_iff_eq.mpr isFeature⟩, congrArg GnuProp.value same⟩
  · rintro ⟨entry, present, rfl⟩
    rcases List.mem_filter.mp present with ⟨kept, isFeature⟩
    refine ⟨entry, (List.mem_insertionSort _).mpr kept, ?_⟩
    rw [eq_of_beq isFeature]

namespace MergeInvariant

variable {seen : List GnuProp} {merge : PropertyMerge}

theorem length_props (invariant : MergeInvariant seen merge) : merge.props.length ≤ 4 := by
  have atMostThree : merge.featureAnd.length ≤ 3 := by
    have subperm := List.subperm_of_subset invariant.nodup invariant.types
    have bound := subperm.length_le
    rw [List.length_map] at bound
    exact bound
  rw [PropertyMerge.props, List.length_append, List.length_map,
    List.length_insertionSort]
  cases merge.isaUsed with
  | none => exact Nat.le_trans (Nat.le_of_eq (Nat.zero_add _)) (Nat.le_succ_of_le atMostThree)
  | some value =>
      rw [Nat.add_comm]
      exact Nat.succ_le_succ atMostThree

theorem setsBit_props (invariant : MergeInvariant seen merge) (bit : Nat) :
    SetsBit (featureValues merge.props) bit ↔ SetsBit (featureValues seen) bit := by
  rw [← invariant.intersection.setsBit_iff bit]
  exact setsBit_congr (mem_featureValues_props merge) bit

end MergeInvariant

def sectionFeatures (data : List UInt8) : List UInt32 :=
  (sectionNotes data).flatMap Note.features

def outputFeatures (arena : InputArena) (objects : List InputObject) : List UInt32 :=
  ((mergeGnuPropertyNotes arena objects).map sectionFeatures).getD []

/-- A property of the merged note, with its data. -/
def GnuProp.raw (prop : GnuProp) : RawProp := ⟨prop.prType, le32 prop.value⟩

theorem encode_raw (prop : GnuProp) : prop.raw.encode = encodeProp prop := by
  rw [RawProp.encode, encodeProp, GnuProp.raw, length_le32, ← List.append_assoc]
  rfl

theorem word_raw (prop : GnuProp) : prop.raw.word = prop.value := by
  have word := ofNat_readU32_le32 prop.value []
  rw [List.append_nil] at word
  exact word

theorem length_flatMap_encodeProp (props : List GnuProp) :
    (props.flatMap encodeProp).length = 16 * props.length := by
  induction props with
  | nil => rfl
  | cons prop rest induction =>
      rw [List.flatMap_cons, List.length_append, induction, List.length_cons, encodeProp,
        List.length_append, List.length_append, List.length_append, length_le32,
        length_le32, length_le32, Nat.mul_succ, Nat.add_comm]
      rfl

theorem sectionFeatures_note {props : List GnuProp} (few : props.length ≤ 4) :
    sectionFeatures (le32 4 ++ le32 (UInt32.ofNat (props.flatMap encodeProp).length) ++
      le32 5 ++ nameOf "GNU\x00" ++ props.flatMap encodeProp) = featureValues props := by
  have encoded : (props.map GnuProp.raw).flatMap RawProp.encode =
      props.flatMap encodeProp := by
    rw [List.flatMap_map]
    exact List.flatMap_congr fun prop _ => encode_raw prop
  have length : (props.flatMap encodeProp).length = 16 * props.length :=
    length_flatMap_encodeProp props
  have notes := sectionNotes_encodeNote (props.map GnuProp.raw) (by
    rw [encoded, length]
    omega)
  have read := readProps_encodeAll (props.map GnuProp.raw) (fun prop isRaw => by
    rcases List.mem_map.mp isRaw with ⟨own, _, rfl⟩
    rw [GnuProp.raw, length_le32]
    decide) (props.flatMap encodeProp).length (by
      rw [List.length_map, length]
      omega)
  rw [encoded] at read
  rw [encodeNote, encoded] at notes
  rw [sectionFeatures, notes, List.flatMap_singleton, Note.features, if_pos ⟨rfl, rfl⟩,
    Note.props, read, List.filterMap_map, featureValues]
  refine List.filterMap_congr fun prop _ => ?_
  rw [Function.comp_apply, word_raw]
  by_cases isFeature : prop.prType = GnuProperty.x86Feature1And
  · rw [if_pos isFeature, if_pos ⟨isFeature, length_le32 _⟩]
  · rw [if_neg isFeature, if_neg fun both => isFeature both.1]

theorem outputFeatures_eq (arena : InputArena) (objects : List InputObject) (bit : Nat) :
    SetsBit (outputFeatures arena objects) bit ↔
      SetsBit (featureValues (objects.flatMap (objectProps arena))) bit := by
  have invariant := mergeInvariant_mergedProps arena objects
  rw [← invariant.setsBit_props bit, outputFeatures, mergeGnuPropertyNotes_eq]
  split
  · rename_i noNotes
    rw [List.isEmpty_iff, List.filter_flatMap] at noNotes
    have nothing : objects.flatMap (objectProps arena) = [] := by
      rw [List.flatMap_eq_nil_iff] at noNotes ⊢
      intro obj present
      rw [objectProps, objectNotes, propertySections, noNotes obj present]
      rfl
    rw [mergedProps, nothing]
    rfl
  · rw [Option.map_some, Option.getD_some, sectionFeatures_note invariant.length_props]

/-! ## Conservative merging -/

def objectFeatures (arena : InputArena) (obj : InputObject) : List UInt32 :=
  (objectNotes arena obj).flatMap Note.features

/-- A bit of the output is set exactly when the property notes of every object set it; an
object that carries no value sets none. -/
def FeaturesConservative (arena : InputArena) (objects : List InputObject) : Prop :=
  ∀ bit < 32, SetsBit (outputFeatures arena objects) bit ↔
    ∀ obj ∈ objects, SetsBit (objectFeatures arena obj) bit

def carriedFeatures (arena : InputArena) (objects : List InputObject) : List UInt32 :=
  objects.flatMap (objectFeatures arena)

/-- All words in other notes, or in properties of another size, that are taken for values. -/
def strayFeatures (arena : InputArena) (objects : List InputObject) : List UInt32 :=
  objects.flatMap fun obj => (objectNotes arena obj).flatMap Note.strayFeatures

def sharedBits (values : List UInt32) : UInt32 := values.foldl (· &&& ·) 0xffffffff

theorem mem_taken {note : Note} {value : UInt32} :
    value ∈ featureValues note.taken ↔ value ∈ note.features ∨ value ∈ note.strayFeatures := by
  rw [mem_featureValues, Note.taken, List.mem_flatMap, Note.features, Note.strayFeatures,
    List.mem_filterMap]
  constructor
  · rintro ⟨prop, present, isTaken⟩
    rw [RawProp.read] at isTaken
    split at isTaken
    · rename_i long
      have same := List.mem_singleton.mp isTaken
      have isType : prop.prType = GnuProperty.x86Feature1And :=
        (congrArg GnuProp.prType same).symm
      have isWord : prop.word = value := (congrArg GnuProp.value same).symm
      by_cases genuine : note.IsProperty ∧ prop.data.length = 4
      · rw [if_pos genuine.1]
        refine .inl (List.mem_filterMap.mpr ⟨prop, present, ?_⟩)
        rw [if_pos ⟨isType, genuine.2⟩, isWord]
      · refine .inr ⟨prop, present, ?_⟩
        rw [if_pos ⟨isType, long, genuine⟩, isWord]
    · exact absurd isTaken List.not_mem_nil
  · intro either
    have found {prop : RawProp} (isType : prop.prType = GnuProperty.x86Feature1And)
        (long : 4 ≤ prop.data.length) (isWord : prop.word = value) :
        (⟨GnuProperty.x86Feature1And, value⟩ : GnuProp) ∈ prop.read := by
      rw [RawProp.read, if_pos long, isType, isWord]
      exact List.mem_singleton_self _
    rcases either with genuine | ⟨prop, present, isStray⟩
    · split at genuine
      · rcases List.mem_filterMap.mp genuine with ⟨prop, present, isValue⟩
        split at isValue
        · rename_i isFeature
          exact ⟨prop, present, found isFeature.1 isFeature.2.ge (Option.some.inj isValue)⟩
        · cases isValue
      · exact absurd genuine List.not_mem_nil
    · split at isStray
      · rename_i stray
        exact ⟨prop, present, found stray.1 stray.2.1 (Option.some.inj isStray)⟩
      · cases isStray

theorem mem_merged {arena : InputArena} {objects : List InputObject} {value : UInt32} :
    value ∈ featureValues (objects.flatMap (objectProps arena)) ↔
      value ∈ carriedFeatures arena objects ++ strayFeatures arena objects := by
  have each (note : Note) : (⟨GnuProperty.x86Feature1And, value⟩ : GnuProp) ∈ note.taken ↔
      value ∈ note.features ∨ value ∈ note.strayFeatures :=
    mem_featureValues.symm.trans mem_taken
  rw [mem_featureValues, List.mem_append, carriedFeatures, strayFeatures]
  simp only [List.mem_flatMap, objectProps, objectFeatures, each]
  constructor
  · rintro ⟨obj, present, note, isNote, genuine | stray⟩
    · exact .inl ⟨obj, present, note, isNote, genuine⟩
    · exact .inr ⟨obj, present, note, isNote, stray⟩
  · rintro (⟨obj, present, note, isNote, genuine⟩ | ⟨obj, present, note, isNote, stray⟩)
    · exact ⟨obj, present, note, isNote, .inl genuine⟩
    · exact ⟨obj, present, note, isNote, .inr stray⟩

theorem forall_setsBit_iff (arena : InputArena) (objects : List InputObject) (bit : Nat) :
    (∀ obj ∈ objects, SetsBit (objectFeatures arena obj) bit) ↔
      (∀ obj ∈ objects, objectFeatures arena obj ≠ []) ∧
        ∀ value ∈ carriedFeatures arena objects, value.toNat.testBit bit = true := by
  constructor
  · intro all
    refine ⟨fun obj present => (all obj present).1, fun value carried => ?_⟩
    rcases List.mem_flatMap.mp carried with ⟨obj, present, isValue⟩
    exact (all obj present).2 value isValue
  · rintro ⟨carry, all⟩ obj present
    exact ⟨carry obj present, fun value isValue =>
      all value (List.mem_flatMap.mpr ⟨obj, present, isValue⟩)⟩

theorem testBit_foldl_and (values : List UInt32) (start : UInt32) (bit : Nat) :
    (values.foldl (· &&& ·) start).toNat.testBit bit = true ↔
      start.toNat.testBit bit = true ∧
        ∀ value ∈ values, value.toNat.testBit bit = true := by
  induction values generalizing start with
  | nil => simp
  | cons value rest induction =>
      rw [List.foldl_cons, induction, UInt32.toNat_and, Nat.testBit_and, Bool.and_eq_true,
        List.forall_mem_cons, and_assoc]

theorem testBit_sharedBits (values : List UInt32) {bit : Nat} (inWord : bit < 32) :
    (sharedBits values).toNat.testBit bit = true ↔
      ∀ value ∈ values, value.toNat.testBit bit = true := by
  have ones : (0xffffffff : UInt32).toNat = 2 ^ 32 - 1 := rfl
  rw [sharedBits, testBit_foldl_and, ones, Nat.testBit_two_pow_sub_one, decide_eq_true_iff]
  exact and_iff_right inWord

theorem word_ext {first second : UInt32}
    (same : ∀ bit < 32, first.toNat.testBit bit = true ↔ second.toNat.testBit bit = true) :
    first = second := by
  rw [← UInt32.toNat_inj]
  apply Nat.eq_of_testBit_eq
  intro bit
  by_cases inWord : bit < 32
  · exact Bool.eq_iff_iff.mpr (same bit inWord)
  · have small (word : UInt32) : word.toNat.testBit bit = false :=
      Nat.testBit_lt_two_pow (word.toNat_lt.trans_le
        (Nat.pow_le_pow_right (by decide) (Nat.not_lt.mp inWord)))
    rw [small, small]

theorem sharedBits_eq_zero_iff (values : List UInt32) :
    sharedBits values = 0 ↔
      ∀ bit < 32, ¬ ∀ value ∈ values, value.toNat.testBit bit = true := by
  constructor
  · intro isZero bit inWord all
    have isSet := (testBit_sharedBits values inWord).mpr all
    rw [isZero, UInt32.toNat_zero, Nat.zero_testBit] at isSet
    cases isSet
  · intro missing
    refine word_ext fun bit inWord => ?_
    rw [UInt32.toNat_zero, Nat.zero_testBit, testBit_sharedBits values inWord]
    exact iff_of_false (missing bit inWord) Bool.false_ne_true

/-- The merge is conservative exactly when there are objects and either all of them carry a
value and what is taken for one has the bits that all values have, or an object carries none
and nothing that is taken is left. -/
theorem featuresConservative_iff (arena : InputArena) (objects : List InputObject) :
    FeaturesConservative arena objects ↔
      objects ≠ [] ∧
        (((∀ obj ∈ objects, objectFeatures arena obj ≠ []) ∧
            ∀ stray ∈ strayFeatures arena objects,
              sharedBits (carriedFeatures arena objects) &&& stray =
                sharedBits (carriedFeatures arena objects)) ∨
          (∃ obj ∈ objects, objectFeatures arena obj = []) ∧
            (carriedFeatures arena objects ++ strayFeatures arena objects = [] ∨
              sharedBits (carriedFeatures arena objects ++ strayFeatures arena objects) =
                0)) := by
  have output (bit : Nat) : SetsBit (outputFeatures arena objects) bit ↔
      SetsBit (carriedFeatures arena objects ++ strayFeatures arena objects) bit := by
    rw [outputFeatures_eq]
    exact setsBit_congr (fun _ => mem_merged) bit
  rw [FeaturesConservative]
  by_cases none : objects = []
  · refine iff_of_false (fun conservative => ?_) fun condition => condition.1 none
    have vacuous := (conservative 0 (by decide)).mpr (by
      rw [none]
      exact fun obj absent => absurd absent List.not_mem_nil)
    apply ((output 0).mp vacuous).1
    rw [none]
    rfl
  rw [and_iff_right none]
  rcases List.exists_mem_of_ne_nil objects none with ⟨first, isFirst⟩
  by_cases carry : ∀ obj ∈ objects, objectFeatures arena obj ≠ []
  · have nonempty : carriedFeatures arena objects ++ strayFeatures arena objects ≠ [] := by
      rcases List.exists_mem_of_ne_nil _ (carry first isFirst) with ⟨value, isValue⟩
      exact List.ne_nil_of_mem (List.mem_append_left _
        (List.mem_flatMap.mpr ⟨first, isFirst, isValue⟩))
    have only : ¬ ∃ obj ∈ objects, objectFeatures arena obj = [] := by
      rintro ⟨obj, present, nothing⟩
      exact carry obj present nothing
    have each (bit : Nat) : (SetsBit (outputFeatures arena objects) bit ↔
        ∀ obj ∈ objects, SetsBit (objectFeatures arena obj) bit) ↔
          ((∀ value ∈ carriedFeatures arena objects, value.toNat.testBit bit = true) →
            ∀ stray ∈ strayFeatures arena objects, stray.toNat.testBit bit = true) := by
      rw [output, forall_setsBit_iff, SetsBit, and_iff_right nonempty, and_iff_right carry,
        List.forall_mem_append]
      exact ⟨fun both all => (both.mpr all).2, fun strays => ⟨And.left, fun all =>
        ⟨all, strays all⟩⟩⟩
    simp only [each, only, false_and, or_false, and_iff_right carry]
    constructor
    · intro strays stray isStray
      refine word_ext fun bit inWord => ?_
      rw [UInt32.toNat_and, Nat.testBit_and, Bool.and_eq_true, and_iff_left_iff_imp,
        testBit_sharedBits _ inWord]
      exact fun all => strays bit inWord all stray isStray
    · intro keeps bit inWord all stray isStray
      have isSet := (testBit_sharedBits _ inWord).mpr all
      rw [← keeps stray isStray, UInt32.toNat_and, Nat.testBit_and, Bool.and_eq_true] at isSet
      exact isSet.2
  · have some : ∃ obj ∈ objects, objectFeatures arena obj = [] := by
      by_contra absent
      exact carry fun obj present nothing => absent ⟨obj, present, nothing⟩
    have each (bit : Nat) : (SetsBit (outputFeatures arena objects) bit ↔
        ∀ obj ∈ objects, SetsBit (objectFeatures arena obj) bit) ↔
          ¬ SetsBit (carriedFeatures arena objects ++ strayFeatures arena objects) bit := by
      rw [output]
      refine iff_false_right ?_
      rcases some with ⟨obj, present, nothing⟩
      exact fun all => (all obj present).1 nothing
    simp only [each, carry, false_and, false_or, and_iff_right some]
    by_cases nothing : carriedFeatures arena objects ++ strayFeatures arena objects = []
    · refine iff_of_true (fun bit _ isSet => isSet.1 nothing) (.inl nothing)
    · rw [or_iff_right nothing, sharedBits_eq_zero_iff]
      refine forall_congr' fun bit => imp_congr_right fun _ => ?_
      rw [SetsBit, and_iff_right nothing]

/-- A note with a property that sets the two lowest feature bits. -/
private def featureNote (noteType : UInt32) (vendor : String) : List UInt8 :=
  le32 4 ++ le32 16 ++ le32 noteType ++ nameOf vendor ++
    encodeProp ⟨GnuProperty.x86Feature1And, 3⟩

private def featureArena (noteType : UInt32) (vendor : String) : InputArena where
  mmaps := []
  owned := [featureNote noteType vendor]

private def featureSection : InputSection where
  index := 1
  name := propertyName
  kind := .other
  shType := shtNote
  data := ⟨.owned 0, 0, 32⟩
  align := 8
  size := 32
  flags := shfAlloc
  relocs := []

private def featureObject (sections : List InputSection) : InputObject where
  path := "a.o"
  sections := sections
  symbols := []
  sectionMap := .dense []
  symbolMap := .dense []
  comdatGroups := []

/-- An object with the note and one without it, and an object with a note of another kind: the
output advertises what an object does not. -/
theorem not_featuresConservative :
    ¬ FeaturesConservative (featureArena 5 "GNU\x00")
        [featureObject [featureSection], featureObject []] ∧
      ¬ FeaturesConservative (featureArena 1 "XYZ\x00") [featureObject [featureSection]] := by
  have refuted {arena : InputArena} {objects : List InputObject} {obj : InputObject}
      (advertised : outputFeatures arena objects = [3]) (present : obj ∈ objects)
      (carries : objectFeatures arena obj = []) : ¬ FeaturesConservative arena objects := by
    intro conservative
    have isSet : SetsBit (outputFeatures arena objects) 0 := by
      rw [advertised]
      refine ⟨by decide, fun value isValue => ?_⟩
      rw [List.mem_singleton.mp isValue]
      rfl
    exact ((conservative 0 (Nat.zero_lt_succ 31)).mp isSet obj present).1 carries
  constructor
  · exact refuted (by decide) (List.mem_cons_of_mem _ (List.mem_singleton_self _)) rfl
  · exact refuted (by decide) (List.mem_singleton_self _) (by decide)

end Peony
