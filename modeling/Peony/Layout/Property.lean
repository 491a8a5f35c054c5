import Mathlib.Data.List.Sort
import Peony.Object.EhFrame
import Peony.Object.Elf

namespace Peony

/-! The merged `.note.gnu.property` section. -/

/-! ## Little-endian words -/

def le16 (word : UInt16) : List UInt8 :=
  (List.range 2).map fun place => (word >>> UInt16.ofNat (8 * place)).toUInt8

def le32 (word : UInt32) : List UInt8 :=
  (List.range 4).map fun place => (word >>> UInt32.ofNat (8 * place)).toUInt8

@[simp] theorem length_le16 (word : UInt16) : (le16 word).length = 2 := by
  simp [le16]

@[simp] theorem length_le32 (word : UInt32) : (le32 word).length = 4 := by
  simp [le32]

/-! ## Properties -/

namespace GnuProperty

def x86Feature1And : UInt32 := 0xc0000002

def x86Isa1Needed : UInt32 := 0xc0000001

def x86Isa1Used : UInt32 := 0xc0000000

def x86Feature2Used : UInt32 := 0xc0010001

end GnuProperty

structure GnuProp where
  prType : UInt32
  value : UInt32
deriving DecidableEq, Repr

/-- `value` rounded up to a multiple of a power of two, on lengths. -/
def padTo (align value : Nat) : Nat := (value + (align - 1)) / align * align

def parsePropertyDescriptor : Nat → List UInt8 → List GnuProp
  | 0, _ => []
  | fuel + 1, rest =>
      if rest.length < 8 then []
      else
        let datasz := readU32 (rest.drop 4)
        if rest.length < 8 + datasz then []
        else
          let more := parsePropertyDescriptor fuel (rest.drop (8 + padTo 8 datasz))
          if 4 ≤ datasz then
            ⟨UInt32.ofNat (readU32 rest), UInt32.ofNat (readU32 (rest.drop 8))⟩ ::
              more
          else more

/-- The merge so far: the values that are intersected, by type, and the values
that are united, when there are any. -/
structure PropertyMerge where
  featureAnd : List (UInt32 × UInt32) := []
  isaUsed : Option UInt32 := none
deriving DecidableEq, Repr

def intersectAt (prType value : UInt32) :
    List (UInt32 × UInt32) → List (UInt32 × UInt32)
  | [] => [(prType, value)]
  | entry :: rest =>
      if entry.1 = prType then (prType, entry.2 &&& value) :: rest
      else entry :: intersectAt prType value rest

def PropertyMerge.add (merge : PropertyMerge) (prop : GnuProp) : PropertyMerge :=
  if prop.prType = GnuProperty.x86Feature1And ∨
      prop.prType = GnuProperty.x86Feature2Used ∨
      prop.prType = GnuProperty.x86Isa1Needed then
    { merge with
      featureAnd := intersectAt prop.prType prop.value merge.featureAnd }
  else if prop.prType = GnuProperty.x86Isa1Used then
    { merge with isaUsed := some (merge.isaUsed.getD 0 ||| prop.value) }
  else merge

/-- The loop over the notes of one section, from the current one on. -/
def mergeNotes : Nat → List UInt8 → PropertyMerge → PropertyMerge
  | 0, _, merge => merge
  | fuel + 1, rest, merge =>
      if rest.length < 12 then merge
      else
        let namesz := readU32 rest
        let descsz := readU32 (rest.drop 4)
        let descOff := 12 + padTo 4 namesz
        if rest.length < descOff + descsz then merge
        else
          let desc := (rest.drop descOff).take descsz
          mergeNotes fuel (rest.drop (descOff + padTo 4 descsz))
            ((parsePropertyDescriptor desc.length desc).foldl
              PropertyMerge.add merge)

def propertyName : Name := nameOf ".note.gnu.property"

def encodeProp (prop : GnuProp) : List UInt8 :=
  le32 prop.prType ++ le32 4 ++ le32 prop.value ++ [0, 0, 0, 0]

/-- The properties of the merged note: the united ones, then the intersected ones
in the order of their types. -/
def PropertyMerge.props (merge : PropertyMerge) : List GnuProp :=
  (match merge.isaUsed with
    | some value => [⟨GnuProperty.x86Isa1Used, value⟩]
    | none => []) ++
  (merge.featureAnd.insertionSort fun first second =>
    first.1 ≤ second.1).map fun entry => ⟨entry.1, entry.2⟩

def mergeGnuPropertyNotes (arena : InputArena) (objects : List InputObject) :
    Option (List UInt8) :=
  let noted := (objects.flatMap fun obj => obj.sections).filter fun sec =>
    sec.name == propertyName
  if noted.isEmpty then none
  else
    let merge := noted.foldl
      (fun merge sec =>
        mergeNotes (arena.bytes sec.data).length (arena.bytes sec.data) merge)
      {}
    let desc := merge.props.flatMap encodeProp
    some (le32 4 ++ le32 (UInt32.ofNat desc.length) ++ le32 5 ++
      nameOf "GNU\x00" ++ desc)

end Peony
