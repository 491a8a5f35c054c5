import Mathlib.Algebra.Group.Int.Defs
import Mathlib.Algebra.GroupWithZero.Nat
import Mathlib.Data.List.AList

namespace Peony

/-! The input data model: what parsing leaves of one relocatable object, and the
arena that owns the bytes its sections point into. -/

/-! ## Names -/

/-- Section and symbol names are raw bytes. Interning shares storage between
equal names and is invisible to every comparison, so a name is its bytes. -/
abbrev Name := List UInt8

instance lawfulBEqName : LawfulBEq Name := List.instLawfulBEq

abbrev Path := List UInt8

/-! ## Raw index lookup -/

namespace IndexLookup

/-- The entry of a dense table slot that no index was inserted for. -/
def missingIndex : Nat := 2 ^ 64 - 1

end IndexLookup

/-- Positions by raw ELF index. A dense table falls back to a sparse map as soon
as an index beyond its length is inserted. -/
inductive IndexLookup where
  | dense (positions : List Nat)
  | sparse (positions : AList (fun _ : Nat => Nat))

namespace IndexLookup

def withDenseLen (len : Nat) : IndexLookup :=
  .dense (List.replicate len missingIndex)

instance : Inhabited IndexLookup where
  default := .sparse ∅

def sparseEntries : Nat → List Nat → AList (fun _ : Nat => Nat) →
    AList (fun _ : Nat => Nat)
  | _, [], entries => entries
  | index, entry :: rest, entries =>
      sparseEntries (index + 1) rest
        (if entry = missingIndex then entries else entries.insert index entry)

def insert (lookup : IndexLookup) (rawIndex pos : Nat) : IndexLookup :=
  match lookup with
  | .dense positions =>
      if rawIndex < positions.length then
        .dense (positions.set rawIndex pos)
      else
        .sparse ((sparseEntries 0 positions ∅).insert rawIndex pos)
  | .sparse positions => .sparse (positions.insert rawIndex pos)

def position (lookup : IndexLookup) (rawIndex : Nat) : Option Nat :=
  match lookup with
  | .dense positions =>
      positions[rawIndex]?.filter fun pos => pos != missingIndex
  | .sparse positions => positions.lookup rawIndex

@[simp] theorem position_insert_sparse
    (positions : AList (fun _ : Nat => Nat)) (rawIndex pos other : Nat) :
    (insert (.sparse positions) rawIndex pos).position other =
      if other = rawIndex then some pos
      else (IndexLookup.sparse positions).position other := by
  by_cases equal : other = rawIndex
  · subst equal
    simp [insert, position]
  · simp [insert, position, equal]

end IndexLookup

/-! ## Section bytes -/

inductive DataSrc where
  | mmap (file : UInt32)
  | owned (id : UInt32)
deriving DecidableEq, Repr

/-- A handle into the arena. -/
structure SectionData where
  src : DataSrc
  off : UInt32
  len : UInt32
deriving DecidableEq, Repr

def SectionData.empty : SectionData where
  src := .mmap 0
  off := 0
  len := 0

/-- The backing store of all section bytes: mapped files and owned buffers. -/
structure InputArena where
  mmaps : List (List UInt8)
  owned : List (List UInt8)
deriving DecidableEq, Repr

namespace InputArena

def empty : InputArena := ⟨[], []⟩

def base (arena : InputArena) : DataSrc → List UInt8
  | .mmap file => arena.mmaps.getD file.toNat []
  | .owned id => arena.owned.getD id.toNat []

def bytes (arena : InputArena) (data : SectionData) : List UInt8 :=
  ((arena.base data.src).drop data.off.toNat).take data.len.toNat

@[simp] theorem bytes_empty (arena : InputArena) :
    arena.bytes SectionData.empty = [] := by
  simp [bytes, SectionData.empty]

end InputArena

/-! ## Sections, relocations and symbols -/

inductive SectionKind where
  | text | readOnly | data | bss | debug | ehFrame
  | mergeString | mergeConst | initArray | tdata | tbss | other
deriving DecidableEq, Repr

structure InputReloc where
  offset : UInt64
  rType : UInt32
  symbol : Nat
  addend : Int64
deriving DecidableEq

structure InputSection where
  index : Nat
  name : Name
  kind : SectionKind
  shType : UInt32
  data : SectionData
  align : UInt64
  size : UInt64
  flags : UInt64
  relocs : List InputReloc
deriving DecidableEq

inductive Binding where
  | «local» | global | weak
deriving DecidableEq, Repr

structure InputSymbol where
  index : Nat
  name : Name
  binding : Binding
  isUndefined : Bool
  isCommon : Bool
  isIfunc : Bool
  stType : UInt8
  visibility : UInt8
  sectionIndex : Option Nat
  value : UInt64
  size : UInt64
deriving DecidableEq, Repr

structure ComdatGroup where
  signature : Name
  members : List Nat
deriving DecidableEq, Repr

structure InputObject where
  path : String
  sections : List InputSection
  symbols : List InputSymbol
  sectionMap : IndexLookup
  symbolMap : IndexLookup
  comdatGroups : List ComdatGroup

namespace InputObject

def sectionPos (obj : InputObject) (rawIndex : Nat) : Option Nat :=
  obj.sectionMap.position rawIndex

def symbolPos (obj : InputObject) (rawIndex : Nat) : Option Nat :=
  obj.symbolMap.position rawIndex

def symbolByIndex (obj : InputObject) (rawIndex : Nat) : Option InputSymbol :=
  obj.symbolPos rawIndex >>= fun pos => obj.symbols[pos]?

end InputObject

end Peony
