import Peony.Foundation.Spans

/-! Memory that is mapped from a file, in ranges none of which meets another. -/

namespace Spans

universe u

/-- A range of memory. Its first bytes are those of a file from a place on. -/
structure Mapping where
  memory : Span
  place : Nat
  inFile : Nat

namespace Mapping

variable {Byte : Type u}

def byteAt (zero : Byte) (file : List Byte) (mapping : Mapping) (address : Nat) : Byte :=
  if address < mapping.memory.start + mapping.inFile then
    file[mapping.place + (address - mapping.memory.start)]?.getD zero
  else zero

def Has (mapping : Mapping) (address : Nat) : Prop :=
  mapping.memory.start ≤ address ∧ address < mapping.memory.stop

instance (mapping : Mapping) (address : Nat) : Decidable (mapping.Has address) :=
  inferInstanceAs (Decidable (_ ∧ _))

def rangeOf (mappings : List Mapping) (address : Nat) : Option Mapping :=
  mappings.find? fun mapping => decide (mapping.Has address)

/-- What memory holds at an address, if anything. -/
def mapped (zero : Byte) (mappings : List Mapping) (file : List Byte) (address : Nat) :
    Option Byte :=
  (rangeOf mappings address).map fun mapping => mapping.byteAt zero file address

section

variable {zero : Byte} {mappings : List Mapping} {mapping : Mapping} {address : Nat}
variable {file other : List Byte}

theorem rangeOf_eq_some (apart : (mappings.map Mapping.memory).Pairwise Span.Apart)
    (present : mapping ∈ mappings) (has : mapping.Has address) :
    rangeOf mappings address = some mapping := by
  induction mappings with
  | nil => exact absurd present List.not_mem_nil
  | cons first rest induction =>
      rw [List.map_cons, List.pairwise_cons] at apart
      rw [rangeOf, List.find?_cons]
      rcases List.mem_cons.mp present with rfl | inRest
      · rw [decide_eq_true has]
      · have elsewhere : ¬ first.Has address := by
          intro hasFirst
          rcases has with ⟨above, below⟩
          rcases hasFirst with ⟨firstAbove, firstBelow⟩
          rcases apart.1 _ (List.mem_map_of_mem inRest) with before | behind
          · omega
          · omega
        rw [decide_eq_false elsewhere]
        exact induction apart.2 inRest

theorem mapped_inFile (apart : (mappings.map Mapping.memory).Pairwise Span.Apart)
    (present : mapping ∈ mappings) (has : mapping.Has address) {place : Nat}
    (inFile : address < mapping.memory.start + mapping.inFile)
    (isPlace : place + mapping.memory.start = mapping.place + address)
    (inside : place < file.length) :
    mapped zero mappings file address = file[place]? := by
  have same : mapping.place + (address - mapping.memory.start) = place := by
    have above := has.1
    omega
  rw [mapped, rangeOf_eq_some apart present has, Option.map_some, byteAt, if_pos inFile, same,
    List.getElem?_eq_getElem inside, Option.getD_some]

theorem mapped_behind (apart : (mappings.map Mapping.memory).Pairwise Span.Apart)
    (present : mapping ∈ mappings) (has : mapping.Has address)
    (behind : mapping.memory.start + mapping.inFile ≤ address) :
    mapped zero mappings file address = some zero := by
  rw [mapped, rangeOf_eq_some apart present has, Option.map_some, byteAt,
    if_neg (Nat.not_lt.mpr behind)]

end

end Mapping

end Spans
