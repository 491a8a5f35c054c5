import Mathlib.Data.List.Basic
import Peony.Foundation.Alignment

/-! Ranges of integers in order, none of which meets another, and a cursor that
makes such ranges with words of 64 bits. -/

/-! ## Ranges -/

namespace Spans

structure Span where
  start : Nat
  size : Nat

def Span.stop (span : Span) : Nat := span.start + span.size

/-- No integer is in both ranges. -/
def Span.Apart (first second : Span) : Prop :=
  first.stop ≤ second.start ∨ second.stop ≤ first.start

def Span.Contains (outer inner : Span) : Prop :=
  outer.start ≤ inner.start ∧ inner.stop ≤ outer.stop

/-- The ranges follow each other between two bounds. -/
inductive Laid : Nat → List Span → Nat → Prop where
  | nil {low high : Nat} (ordered : low ≤ high) : Laid low [] high
  | cons {low high : Nat} {span : Span} {rest : List Span}
      (above : low ≤ span.start) (others : Laid span.stop rest high) :
      Laid low (span :: rest) high

namespace Laid

variable {low middle high : Nat} {spans others : List Span}

theorem le (laid : Laid low spans high) : low ≤ high := by
  induction laid with
  | nil ordered => exact ordered
  | cons above _ induction =>
      exact (above.trans (Nat.le_add_right _ _)).trans induction

theorem widen (laid : Laid low spans high) {lower higher : Nat}
    (isLower : lower ≤ low) (isHigher : high ≤ higher) :
    Laid lower spans higher := by
  induction laid generalizing lower with
  | nil ordered => exact .nil ((isLower.trans ordered).trans isHigher)
  | cons above _ induction =>
      exact .cons (isLower.trans above) (induction le_rfl isHigher)

theorem append (first : Laid low spans middle) (second : Laid middle others high) :
    Laid low (spans ++ others) high := by
  induction first with
  | nil ordered => exact second.widen ordered le_rfl
  | cons above _ induction => exact .cons above (induction second)

theorem within (laid : Laid low spans high) {span : Span} (present : span ∈ spans) :
    low ≤ span.start ∧ span.stop ≤ high := by
  induction laid with
  | nil _ => exact absurd present List.not_mem_nil
  | cons above rest induction =>
      rcases List.mem_cons.mp present with rfl | inRest
      · exact ⟨above, rest.le⟩
      · have inside := induction inRest
        exact ⟨(above.trans (Nat.le_add_right _ _)).trans inside.1, inside.2⟩

theorem pairwise (laid : Laid low spans high) :
    spans.Pairwise fun first second => first.stop ≤ second.start := by
  induction laid with
  | nil _ => exact .nil
  | cons _ rest induction =>
      exact .cons (fun _ present => (rest.within present).1) induction

theorem apart (laid : Laid low spans high) : spans.Pairwise Span.Apart :=
  laid.pairwise.imp .inl

theorem sublist (laid : Laid low spans high) (part : others.Sublist spans) :
    Laid low others high := by
  induction laid generalizing others with
  | nil ordered =>
      rw [List.sublist_nil.mp part]
      exact .nil ordered
  | cons above rest induction =>
      cases part with
      | cons _ part =>
          exact (induction part).widen
            (above.trans (Nat.le_add_right _ _)) le_rfl
      | cons_cons _ part => exact .cons above (induction part)

/-- All ranges moved down. -/
theorem shift (laid : Laid low spans high) {base : Nat} (below : base ≤ low) :
    Laid (low - base) (spans.map fun span => ⟨span.start - base, span.size⟩)
      (high - base) := by
  induction laid with
  | nil ordered => exact .nil (Nat.sub_le_sub_right ordered base)
  | @cons low high span rest above _ induction =>
      have stopBelow : base ≤ span.stop :=
        (below.trans above).trans (Nat.le_add_right _ _)
      refine .cons (Nat.sub_le_sub_right above base) ?_
      have next := induction stopBelow
      rwa [Span.stop, Nat.sub_add_comm (below.trans above)] at next

end Laid

end Spans

/-! ## A cursor on words -/

namespace Cursor

open Alignment Spans

/-- An item to be placed: the mask of its alignment and its size. -/
structure Slot where
  mask : UInt64
  size : UInt64

namespace Slot

def place (cursor : UInt64) (slot : Slot) : UInt64 := roundMask cursor slot.mask

def advance (cursor : UInt64) (slot : Slot) : UInt64 :=
  slot.place cursor + slot.size

/-- The item is placed with sums that are words. -/
def Fits (cursor : UInt64) (slot : Slot) : Prop :=
  cursor.toNat + slot.mask.toNat < 2 ^ 64 ∧
    (slot.place cursor).toNat + slot.size.toNat < 2 ^ 64

def span (cursor : UInt64) (slot : Slot) : Span where
  start := (slot.place cursor).toNat
  size := slot.size.toNat

def IsAligned (slot : Slot) : Prop := ∃ bits, slot.mask.toNat = 2 ^ bits - 1

/-- The item is placed as in the integers. -/
def IsExact (cursor : UInt64) (slot : Slot) : Prop :=
  (slot.place cursor).toNat = roundUp cursor.toNat (slot.mask.toNat + 1) ∧
    (slot.advance cursor).toNat = (slot.place cursor).toNat + slot.size.toNat

/-- The cursor that the item would leave in the integers. -/
def exact (cursor : Nat) (slot : Slot) : Nat :=
  roundUp cursor (slot.mask.toNat + 1) + slot.size.toNat

end Slot

/-- The cursor after all items. -/
def finish (cursor : UInt64) (slots : List Slot) : UInt64 :=
  slots.foldl (fun cursor slot => slot.advance cursor) cursor

def spans : UInt64 → List Slot → List Span
  | _, [] => []
  | cursor, slot :: rest => slot.span cursor :: spans (slot.advance cursor) rest

/-- All items are placed with sums that are words. -/
def Fits : UInt64 → List Slot → Prop
  | _, [] => True
  | cursor, slot :: rest => slot.Fits cursor ∧ Fits (slot.advance cursor) rest

/-- All items are placed as in the integers. -/
def IsExact : UInt64 → List Slot → Prop
  | _, [] => True
  | cursor, slot :: rest =>
      slot.IsExact cursor ∧ IsExact (slot.advance cursor) rest

instance decidableFits : (cursor : UInt64) → (slots : List Slot) →
    Decidable (Fits cursor slots)
  | _, [] => .isTrue trivial
  | cursor, slot :: rest =>
      haveI := decidableFits (slot.advance cursor) rest
      inferInstanceAs (Decidable ((_ ∧ _) ∧ _))

def exact (cursor : Nat) (slots : List Slot) : Nat :=
  slots.foldl (fun cursor slot => slot.exact cursor) cursor

variable {cursor : UInt64} {slot : Slot} {slots more : List Slot}

theorem finish_append (cursor : UInt64) (slots more : List Slot) :
    finish cursor (slots ++ more) = finish (finish cursor slots) more :=
  List.foldl_append

theorem spans_append (cursor : UInt64) (slots more : List Slot) :
    spans cursor (slots ++ more) =
      spans cursor slots ++ spans (finish cursor slots) more := by
  induction slots generalizing cursor with
  | nil => rfl
  | cons slot rest induction => exact congrArg _ (induction _)

theorem fits_append :
    Fits cursor (slots ++ more) ↔
      Fits cursor slots ∧ Fits (finish cursor slots) more := by
  induction slots generalizing cursor with
  | nil => simp [Fits, finish]
  | cons slot rest induction =>
      rw [List.cons_append, Fits, Fits, induction, and_assoc]
      rfl

theorem exact_append (cursor : Nat) (slots more : List Slot) :
    exact cursor (slots ++ more) = exact (exact cursor slots) more :=
  List.foldl_append

/-! ### What fits is laid out in order -/

theorem Slot.Fits.le_place (fits : slot.Fits cursor) :
    cursor.toNat ≤ (slot.place cursor).toNat :=
  le_roundMask fits.1

theorem Slot.Fits.toNat_advance (fits : slot.Fits cursor) :
    (slot.advance cursor).toNat = (slot.span cursor).stop := by
  rw [Slot.advance, UInt64.toNat_add, Nat.mod_eq_of_lt fits.2]
  rfl

theorem Fits.laid (fits : Fits cursor slots) :
    Laid cursor.toNat (spans cursor slots) (finish cursor slots).toNat := by
  induction slots generalizing cursor with
  | nil => exact .nil le_rfl
  | cons slot rest induction =>
      refine .cons fits.1.le_place ?_
      rw [← fits.1.toNat_advance]
      exact induction fits.2

/-! ### What fits is exact -/

theorem Slot.advance_exact (aligned : slot.IsAligned) (fits : slot.Fits cursor) :
    (slot.place cursor).toNat = roundUp cursor.toNat (slot.mask.toNat + 1) ∧
      (slot.advance cursor).toNat = slot.exact cursor.toNat := by
  rcases aligned with ⟨bits, isMask⟩
  have isAlign : slot.mask.toNat + 1 = 2 ^ bits := by
    have positive := Nat.two_pow_pos bits
    omega
  have placed : (slot.place cursor).toNat =
      roundUp cursor.toNat (slot.mask.toNat + 1) := by
    rw [isAlign]
    refine toNat_roundMask isMask ?_
    have slack := roundUp_le_add cursor.toNat (2 ^ bits)
    have sum := fits.1
    omega
  refine ⟨placed, ?_⟩
  rw [fits.toNat_advance, Span.stop, Slot.span, placed]
  rfl

theorem Slot.fits_iff (aligned : slot.IsAligned) :
    slot.Fits cursor ↔ slot.exact cursor.toNat < 2 ^ 64 := by
  constructor
  · intro fits
    rw [← (Slot.advance_exact aligned fits).2]
    exact UInt64.toNat_lt _
  · intro small
    rcases aligned with ⟨bits, isMask⟩
    have isAlign : slot.mask.toNat + 1 = 2 ^ bits := by
      have positive := Nat.two_pow_pos bits
      omega
    rw [Slot.exact, isAlign] at small
    have rounds : roundUp cursor.toNat (2 ^ bits) < 2 ^ 64 :=
      (Nat.le_add_right _ _).trans_lt small
    have placed : (slot.place cursor).toNat =
        roundUp cursor.toNat (2 ^ bits) := toNat_roundMask isMask rounds
    refine ⟨?_, by rw [placed]; exact small⟩
    rw [isMask]
    exact sum_lt_of_roundUp_lt (isMask ▸ slot.mask.toNat_lt) rounds

theorem Slot.isExact_iff (aligned : slot.IsAligned) :
    slot.IsExact cursor ↔ slot.Fits cursor := by
  constructor
  · rintro ⟨placed, advanced⟩
    rw [Slot.fits_iff aligned, Slot.exact, ← placed, ← advanced]
    exact UInt64.toNat_lt _
  · intro fits
    refine ⟨(Slot.advance_exact aligned fits).1, ?_⟩
    rw [fits.toNat_advance]
    rfl

theorem isExact_iff (aligned : ∀ slot ∈ slots, slot.IsAligned) :
    IsExact cursor slots ↔ Fits cursor slots := by
  induction slots generalizing cursor with
  | nil => exact Iff.rfl
  | cons slot rest induction =>
      exact and_congr (Slot.isExact_iff (aligned slot List.mem_cons_self))
        (induction fun slot present => aligned slot (List.mem_cons_of_mem _ present))

theorem Slot.le_exact (cursor : Nat) (slot : Slot) : cursor ≤ slot.exact cursor :=
  (le_roundUp cursor (Nat.succ_pos _)).trans (Nat.le_add_right _ _)

theorem le_exact (cursor : Nat) (slots : List Slot) : cursor ≤ exact cursor slots := by
  induction slots generalizing cursor with
  | nil => exact le_rfl
  | cons slot rest induction => exact (slot.le_exact cursor).trans (induction _)

theorem fits_iff (aligned : ∀ slot ∈ slots, slot.IsAligned) :
    Fits cursor slots ↔ exact cursor.toNat slots < 2 ^ 64 := by
  induction slots generalizing cursor with
  | nil => exact iff_of_true trivial cursor.toNat_lt
  | cons slot rest induction =>
      have restAligned : ∀ slot ∈ rest, slot.IsAligned :=
        fun slot present => aligned slot (List.mem_cons_of_mem _ present)
      have isAligned := aligned slot List.mem_cons_self
      change slot.Fits cursor ∧ _ ↔ exact (slot.exact cursor.toNat) rest < _
      constructor
      · rintro ⟨fits, restFits⟩
        rw [← (Slot.advance_exact isAligned fits).2]
        exact (induction restAligned).mp restFits
      · intro small
        have fits := (Slot.fits_iff isAligned).mpr ((le_exact _ rest).trans_lt small)
        refine ⟨fits, (induction restAligned).mpr ?_⟩
        rwa [(Slot.advance_exact isAligned fits).2]

theorem Fits.finish_eq (fits : Fits cursor slots)
    (aligned : ∀ slot ∈ slots, slot.IsAligned) :
    (finish cursor slots).toNat = exact cursor.toNat slots := by
  induction slots generalizing cursor with
  | nil => rfl
  | cons slot rest induction =>
      change (finish (slot.advance cursor) rest).toNat =
        exact (slot.exact cursor.toNat) rest
      rw [induction fits.2
          (fun slot present => aligned slot (List.mem_cons_of_mem _ present)),
        (Slot.advance_exact (aligned slot List.mem_cons_self) fits.1).2]

/-! ### Places in the integers -/

/-- The starts that items have in the integers. -/
def starts : Nat → List Slot → List Nat
  | _, [] => []
  | cursor, slot :: rest =>
      roundUp cursor (slot.mask.toNat + 1) :: starts (slot.exact cursor) rest

theorem Fits.starts_eq (fits : Fits cursor slots)
    (aligned : ∀ slot ∈ slots, slot.IsAligned) :
    (spans cursor slots).map Span.start = starts cursor.toNat slots := by
  induction slots generalizing cursor with
  | nil => rfl
  | cons slot rest induction =>
      have first := Slot.advance_exact (aligned slot List.mem_cons_self) fits.1
      have others := induction fits.2
        (fun slot present => aligned slot (List.mem_cons_of_mem _ present))
      rw [spans, starts, List.map_cons, others, first.2]
      exact congrArg (· :: _) first.1

end Cursor
