import Mathlib.Data.List.Sort

/-! Ranges of integers with a first and a last end, sorted by their first end: a cursor
that finds out what they cover, and neighbours that keep all of them apart. -/

namespace Sweep

variable {Item : Type*} (start stop : Item → Nat)

/-- The integer is in the range. -/
def Has (item : Item) (place : Nat) : Prop := start item ≤ place ∧ place < stop item

/-- Moves the cursor to the end of each range that it meets, until the last integer is
behind it. -/
def covers (last : Nat) : Nat → List Item → Bool
  | _, [] => false
  | cursor, item :: rest =>
      if stop item ≤ cursor then covers last cursor rest
      else if cursor < start item then false
      else if last ≤ max cursor (stop item) then true
      else covers last (max cursor (stop item)) rest

variable {start stop}

theorem covers_iff {items : List Item}
    (sorted : items.Pairwise fun item other => start item ≤ start other)
    {cursor last : Nat} (nonempty : cursor < last) :
    covers start stop last cursor items = true ↔
      ∀ place, cursor ≤ place → place < last →
        ∃ item ∈ items, Has start stop item place := by
  induction items generalizing cursor with
  | nil =>
      refine ⟨nofun, fun all => ?_⟩
      rcases all cursor le_rfl nonempty with ⟨_, present, _⟩
      exact absurd present List.not_mem_nil
  | cons item rest induction =>
      rcases List.pairwise_cons.mp sorted with ⟨leads, others⟩
      rw [covers]
      split
      · rename_i passed
        rw [induction others nonempty]
        refine forall_congr' fun place => imp_congr_right fun isFrom => imp_congr_right
          fun _ => ?_
        rw [List.exists_mem_cons_iff, or_iff_right]
        exact fun has => absurd (has.2.trans_le passed) (Nat.not_lt.mpr isFrom)
      · rename_i isBehind
        split
        · rename_i isBefore
          refine ⟨nofun, fun all => ?_⟩
          rcases all cursor le_rfl nonempty with ⟨other, present, has⟩
          rcases List.mem_cons.mp present with rfl | inRest
          · exact absurd has.1 (Nat.not_le.mpr isBefore)
          · exact absurd ((leads other inRest).trans has.1) (Nat.not_le.mpr isBefore)
        · rename_i meets
          have moves : max cursor (stop item) = stop item :=
            max_eq_right (Nat.le_of_not_le isBehind)
          rw [moves]
          split
          · rename_i reaches
            refine iff_of_true rfl fun place isFrom isBefore => ?_
            exact ⟨item, List.mem_cons_self, (Nat.le_of_not_lt meets).trans isFrom,
              isBefore.trans_le reaches⟩
          · rename_i isShort
            rw [induction others (Nat.lt_of_not_le isShort)]
            constructor
            · intro all place isFrom isBefore
              by_cases inside : place < stop item
              · exact ⟨item, List.mem_cons_self,
                  (Nat.le_of_not_lt meets).trans isFrom, inside⟩
              · rcases all place (Nat.le_of_not_lt inside) isBefore with
                  ⟨other, present, has⟩
                exact ⟨other, List.mem_cons_of_mem _ present, has⟩
            · intro all place isFrom isBefore
              rcases all place ((Nat.le_of_not_le isBehind).trans isFrom) isBefore with
                ⟨other, present, has⟩
              rcases List.mem_cons.mp present with rfl | inRest
              · exact absurd has.2 (Nat.not_lt.mpr isFrom)
              · exact ⟨other, inRest, has⟩

/-! ## Neighbours -/

variable (start stop) in
/-- The ranges are in order, and the second one starts behind the first one. -/
def Follows (item other : Item) : Prop :=
  start item ≤ start other ∧ stop item ≤ start other

instance : Trans (Follows start stop) (Follows start stop) (Follows start stop) where
  trans isFirst isSecond :=
    ⟨isFirst.1.trans isSecond.1, isFirst.2.trans isSecond.1⟩

/-- Sorted ranges that do not meet their neighbours do not meet at all. -/
theorem pairwise_of_neighbours {items : List Item}
    (neighbours : items.IsChain (Follows start stop)) :
    items.Pairwise fun item other =>
      ∀ place, ¬ (Has start stop item place ∧ Has start stop other place) := by
  refine neighbours.pairwise.imp ?_
  rintro item other follows place ⟨has, otherHas⟩
  exact absurd (has.2.trans_le (follows.2.trans otherHas.1)) (lt_irrefl _)

theorem follows_of_sorted {items : List Item}
    (sorted : items.Pairwise fun item other => start item ≤ start other)
    (neighbours : items.IsChain fun item other => stop item ≤ start other) :
    items.IsChain (Follows start stop) := by
  induction neighbours with
  | nil => exact .nil
  | singleton item => exact .singleton item
  | cons_cons isBehind _ induction =>
      rcases List.pairwise_cons.mp sorted with ⟨leads, others⟩
      exact .cons_cons ⟨leads _ List.mem_cons_self, isBehind⟩ (induction others)

end Sweep
