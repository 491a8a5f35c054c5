import Mathlib.Data.List.Sort

namespace Peony

/-! Sorting by a comparison that does not tell all items apart. -/

namespace Sorting

variable {Item : Type} {cmp : Item → Item → Ordering}

/-- The first item need not come after the second one. -/
def InOrder (cmp : Item → Item → Ordering) (item other : Item) : Prop :=
  cmp item other ≠ .gt

instance : DecidableRel (InOrder cmp) := fun _ _ => inferInstanceAs (Decidable (_ ≠ _))

variable [Std.TransCmp cmp]

instance : Std.Total (InOrder cmp) where
  total item other := by
    by_cases after : cmp item other = .gt
    · exact Or.inr (Std.OrientedCmp.not_gt_of_gt after)
    · exact Or.inl after

instance : IsTrans Item (InOrder cmp) where
  trans _ _ _ isFirst isSecond :=
    Ordering.ne_gt_iff_isLE.mpr (Std.TransCmp.isLE_trans
      (Ordering.ne_gt_iff_isLE.mp isFirst) (Ordering.ne_gt_iff_isLE.mp isSecond))

theorem pairwise (items : List Item) :
    (items.insertionSort (InOrder cmp)).Pairwise (InOrder cmp) :=
  List.pairwise_insertionSort (InOrder cmp) items

/-! ## Stability -/

/-- The first item comes before the second one, or they are alike and already
were in order. -/
def Kept (cmp : Item → Item → Ordering) (before : Item → Item → Prop)
    (item other : Item) : Prop :=
  cmp item other = .lt ∨ cmp item other = .eq ∧ before item other

variable {before : Item → Item → Prop}

private theorem kept_insert {item : Item} {sorted : List Item}
    (kept : sorted.Pairwise (Kept cmp before))
    (leads : ∀ other ∈ sorted, before item other) :
    (sorted.orderedInsert (InOrder cmp) item).Pairwise (Kept cmp before) := by
  induction sorted with
  | nil => exact List.pairwise_singleton _ _
  | cons head rest induction =>
      rcases List.pairwise_cons.mp kept with ⟨first, others⟩
      rw [List.orderedInsert]
      split
      · rename_i isFirst
        refine .cons (fun other present => ?_) kept
        have below : InOrder cmp item other := by
          rcases List.mem_cons.mp present with rfl | inRest
          · exact isFirst
          · refine IsTrans.trans item head other isFirst ?_
            rcases first other inRest with less | ⟨alike, _⟩
            · exact fun after => nomatch less.symm.trans after
            · exact fun after => nomatch alike.symm.trans after
        cases order : cmp item other with
        | lt => exact .inl order
        | eq => exact .inr ⟨order, leads other present⟩
        | gt => exact absurd order below
      · rename_i isAfter
        have below : cmp head item = .lt :=
          Std.OrientedCmp.lt_of_gt (not_not.mp isAfter)
        refine .cons (fun other present => ?_) (induction others fun other present =>
          leads other (List.mem_cons_of_mem _ present))
        rcases List.mem_cons.mp
          ((List.perm_orderedInsert _ item rest).mem_iff.mp present) with rfl | inRest
        · exact .inl below
        · exact first other inRest

theorem kept {items : List Item} (ordered : items.Pairwise before) :
    (items.insertionSort (InOrder cmp)).Pairwise (Kept cmp before) := by
  induction items with
  | nil => exact .nil
  | cons item rest induction =>
      rcases List.pairwise_cons.mp ordered with ⟨leads, others⟩
      refine kept_insert (induction others) fun other present =>
        leads other ((List.perm_insertionSort _ rest).mem_iff.mp present)

theorem pairwise_then {other : Item → Item → Ordering} [Std.TransCmp other]
    (items : List Item) :
    ((items.insertionSort (InOrder other)).insertionSort (InOrder cmp)).Pairwise
      (InOrder (compareLex cmp other)) := by
  refine (kept (@pairwise _ other _ items)).imp ?_
  intro item next isKept
  unfold InOrder compareLex
  rcases isKept with less | ⟨alike, below⟩
  · rw [less]
    exact nofun
  · rw [alike]
    exact below

end Sorting

end Peony
