import Mathlib.Data.List.Forall2

namespace Peony

/-! Lists that are related item by item. -/

namespace Pairwise

variable {Left Right : Type} {related : Left → Right → Prop}
variable {lefts : List Left} {rights : List Right}

theorem exists_right (pairs : List.Forall₂ related lefts rights) {left : Left}
    (present : left ∈ lefts) : ∃ right ∈ rights, related left right := by
  induction pairs with
  | nil => exact absurd present List.not_mem_nil
  | cons head _ induction =>
      rcases List.mem_cons.mp present with rfl | inRest
      · exact ⟨_, List.mem_cons_self, head⟩
      · rcases induction inRest with ⟨right, isMember, isRelated⟩
        exact ⟨right, List.mem_cons_of_mem _ isMember, isRelated⟩

theorem exists_left (pairs : List.Forall₂ related lefts rights) {right : Right}
    (present : right ∈ rights) : ∃ left ∈ lefts, related left right := by
  induction pairs with
  | nil => exact absurd present List.not_mem_nil
  | cons head _ induction =>
      rcases List.mem_cons.mp present with rfl | inRest
      · exact ⟨_, List.mem_cons_self, head⟩
      · rcases induction inRest with ⟨left, isMember, isRelated⟩
        exact ⟨left, List.mem_cons_of_mem _ isMember, isRelated⟩

theorem trans {Last : Type} {next : Right → Last → Prop}
    {both : Left → Last → Prop} {lasts : List Last}
    (step : ∀ left right last, related left right → next right last →
      both left last)
    (pairs : List.Forall₂ related lefts rights)
    (others : List.Forall₂ next rights lasts) :
    List.Forall₂ both lefts lasts := by
  induction pairs generalizing lasts with
  | nil => cases others; exact .nil
  | cons head _ induction =>
      cases others with
      | cons other rest => exact .cons (step _ _ _ head other) (induction rest)

theorem exists_append {firsts seconds : List Left}
    (pairs : List.Forall₂ related (firsts ++ seconds) rights) :
    ∃ before after, rights = before ++ after ∧
      List.Forall₂ related firsts before ∧ List.Forall₂ related seconds after := by
  induction firsts generalizing rights with
  | nil => exact ⟨[], rights, rfl, .nil, pairs⟩
  | cons first rest induction =>
      cases pairs with
      | cons head others =>
          rcases induction others with ⟨before, after, rfl, isBefore, isAfter⟩
          exact ⟨_ :: before, after, rfl, .cons head isBefore, isAfter⟩

theorem map_filter_eq {Value : Type} {valueLeft : Left → Value}
    {valueRight : Right → Value} {keepLeft : Left → Bool} {keepRight : Right → Bool}
    (pairs : List.Forall₂ related lefts rights)
    (agree : ∀ left ∈ lefts, ∀ right, related left right →
      keepRight right = keepLeft left ∧ valueRight right = valueLeft left) :
    (rights.filter keepRight).map valueRight =
      (lefts.filter keepLeft).map valueLeft := by
  induction pairs with
  | nil => rfl
  | cons head _ induction =>
      have first := agree _ List.mem_cons_self _ head
      have rest := induction fun left present =>
        agree left (List.mem_cons_of_mem _ present)
      rw [List.filter_cons, List.filter_cons, first.1]
      split
      · rw [List.map_cons, List.map_cons, first.2, rest]
      · exact rest

theorem map_eq {Value : Type} {valueLeft : Left → Value}
    {valueRight : Right → Value} (pairs : List.Forall₂ related lefts rights)
    (agree : ∀ left right, related left right → valueRight right = valueLeft left) :
    rights.map valueRight = lefts.map valueLeft := by
  induction pairs with
  | nil => rfl
  | cons head _ induction =>
      rw [List.map_cons, List.map_cons, agree _ _ head, induction]

theorem zip_of_maps {Middle Value : Type} {valueLeft : Left → Value}
    {valueRight : Right → Value} {middle : Right → Middle} {middles : List Middle}
    (values : rights.map valueRight = lefts.map valueLeft)
    (others : rights.map middle = middles) :
    List.Forall₂ (fun pair right => valueRight right = valueLeft pair.1 ∧
      middle right = pair.2) (lefts.zip middles) rights := by
  subst others
  induction rights generalizing lefts with
  | nil =>
      rw [List.map_eq_nil_iff.mp values.symm]
      exact .nil
  | cons right rest induction =>
      cases lefts with
      | nil => exact absurd values (List.cons_ne_nil _ _)
      | cons left others =>
          rw [List.map_cons, List.map_cons, List.cons.injEq] at values
          exact .cons ⟨values.1, rfl⟩ (induction values.2)

theorem either {Item : Type} {before : Item → Item → Prop} {items : List Item}
    (ordered : items.Pairwise before) {item other : Item} (isItem : item ∈ items)
    (isOther : other ∈ items) (distinct : item ≠ other) :
    before item other ∨ before other item := by
  induction ordered with
  | nil => exact absurd isItem List.not_mem_nil
  | cons leads _ induction =>
      rcases List.mem_cons.mp isItem with rfl | inRest
      · rcases List.mem_cons.mp isOther with rfl | otherInRest
        · exact absurd rfl distinct
        · exact .inl (leads other otherInRest)
      · rcases List.mem_cons.mp isOther with rfl | otherInRest
        · exact .inr (leads item inRest)
        · exact induction inRest otherInRest

end Pairwise

end Peony
