import Mathlib.Algebra.BigOperators.Group.List.Basic

/-! A sum over a list that workers share: whoever takes a run of the list adds it up
from nothing, and neighbours join their totals. -/

inductive Shares (α : Type*) where
  | alone (run : List α)
  | joined (first second : Shares α)

namespace Shares

variable {α M : Type*}

def items : Shares α → List α
  | alone run => run
  | joined first second => first.items ++ second.items

def reduce [Zero M] [Add M] (value : α → M) : Shares α → M
  | alone run => run.foldl (fun total item => total + value item) 0
  | joined first second => first.reduce value + second.reduce value

end Shares

namespace List

theorem foldl_add_value {α M : Type*} [AddMonoid M] (value : α → M) (total : M) (run : List α) :
    run.foldl (fun total item => total + value item) total =
      total + (run.map value).sum := by
  induction run generalizing total with
  | nil => exact (add_zero total).symm
  | cons item rest induction =>
      rw [foldl_cons, induction, map_cons, sum_cons, add_assoc]

theorem foldl_eq_flatMap {α β σ : Type*} {extend : σ → List β → σ}
    (extend_nil : ∀ found, extend found [] = found)
    (extend_append : ∀ found sites others,
      extend found (sites ++ others) = extend (extend found sites) others)
    {step : σ → α → σ} {entries : α → List β} {items : List α}
    (adds : ∀ item ∈ items, ∀ found, step found item = extend found (entries item))
    (found : σ) : items.foldl step found = extend found (items.flatMap entries) := by
  induction items generalizing found with
  | nil => exact (extend_nil found).symm
  | cons item rest induction =>
      rw [List.foldl_cons, List.flatMap_cons, extend_append,
        adds item (List.mem_cons_self ..)]
      exact induction (fun other present => adds other (List.mem_cons_of_mem _ present)) _

end List

theorem Shares.reduce_eq_sum {α M : Type*} [AddMonoid M] (value : α → M)
    (shares : Shares α) : shares.reduce value = (shares.items.map value).sum := by
  induction shares with
  | alone run =>
      rw [reduce, List.foldl_add_value, zero_add]
      rfl
  | joined first second left right =>
      rw [reduce, left, right, items, List.map_append, List.sum_append]
