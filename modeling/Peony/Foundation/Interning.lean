import Mathlib.Data.List.Dedup
import Mathlib.Data.List.Perm.Subperm
import Mathlib.Algebra.Order.Group.Nat

namespace Peony

/-! Keys that are numbered in the order in which they are first met, with numbers that
run out at a bound. -/

namespace Interning

variable {Key : Type*}

/-! ## Numberings -/

def NumberedBy (keys : List Key) (number : Key → Option Nat) : Prop :=
  ∀ place key, keys[place]? = some key ↔ number key = some place

namespace NumberedBy

variable {keys : List Key} {number : Key → Option Nat} (numbers : NumberedBy keys number)

theorem nil : NumberedBy ([] : List Key) fun _ => none :=
  fun _ _ => by simp

include numbers

theorem nodup : keys.Nodup := by
  rw [List.nodup_iff_injective_get]
  intro first second same
  have isFirst := (numbers first.1 _).mp (List.getElem?_eq_getElem first.2)
  have isSecond := (numbers second.1 _).mp (List.getElem?_eq_getElem second.2)
  have equal : keys[first.1] = keys[second.1] := same
  rw [equal, isSecond, Option.some.injEq] at isFirst
  exact Fin.ext isFirst.symm

theorem mem_iff {key : Key} : key ∈ keys ↔ (number key).isSome := by
  rw [List.mem_iff_getElem?, Option.isSome_iff_exists]
  exact exists_congr fun place => numbers place key

theorem lt_length {key : Key} {place : Nat} (isNumber : number key = some place) :
    place < keys.length :=
  (List.getElem?_eq_some_iff.mp ((numbers place key).mpr isNumber)).1

theorem snoc [DecidableEq Key] {key : Key} (fresh : number key = none) :
    NumberedBy (keys ++ [key]) (Function.update number key (some keys.length)) := by
  intro place other
  by_cases same : other = key
  · subst same
    rw [Function.update_self, Option.some.injEq]
    constructor
    · intro found
      by_contra different
      by_cases inside : place < keys.length
      · rw [List.getElem?_append_left inside, numbers, fresh] at found
        exact nomatch found
      · rw [List.getElem?_append_right (Nat.not_lt.mp inside),
          List.getElem?_singleton, if_neg (by omega)] at found
        exact nomatch found
    · rintro rfl
      rw [List.getElem?_append_right le_rfl, Nat.sub_self]
      rfl
  · rw [Function.update_of_ne same]
    by_cases inside : place < keys.length
    · rw [List.getElem?_append_left inside]
      exact numbers place other
    · rw [List.getElem?_append_right (Nat.not_lt.mp inside)]
      constructor
      · intro found
        have isLast := List.mem_singleton.mp (List.mem_of_getElem? found)
        exact absurd isLast same
      · intro isNumber
        exact absurd (numbers.lt_length isNumber) inside

end NumberedBy

/-! ## NumberedBy that run out -/

section Ledger

variable {State : Type*} (keys : State → List Key) (bound : Nat)
variable (allowed : Key → Prop)

/-- As long as the numbers suffice the state is good. The keys that are in time to get
a number are different and allowed, even when later ones are not. -/
structure Ledger (good : State → Prop) (state : State) : Prop where
  good_of_lt : (keys state).length < bound → good state
  nodup : ((keys state).take bound).Nodup
  allowed_of_mem : ∀ key ∈ (keys state).take bound, allowed key

structure Advances (good next : State → Prop) (before after : State) : Prop where
  keys_cases : keys after = keys before ∨ ∃ key, keys after = keys before ++ [key]
  fresh : good before → ∀ key, keys after = keys before ++ [key] →
    key ∉ keys before ∧ allowed key
  keeps : good before → (keys after).length < bound → next after

variable {keys bound allowed} {good next last : State → Prop} {before middle after : State}

namespace Advances

theorem length_le (advances : Advances keys bound allowed good next before after) :
    (keys before).length ≤ (keys after).length := by
  rcases advances.keys_cases with same | ⟨key, added⟩
  · exact (congrArg List.length same).ge
  · rw [added, List.length_append]
    exact Nat.le_add_right _ _

/-- A step that leaves the keys alone. -/
theorem of_same (same : keys after = keys before)
    (keeps : good before → next after) :
    Advances keys bound allowed good next before after where
  keys_cases := Or.inl same
  fresh _ key added := by
    have lengths := congrArg List.length (same.symm.trans added)
    rw [List.length_append, List.length_singleton] at lengths
    omega
  keeps isGood _ := keeps isGood

end Advances

theorem Ledger.step (ledger : Ledger keys bound allowed good before)
    (advances : Advances keys bound allowed good next before after) :
    Ledger keys bound allowed next after where
  good_of_lt short := advances.keeps
    (ledger.good_of_lt (Nat.lt_of_le_of_lt advances.length_le short)) short
  nodup := by
    rcases advances.keys_cases with same | ⟨key, added⟩
    · rw [same]
      exact ledger.nodup
    · rw [added]
      by_cases short : (keys before).length < bound
      · have isFresh := (advances.fresh (ledger.good_of_lt short) key added).1
        have whole := ledger.nodup
        rw [List.take_of_length_le short.le] at whole
        rw [List.take_of_length_le (by
          rw [List.length_append, List.length_singleton]
          omega)]
        exact (List.nodup_append.mpr ⟨whole, List.nodup_singleton _, by
          rintro other present _ isKey rfl
          exact isFresh (List.mem_singleton.mp isKey ▸ present)⟩)
      · rw [List.take_append_of_le_length (Nat.not_lt.mp short)]
        exact ledger.nodup
  allowed_of_mem := by
    rcases advances.keys_cases with same | ⟨key, added⟩
    · rw [same]
      exact ledger.allowed_of_mem
    · rw [added]
      intro other present
      by_cases short : (keys before).length < bound
      · rcases List.mem_append.mp (List.mem_of_mem_take present) with old | isNew
        · refine ledger.allowed_of_mem other ?_
          rw [List.take_of_length_le short.le]
          exact old
        · rw [List.mem_singleton.mp isNew]
          exact (advances.fresh (ledger.good_of_lt short) key added).2
      · rw [List.take_append_of_le_length (Nat.not_lt.mp short)] at present
        exact ledger.allowed_of_mem other present

/-- The numbers suffice just when there are fewer different keys to be numbered. -/
theorem Ledger.length_lt_iff [DecidableEq Key] (ledger : Ledger keys bound allowed good before)
    {issued : List Key} (allowed_iff : ∀ key, allowed key ↔ key ∈ issued)
    (complete : good before → ∀ key ∈ issued, key ∈ keys before) :
    (keys before).length < bound ↔ issued.dedup.length < bound := by
  constructor
  · intro short
    have isGood := ledger.good_of_lt short
    refine Nat.lt_of_le_of_lt (List.Subperm.length_le ?_) short
    exact List.Nodup.subperm (List.nodup_dedup _) fun key present =>
      complete isGood key (List.mem_dedup.mp present)
  · intro few
    by_contra long
    have full : ((keys before).take bound).length = bound := by
      rw [List.length_take]
      omega
    have within : ((keys before).take bound).length ≤ issued.dedup.length :=
      List.Subperm.length_le (ledger.nodup.subperm fun key present =>
        List.mem_dedup.mpr ((allowed_iff key).mp (ledger.allowed_of_mem key present)))
    omega

end Ledger

end Interning

end Peony
