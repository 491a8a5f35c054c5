import Mathlib.Data.List.Lookmap
import Mathlib.Data.List.Nodup

/-! Association lists: lookups among distinct keys, and entries that are copied
from one key to another. -/

namespace Assoc

variable {Key Value : Type*} [DecidableEq Key] [BEq Key] [LawfulBEq Key]

theorem lookup_cons (key other : Key) (value : Value)
    (entries : List (Key × Value)) :
    ((other, value) :: entries).lookup key =
      if key = other then some value else entries.lookup key := by
  rw [List.lookup_cons]
  by_cases same : key = other
  · simp [same]
  · rw [if_neg same, beq_false_of_ne same]

theorem lookup_eq_none {key : Key} {entries : List (Key × Value)} :
    entries.lookup key = none ↔ key ∉ entries.map Prod.fst := by
  induction entries with
  | nil => simp
  | cons entry rest induction =>
      rw [lookup_cons, List.map_cons, List.mem_cons, not_or]
      split
      · rename_i same
        simp [same]
      · rename_i different
        rw [induction]
        exact (and_iff_right different).symm

theorem mem_of_lookup {key : Key} {value : Value}
    {entries : List (Key × Value)}
    (found : entries.lookup key = some value) : (key, value) ∈ entries := by
  induction entries with
  | nil => exact nomatch found
  | cons entry rest induction =>
      rw [lookup_cons] at found
      split at found
      · rename_i same
        rw [Option.some.injEq] at found
        rw [same, ← found]
        exact List.mem_cons_self
      · exact List.mem_cons_of_mem _ (induction found)

theorem lookup_eq_some {key : Key} {value : Value}
    {entries : List (Key × Value)}
    (distinct : (entries.map Prod.fst).Nodup) :
    entries.lookup key = some value ↔ (key, value) ∈ entries := by
  refine ⟨mem_of_lookup, ?_⟩
  intro member
  induction entries with
  | nil => exact absurd member List.not_mem_nil
  | cons entry rest induction =>
      rw [List.map_cons, List.nodup_cons] at distinct
      rw [lookup_cons]
      rcases List.mem_cons.mp member with rfl | inRest
      · exact if_pos rfl
      · rw [if_neg]
        · exact induction distinct.2 inRest
        · rintro rfl
          exact distinct.1 (List.mem_map.mpr ⟨_, inRest, rfl⟩)

/-! ## Copied entries -/

def copy (entries : List (Key × Value)) (target source : Key) :
    List (Key × Value) :=
  match entries.lookup source with
  | some value => (target, value) :: entries
  | none => entries

theorem lookup_copy (entries : List (Key × Value)) (target source key : Key) :
    (copy entries target source).lookup key =
      if key = target then (entries.lookup source).or (entries.lookup key)
      else entries.lookup key := by
  unfold copy
  split
  · rename_i value found
    rw [lookup_cons, found]
    rfl
  · rename_i missing
    rw [missing, Option.none_or, ite_self]

def copyAll (entries : List (Key × Value)) (pairs : List (Key × Key)) :
    List (Key × Value) :=
  pairs.foldl (fun entries pair => copy entries pair.1 pair.2) entries

/-- What is no target is not changed. -/
theorem lookup_copyAll_of_not_mem {entries : List (Key × Value)} {pairs : List (Key × Key)}
    {key : Key} (absent : key ∉ pairs.map Prod.fst) :
    (copyAll entries pairs).lookup key = entries.lookup key := by
  induction pairs generalizing entries with
  | nil => rfl
  | cons pair rest induction =>
      rw [List.map_cons, List.mem_cons, not_or] at absent
      change (copyAll (copy entries pair.1 pair.2) rest).lookup key = _
      rw [induction absent.2, lookup_copy, if_neg absent.1]

/-- Copies bring no new values. -/
theorem exists_lookup_of_copyAll {entries : List (Key × Value)} {pairs : List (Key × Key)}
    {key : Key} {value : Value} (found : (copyAll entries pairs).lookup key = some value) :
    ∃ source, entries.lookup source = some value := by
  induction pairs generalizing entries with
  | nil => exact ⟨key, found⟩
  | cons pair rest induction =>
      rcases induction found with ⟨other, isOther⟩
      rw [lookup_copy] at isOther
      split at isOther
      · rcases Option.or_eq_some_iff.mp isOther with isSource | ⟨_, isOld⟩
        · exact ⟨_, isSource⟩
        · exact ⟨_, isOld⟩
      · exact ⟨_, isOther⟩

/-- When no source is a target, the copies do not depend on their order. -/
theorem lookup_copyAll {entries : List (Key × Value)}
    {pairs : List (Key × Key)} (distinct : (pairs.map Prod.fst).Nodup)
    (apart : ∀ pair ∈ pairs, pair.2 ∉ pairs.map Prod.fst) (key : Key) :
    (copyAll entries pairs).lookup key =
      match pairs.lookup key with
      | some source => (entries.lookup source).or (entries.lookup key)
      | none => entries.lookup key := by
  induction pairs generalizing entries with
  | nil => rfl
  | cons pair rest induction =>
      rw [List.map_cons, List.nodup_cons] at distinct
      have restApart : ∀ other ∈ rest, other.2 ∉ rest.map Prod.fst :=
        fun other member inKeys =>
          apart other (List.mem_cons_of_mem _ member)
            (List.mem_cons_of_mem _ inKeys)
      change (copyAll (copy entries pair.1 pair.2) rest).lookup key = _
      rw [induction distinct.2 restApart, lookup_cons, lookup_copy]
      by_cases own : key = pair.1
      · subst own
        rw [if_pos rfl, if_pos rfl, lookup_eq_none.mpr distinct.1]
      · rw [if_neg own, if_neg own]
        cases found : rest.lookup key with
        | none => rfl
        | some source =>
            have member := mem_of_lookup found
            have other : source ≠ pair.1 := by
              rintro rfl
              exact apart _ (List.mem_cons_of_mem _ member) List.mem_cons_self
            simp only
            rw [lookup_copy, if_neg other]

end Assoc
