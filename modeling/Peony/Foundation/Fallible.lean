import Mathlib.Data.List.Basic

namespace Peony

/-! Checks and steps that stop at their first failure. -/

section

variable {Error First Next : Type} {first : Except Error First}
variable {next : First → Except Error Next} {result : Next}

theorem bind_ok (ends : first >>= next = .ok result) :
    ∃ found, first = .ok found ∧ next found = .ok result := by
  cases first with
  | error error => exact nomatch ends
  | ok found => exact ⟨found, rfl, ends⟩

theorem bind_ok_iff :
    first >>= next = .ok result ↔ ∃ found, first = .ok found ∧ next found = .ok result := by
  constructor
  · exact bind_ok
  · rintro ⟨found, rfl, ends⟩
    exact ends

end

theorem ok_bind {Error First Next : Type} (found : First) (next : First → Except Error Next) :
    (Except.ok found >>= next) = next found := rfl

theorem error_bind {Error First Next : Type} (error : Error) (next : First → Except Error Next) :
    (Except.error error >>= next) = .error error := rfl

theorem toOption_some_iff {Error Result : Type} {step : Except Error Result} {result : Result} :
    step.toOption = some result ↔ step = .ok result := by
  cases step with
  | error error => exact ⟨nofun, nofun⟩
  | ok found =>
      exact ⟨fun same => congrArg Except.ok (Option.some.inj same),
        fun same => congrArg some (Except.ok.inj same)⟩

theorem exists_ok_of_isSome {Error Result : Type} {step : Except Error Result}
    (ends : step.toOption.isSome = true) : ∃ result, step = .ok result :=
  (Option.isSome_iff_exists.mp ends).imp fun _ => toOption_some_iff.mp

theorem forM_ok_iff {Item Error : Type} {check : Item → Except Error Unit}
    {items : List Item} :
    items.forM check = .ok () ↔ ∀ item ∈ items, check item = .ok () := by
  induction items with
  | nil => exact ⟨fun _ item absent => absurd absent List.not_mem_nil, fun _ => rfl⟩
  | cons head rest induction =>
      rw [List.forall_mem_cons, ← induction]
      change (check head >>= fun _ => rest.forM check) = .ok () ↔ _
      cases check head with
      | error error =>
          constructor
          · intro impossible
            cases impossible
          · intro both
            cases both.1
      | ok done => exact ⟨fun later => ⟨rfl, later⟩, And.right⟩

theorem forall₂_of_mapM {Item Value Error : Type} {action : Item → Except Error Value}
    {items : List Item} {values : List Value} (mapped : items.mapM action = .ok values) :
    List.Forall₂ (fun item value => action item = .ok value) items values := by
  induction items generalizing values with
  | nil =>
      cases mapped
      exact .nil
  | cons item rest induction =>
      rw [List.mapM_cons] at mapped
      rcases bind_ok mapped with ⟨first, isFirst, later⟩
      rcases bind_ok later with ⟨others, areOthers, isList⟩
      cases isList
      exact .cons isFirst (induction areOthers)

/-- A step without a result has only one. -/
theorem exists_done_iff {holds : Unit → Prop} : (∃ found, holds found) ↔ holds () :=
  ⟨fun ⟨_, isHeld⟩ => isHeld, fun isHeld => ⟨(), isHeld⟩⟩

@[simp] theorem mapError_ok_iff {Error Fault Result : Type} {step : Except Error Result}
    {wrap : Error → Fault} {result : Result} :
    step.mapError wrap = .ok result ↔ step = .ok result := by
  cases step with
  | error error => exact ⟨nofun, nofun⟩
  | ok found => exact ⟨fun ends => by cases ends; rfl, fun ends => by cases ends; rfl⟩

/-- A check in front of other ones. -/
theorem unless_ok_iff {Error : Type} {fails : Prop} [Decidable fails] {error : Error}
    {next : Except Error Unit} :
    (if fails then .error error else next) = .ok () ↔ ¬ fails ∧ next = .ok () := by
  split
  · rename_i failed
    exact ⟨nofun, fun both => absurd failed both.1⟩
  · rename_i passed
    exact ⟨fun ends => ⟨passed, ends⟩, And.right⟩

end Peony
