import Mathlib.Data.List.Basic

/-! Runs of a system that takes one event at a time, and the rule that carries an
invariant along a run whose events all meet a condition. -/

namespace GuardedRun

variable {State Event : Type*}
variable (step : State → Event → Option State)

def run : State → List Event → Option State
  | state, [] => some state
  | state, event :: rest => (step state event).bind fun next => run next rest

@[simp] theorem run_nil (state : State) : run step state [] = some state := rfl

theorem run_cons (state : State) (event : Event) (rest : List Event) :
    run step state (event :: rest) =
      (step state event).bind fun next => run step next rest := rfl

def Meets (guard : State → Event → Prop) : State → List Event → Prop
  | _, [] => True
  | state, event :: rest =>
      guard state event ∧
        ∀ next, step state event = some next → Meets guard next rest

instance decidableMeets (guard : State → Event → Prop)
    [∀ state event, Decidable (guard state event)] :
    ∀ state events, Decidable (Meets step guard state events)
  | _, [] => inferInstanceAs (Decidable True)
  | state, event :: rest =>
      match taken : step state event with
      | some next =>
          have := decidableMeets guard next rest
          decidable_of_iff (guard state event ∧ Meets step guard next rest)
            (by simp [Meets, taken])
      | none =>
          decidable_of_iff (guard state event) (by simp [Meets, taken])

variable {step}
variable {guard : State → Event → Prop}

theorem meets_true (state : State) (events : List Event) :
    Meets step (fun _ _ => True) state events := by
  induction events generalizing state with
  | nil => trivial
  | cons event rest induction => exact ⟨trivial, fun next _ => induction next⟩

theorem invariant {holds : State → Prop}
    (preserved : ∀ state event next, holds state → guard state event →
      step state event = some next → holds next)
    {state final : State} {events : List Event}
    (start : holds state) (meets : Meets step guard state events)
    (reached : run step state events = some final) : holds final := by
  induction events generalizing state with
  | nil =>
      cases reached
      exact start
  | cons event rest induction =>
      rw [run_cons] at reached
      rcases Option.bind_eq_some_iff.mp reached with ⟨next, taken, later⟩
      exact induction (preserved state event next start meets.1 taken)
        (meets.2 next taken) later

end GuardedRun
