import Mathlib.Data.List.Basic

/-! Runs over a store with one independent entry for each key.

A store is updated by a list of events, each of which reads and writes the entry
of its own key only. Such a run is, key by key, the run of a single cell over the
events of that key; it fails exactly when one of the cells fails. -/

namespace KeyedRun

variable {Store Entry Cell Event : Type*} {Key : Type*} [DecidableEq Key]
variable {ε : Type*}

/-- The store `step` follows one `cellStep` for each key. `related` connects an
entry of the store to the state of its cell. -/
structure Simulation
    (lookup : Store → Key → Entry) (key : Event → Key)
    (step : Store → Event → Except ε Store)
    (cellStep : Cell → Event → Option Cell)
    (related : Entry → Cell → Prop) : Prop where
  success : ∀ store event cell next,
    related (lookup store (key event)) cell →
    step store event = .ok next →
    ∃ cell', cellStep cell event = some cell' ∧
      related (lookup next (key event)) cell'
  failure : ∀ store event cell error,
    related (lookup store (key event)) cell →
    step store event = .error error →
    cellStep cell event = none
  frame : ∀ store event next other,
    step store event = .ok next → other ≠ key event →
    lookup next other = lookup store other

def eventsOf (key : Event → Key) (chosen : Key) (events : List Event) :
    List Event :=
  events.filter fun event => key event = chosen

@[simp] theorem eventsOf_nil (key : Event → Key) (chosen : Key) :
    eventsOf key chosen [] = [] := rfl

theorem eventsOf_cons_self (key : Event → Key) (event : Event)
    (events : List Event) :
    eventsOf key (key event) (event :: events) =
      event :: eventsOf key (key event) events := by
  simp [eventsOf]

theorem eventsOf_cons_of_ne {key : Event → Key} {chosen : Key} {event : Event}
    (different : chosen ≠ key event) (events : List Event) :
    eventsOf key chosen (event :: events) = eventsOf key chosen events := by
  simp [eventsOf, Ne.symm different]

@[simp] theorem eventsOf_append (key : Event → Key) (chosen : Key)
    (front back : List Event) :
    eventsOf key chosen (front ++ back) =
      eventsOf key chosen front ++ eventsOf key chosen back := by
  simp [eventsOf]

theorem mem_eventsOf {key : Event → Key} {chosen : Key} {events : List Event}
    {event : Event} :
    event ∈ eventsOf key chosen events ↔ event ∈ events ∧ key event = chosen := by
  simp [eventsOf]

variable {lookup : Store → Key → Entry} {key : Event → Key}
variable {step : Store → Event → Except ε Store}
variable {cellStep : Cell → Event → Option Cell}
variable {related : Entry → Cell → Prop}

theorem Simulation.step_ok
    (simulation : Simulation lookup key step cellStep related)
    {store next : Store} {event : Event} {cells : Key → Cell}
    (start : ∀ chosen, related (lookup store chosen) (cells chosen))
    (stepped : step store event = .ok next) :
    ∃ cells' : Key → Cell,
      cellStep (cells (key event)) event = some (cells' (key event)) ∧
      (∀ other, other ≠ key event → cells' other = cells other) ∧
      ∀ chosen, related (lookup next chosen) (cells' chosen) := by
  obtain ⟨cell', cellStepped, relatedNext⟩ :=
    simulation.success store event _ next (start (key event)) stepped
  refine ⟨fun chosen => if chosen = key event then cell' else cells chosen,
    by simpa using cellStepped, fun other different => by simp [different], ?_⟩
  intro chosen
  by_cases equal : chosen = key event
  · subst equal
    simpa using relatedNext
  · have kept := simulation.frame store event next chosen stepped equal
    simpa [equal, kept] using start chosen

theorem Simulation.run_ok
    (simulation : Simulation lookup key step cellStep related)
    {events : List Event} {store final : Store} {cells : Key → Cell}
    (start : ∀ chosen, related (lookup store chosen) (cells chosen))
    (ran : events.foldlM step store = .ok final) (chosen : Key) :
    ∃ cell, (eventsOf key chosen events).foldlM cellStep (cells chosen) =
        some cell ∧
      related (lookup final chosen) cell := by
  induction events generalizing store cells with
  | nil =>
      cases ran
      exact ⟨cells chosen, rfl, start chosen⟩
  | cons event rest induction =>
      rw [List.foldlM_cons] at ran
      cases stepped : step store event with
      | error error => simp [stepped, bind, Except.bind] at ran
      | ok next =>
          rw [stepped] at ran
          obtain ⟨cells', cellStepped, kept, nextRelated⟩ :=
            simulation.step_ok start stepped
          obtain ⟨cell, cellRan, relatedFinal⟩ := induction nextRelated ran
          refine ⟨cell, ?_, relatedFinal⟩
          by_cases equal : chosen = key event
          · subst equal
            rw [eventsOf_cons_self, List.foldlM_cons, cellStepped]
            exact cellRan
          · rw [eventsOf_cons_of_ne equal, ← kept chosen equal]
            exact cellRan

theorem Simulation.run_error
    (simulation : Simulation lookup key step cellStep related)
    {events : List Event} {store : Store} {error : ε} {cells : Key → Cell}
    (start : ∀ chosen, related (lookup store chosen) (cells chosen))
    (ran : events.foldlM step store = .error error) :
    ∃ chosen,
      (eventsOf key chosen events).foldlM cellStep (cells chosen) = none := by
  induction events generalizing store cells with
  | nil => cases ran
  | cons event rest induction =>
      rw [List.foldlM_cons] at ran
      cases stepped : step store event with
      | error error' =>
          refine ⟨key event, ?_⟩
          rw [eventsOf_cons_self, List.foldlM_cons,
            simulation.failure store event _ error' (start _) stepped]
          rfl
      | ok next =>
          rw [stepped] at ran
          obtain ⟨cells', cellStepped, kept, nextRelated⟩ :=
            simulation.step_ok start stepped
          obtain ⟨chosen, cellRan⟩ := induction nextRelated ran
          refine ⟨chosen, ?_⟩
          by_cases equal : chosen = key event
          · subst equal
            rw [eventsOf_cons_self, List.foldlM_cons, cellStepped]
            exact cellRan
          · rw [eventsOf_cons_of_ne equal, ← kept chosen equal]
            exact cellRan

omit [DecidableEq Key] in
theorem Simulation.run_frame
    (simulation : Simulation lookup key step cellStep related)
    {events : List Event} {store final : Store}
    (ran : events.foldlM step store = .ok final) {other : Key}
    (untouched : ∀ event ∈ events, other ≠ key event) :
    lookup final other = lookup store other := by
  induction events generalizing store with
  | nil =>
      cases ran
      rfl
  | cons event rest induction =>
      rw [List.foldlM_cons] at ran
      cases stepped : step store event with
      | error error => simp [stepped, bind, Except.bind] at ran
      | ok next =>
          rw [stepped] at ran
          rw [induction ran fun later present => untouched later (by simp [present])]
          exact simulation.frame store event next other stepped
            (untouched event List.mem_cons_self)

end KeyedRun
