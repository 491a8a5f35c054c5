import Peony.Foundation.Overwrite

/-! Programs that change a buffer in place and can fail on the way, which leaves the
buffer as far as they got. A program that reads and writes one window of the buffer
cannot tell what stands beside it. -/

namespace InPlace

universe u

abbrev Program (Cell Fault : Type u) (Result : Type u) :=
  ExceptT Fault (StateM (List Cell)) Result

variable {Cell Fault Result Other : Type u}

/-- How a program ends, and the buffer it leaves. -/
def exec (program : Program Cell Fault Result) (buf : List Cell) :
    Except Fault Result × List Cell :=
  program.run.run buf

/-- The buffer of a program that does not fail. -/
def outcome (program : Program Cell Fault PUnit) (buf : List Cell) :
    Except Fault (List Cell) :=
  (exec program buf).1.map fun _ => (exec program buf).2

/-- A result that is found without the buffer. -/
def attempt (result : Except Fault Result) : Program Cell Fault Result :=
  ExceptT.mk (pure result)

def write (patch : Buffer.Patch Cell) : Program Cell Fault PUnit :=
  modify fun buf => Buffer.overwrite buf patch

section Exec

variable (buf : List Cell)

@[simp] theorem exec_pure (result : Result) :
    exec (pure result : Program Cell Fault Result) buf = (.ok result, buf) := rfl

@[simp] theorem exec_attempt (result : Except Fault Result) :
    exec (attempt result : Program Cell Fault Result) buf = (result, buf) := rfl

@[simp] theorem exec_throw (fault : Fault) :
    exec (throw fault : Program Cell Fault Result) buf = (.error fault, buf) := rfl

@[simp] theorem exec_write (patch : Buffer.Patch Cell) :
    exec (write patch : Program Cell Fault PUnit) buf =
      (.ok ⟨⟩, Buffer.overwrite buf patch) := rfl

theorem exec_bind_ok {first : Program Cell Fault Result}
    {next : Result → Program Cell Fault Other} {result : Result}
    (ends : (exec first buf).1 = .ok result) :
    exec (first >>= next) buf = exec (next result) (exec first buf).2 := by
  unfold exec at ends ⊢
  rw [ExceptT.run_bind, StateT.run_bind]
  change StateT.run (match (StateT.run first.run buf).1 with
    | .ok result => ExceptT.run (next result)
    | .error fault => pure (.error fault)) (StateT.run first.run buf).2 = _
  rw [ends]

theorem exec_bind_error {first : Program Cell Fault Result}
    {next : Result → Program Cell Fault Other} {fault : Fault}
    (ends : (exec first buf).1 = .error fault) :
    exec (first >>= next) buf = (.error fault, (exec first buf).2) := by
  unfold exec at ends ⊢
  rw [ExceptT.run_bind, StateT.run_bind]
  change StateT.run (match (StateT.run first.run buf).1 with
    | .ok result => ExceptT.run (next result)
    | .error fault => pure (.error fault)) (StateT.run first.run buf).2 = _
  rw [ends]
  rfl

@[simp] theorem exec_get_bind (next : List Cell → Program Cell Fault Other) :
    exec (get >>= next) buf = exec (next buf) buf := rfl

theorem outcome_of_ok {program : Program Cell Fault PUnit}
    (ends : (exec program buf).1 = .ok ⟨⟩) :
    outcome program buf = .ok (exec program buf).2 := by
  rw [outcome, ends]
  rfl

theorem outcome_of_error {program : Program Cell Fault PUnit} {fault : Fault}
    (ends : (exec program buf).1 = .error fault) :
    outcome program buf = .error fault := by
  rw [outcome, ends]
  rfl

theorem outcome_attempt_bind (result : Except Fault Result)
    (next : Result → Program Cell Fault PUnit) :
    outcome (attempt result >>= next) buf =
      result >>= fun found => outcome (next found) buf := by
  cases result <;> rfl

theorem outcome_bind_of_ok {first : Program Cell Fault Result}
    {next : Result → Program Cell Fault PUnit} {result : Result}
    (ends : (exec first buf).1 = .ok result) :
    outcome (first >>= next) buf = outcome (next result) (exec first buf).2 := by
  rw [outcome, exec_bind_ok buf ends]
  rfl

theorem outcome_bind_of_error {first : Program Cell Fault Result}
    {next : Result → Program Cell Fault PUnit} {fault : Fault}
    (ends : (exec first buf).1 = .error fault) :
    outcome (first >>= next) buf = .error fault := by
  rw [outcome, exec_bind_error buf ends]
  rfl

theorem outcome_bind (first next : Program Cell Fault PUnit) :
    outcome (first >>= fun _ => next) buf = outcome first buf >>= outcome next := by
  cases ends : (exec first buf).1 with
  | error fault =>
      rw [outcome_of_error buf ends, outcome_bind_of_error buf ends]
      rfl
  | ok result =>
      rw [outcome_of_ok buf ends, outcome_bind_of_ok buf ends]
      rfl

theorem outcome_get_bind (next : List Cell → Program Cell Fault PUnit) :
    outcome (get >>= next) buf = outcome (next buf) buf := rfl

end Exec

/-! ## Windows -/

structure Window where
  start : Nat
  len : Nat

def Window.Covers (window : Window) (place : Nat) : Prop :=
  window.start ≤ place ∧ place < window.start + window.len

/-- Two buffers cannot be told apart through the window. -/
structure Agree (window : Window) (buf other : List Cell) : Prop where
  length : buf.length = other.length
  cells : ∀ place, window.Covers place → buf[place]? = other[place]?

namespace Agree

variable {window : Window} {buf other third : List Cell}

theorem refl : Agree window buf buf := ⟨rfl, fun _ _ => rfl⟩

theorem symm (agree : Agree window buf other) : Agree window other buf :=
  ⟨agree.length.symm, fun place covered => (agree.cells place covered).symm⟩

theorem trans (first : Agree window buf other) (second : Agree window other third) :
    Agree window buf third :=
  ⟨first.length.trans second.length, fun place covered =>
    (first.cells place covered).trans (second.cells place covered)⟩

theorem overwrite (agree : Agree window buf other) (patch : Buffer.Patch Cell) :
    Agree window (Buffer.overwrite buf patch) (Buffer.overwrite other patch) := by
  constructor
  · rw [Buffer.length_overwrite, Buffer.length_overwrite]
    exact agree.length
  · intro place covered
    rw [Buffer.getElem?_overwrite, Buffer.getElem?_overwrite, agree.cells place covered]

theorem slice (agree : Agree window buf other) {start len : Nat}
    (above : window.start ≤ start) (below : start + len ≤ window.start + window.len) :
    (buf.drop start).take len = (other.drop start).take len := by
  apply Buffer.window_congr
  intro place inSlice
  exact agree.cells _ ⟨by omega, by omega⟩

end Agree

/-- The program changes nothing beside the window, and what it does in the window is
decided by what stands there. -/
structure Within (window : Window) (program : Program Cell Fault Result) : Prop where
  length : ∀ buf, (exec program buf).2.length = buf.length
  beside : ∀ buf place, ¬ window.Covers place → (exec program buf).2[place]? = buf[place]?
  result : ∀ buf other, Agree window buf other →
    (exec program buf).1 = (exec program other).1
  inside : ∀ buf other, Agree window buf other →
    Agree window (exec program buf).2 (exec program other).2

namespace Within

variable {window : Window}

theorem pure (result : Result) : Within window (pure result : Program Cell Fault Result) where
  length _ := rfl
  beside _ _ _ := rfl
  result _ _ _ := rfl
  inside _ _ agree := agree

theorem attempt (result : Except Fault Result) :
    Within window (attempt result : Program Cell Fault Result) where
  length _ := rfl
  beside _ _ _ := rfl
  result _ _ _ := rfl
  inside _ _ agree := agree

theorem throw (fault : Fault) :
    Within window (throw fault : Program Cell Fault Result) :=
  attempt (.error fault)

theorem write {patch : Buffer.Patch Cell} (above : window.start ≤ patch.offset)
    (below : patch.offset + patch.data.length ≤ window.start + window.len) :
    Within window (write patch : Program Cell Fault PUnit) where
  length buf := Buffer.length_overwrite buf patch
  beside buf place outside := by
    have notCovered : ¬ patch.Covers place := by
      intro covered
      exact outside ⟨Nat.le_trans above covered.1, Nat.lt_of_lt_of_le covered.2 below⟩
    rw [exec_write, Buffer.getElem?_overwrite]
    cases buf[place]? with
    | none => rfl
    | some old => exact congrArg some (Buffer.Patch.at_of_not_covers notCovered old)
  result _ _ _ := rfl
  inside _ _ agree := agree.overwrite patch

theorem bind {first : Program Cell Fault Result} {next : Result → Program Cell Fault Other}
    (isFirst : Within window first) (isNext : ∀ result, Within window (next result)) :
    Within window (first >>= next) where
  length buf := by
    cases ends : (exec first buf).1 with
    | error fault =>
        rw [exec_bind_error buf ends]
        exact isFirst.length buf
    | ok result =>
        rw [exec_bind_ok buf ends, (isNext result).length]
        exact isFirst.length buf
  beside buf place outside := by
    cases ends : (exec first buf).1 with
    | error fault =>
        rw [exec_bind_error buf ends]
        exact isFirst.beside buf place outside
    | ok result =>
        rw [exec_bind_ok buf ends, (isNext result).beside _ place outside]
        exact isFirst.beside buf place outside
  result buf other agree := by
    have same := isFirst.result buf other agree
    cases ends : (exec first buf).1 with
    | error fault =>
        rw [exec_bind_error buf ends, exec_bind_error other (same.symm.trans ends)]
    | ok result =>
        rw [exec_bind_ok buf ends, exec_bind_ok other (same.symm.trans ends)]
        exact (isNext result).result _ _ (isFirst.inside buf other agree)
  inside buf other agree := by
    have same := isFirst.result buf other agree
    have after := isFirst.inside buf other agree
    cases ends : (exec first buf).1 with
    | error fault =>
        rw [exec_bind_error buf ends, exec_bind_error other (same.symm.trans ends)]
        exact after
    | ok result =>
        rw [exec_bind_ok buf ends, exec_bind_ok other (same.symm.trans ends)]
        exact (isNext result).inside _ _ after

theorem attempt_bind {result : Except Fault Result}
    {next : Result → Program Cell Fault Other}
    (isNext : ∀ found, result = .ok found → Within window (next found)) :
    Within window (InPlace.attempt result >>= next) := by
  cases result with
  | error fault => exact throw fault
  | ok found => exact isNext found rfl

theorem read {View : Type u} (view : List Cell → View)
    (next : View → Program Cell Fault Other)
    (same : ∀ buf other, Agree window buf other → view buf = view other)
    (isNext : ∀ seen, Within window (next seen)) :
    Within window (get >>= fun buf => next (view buf)) where
  length buf := (isNext (view buf)).length buf
  beside buf := (isNext (view buf)).beside buf
  result buf other agree := by
    rw [exec_get_bind, exec_get_bind, same buf other agree]
    exact (isNext (view other)).result buf other agree
  inside buf other agree := by
    rw [exec_get_bind, exec_get_bind, same buf other agree]
    exact (isNext (view other)).inside buf other agree

/-- A window may be given more room. -/
theorem widen {wide : Window} {program : Program Cell Fault Result}
    (isWithin : Within window program)
    (contained : ∀ place, window.Covers place → wide.Covers place) :
    Within wide program where
  length := isWithin.length
  beside buf place outside :=
    isWithin.beside buf place fun covered => outside (contained place covered)
  result buf other agree := isWithin.result buf other
    ⟨agree.length, fun place covered => agree.cells place (contained place covered)⟩
  inside buf other agree := by
    have narrow : Agree window buf other :=
      ⟨agree.length, fun place covered => agree.cells place (contained place covered)⟩
    have after := isWithin.inside buf other narrow
    refine ⟨after.length, fun place covered => ?_⟩
    by_cases inWindow : window.Covers place
    · exact after.cells place inWindow
    · rw [isWithin.beside buf place inWindow, isWithin.beside other place inWindow]
      exact agree.cells place covered

end Within

/-! ## Programs of windows that lie apart -/

theorem Within.agree_of_apart {window beside : Window} {program : Program Cell Fault PUnit}
    (isWithin : Within beside program)
    (apart : ∀ place, ¬ (window.Covers place ∧ beside.Covers place)) {buf after : List Cell}
    (ends : outcome program buf = .ok after) : Agree window buf after := by
  cases result : (exec program buf).1 with
  | error fault =>
      rw [outcome_of_error buf result] at ends
      exact nomatch ends
  | ok _ =>
      rw [outcome_of_ok buf result] at ends
      cases ends
      exact ⟨(isWithin.length buf).symm, fun place covered =>
        (isWithin.beside buf place fun inside => apart place ⟨covered, inside⟩).symm⟩

/-- Neither program notices whether the other one came before it, and the buffer that
both leave does not depend on their order. -/
structure Commute (one : Program Cell Fault Result) (other : Program Cell Fault Other)
    (buf : List Cell) : Prop where
  first : (exec one (exec other buf).2).1 = (exec one buf).1
  second : (exec other (exec one buf).2).1 = (exec other buf).1
  after : (exec other (exec one buf).2).2 = (exec one (exec other buf).2).2

theorem Within.commute {window beside : Window} {one : Program Cell Fault Result}
    {other : Program Cell Fault Other} (isOne : Within window one)
    (isOther : Within beside other)
    (apart : ∀ place, ¬ (window.Covers place ∧ beside.Covers place)) (buf : List Cell) :
    Commute one other buf := by
  have seenByOther : Agree beside (exec one buf).2 buf :=
    ⟨isOne.length buf, fun place covered =>
      isOne.beside buf place fun inOne => apart place ⟨inOne, covered⟩⟩
  have seenByOne : Agree window (exec other buf).2 buf :=
    ⟨isOther.length buf, fun place covered =>
      isOther.beside buf place fun inOther => apart place ⟨covered, inOther⟩⟩
  refine ⟨isOne.result _ _ seenByOne, isOther.result _ _ seenByOther, ?_⟩
  apply List.ext_getElem?
  intro place
  by_cases inOther : beside.Covers place
  · have notOne : ¬ window.Covers place := fun inOne => apart place ⟨inOne, inOther⟩
    rw [isOne.beside _ place notOne]
    exact (isOther.inside _ _ seenByOther).cells place inOther
  · rw [isOther.beside _ place inOther]
    by_cases inOne : window.Covers place
    · exact ((isOne.inside _ _ seenByOne).cells place inOne).symm
    · rw [isOne.beside _ place inOne, isOne.beside _ place inOne,
        isOther.beside _ place inOther]

theorem Commute.outcome_iff {one other : Program Cell Fault PUnit} {buf : List Cell}
    (commute : Commute one other buf) (after : List Cell) :
    outcome (one >>= fun _ => other) buf = .ok after ↔
      outcome (other >>= fun _ => one) buf = .ok after := by
  cases oneEnds : (exec one buf).1 with
  | error fault =>
      have failed := outcome_of_error buf oneEnds
      rw [outcome_bind, failed]
      constructor
      · intro impossible
        cases impossible
      · intro isAfter
        rw [outcome_bind] at isAfter
        cases otherEnds : (exec other buf).1 with
        | error otherFault =>
            rw [outcome_of_error buf otherEnds] at isAfter
            cases isAfter
        | ok _ =>
            rw [outcome_of_ok buf otherEnds] at isAfter
            change outcome one (exec other buf).2 = _ at isAfter
            rw [outcome_of_error _ (commute.first.trans oneEnds)] at isAfter
            cases isAfter
  | ok _ =>
      rw [outcome_bind, outcome_bind, outcome_of_ok buf oneEnds]
      change outcome other (exec one buf).2 = _ ↔ _
      cases otherEnds : (exec other buf).1 with
      | error otherFault =>
          rw [outcome_of_error buf otherEnds,
            outcome_of_error _ (commute.second.trans otherEnds)]
          constructor
          · intro impossible
            cases impossible
          · intro impossible
            cases impossible
      | ok _ =>
          rw [outcome_of_ok buf otherEnds,
            outcome_of_ok _ (commute.second.trans otherEnds), commute.after]
          change _ ↔ outcome one (exec other buf).2 = _
          rw [outcome_of_ok _ (commute.first.trans oneEnds)]

end InPlace
