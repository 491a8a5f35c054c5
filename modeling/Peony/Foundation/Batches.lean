import Mathlib.Data.List.Perm.Basic

/-! Workers that take the tasks of a list in batches, every worker stopping at its
first failure, and the list itself worked off in order. Where the tasks commute,
no schedule of the workers can be told from the list. -/

namespace Batches

variable {Task State Fault : Type*}

structure Progress (Task State Fault : Type*) where
  shared : State
  batches : List (List Task)
  failed : Option Fault

namespace Progress

def start (shared : State) (batches : List (List Task)) :
    Progress Task State Fault :=
  ⟨shared, batches, none⟩

def step (work : Task → State → Except Fault State)
    (progress : Progress Task State Fault) (worker : Nat) :
    Progress Task State Fault :=
  match progress.batches[worker]? with
  | some (task :: rest) =>
      match work task progress.shared with
      | .ok shared => ⟨shared, progress.batches.set worker rest, progress.failed⟩
      | .error fault =>
          ⟨progress.shared, progress.batches.set worker [],
            progress.failed.or (some fault)⟩
  | _ => progress

/-- The workers named by the schedule take their tasks one after the other. -/
def run (work : Task → State → Except Fault State)
    (progress : Progress Task State Fault) (schedule : List Nat) :
    Progress Task State Fault :=
  schedule.foldl (step work) progress

def IsFinished (progress : Progress Task State Fault) : Prop :=
  ∀ batch ∈ progress.batches, batch = []

def outcome (progress : Progress Task State Fault) : Except Fault State :=
  match progress.failed with
  | some fault => .error fault
  | none => .ok progress.shared

end Progress

def inOrder (work : Task → State → Except Fault State) (tasks : List Task)
    (shared : State) : Except Fault State :=
  tasks.foldlM (fun shared task => work task shared) shared

variable {work : Task → State → Except Fault State}

theorem inOrder_nil (shared : State) : inOrder work [] shared = .ok shared := rfl

theorem inOrder_cons (task : Task) (rest : List Task) (shared : State) :
    inOrder work (task :: rest) shared =
      work task shared >>= fun next => inOrder work rest next := rfl

theorem inOrder_snoc (front : List Task) (task : Task) (shared : State) :
    inOrder work (front ++ [task]) shared =
      inOrder work front shared >>= fun next => work task next := by
  rw [inOrder, List.foldlM_append]
  congr 1
  funext next
  exact bind_pure _

/-! ## Commuting tasks -/

/-- What a task does is decided without the shared state, it keeps the valid
states, and the order of two tasks does not matter. -/
structure Independent (work : Task → State → Except Fault State)
    (valid : State → Prop) (effect : Task → Except Fault (State → State))
    (tasks : List Task) : Prop where
  works : ∀ task ∈ tasks, ∀ shared, valid shared →
    work task shared = (effect task).map fun change => change shared
  keeps : ∀ task ∈ tasks, ∀ change, effect task = .ok change →
    ∀ shared, valid shared → valid (change shared)
  commutes : tasks.Pairwise fun first second => ∀ change other,
    effect first = .ok change → effect second = .ok other →
      ∀ shared, valid shared → other (change shared) = change (other shared)

variable {valid : State → Prop} {effect : Task → Except Fault (State → State)}
variable {tasks : List Task}

namespace Independent

theorem tail {task : Task} (independent : Independent work valid effect (task :: tasks)) :
    Independent work valid effect tasks where
  works := fun other present => independent.works other (List.mem_cons_of_mem _ present)
  keeps := fun other present => independent.keeps other (List.mem_cons_of_mem _ present)
  commutes := (List.pairwise_cons.mp independent.commutes).2

theorem perm {others : List Task} (independent : Independent work valid effect tasks)
    (same : tasks.Perm others) : Independent work valid effect others where
  works := fun task present => independent.works task (same.mem_iff.mpr present)
  keeps := fun task present => independent.keeps task (same.mem_iff.mpr present)
  commutes := by
    refine (same.pairwise_iff ?_).mp independent.commutes
    intro first second commute change other isFirst isSecond shared isValid
    exact (commute other change isSecond isFirst shared isValid).symm

theorem inOrder_cons_ok (independent : Independent work valid effect tasks)
    {task : Task} (present : task ∈ tasks) {rest : List Task} {shared last : State}
    (isValid : valid shared) :
    inOrder work (task :: rest) shared = .ok last ↔
      ∃ change, effect task = .ok change ∧
        inOrder work rest (change shared) = .ok last := by
  rw [inOrder_cons, independent.works task present shared isValid]
  cases effect task with
  | error fault =>
      constructor
      · intro impossible
        cases impossible
      · rintro ⟨change, isChange, -⟩
        cases isChange
  | ok change =>
      constructor
      · intro isLast
        exact ⟨change, rfl, isLast⟩
      · rintro ⟨other, isOther, isLast⟩
        cases isOther
        exact isLast

theorem inOrder_perm {others : List Task}
    (independent : Independent work valid effect tasks) (same : tasks.Perm others)
    {shared last : State} (isValid : valid shared)
    (isLast : inOrder work tasks shared = .ok last) :
    inOrder work others shared = .ok last := by
  induction same generalizing shared with
  | nil => exact isLast
  | cons task sameRest induction =>
      rw [independent.inOrder_cons_ok List.mem_cons_self isValid] at isLast
      rcases isLast with ⟨change, isChange, later⟩
      have next := independent.keeps task List.mem_cons_self change isChange shared
        isValid
      rw [(independent.perm (.cons task sameRest)).inOrder_cons_ok
        List.mem_cons_self isValid]
      exact ⟨change, isChange, induction independent.tail next later⟩
  | swap first second rest =>
      -- The list starts with `second`, then `first`.
      have isFirst : first ∈ second :: first :: rest :=
        List.mem_cons_of_mem _ List.mem_cons_self
      rw [independent.inOrder_cons_ok List.mem_cons_self isValid] at isLast
      rcases isLast with ⟨change, isChange, later⟩
      have next := independent.keeps second List.mem_cons_self change isChange shared
        isValid
      rw [independent.inOrder_cons_ok isFirst next] at later
      rcases later with ⟨other, isOther, later⟩
      have swapped := independent.perm (.swap first second rest)
      have otherNext := independent.keeps first isFirst other isOther shared isValid
      have commute := (List.pairwise_cons.mp independent.commutes).1 first
        List.mem_cons_self change other isChange isOther shared isValid
      rw [swapped.inOrder_cons_ok List.mem_cons_self isValid]
      refine ⟨other, isOther, ?_⟩
      rw [swapped.inOrder_cons_ok (List.mem_cons_of_mem _ List.mem_cons_self) otherNext]
      exact ⟨change, isChange, commute ▸ later⟩
  | trans sameFirst _ inductionFirst inductionSecond =>
      exact inductionSecond (independent.perm sameFirst) isValid
        (inductionFirst independent isValid isLast)

theorem ok_of_inOrder (independent : Independent work valid effect tasks)
    {rest : List Task} (inTasks : ∀ task ∈ rest, task ∈ tasks) {shared last : State}
    (isValid : valid shared) (isLast : inOrder work rest shared = .ok last) :
    ∀ task ∈ rest, ∃ change, effect task = .ok change := by
  induction rest generalizing shared with
  | nil => exact fun task absent => absurd absent List.not_mem_nil
  | cons head rest induction =>
      have isTask := inTasks head List.mem_cons_self
      rw [independent.inOrder_cons_ok isTask isValid] at isLast
      rcases isLast with ⟨change, isChange, later⟩
      intro task present
      rcases List.mem_cons.mp present with rfl | inRest
      · exact ⟨change, isChange⟩
      · exact induction (fun other isOther => inTasks other (List.mem_cons_of_mem _ isOther))
          (independent.keeps head isTask change isChange shared isValid) later task inRest

end Independent

/-! ## Schedules -/

theorem flatten_set_perm {batches : List (List Task)} {worker : Nat} {task : Task}
    {rest : List Task} (isNext : batches[worker]? = some (task :: rest)) :
    (task :: (batches.set worker rest).flatten).Perm batches.flatten := by
  induction batches generalizing worker with
  | nil => cases isNext
  | cons batch others induction =>
      cases worker with
      | zero =>
          cases isNext
          exact .refl _
      | succ worker =>
          rw [List.getElem?_cons_succ] at isNext
          rw [List.set_cons_succ, List.flatten_cons, List.flatten_cons]
          exact List.perm_middle.symm.trans ((induction isNext).append_left batch)

/-- Without a failure, the tasks taken so far have worked off in the order they
were taken and the others are waiting; after a failure there is a task that
fails. -/
structure Invariant (work : Task → State → Except Fault State)
    (valid : State → Prop) (effect : Task → Except Fault (State → State))
    (tasks : List Task) (first : State) (progress : Progress Task State Fault) :
    Prop where
  isValid : valid progress.shared
  waiting : ∀ batch ∈ progress.batches, ∀ task ∈ batch, task ∈ tasks
  worked : progress.failed = none → ∃ taken,
    (taken ++ progress.batches.flatten).Perm tasks ∧
      inOrder work taken first = .ok progress.shared
  failed : ∀ fault, progress.failed = some fault →
    ∃ task ∈ tasks, effect task = .error fault

namespace Invariant

variable {first : State} {progress : Progress Task State Fault}

theorem start {batches : List (List Task)} (isValid : valid first)
    (same : batches.flatten.Perm tasks) :
    Invariant work valid effect tasks first (.start first batches) where
  isValid := isValid
  waiting := fun batch isBatch task present =>
    same.mem_iff.mp (List.mem_flatten.mpr ⟨batch, isBatch, present⟩)
  worked := fun _ => ⟨[], same, rfl⟩
  failed := fun fault impossible => by cases impossible

theorem step (independent : Independent work valid effect tasks)
    (invariant : Invariant work valid effect tasks first progress) (worker : Nat) :
    Invariant work valid effect tasks first (progress.step work worker) := by
  rcases isNext : progress.batches[worker]? with - | batch
  · simpa only [Progress.step, isNext] using invariant
  rcases batch with - | ⟨task, rest⟩
  · simpa only [Progress.step, isNext] using invariant
  have isBatch := List.mem_of_getElem? isNext
  have isTask := invariant.waiting _ isBatch task List.mem_cons_self
  have stillWaiting {part : List Task} (isPart : ∀ other ∈ part, other ∈ task :: rest) :
      ∀ batch ∈ progress.batches.set worker part, ∀ other ∈ batch, other ∈ tasks := by
    intro batch present other isOther
    rcases List.mem_or_eq_of_mem_set present with old | rfl
    · exact invariant.waiting batch old other isOther
    · exact invariant.waiting _ isBatch other (isPart other isOther)
  have works := independent.works task isTask progress.shared invariant.isValid
  cases isEffect : effect task with
  | error fault =>
      rw [isEffect] at works
      simp only [Progress.step, isNext, works, Except.map]
      refine ⟨invariant.isValid,
        stillWaiting fun other absent => absurd absent List.not_mem_nil, ?_, ?_⟩
      · intro none
        cases before : progress.failed with
        | none => simp [before] at none
        | some earlier => simp [before] at none
      · intro earlier isFault
        cases before : progress.failed with
        | none =>
            rw [before, Option.none_or] at isFault
            cases isFault
            exact ⟨task, isTask, isEffect⟩
        | some old =>
            rw [before, Option.some_or] at isFault
            exact invariant.failed earlier (before.trans isFault)
  | ok change =>
      rw [isEffect] at works
      simp only [Progress.step, isNext, works, Except.map]
      refine ⟨independent.keeps task isTask change isEffect _ invariant.isValid,
        stillWaiting fun other => List.mem_cons_of_mem _, ?_, invariant.failed⟩
      intro none
      rcases invariant.worked none with ⟨taken, same, soFar⟩
      refine ⟨taken ++ [task], ?_, ?_⟩
      · rw [List.append_assoc]
        exact ((flatten_set_perm isNext).append_left taken).trans same
      · rw [inOrder_snoc, soFar]
        exact works

theorem run (independent : Independent work valid effect tasks)
    (invariant : Invariant work valid effect tasks first progress)
    (schedule : List Nat) :
    Invariant work valid effect tasks first (progress.run work schedule) := by
  induction schedule generalizing progress with
  | nil => exact invariant
  | cons worker rest induction => exact induction (invariant.step independent worker)

end Invariant

theorem outcome_ok_iff (independent : Independent work valid effect tasks)
    {first : State} (isValid : valid first) {batches : List (List Task)}
    (same : batches.flatten.Perm tasks) {schedule : List Nat}
    (finished : ((Progress.start first batches).run work schedule).IsFinished)
    (last : State) :
    ((Progress.start first batches).run work schedule).outcome = .ok last ↔
      inOrder work tasks first = .ok last := by
  have invariant := (Invariant.start isValid same).run independent schedule
  generalize (Progress.start first batches).run work schedule = progress
    at finished invariant ⊢
  rw [Progress.outcome]
  cases isFailed : progress.failed with
  | some fault =>
      rcases invariant.failed fault isFailed with ⟨task, isTask, fails⟩
      constructor
      · intro impossible
        cases impossible
      · intro isLast
        rcases independent.ok_of_inOrder (fun _ present => present) isValid isLast task
          isTask with ⟨change, isChange⟩
        rw [fails] at isChange
        cases isChange
  | none =>
      rcases invariant.worked isFailed with ⟨taken, all, soFar⟩
      have empty : progress.batches.flatten = [] :=
        List.flatten_eq_nil_iff.mpr finished
      rw [empty, List.append_nil] at all
      have whole := (independent.perm all.symm).inOrder_perm all isValid soFar
      rw [whole]

theorem outcome_error_iff (independent : Independent work valid effect tasks)
    {first : State} (isValid : valid first) {batches : List (List Task)}
    (same : batches.flatten.Perm tasks) {schedule : List Nat}
    (finished : ((Progress.start first batches).run work schedule).IsFinished) :
    (∃ fault, ((Progress.start first batches).run work schedule).outcome =
        .error fault) ↔
      ∃ fault, inOrder work tasks first = .error fault := by
  have agree := outcome_ok_iff independent isValid same finished
  cases outcome : ((Progress.start first batches).run work schedule).outcome with
  | ok last => simp [(agree last).mp outcome]
  | error fault =>
      cases direct : inOrder work tasks first with
      | error other => simp
      | ok last =>
          rw [(agree last).mpr direct] at outcome
          cases outcome

/-- A worker that has all the tasks is done after as many turns as there are tasks. -/
theorem isFinished_alone (shared : State) (tasks : List Task) (failed : Option Fault) :
    ((Progress.mk shared [tasks] failed).run work
      (List.replicate tasks.length 0)).IsFinished := by
  have still (state : State) (fault : Option Fault) (turns : Nat) :
      (Progress.mk state [([] : List Task)] fault).run work (List.replicate turns 0) =
        ⟨state, [[]], fault⟩ := by
    induction turns with
    | zero => rfl
    | succ turns induction => exact induction
  induction tasks generalizing shared failed with
  | nil =>
      intro batch present
      exact List.mem_singleton.mp present
  | cons task rest induction =>
      rw [List.length_cons, List.replicate_succ, Progress.run, List.foldl_cons]
      cases works : work task shared with
      | ok next =>
          have taken : (Progress.mk shared [task :: rest] failed).step work 0 =
              ⟨next, [rest], failed⟩ := by
            simp only [Progress.step, List.getElem?_cons_zero, works, List.set_cons_zero]
          rw [taken]
          exact induction next failed
      | error fault =>
          have stopped : (Progress.mk shared [task :: rest] failed).step work 0 =
              ⟨shared, [[]], failed.or (some fault)⟩ := by
            simp only [Progress.step, List.getElem?_cons_zero, works, List.set_cons_zero]
          rw [stopped]
          intro batch present
          have done := still shared (failed.or (some fault)) rest.length
          rw [Progress.run] at done
          rw [done] at present
          exact List.mem_singleton.mp present

theorem exists_of_outcome_error (independent : Independent work valid effect tasks)
    {first : State} (isValid : valid first) {batches : List (List Task)}
    (same : batches.flatten.Perm tasks) {schedule : List Nat} {fault : Fault}
    (fails : ((Progress.start first batches).run work schedule).outcome =
      .error fault) :
    ∃ task ∈ tasks, effect task = .error fault := by
  have invariant := (Invariant.start isValid same).run independent schedule
  rw [Progress.outcome] at fails
  cases isFailed : ((Progress.start first batches).run work schedule).failed with
  | some earlier =>
      rw [isFailed] at fails
      cases fails
      exact invariant.failed _ isFailed
  | none =>
      rw [isFailed] at fails
      cases fails

end Batches
