import Mathlib.Tactic.Common
import Runvane.Domain.Status

/-!
# A run and its tasks

`check_run_consistency` of `state/invariant.rs`, which compares the status of a run with those of
its tasks. The checks come in the order of the code, and the first that fails gives the error.

What is accepted is `Consistent`. A run that has succeeded needs all its tasks terminal, and is not
looked at further; one that has failed or timed out has no task running, and a task that was skipped
only with one that failed; one that is running still has a task to work on. There is no condition
for runs that are queued or cancelled.
-/

set_option autoImplicit false

namespace Runvane.Domain

/-- A violation detected across a run and its tasks. -/
inductive InvariantError
  | succeededWithNonTerminalTask (task : String)
  | terminalWithRunningTask (task : String)
  | runBlocked
  | activeWithNoTasks
  | skippedWithoutFailedDependency (task : String)
  deriving DecidableEq, Repr

def InvariantError.display : InvariantError → String
  | succeededWithNonTerminalTask task => s!"run is Succeeded but task {task} is not terminal"
  | terminalWithRunningTask task => s!"run is terminal-failed but task {task} is Running"
  | runBlocked => "run is Running with no progress possible"
  | activeWithNoTasks => "run has no task runs and is not terminal"
  | skippedWithoutFailedDependency task => s!"task {task} is Skipped with no failed dependency"

/-- Reports the first of the tasks whose status is of the given kind. -/
def reportFirst (kind : TaskStatus → Bool) (error : String → InvariantError)
    (tasks : List (String × TaskStatus)) : Except InvariantError Unit :=
  match tasks.find? fun task ↦ kind task.2 with
  | some task => .error (error task.1)
  | none => .ok ()

/-- Checks the status of a run against those of its tasks, given with their names. -/
def checkRunConsistency (run : RunStatus) (tasks : List (String × TaskStatus)) :
    Except InvariantError Unit := do
  -- a failure that is terminal leaves no task running
  if run = .failed ∨ run = .timedOut then
    reportFirst (· = .running) .terminalWithRunningTask tasks
  -- a success needs every task terminal, and ends the check
  if run = .succeeded then reportFirst (!·.isTerminal) .succeededWithNonTerminalTask tasks
  else do
    if run = .running then
      if tasks.isEmpty then throw .activeWithNoTasks
      if tasks.all (·.2.isTerminal) then throw .runBlocked
    -- a skipped task needs one that failed, except when the run was cancelled
    if run = .failed ∨ run = .timedOut ∨ run = .succeeded then
      if !tasks.any (·.2 = .failed) then
        reportFirst (· = .skipped) .skippedWithoutFailedDependency tasks

/-- The tasks have statuses that a run with this status can have. -/
def Consistent (run : RunStatus) (tasks : List (String × TaskStatus)) : Prop :=
  match run with
  | .queued | .cancelled => True
  | .running => ∃ task ∈ tasks, task.2.isTerminal = false
  | .succeeded => ∀ task ∈ tasks, task.2.isTerminal = true
  | .failed | .timedOut => (∀ task ∈ tasks, task.2 ≠ .running) ∧
      ((∃ task ∈ tasks, task.2 = .skipped) → ∃ task ∈ tasks, task.2 = .failed)

theorem reportFirst_eq_ok_iff {kind : TaskStatus → Bool} {error : String → InvariantError}
    {tasks : List (String × TaskStatus)} :
    reportFirst kind error tasks = .ok () ↔ ∀ task ∈ tasks, kind task.2 = false := by
  unfold reportFirst
  split
  · rename_i task hfind
    refine iff_of_false nofun fun hall ↦ ?_
    have hkind := List.find?_some hfind
    rw [hall task (List.mem_of_find?_eq_some hfind)] at hkind
    cases hkind
  · rename_i hfind
    simpa using hfind

theorem bind_eq_ok_iff {first : Except InvariantError Unit}
    {rest : Unit → Except InvariantError Unit} :
    (first >>= rest) = .ok () ↔ first = .ok () ∧ rest () = .ok () := by
  cases first with
  | ok value => simp [bind, Except.bind]
  | error e => simp [bind, Except.bind]

/-- What the check asks of a run that has failed. -/
theorem checkRunConsistency_failed (tasks : List (String × TaskStatus)) :
    checkRunConsistency .failed tasks = .ok () ↔ Consistent .failed tasks := by
  have hsplit : checkRunConsistency .failed tasks =
      (reportFirst (· = .running) .terminalWithRunningTask tasks >>= fun _ ↦
        if !tasks.any (·.2 = .failed) then
          reportFirst (· = .skipped) .skippedWithoutFailedDependency tasks
        else pure ()) := rfl
  rw [hsplit, bind_eq_ok_iff, reportFirst_eq_ok_iff]
  refine and_congr (by simp only [decide_eq_false_iff_not]) ?_
  cases hfailed : tasks.any (·.2 = .failed) with
  | true =>
    rw [List.any_eq_true] at hfailed
    simp only [decide_eq_true_eq] at hfailed
    exact iff_of_true rfl fun _ ↦ hfailed
  | false =>
    rw [List.any_eq_false] at hfailed
    simp only [decide_eq_true_eq] at hfailed
    simp only [Bool.not_false, if_true, reportFirst_eq_ok_iff, decide_eq_false_iff_not]
    constructor
    · rintro hnone ⟨task, htask, hskipped⟩
      exact absurd hskipped (hnone task htask)
    · intro himp task htask hskipped
      obtain ⟨other, hother, hstatus⟩ := himp ⟨task, htask, hskipped⟩
      exact hfailed other hother hstatus

/-- The check accepts what is consistent. -/
theorem checkRunConsistency_eq_ok_iff (run : RunStatus) (tasks : List (String × TaskStatus)) :
    checkRunConsistency run tasks = .ok () ↔ Consistent run tasks := by
  cases run with
  | queued | cancelled => exact iff_of_true rfl trivial
  | succeeded => simp [checkRunConsistency, Consistent, reportFirst_eq_ok_iff]
  | running =>
    cases tasks with
    | nil => exact iff_of_false nofun fun ⟨_, htask, _⟩ ↦ List.not_mem_nil htask
    | cons task tasks =>
      cases hall : (task :: tasks).all (·.2.isTerminal) with
      | true =>
        refine iff_of_false ?_ ?_
        · simp [checkRunConsistency, hall]
        · rintro ⟨other, hother, hopen⟩
          simp [List.all_eq_true.mp hall other hother] at hopen
      | false =>
        refine iff_of_true ?_ ?_
        · simp only [checkRunConsistency, hall]
          rfl
        · rw [List.all_eq_false] at hall
          simpa only [Consistent, Bool.not_eq_true] using hall
  | failed | timedOut => exact checkRunConsistency_failed tasks

end Runvane.Domain
