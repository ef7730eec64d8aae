import Runvane.Retry.Backoff
import Runvane.Scheduler.Calls
import Runvane.Scheduler.Pick

/-!
# One attempt of a run

`RunExecutor` of `scheduler/executor.rs`. An attempt loads the run and its definition, and then
works in waves: it picks the tasks that are ready, runs them one after the other, each with its
record written before and after, and picks again. When nothing is ready any more it persists the
tasks that can no longer run as skipped, and decides where the run goes (`finalize`).

The functions follow the code call by call. The loop over waves is bounded by the number of tasks,
which it does not reach: a wave that is not empty runs tasks that this attempt has not run before.
-/

set_option autoImplicit false

namespace Runvane.Scheduler

open Library Domain Persistence Retry Prog

/-! ### Outcomes -/

/-- What the driver must do with the queue entry after an attempt. -/
inductive RunAction
  | ack
  | release (releaseAtMs : ℤ)
  deriving DecidableEq, Repr

structure AttemptOutcome where
  runStatus : RunStatus
  failedTasks : List String
  action : RunAction
  error : Option RunError
  deriving DecidableEq, Repr

/-- Errors an attempt can encounter for reasons other than its tasks. -/
inductive ExecutorError
  | runLost (runId : String)
  | definitionLost (runId : String)
  | store (e : StorageError)
  | invariant (message : String)
  deriving DecidableEq, Repr

/-- What an executor is bound to beyond its store, registry and clock: the seed of the backoff
randomness, and the numerics it is computed with. -/
structure RunExecutor where
  num : Numerics
  seed : ℕ

/-! ### Steps -/

/-- The stored record of a task, or a pending one when there is none. -/
def loadTask {ε : Type} (runId : RunId) (taskName : String) : Prog ε TaskRun := do
  match ← onStore (.getTaskRun (taskRunId runId taskName)) with
  | .ok tr => pure tr
  | .error _ => pure { id := taskRunId runId taskName, runId := runId, taskName := taskName }

def storeTaskRun (tr : TaskRun) : Prog ExecutorError Unit := do
  match ← onStore (.putTaskRun tr) with
  | .ok _ => pure ()
  | .error e => throw (.store e)

def storeRun (run : Run) : Prog ExecutorError Unit := do
  match ← onStore (.putRun run) with
  | .ok _ => pure ()
  | .error e => throw (.store e)

/-- Checks an edge of the run machine. -/
def validateRun (source target : RunStatus) : Prog ExecutorError Unit :=
  match RunFsm.validate source target with
  | .ok _ => pure ()
  | .error e => throw (.invariant (RunFsm.illegalText e))

/-- The statuses an attempt starts from: those stored for the run, and pending for the rest. -/
def loadedStates {ε : Type} (runId : RunId) (d : WorkflowDef) : Prog ε StatusMap := do
  let stored := (← onStore (.listTaskRunsForRun runId)).toOption.getD []
  let states : StatusMap := stored.foldl (fun m tr ↦ m.insert tr.taskName tr.status) ∅
  pure (d.tasks.foldl (fun m task ↦ m.insertIfNew task.name .pending) states)

def runHandler {ε : Type} (handlerId : HandlerId) (taskName : String) (ctx : TaskContext) :
    Prog ε (Except HandlerError HandlerResult) := do
  if ← ask (.registryGet handlerId) then execute handlerId ctx
  else pure (.error (.permanent s!"unknown handler {handlerId.text} for {taskName}"))

/-- Renews the lease before a task, if the attempt holds one. -/
def heartbeat {ε : Type} (runId : RunId) (token : Option ClaimToken)
    (leaseMs : ℤ) : Prog ε Unit := do
  match token with
  | some t =>
    let now ← ask .nowMs
    let _ ← onStore (.renewLease runId t now leaseMs)
    pure ()
  | none => pure ()

/-- Persists how a task ended: the record is loaded again, moved along a legal edge, stamped and
completed by `record`. The label is the target's name in the error text. -/
def settleTask (runId : RunId) (taskName : String) (target : TaskStatus) (label : String)
    (record : TaskRun → TaskRun) : Prog ExecutorError Unit := do
  let tr ← loadTask runId taskName
  if !TaskFsm.isLegal tr.status target then
    throw (.invariant s!"illegal task transition {tr.status.display} -> {label}")
  else do
    let now ← ask .nowMs
    storeTaskRun (record { tr with status := target, finishedAtMs := some now })

def runTask (run : Run) (d : WorkflowDef) (token : Option ClaimToken) (leaseMs : ℤ)
    (states : StatusMap) (name : String) : Prog ExecutorError StatusMap := do
  match d.tasks.find? (·.name = name) with
  | none => .abort .panic
  | some task => do
    heartbeat run.id token leaseMs
    let tr ← loadTask run.id name
    let now ← ask .nowMs
    let tr := { tr with
      status := .running, attempts := u32Succ tr.attempts, startedAtMs := some now }
    storeTaskRun tr
    let states := states.insert name .running
    let ctx : TaskContext :=
      { tenant := run.tenant, defName := run.defName, runId := run.id, taskName := name
        input := task.input, attempt := tr.attempts }
    match ← runHandler task.handler name ctx with
    | .ok result =>
      settleTask run.id name .succeeded "Succeeded" fun tr ↦
        { tr with output := some result.output }
      pure (states.insert name .succeeded)
    | .error e =>
      settleTask run.id name .failed "Failed" fun tr ↦ { tr with lastError := some e.message }
      pure (states.insert name .failed)

/-! ### The loop over waves -/

/-- The variables of the loop: the statuses, and the tasks this attempt has run. -/
structure Progress where
  states : StatusMap
  executed : NameSet

/-- How the loop over waves ends. -/
inductive LoopExit
  | cancelled (outcome : AttemptOutcome)
  | drained (states : StatusMap)

/-- Whether a task the picker offers is dispatched: not twice in an attempt, and after a failure
only while its own budget lasts. -/
def mayDispatch {ε : Type} (runId : RunId) (d : WorkflowDef) (p : Progress) (name : String) :
    Prog ε Bool := do
  if p.executed.contains name then pure false
  else if p.states[name]? ≠ some .failed then pure true
  else do
    let tr ← loadTask runId name
    pure (decide (tr.attempts < (d.policyOf name).maxAttempts))

def nextWave {ε : Type} (runId : RunId) (d : WorkflowDef) (p : Progress) : Prog ε (List String) :=
  (readyTasks d p.states).foldlM (fun wave name ↦ do
    if ← mayDispatch runId d p name then pure (wave ++ [name]) else pure wave) []

/-- One task of the wave: it counts as run from the moment it is taken up. -/
def waveTask (run : Run) (d : WorkflowDef) (token : Option ClaimToken) (leaseMs : ℤ)
    (p : Progress) (name : String) : Prog ExecutorError Progress := do
  let states ← runTask run d token leaseMs p.states name
  pure ⟨states, p.executed.insert name⟩

/-- One turn of the loop. The run is looked up first, and the attempt stops when it has been
cancelled. -/
def turn (run : Run) (d : WorkflowDef) (token : Option ClaimToken) (leaseMs : ℤ) (p : Progress) :
    Prog ExecutorError (Progress ⊕ LoopExit) := do
  match ← onStore (.getRun run.id) with
  | .ok current =>
    if current.status = .cancelled then
      pure (.inr (.cancelled ⟨.cancelled, [], .ack, current.error⟩))
    else dispatch
  | .error _ => dispatch
where
  /-- The rest of the turn, for a run that is not known to be cancelled. -/
  dispatch : Prog ExecutorError (Progress ⊕ LoopExit) := do
    let wave ← nextWave run.id d p
    if wave.isEmpty then pure (.inr (.drained p.states))
    else do
      let p' ← wave.foldlM (waveTask run d token leaseMs) p
      pure (.inl p')

def persistSkipped (runId : RunId) (states collapsed : StatusMap) : Prog ExecutorError Unit :=
  collapsed.toList.foldlM (fun _ entry ↦
    if entry.2 = .skipped ∧ states[entry.1]? ≠ some .skipped then do
      let tr ← loadTask runId entry.1
      let now ← ask .nowMs
      storeTaskRun { tr with status := .skipped, finishedAtMs := some now }
    else pure ()) ()

/-! ### The decision -/

/-- Whether every one of the failed tasks has attempts left. -/
def budgetsLeft {ε : Type} (runId : RunId) (d : WorkflowDef) : List String → Prog ε Bool
  | [] => pure true
  | name :: names => do
    let tr ← loadTask runId name
    if tr.attempts < (d.policyOf name).maxAttempts then budgetsLeft runId d names else pure false

def failureReason {ε : Type} (runId : RunId) : List String → Prog ε String
  | [] => pure "task failed"
  | name :: _ => do
    let tr ← loadTask runId name
    pure (tr.lastError.getD "task failed")

/-- No task failed. -/
def finishSucceeded (run : Run) : Prog ExecutorError AttemptOutcome := do
  validateRun run.status .succeeded
  let now ← ask .nowMs
  storeRun { run with status := .succeeded, finishedAtMs := some now, error := none }
  pure ⟨.succeeded, [], .ack, none⟩

/-- Another attempt is scheduled. -/
def finishRetry (ex : RunExecutor) (run : Run) (d : WorkflowDef) (failing : List String) :
    Prog ExecutorError AttemptOutcome := do
  validateRun run.status .failed
  validateRun .failed .queued
  let attempts := u32Succ run.attempts
  let now ← ask .nowMs
  match nextAttemptAtMs ex.num d.retry attempts true now ex.seed with
  | none => .abort .panic
  | some answer => do
    let fallback ← ask .nowMs
    let delay := answer.getD fallback
    storeRun { run with
      attempts := attempts, status := .queued, nextAttemptAtMs := some delay, error := none }
    pure ⟨.queued, failing, .release delay, none⟩

def finishFailed (run : Run) (failing : List String) (reason : String) :
    Prog ExecutorError AttemptOutcome := do
  validateRun run.status .failed
  let now ← ask .nowMs
  let error : RunError :=
    { message := reason, kind := .exhausted, task := failing.head?, depth := 0
      attempts := run.attempts }
  storeRun { run with status := .failed, finishedAtMs := some now, error := some error }
  pure ⟨.failed, failing, .ack, some error⟩

/-- Decides the run's next state from the statuses its tasks ended with. -/
def finalize (ex : RunExecutor) (run : Run) (d : WorkflowDef) (states : StatusMap) :
    Prog ExecutorError AttemptOutcome := do
  let failing := (states.toList.filter (·.2 = .failed)).map Prod.fst
  if !states.toList.all (·.2.isTerminal) then
    throw (.invariant "attempt ended with non-terminal tasks")
  else if failing.isEmpty then finishSucceeded run
  else do
    let reason ← failureReason run.id failing
    let taskBudgetOk ← budgetsLeft run.id d failing
    if d.retry.allowsAttempt (u32Succ run.attempts) && taskBudgetOk then
      finishRetry ex run d failing
    else finishFailed run failing reason

/-! ### The attempt -/

/-- Persists that the run has outlived its deadline. -/
def finishTimedOut (run : Run) : Prog ExecutorError AttemptOutcome := do
  validateRun .running .timedOut
  let now ← ask .nowMs
  let error : RunError :=
    { message := s!"run {run.id.text} exceeded its deadline", kind := .timeout, task := none
      depth := 0, attempts := run.attempts }
  storeRun { run with status := .timedOut, finishedAtMs := some now, error := some error }
  pure ⟨.timedOut, [], .ack, some error⟩

/-- Whether the run's deadline has passed; the clock is read only when there is one. -/
def deadlinePassed {ε : Type} (run : Run) : Prog ε Bool := do
  match run.deadlineAtMs with
  | some deadline =>
    let now ← ask .nowMs
    pure (decide (deadline < now))
  | none => pure false

def runWaves (ex : RunExecutor) (run : Run) (d : WorkflowDef) (token : Option ClaimToken)
    (leaseMs : ℤ) : Prog ExecutorError AttemptOutcome := do
  let states ← loadedStates run.id d
  match ← CallProgram.iterate .exhausted (turn run d token leaseMs) (d.tasks.length + 1)
      ⟨states, ∅⟩ with
  | .cancelled outcome => pure outcome
  | .drained states =>
    let collapsed := pendingToSkip d states
    persistSkipped run.id states collapsed
    finalize ex run d collapsed

/-- Runs one attempt of a run, renewing the lease of `token` before every task. -/
def attemptWithToken (ex : RunExecutor) (runId : RunId) (token : Option ClaimToken)
    (leaseMs : ℤ) : Prog ExecutorError AttemptOutcome := do
  match ← onStore (.getRun runId) with
  | .error _ => throw (.runLost runId.text)
  | .ok run => do
    match ← onStore (.getWorkflow run.tenant run.defName) with
    | .error _ => throw (.definitionLost runId.text)
    | .ok record => do
      if run.status ≠ .running then
        if run.status = .cancelled then pure ⟨.cancelled, [], .ack, run.error⟩
        else throw (.invariant
          s!"run {runId.text} is {run.status.display} on attempt; expected Running")
      else do
        if ← deadlinePassed run then finishTimedOut run
        else runWaves ex run record.definition token leaseMs

end Runvane.Scheduler
