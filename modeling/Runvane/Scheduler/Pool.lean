import Runvane.Scheduler.Executor

/-!
# The dispatcher and the workers

`scheduler/pool.rs`: a round of the dispatcher, which claims the entries that are ready, moves each
run to running and hands it to the pool, and the work of a pool thread on one job, which attempts
the run and then gives the claim back as the outcome says. A panic of the attempt is caught by the
worker (`CallProgram.reify`).
-/

set_option autoImplicit false

namespace Runvane.Scheduler

open Library Domain Persistence Prog

/-! ### The dispatcher -/

/-- Result counters of one dispatch batch. -/
structure DispatchStats where
  scanned : ℕ := 0
  claimed : ℕ := 0
  submitFailed : ℕ := 0
  contended : ℕ := 0
  deriving DecidableEq, Repr

structure Dispatcher where
  batchSize : ℕ
  leaseMs : ℤ

/-- Moves a claimed run from queued to running. -/
def markRunning (runId : RunId) : Prog StorageError Unit := do
  match ← onStore (.getRun runId) with
  | .error e => throw e
  | .ok run =>
    if run.status = .running then pure ()
    else if run.status ≠ .queued then
      throw (.backend s!"cannot dispatch run {runId.text} from {run.status.display}")
    else
      match RunFsm.validate .queued .running with
      | .error e => throw (.backend (RunFsm.illegalText e))
      | .ok _ => do
        let now ← ask .nowMs
        match ← onStore (.putRun { run with status := .running, startedAtMs := some now }) with
        | .ok _ => pure ()
        | .error e => throw e

/-- Claims one entry, moves its run to running and submits it. -/
def dispatchEntry {ε : Type} (dispatcher : Dispatcher) (now : ℤ) (stats : DispatchStats)
    (entry : QueueEntry) : Prog ε DispatchStats := do
  let token ← ask .newToken
  match ← onStore (.claim entry.runId token now dispatcher.leaseMs) with
  | .ok _ => do
    let transitioned ← (markRunning entry.runId).reify
    let submitted ← ask (.submit ⟨entry.runId, token⟩)
    if transitioned.isOk && submitted.isOk then
      pure { stats with claimed := stats.claimed + 1 }
    else do
      let _ ← onStore (.failclaim entry.runId token)
      pure { stats with submitFailed := stats.submitFailed + 1 }
  | .error (.claimLost _) => pure { stats with contended := stats.contended + 1 }
  | .error (.notFound _) => pure { stats with contended := stats.contended + 1 }
  | .error _ => pure { stats with submitFailed := stats.submitFailed + 1 }

/-- One scan-and-dispatch round. -/
def Dispatcher.step {ε : Type} (dispatcher : Dispatcher) : Prog ε DispatchStats := do
  let now ← ask .nowMs
  match ← onStore (.scanReady now dispatcher.batchSize) with
  | .error _ => pure {}
  | .ok ready => ready.foldlM (dispatchEntry dispatcher now) { scanned := ready.length }

/-! ### The workers -/

/-- Applies the executor's queue decision with the token of the job. -/
def applyAction {ε : Type} (job : Job) : RunAction → Prog ε Unit
  | .ack => do
    let _ ← onStore (.ack job.runId job.token)
    pure ()
  | .release releaseAtMs => do
    let _ ← onStore (.release job.runId job.token releaseAtMs)
    pure ()

/-- The work on one job. An attempt that fails or panics gives its lease back at once. -/
def runJob {ε : Type} (ex : RunExecutor) (job : Job) : Prog ε Unit := do
  match ← (attemptWithToken ex job.runId (some job.token) 60000).reify with
  | .ok outcome => applyAction job outcome.action
  | .error _ => do
    let now ← ask .nowMs
    let _ ← onStore (.release job.runId job.token now)
    pure ()

end Runvane.Scheduler
