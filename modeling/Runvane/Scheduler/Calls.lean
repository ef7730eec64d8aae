import Runvane.Library.CallProgram
import Runvane.Persistence.Memory

/-!
# The calls of the scheduler

Everything the scheduler does beyond pure computation is a call: on the store, on the clock, on the
handler registry, on a handler, on the pool's channel, or for a fresh token. Its functions are
programs over these calls (`Prog`), so that one model serves runs to the end, runs cut off between
any two calls, and interleavings call by call.

A `World` is the store together with the log of all calls so far, each with the store it found.
Calls on the store are answered by the in-memory store. All others are answered by an environment
(`Env`), which may depend on the whole log and is arbitrary otherwise: it stands for the clock, the
handlers, the channel and the random tokens.
-/

set_option autoImplicit false

namespace Runvane.Scheduler

open Library Domain Persistence

/-! ### What is called -/

/-- The payload a handler receives. -/
structure TaskContext where
  tenant : String
  defName : String
  runId : RunId
  taskName : String
  input : Json
  attempt : ℕ

/-- The outcome of a handler that succeeded. -/
structure HandlerResult where
  output : Json

structure HandlerError where
  kind : FailureKind
  message : String

def HandlerError.permanent (message : String) : HandlerError := ⟨.rejected, message⟩

/-- A claimed run handed to the pool, with the token that owns its lease. -/
structure Job where
  runId : RunId
  token : ClaimToken
  deriving DecidableEq

/-- Reason a job could not be handed to the pool. -/
inductive SubmitError
  | full
  | disconnected
  deriving DecidableEq

/-- The methods of the store that the scheduler, the API and operators call. -/
inductive StoreCall
  | putWorkflow (d : WorkflowDef)
  | updateWorkflowVersion (tenant name : String) (d : WorkflowDef) (expectedVersion : ℕ)
  | getWorkflow (tenant name : String)
  | putRun (run : Run)
  | getRun (id : RunId)
  | deleteRun (id : RunId)
  | putTaskRun (tr : TaskRun)
  | getTaskRun (id : TaskRunId)
  | listTaskRunsForRun (runId : RunId)
  | nextRunNumber (defName : String)
  | enqueue (entry : QueueEntry)
  | scanReady (nowMs : ℤ) (limit : ℕ)
  | claim (runId : RunId) (token : ClaimToken) (nowMs leaseMs : ℤ)
  | ack (runId : RunId) (token : ClaimToken)
  | release (runId : RunId) (token : ClaimToken) (retryAtMs : ℤ)
  | failclaim (runId : RunId) (token : ClaimToken)
  | renewLease (runId : RunId) (token : ClaimToken) (nowMs extendByMs : ℤ)
  | cancelRun (runId : RunId) (nowMs : ℤ)
  | recoverExpiredLeases (nowMs : ℤ)

namespace StoreCall

abbrev Answer : StoreCall → Type
  | putWorkflow .. | updateWorkflowVersion .. | getWorkflow .. => Except StorageError WorkflowRecord
  | getRun .. => Except StorageError Run
  | getTaskRun .. => Except StorageError TaskRun
  | listTaskRunsForRun .. => Except StorageError (List TaskRun)
  | scanReady .. => Except StorageError (List QueueEntry)
  | cancelRun .. => Except StorageError Bool
  | nextRunNumber .. | recoverExpiredLeases .. => Except StorageError ℕ
  | putRun .. | deleteRun .. | putTaskRun .. | enqueue .. | claim .. | ack .. | release ..
  | failclaim .. | renewLease .. => Except StorageError Unit

def apply (order : IterationOrder QueueEntry) (s : MemoryStore) :
    (call : StoreCall) → call.Answer × MemoryStore
  | putWorkflow d => s.putWorkflow d
  | updateWorkflowVersion tenant name d expectedVersion =>
    s.updateWorkflowVersion tenant name d expectedVersion
  | getWorkflow tenant name => (s.getWorkflow tenant name, s)
  | putRun run => s.putRun run
  | getRun id => (s.getRun id, s)
  | deleteRun id => s.deleteRun id
  | putTaskRun tr => s.putTaskRun tr
  | getTaskRun id => (s.getTaskRun id, s)
  | listTaskRunsForRun runId => (s.listTaskRunsForRun runId, s)
  | nextRunNumber defName => s.nextRunNumber defName
  | enqueue entry => s.enqueue entry
  | scanReady nowMs limit => (s.scanReady order nowMs limit, s)
  | claim runId token nowMs leaseMs => s.claim runId token nowMs leaseMs
  | ack runId token => s.ack runId token
  | release runId token retryAtMs => s.release runId token retryAtMs
  | failclaim runId token => s.failclaim runId token
  | renewLease runId token nowMs extendByMs => s.renewLease runId token nowMs extendByMs
  | cancelRun runId nowMs => s.cancelRun runId nowMs
  | recoverExpiredLeases nowMs => s.recoverExpiredLeases nowMs

end StoreCall

inductive Call
  | store (call : StoreCall)
  | nowMs
  | registryGet (handler : HandlerId)
  | execute (handler : HandlerId) (ctx : TaskContext)
  | newToken
  | submit (job : Job)

/-- What a call is answered with. A handler that panics answers `none`. -/
abbrev Call.Answer : Call → Type
  | store call => call.Answer
  | nowMs => ℤ
  | registryGet _ => Bool
  | execute .. => Option (Except HandlerError HandlerResult)
  | newToken => ClaimToken
  | submit _ => Except SubmitError Unit

/-! ### Worlds -/

/-- A call that was made, with its answer and the store it found. -/
structure Event where
  store : MemoryStore
  call : Call
  answer : call.Answer

/-- The store and the log of all calls so far. -/
structure World where
  store : MemoryStore
  log : List Event

/-- What lies outside the store. Every answer may depend on all calls before. -/
structure Env where
  clock : List Event → ℤ
  registered : List Event → HandlerId → Bool
  execute : List Event → HandlerId → TaskContext → Option (Except HandlerError HandlerResult)
  token : List Event → ClaimToken
  submit : List Event → Job → Except SubmitError Unit
  order : List Event → IterationOrder QueueEntry

def Env.answer (env : Env) (w : World) : (call : Call) → call.Answer × MemoryStore
  | .store call => call.apply (env.order w.log) w.store
  | .nowMs => (env.clock w.log, w.store)
  | .registryGet handler => (env.registered w.log handler, w.store)
  | .execute handler ctx => (env.execute w.log handler ctx, w.store)
  | .newToken => (env.token w.log, w.store)
  | .submit job => (env.submit w.log job, w.store)

def World.after (env : Env) (w : World) (call : Call) : World where
  store := (env.answer w call).2
  log := w.log ++ [⟨w.store, call, (env.answer w call).1⟩]

/-- Answers calls, and keeps the log. -/
def serve (env : Env) : Server Call Call.Answer World :=
  fun call w ↦ ((env.answer w call).1, w.after env call)

/-! ### Programs -/

/-- How a function ends other than by returning a value: with an error of its own, or by a panic.
`exhausted` is the end of a loop that outlives its bound. -/
inductive Abort (ε : Type)
  | error (e : ε)
  | panic
  | exhausted
  deriving DecidableEq

/-- A function of the scheduler with errors `ε`. -/
abbrev Prog (ε α : Type) := CallProgram Call Call.Answer (Abort ε) α

namespace Prog

variable {ε : Type}

def ask (call : Call) : Prog ε call.Answer := CallProgram.request call

def onStore (call : StoreCall) : Prog ε call.Answer := ask (.store call)

/-- Leaves the function with an error. -/
def throw {α : Type} (e : ε) : Prog ε α := .abort (.error e)

/-- Runs a handler; its panic unwinds through the caller. -/
def execute (handler : HandlerId) (ctx : TaskContext) :
    Prog ε (Except HandlerError HandlerResult) := do
  match ← ask (.execute handler ctx) with
  | some result => pure result
  | none => .abort .panic

end Prog

end Runvane.Scheduler
