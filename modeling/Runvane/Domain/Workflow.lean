import Runvane.Domain.Ids
import Runvane.Domain.Status

/-!
# Workflow definitions, retry policies and run records

The records of `domain/workflow.rs`, `domain/retry_policy.rs` and `domain/run.rs`. Fields no
modelled function reads are left out: of a definition its surrogate id, default priority, tags and
timestamps, of a task its free-form metadata.

A multiplier is a 64-bit float. Its value is an exact rational, an infinity or not a number
(`F64`), which is all that validation looks at; the rounding of float operations enters where
delays are computed.
-/

set_option autoImplicit false

namespace Runvane.Domain

/-- The value of a 64-bit float, the sign of zero aside. -/
inductive F64
  | nan
  | inf (negative : Bool)
  | finite (value : ℚ)
  deriving DecidableEq

namespace F64

def isFinite : F64 → Bool
  | finite _ => true
  | _ => false

/-- The comparison `<` of floats, false as soon as one side is not a number. -/
def lt : F64 → F64 → Bool
  | nan, _ => false
  | _, nan => false
  | inf true, inf negative => !negative
  | inf true, finite _ => true
  | inf false, _ => false
  | finite _, inf negative => !negative
  | finite a, finite b => a < b

/-- The comparison `<=` of floats. -/
def le (a b : F64) : Bool := lt a b || (a == b && a != nan)

end F64

/-- A number of a JSON document: an integer, or a float. -/
inductive JsonNumber
  | int (value : ℤ)
  | float (value : F64)
  deriving DecidableEq

/-- A JSON document. The fields of an object are kept in the order of their keys. -/
inductive Json
  | null
  | bool (value : Bool)
  | number (value : JsonNumber)
  | string (value : String)
  | array (items : List Json)
  | object (fields : List (String × Json))

/-- Handler symbol, such as `runvane.echo`. -/
structure HandlerId where
  text : String
  deriving DecidableEq, Repr

/-! ### Retry policies -/

/-- The shape of the delay curve between attempts. -/
inductive BackoffKind
  | fixed
  | linear
  | exponential
  deriving DecidableEq, Repr

/-- How much randomness is mixed into the computed delay. -/
inductive JitterKind
  | none
  | full
  | equal
  deriving DecidableEq, Repr

/-- Maximum number of attempts a policy may request. -/
def maxAttemptsLimit : ℕ := 100

/-- Upper bound of a single backoff delay, in milliseconds. -/
def maxBackoffMs : ℕ := 86400000

/-- The retry configuration of a run or a task. -/
structure RetryPolicy where
  maxAttempts : ℕ := 3
  baseDelayMs : ℕ := 1000
  maxDelayMs : ℕ := 60000
  multiplier : F64 := .finite 2
  backoff : BackoffKind := .exponential
  jitter : JitterKind := .full
  retryableOnly : Bool := false
  deriving DecidableEq

/-- Problems discovered while validating a policy. -/
inductive PolicyError
  | badAttempts (attempts : ℕ)
  | zeroBaseDelay (delay : ℕ)
  | maxBelowBase (max base : ℕ)
  | badMultiplier (multiplier : F64)
  | delayOverCeiling (delay : ℕ)
  deriving DecidableEq

namespace RetryPolicy

def fixed (attempts delayMs : ℕ) : RetryPolicy where
  maxAttempts := attempts
  baseDelayMs := delayMs
  maxDelayMs := delayMs
  multiplier := .finite 1
  backoff := .fixed
  jitter := .none

/-- Validates every field, returning the first problem found. -/
def validate (p : RetryPolicy) : Except PolicyError Unit :=
  if p.maxAttempts = 0 ∨ maxAttemptsLimit < p.maxAttempts then .error (.badAttempts p.maxAttempts)
  else if p.baseDelayMs = 0 then .error (.zeroBaseDelay p.baseDelayMs)
  else if p.maxDelayMs < p.baseDelayMs then .error (.maxBelowBase p.maxDelayMs p.baseDelayMs)
  else if maxBackoffMs < p.maxDelayMs then .error (.delayOverCeiling p.maxDelayMs)
  else if !p.multiplier.isFinite || p.multiplier.lt (.finite 1) then
    .error (.badMultiplier p.multiplier)
  else .ok ()

/-- Whether the policy permits another attempt after `attemptsConsumed` ones. -/
def allowsAttempt (p : RetryPolicy) (attemptsConsumed : ℕ) : Bool :=
  attemptsConsumed < p.maxAttempts

/-- What an accepted policy promises of its counters and delays. -/
theorem bounds_of_validate {p : RetryPolicy} (h : p.validate = .ok ()) :
    (0 < p.maxAttempts ∧ p.maxAttempts ≤ maxAttemptsLimit) ∧
      0 < p.baseDelayMs ∧ p.baseDelayMs ≤ p.maxDelayMs ∧ p.maxDelayMs ≤ maxBackoffMs := by
  unfold validate at h
  split_ifs at h with hattempts hbase hmax hceiling
  omega

end RetryPolicy

/-! ### Definitions -/

/-- A single delivery endpoint. -/
structure HookSpec where
  webhookUrl : Option String := none
  eventFilter : Option String := none
  headers : List (String × String) := []

/-- Completion hooks attached to a definition. -/
structure Hooks where
  onStart : List HookSpec := []
  onSuccess : List HookSpec := []
  onFailure : List HookSpec := []
  onCancel : List HookSpec := []

/-- Every hook regardless of its trigger. -/
def Hooks.all (hooks : Hooks) : List HookSpec :=
  hooks.onStart ++ hooks.onSuccess ++ hooks.onFailure ++ hooks.onCancel

/-- Specification of a single task inside a workflow. -/
structure TaskSpec where
  name : String
  handler : HandlerId
  input : Json := .null
  dependsOn : List String := []
  timeoutMs : Option ℕ := none
  retry : Option RetryPolicy := none

def TaskSpec.effectiveRetry (task : TaskSpec) (workflowDefault : RetryPolicy) : RetryPolicy :=
  task.retry.getD workflowDefault

/-- Maximum length of a task name, in bytes. -/
def maxTaskNameLen : ℕ := 64

/-- Maximum number of tasks in a workflow. -/
def maxTasks : ℕ := 256

structure WorkflowDef where
  tenant : String
  name : String
  version : ℕ := 1
  description : String := ""
  tasks : List TaskSpec
  timeoutMs : ℕ := 3600000
  retry : RetryPolicy := {}
  hooks : Hooks := {}

def WorkflowDef.names (d : WorkflowDef) : List String := d.tasks.map TaskSpec.name

/-- The retry policy of a named task: its own, or the workflow's when it has none. -/
def WorkflowDef.policyOf (d : WorkflowDef) (name : String) : RetryPolicy :=
  match d.tasks.find? (·.name = name) with
  | some task => task.effectiveRetry d.retry
  | none => d.retry

/-- The task named `t` lists `dep` among its dependencies. -/
def WorkflowDef.DependsOn (d : WorkflowDef) (t dep : String) : Prop :=
  ∃ task ∈ d.tasks, task.name = t ∧ dep ∈ task.dependsOn

/-! ### Runs and task runs -/

/-- Structured error detail of a failed or timed-out run. -/
structure RunError where
  message : String
  kind : FailureKind
  task : Option String
  depth : ℕ
  attempts : ℕ
  deriving DecidableEq, Repr

/-- One submitted execution of a workflow definition. -/
structure Run where
  id : RunId
  tenant : String
  defName : String
  defVersion : ℕ := 1
  input : Json := .null
  status : RunStatus := .queued
  attempts : ℕ := 0
  nextAttemptAtMs : Option ℤ := none
  deadlineAtMs : Option ℤ := none
  startedAtMs : Option ℤ := none
  finishedAtMs : Option ℤ := none
  error : Option RunError := none
  output : Option Json := none
  tags : List (String × String) := []
  createdAtMs : ℤ := 0
  runNumber : ℕ := 0

def Run.isTerminal (run : Run) : Bool := run.status.isTerminal

structure TaskRun where
  id : TaskRunId
  runId : RunId
  taskName : String
  status : TaskStatus := .pending
  attempts : ℕ := 0
  lastError : Option String := none
  startedAtMs : Option ℤ := none
  finishedAtMs : Option ℤ := none
  output : Option Json := none

end Runvane.Domain
