import Mathlib.Tactic.Common

/-!
# Run and task statuses and their state machines

The labels of `domain/status.rs` and the two transition tables of `state/run_fsm.rs` and
`state/task_fsm.rs`. A table is a predicate on pairs of labels; `validate` turns it into the
result the callers propagate. The run table has no edge out of `succeeded`, `cancelled` and
`timedOut`, and the retry is the one edge out of `failed` that is not a cancellation.
-/

set_option autoImplicit false

namespace Runvane.Domain

inductive RunStatus
  | queued
  | running
  | succeeded
  | failed
  | cancelled
  | timedOut
  deriving DecidableEq, Repr

/-- Lifecycle status of a task within a run. -/
inductive TaskStatus
  | pending
  | running
  | succeeded
  | failed
  | skipped
  deriving DecidableEq, Repr

/-- Failure classification attached to a run error. -/
inductive FailureKind
  | invalidInput
  | rejected
  | transientFailure
  | timeout
  | handlerCrash
  | cancelled
  | exhausted
  deriving DecidableEq, Repr

def FailureKind.retryable : FailureKind → Bool
  | transientFailure | timeout | handlerCrash => true
  | invalidInput | rejected | cancelled | exhausted => false

/-- The transition of a state machine that its table does not have. -/
structure IllegalTransition (label : Type) where
  source : label
  target : label
  deriving DecidableEq, Repr

namespace RunStatus

def isTerminal : RunStatus → Bool
  | succeeded | failed | cancelled | timedOut => true
  | queued | running => false

/-- The wire name, which is also how the status is displayed. -/
def display : RunStatus → String
  | queued => "queued"
  | running => "running"
  | succeeded => "succeeded"
  | failed => "failed"
  | cancelled => "cancelled"
  | timedOut => "timedout"

/-- The variant name, as error texts show it. -/
def debug : RunStatus → String
  | queued => "Queued"
  | running => "Running"
  | succeeded => "Succeeded"
  | failed => "Failed"
  | cancelled => "Cancelled"
  | timedOut => "TimedOut"

end RunStatus

namespace TaskStatus

def isTerminal : TaskStatus → Bool
  | succeeded | failed | skipped => true
  | pending | running => false

/-- The wire name, which is also how the status is displayed. -/
def display : TaskStatus → String
  | pending => "pending"
  | running => "running"
  | succeeded => "succeeded"
  | failed => "failed"
  | skipped => "skipped"

end TaskStatus

namespace RunFsm

def canTransition : RunStatus → RunStatus → Bool
  | .queued, .running => true
  | .queued, .cancelled => true
  | .running, .succeeded => true
  | .running, .failed => true
  | .running, .cancelled => true
  | .running, .timedOut => true
  | .failed, .queued => true
  | .failed, .cancelled => true
  | _, _ => false

def isLegal (source target : RunStatus) : Bool := canTransition source target

def validate (source target : RunStatus) : Except (IllegalTransition RunStatus) Unit :=
  if isLegal source target then .ok () else .error ⟨source, target⟩

def illegalText (e : IllegalTransition RunStatus) : String :=
  s!"illegal state transition {e.source.debug} -> {e.target.debug}"

end RunFsm

namespace TaskFsm

def canTransition : TaskStatus → TaskStatus → Bool
  | .pending, .running => true
  | .pending, .failed => true
  | .pending, .skipped => true
  | .running, .succeeded => true
  | .running, .failed => true
  | .failed, .running => true
  | _, _ => false

def isLegal (source target : TaskStatus) : Bool := canTransition source target

end TaskFsm

end Runvane.Domain
