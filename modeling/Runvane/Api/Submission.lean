import Runvane.Domain.Validation
import Runvane.Scheduler.Footprint

/-!
# The submission of runs

`submit_run` of `api/server.rs` and of `api/grpc.rs`. Both load the definition, validate the input,
number the run, store it as queued and then put it into the queue; they differ in the form of the
request, and in that the second parses the tags only after the run has its number. Metrics, audit
records and the rendering of answers and errors are left out.

The id of a run comes from a random uuid, whose bytes are an argument here. The parsers of JSON and
the printer of floats are libraries of the code's and stay parameters (`JsonLibrary`).

What a submission stores is a queued run without a deadline (`SubmitCall`).
-/

set_option autoImplicit false

namespace Runvane.Api

open Library Domain Persistence Scheduler Prog
open CallProgram (keeps_bind)

/-! ### Requests -/

/-- What the code uses of its JSON library; a parser fails with a text. -/
structure JsonLibrary where
  floatText : F64 → String
  parseValue : List UInt8 → Except String Json
  parseStrings : List UInt8 → Except String (List (String × String))

/-- The body of a submission over HTTP. -/
structure SubmitRunRequest where
  input : Option Json
  tags : Option (List (String × String))

/-- A submission over gRPC. -/
structure GrpcSubmitRunRequest where
  tenant : String
  name : String
  inputJson : List UInt8
  tagsJson : List UInt8

inductive ApiError
  | domain (e : DomainError)
  | id (e : IdError)
  | storage (e : StorageError)
  | invalidArgument (message : String)
  | conflict (message : String)
  | illegalTransition (e : IllegalTransition RunStatus)
  deriving DecidableEq

/-- Goes on with a result, or leaves with its error. -/
def orThrow {ε ε' α : Type} (wrap : ε' → ε) : Except ε' α → Prog ε α
  | .ok value => pure value
  | .error e => throw (wrap e)

/-- A JSON field of a request; an empty one is null. -/
def parseJson (lib : JsonLibrary) (field : String) (bytes : List UInt8) : Except ApiError Json :=
  if bytes.isEmpty then .ok .null
  else (lib.parseValue bytes).mapError fun e ↦
    .invalidArgument s!"{field} is not valid JSON: {e}"

/-- The tags of a request; an empty field has none. -/
def parseTags (lib : JsonLibrary) (field : String) (bytes : List UInt8) :
    Except ApiError (List (String × String)) :=
  if bytes.isEmpty then .ok []
  else (lib.parseStrings bytes).mapError fun e ↦
    .invalidArgument s!"{field} is not an object of strings: {e}"

/-- An input that is null stands for one without fields. -/
def orEmptyObject : Json → Json
  | .null => .object []
  | input => input

/-! ### Submission -/

def submittedRun (tenant name : String) (record : WorkflowRecord) (input : Json)
    (tags : List (String × String)) (nowMs : ℤ) (runNumber : ℕ) (uuid : List UInt8) : Run where
  id := ⟨generateId .run uuid⟩
  tenant := tenant
  defName := name
  defVersion := record.definition.version
  input := input
  status := .queued
  attempts := 0
  nextAttemptAtMs := none
  deadlineAtMs := none
  startedAtMs := none
  finishedAtMs := none
  error := none
  output := none
  tags := tags
  createdAtMs := nowMs
  runNumber := runNumber

def dueEntry (runId : RunId) (nowMs : ℤ) : QueueEntry where
  runId := runId
  token := .empty
  dueAtMs := nowMs
  leaseUntilMs := none
  claimedBy := none

def persistSubmission (run : Run) (nowMs : ℤ) : Prog ApiError Run := do
  orThrow .storage (← onStore (.putRun run))
  orThrow .storage (← onStore (.enqueue (dueEntry run.id nowMs)))
  pure run

/-- The part of a submission that both forms share: the input is validated and the run numbered,
stored and queued. The tags are computed after the run has its number. -/
def submit (lib : JsonLibrary) (tenant name : String) (record : WorkflowRecord) (input : Json)
    (tags : Except ApiError (List (String × String))) (uuid : List UInt8) : Prog ApiError Run := do
  orThrow .domain (validateRunInput lib.floatText input)
  let nowMs ← ask .nowMs
  let runNumber ← orThrow .storage (← onStore (.nextRunNumber name))
  let tags ← orThrow (fun e ↦ e) tags
  persistSubmission (submittedRun tenant name record input tags nowMs runNumber uuid) nowMs

/-- `POST /v1/workflows/:tenant/:name/runs`. -/
def submitRun (lib : JsonLibrary) (tenant name : String) (body : SubmitRunRequest)
    (uuid : List UInt8) : Prog ApiError Run := do
  let record ← orThrow .storage (← onStore (.getWorkflow tenant name))
  submit lib tenant name record (body.input.getD (.object [])) (.ok (body.tags.getD [])) uuid

/-- The gRPC method for the same. -/
def grpcSubmitRun (lib : JsonLibrary) (req : GrpcSubmitRunRequest) (uuid : List UInt8) :
    Prog ApiError Run := do
  let record ← orThrow .storage (← onStore (.getWorkflow req.tenant req.name))
  let input ← orThrow (fun e ↦ e) (parseJson lib "input" req.inputJson)
  submit lib req.tenant req.name record (orEmptyObject input) (parseTags lib "tags" req.tagsJson)
    uuid

/-- A submission in either form. -/
inductive Submission
  | http (tenant name : String) (body : SubmitRunRequest)
  | grpc (req : GrpcSubmitRunRequest)

def Submission.program (lib : JsonLibrary) (uuid : List UInt8) : Submission → Prog ApiError Run
  | .http tenant name body => submitRun lib tenant name body uuid
  | .grpc req => grpcSubmitRun lib req uuid

/-! ### What a submission calls -/

def SubmitCall (uuid : List UInt8) : Call → Prop
  | .store (.getWorkflow ..) | .nowMs | .store (.nextRunNumber _) => True
  | .store (.putRun run) => ∃ tenant name record input tags nowMs runNumber,
      run = submittedRun tenant name record input tags nowMs runNumber uuid
  | .store (.enqueue entry) => entry.runId = ⟨generateId .run uuid⟩ ∧ entry.leaseUntilMs = none
  | _ => False

section Contracts

variable {expected : (call : Call) → call.Answer → Prop} {allowed : Call → Prop}

theorem meets_orThrow {ε ε' α : Type} (wrap : ε' → ε) (result : Except ε' α) {post : α → Prop}
    (h : ∀ value, result = .ok value → post value) :
    (orThrow wrap result).Meets expected allowed post := by
  cases result with
  | ok value => exact h value rfl
  | error e => trivial

variable (lib : JsonLibrary) (uuid : List UInt8)

theorem meets_persistSubmission {run : Run} (nowMs : ℤ)
    (hrun : SubmitCall uuid (.store (.putRun run))) :
    (persistSubmission run nowMs).Meets expected (SubmitCall uuid) fun _ ↦ True := by
  have hid : run.id = ⟨generateId .run uuid⟩ := by
    obtain ⟨tenant, name, record, input, tags, now, number, rfl⟩ := hrun
    rfl
  refine keeps_bind (meets_ask hrun fun _ _ ↦ trivial) fun answer _ ↦ ?_
  refine keeps_bind (meets_orThrow _ _ fun _ _ ↦ trivial) fun _ _ ↦ ?_
  refine keeps_bind (meets_ask ⟨hid, rfl⟩ fun _ _ ↦ trivial) fun answer _ ↦ ?_
  exact keeps_bind (meets_orThrow _ _ fun _ _ ↦ trivial) fun _ _ ↦ trivial

theorem meets_submit (tenant name : String) (record : WorkflowRecord) (input : Json)
    (tags : Except ApiError (List (String × String))) :
    (submit lib tenant name record input tags uuid).Meets expected (SubmitCall uuid)
      fun _ ↦ True := by
  refine keeps_bind (meets_orThrow _ _ fun _ _ ↦ trivial) fun _ _ ↦ ?_
  refine keeps_bind (meets_ask trivial fun _ _ ↦ trivial) fun nowMs _ ↦ ?_
  refine keeps_bind (meets_ask trivial fun _ _ ↦ trivial) fun answer _ ↦ ?_
  refine keeps_bind (meets_orThrow _ _ fun _ _ ↦ trivial) fun number _ ↦ ?_
  refine keeps_bind (meets_orThrow _ _ fun _ _ ↦ trivial) fun tags _ ↦ ?_
  exact meets_persistSubmission uuid nowMs ⟨tenant, name, record, input, tags, nowMs, number, rfl⟩

theorem meets_submission (request : Submission) :
    (request.program lib uuid).Meets expected (SubmitCall uuid) fun _ ↦ True := by
  cases request with
  | http tenant name body =>
    refine keeps_bind (meets_ask trivial fun _ _ ↦ trivial) fun answer _ ↦ ?_
    refine keeps_bind (meets_orThrow _ _ fun _ _ ↦ trivial) fun record _ ↦ ?_
    exact meets_submit lib uuid ..
  | grpc req =>
    refine keeps_bind (meets_ask trivial fun _ _ ↦ trivial) fun answer _ ↦ ?_
    refine keeps_bind (meets_orThrow _ _ fun _ _ ↦ trivial) fun record _ ↦ ?_
    refine keeps_bind (meets_orThrow _ _ fun _ _ ↦ trivial) fun input _ ↦ ?_
    exact meets_submit lib uuid ..

end Contracts

end Runvane.Api
