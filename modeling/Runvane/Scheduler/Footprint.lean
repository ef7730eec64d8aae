import Runvane.Library.Contracts
import Runvane.Scheduler.Pool

/-!
# What the scheduler calls

The calls that the functions of the scheduler make, in relation to what they were answered before. A
wave works on the task records of its run, the lease, the registry and the handlers, and passes a
handler what the definition says (`WaveCall`). What comes after the waves invokes no handler any
more and writes the run, as one of the few records an attempt makes of the run it has read
(`DecisionCall`, `RunWrite`). An attempt that is late only writes the run (`LateCall`). A round of
the dispatcher writes runs as running and nothing else (`DispatchCall`). Every function is walked
through once, for arbitrary expectations on the answers. Those that only read (`ReadCall`) do not
leave early either.

An outcome tells the worker to acknowledge its entry only after the run was written with a terminal
status, or found cancelled (`AcksSettled`), and so does the worker (`WorkCall`).

The second part reads off these contracts which calls are made at all, whatever the answers
(`Call.InWave`, `Call.Deciding`, `Call.Attempting`, `Call.Working`, `Call.Dispatching`).
-/

set_option autoImplicit false

namespace Runvane.Scheduler

open Library Domain Persistence Prog
open CallProgram (Meets Returns keeps_bind keeps_mono keeps_foldlM meets_reify meets_iterate
  calls_of_meets)

/-! ### Contracts -/

def ReadCall (r : RunId) : Call → Prop
  | .store (.getTaskRun id) => ∃ t, id = taskRunId r t
  | .store (.listTaskRunsForRun id) => id = r
  | .nowMs => True
  | _ => False

inductive BeatCall (r : RunId) (token : Option ClaimToken) (leaseMs : ℤ) : Call → Prop
  | now : BeatCall r token leaseMs .nowMs
  | renew (holder : ClaimToken) (h : token = some holder) (nowMs : ℤ) :
      BeatCall r token leaseMs (.store (.renewLease r holder nowMs leaseMs))

/-- The record that `loadTask` makes of an answer of the store. -/
def recordOf (r : RunId) (t : String) : Except StorageError TaskRun → TaskRun
  | .ok tr => tr
  | .error _ => { id := taskRunId r t, runId := r, taskName := t }

section Contracts

variable (expected : (call : Call) → call.Answer → Prop)

/-- A record that `loadTask` returns: the answer of the store, or a pending one in its place. -/
def Loaded (r : RunId) (t : String) (tr : TaskRun) : Prop :=
  expected (.store (.getTaskRun (taskRunId r t))) (.ok tr) ∨
    tr = { id := taskRunId r t, runId := r, taskName := t }

/-- The calls on the task records of a run, and the clock. A task run is written over the record
that was loaded for it. -/
def RecordCall (r : RunId) : Call → Prop
  | .store (.getTaskRun id) => ∃ t, id = taskRunId r t
  | .store (.putTaskRun tr) => ∃ t old, Loaded expected r t old ∧
      tr.id = old.id ∧ tr.runId = old.runId ∧ tr.taskName = old.taskName
  | .store (.listTaskRunsForRun id) => id = r
  | .nowMs => True
  | _ => False

def WaveCall (run : Run) (d : WorkflowDef) (token : Option ClaimToken) (leaseMs : ℤ)
    (call : Call) : Prop :=
  RecordCall expected run.id call ∨ match call with
    | .store (.renewLease id holder _ extendByMs) =>
      id = run.id ∧ token = some holder ∧ extendByMs = leaseMs
    | .registryGet _ => True
    | .execute handler ctx => ∃ task ∈ d.tasks, handler = task.handler ∧ ctx.taskName = task.name ∧
        ctx.input = task.input ∧ ctx.runId = run.id ∧ ctx.tenant = run.tenant ∧
        ctx.defName = run.defName
    | _ => False

/-- What an attempt writes in place of the run it has read. -/
inductive RunWrite (run : Run) : Run → Prop
  | succeeded (nowMs : ℤ) :
      RunWrite run { run with status := .succeeded, finishedAtMs := some nowMs, error := none }
  | retried (delayMs : ℤ) :
      RunWrite run { run with
        attempts := u32Succ run.attempts, status := .queued, nextAttemptAtMs := some delayMs
        error := none }
  | failed (nowMs : ℤ) (error : RunError) :
      RunWrite run { run with status := .failed, finishedAtMs := some nowMs, error := some error }
  | timedOut (nowMs : ℤ) (error : RunError) :
      RunWrite run { run with status := .timedOut, finishedAtMs := some nowMs, error := some error }

def VerdictCall (run : Run) (call : Call) : Prop :=
  ReadCall run.id call ∨ match call with
    | .store (.putRun written) => RunWrite run written ∧ written.status ≠ .timedOut
    | _ => False

/-- The calls with which an attempt that has come to the end of its waves decides where the run
goes. -/
def DecisionCall (run : Run) (call : Call) : Prop :=
  RecordCall expected run.id call ∨ match call with
    | .store (.putRun written) => RunWrite run written ∧ written.status ≠ .timedOut
    | _ => False

/-- The calls of an attempt that is within the deadline of its run. -/
def TimelyCall (run : Run) (d : WorkflowDef) (token : Option ClaimToken) (leaseMs : ℤ)
    (call : Call) : Prop :=
  WaveCall expected run d token leaseMs call ∨ DecisionCall expected run call ∨
    call = .store (.getRun run.id)

def LateCall (run : Run) (call : Call) : Prop :=
  call = .nowMs ∨ ∃ nowMs error, call = .store (.putRun { run with
    status := .timedOut, finishedAtMs := some nowMs, error := some error })

/-- The calls of an attempt that has read its run and the definition. -/
def CourseCall (run : Run) (d : WorkflowDef) (token : Option ClaimToken) (leaseMs : ℤ)
    (call : Call) : Prop :=
  TimelyCall expected run d token leaseMs call ∨ LateCall run call

def AttemptCall (r : RunId) (token : Option ClaimToken) (leaseMs : ℤ) (call : Call) : Prop :=
  call = .store (.getRun r) ∨ ∃ run, expected (.store (.getRun r)) (.ok run) ∧
    (call = .store (.getWorkflow run.tenant run.defName) ∨ run.status = .running ∧ ∃ record,
      expected (.store (.getWorkflow run.tenant run.defName)) (.ok record) ∧
        CourseCall expected run record.definition token leaseMs call)

/-- The calls of a round of the dispatcher. Claims are made for one length, and a run is written as
running that was read as queued. -/
def DispatchCall (claimMs : ℤ) : Call → Prop
  | .nowMs | .newToken | .submit _ | .store (.scanReady ..) | .store (.getRun _)
  | .store (.failclaim ..) => True
  | .store (.claim _ _ _ leaseMs) => leaseMs = claimMs
  | .store (.putRun written) => ∃ r run nowMs, expected (.store (.getRun r)) (.ok run) ∧
      run.status = .queued ∧ written = { run with status := .running, startedAtMs := some nowMs }
  | _ => False

/-- The ids under which an attempt looks its run up: the one it is given, and the one the record it
then reads has. -/
def LooksUp (r id : RunId) : Prop :=
  id = r ∨ ∃ run, expected (.store (.getRun r)) (.ok run) ∧ id = run.id

/-- The run was written with a terminal status, or found cancelled under one of the ids. -/
def Settled (ids : RunId → Prop) : Prop :=
  (∃ written : Run, written.isTerminal = true ∧ expected (.store (.putRun written)) (.ok ())) ∨
    ∃ id run, ids id ∧ run.status = .cancelled ∧ expected (.store (.getRun id)) (.ok run)

/-- When the entry is to be acknowledged, the run was settled before. -/
def AcksSettled (ids : RunId → Prop) (outcome : AttemptOutcome) : Prop :=
  outcome.action = .ack → Settled expected ids

/-- The calls of a worker on its job. The entry is acknowledged only after the run was settled. -/
def WorkCall (job : Job) (call : Call) : Prop :=
  AttemptCall expected job.runId (some job.token) 60000 call ∨ match call with
    | .store (.ack id token) => id = job.runId ∧ token = job.token ∧
        Settled expected (LooksUp expected job.runId)
    | .store (.release id token _) => id = job.runId ∧ token = job.token
    | .nowMs => True
    | _ => False

end Contracts

/-! ### Waves -/

variable {allowed : Call → Prop} {r : RunId} {written : Run}

section Waves

variable {expected : (call : Call) → call.Answer → Prop} {ε : Type}

theorem meets_ask {call : Call} {post : call.Answer → Prop} (h : allowed call)
    (hpost : ∀ answer, expected call answer → post answer) :
    (ask call : Prog ε call.Answer).Meets expected allowed post :=
  ⟨h, hpost⟩

theorem meets_now (h : allowed .nowMs) :
    (ask .nowMs : Prog ε ℤ).Meets expected allowed fun _ ↦ True :=
  meets_ask h fun _ _ ↦ trivial

theorem ReadCall.record {call : Call} (h : ReadCall r call) : RecordCall expected r call := by
  cases call with
  | store call => cases call <;> first | exact h | exact h.elim
  | nowMs => trivial
  | _ => exact h.elim

/-- What only reads is all right where records are read and written. -/
theorem meets_of_reads {α : Type} {p : Prog ε α} {post : α → Prop}
    (h : p.Returns (fun _ _ ↦ True) (ReadCall r) post) :
    p.Meets expected (RecordCall expected r) fun _ ↦ True :=
  h.meets.within fun _ ↦ ReadCall.record

theorem returns_loadTask (r : RunId) (t : String) :
    (loadTask r t : Prog ε TaskRun).Returns expected (ReadCall r) fun tr ↦
      ∃ answer, expected (.store (.getTaskRun (taskRunId r t))) answer ∧
        tr = recordOf r t answer := by
  refine ⟨⟨t, rfl⟩, fun answer hanswer ↦ ?_⟩
  cases answer <;> exact ⟨_, hanswer, rfl⟩

theorem returns_loadedStates (r : RunId) (d : WorkflowDef) :
    (loadedStates r d : Prog ε StatusMap).Returns expected (ReadCall r) fun _ ↦ True :=
  ⟨rfl, fun _ _ ↦ trivial⟩

theorem returns_mayDispatch (r : RunId) (d : WorkflowDef) (p : Progress) (t : String) :
    (mayDispatch r d p t : Prog ε Bool).Returns expected (ReadCall r) fun _ ↦ True := by
  unfold mayDispatch
  split_ifs
  · trivial
  · trivial
  · exact keeps_bind (returns_loadTask r t) fun _ _ ↦ trivial

theorem returns_nextWave (r : RunId) (d : WorkflowDef) (p : Progress) :
    (nextWave r d p : Prog ε (List String)).Returns expected (ReadCall r) fun _ ↦ True := by
  refine keeps_foldlM (fun _ _ ↦ True) (fun t _ wave _ ↦ ?_) _ _ trivial
  refine keeps_bind (returns_mayDispatch r d p t) fun picked _ ↦ ?_
  split_ifs <;> trivial

theorem returns_heartbeat (r : RunId) (token : Option ClaimToken) (leaseMs : ℤ) :
    (heartbeat r token leaseMs : Prog ε Unit).Returns expected (BeatCall r token leaseMs)
      fun _ ↦ True := by
  cases token with
  | none => trivial
  | some holder => exact ⟨.now, fun now _ ↦ ⟨.renew holder rfl now, fun _ _ ↦ trivial⟩⟩

theorem returns_failureReason (r : RunId) (names : List String) :
    (failureReason r names : Prog ε String).Returns expected (ReadCall r) fun _ ↦ True := by
  cases names with
  | nil => trivial
  | cons t names => exact keeps_bind (returns_loadTask r t) fun _ _ ↦ trivial

theorem returns_budgetsLeft (r : RunId) (d : WorkflowDef) (names : List String) :
    (budgetsLeft r d names : Prog ε Bool).Returns expected (ReadCall r) fun _ ↦ True := by
  induction names with
  | nil => trivial
  | cons t names ih =>
    refine keeps_bind (returns_loadTask r t) fun tr _ ↦ ?_
    split_ifs
    · exact ih
    · trivial

theorem returns_deadlinePassed (run : Run) :
    (deadlinePassed run : Prog ε Bool).Returns expected (ReadCall run.id) fun _ ↦ True := by
  unfold deadlinePassed
  split
  · exact ⟨trivial, fun _ _ ↦ trivial⟩
  · trivial

theorem meets_loadTask (r : RunId) (t : String) :
    (loadTask r t : Prog ε TaskRun).Meets expected (RecordCall expected r)
      (Loaded expected r t) := by
  refine ⟨⟨t, rfl⟩, fun answer hanswer ↦ ?_⟩
  cases answer with
  | ok tr => exact .inl hanswer
  | error e => exact .inr rfl

theorem meets_storeTaskRun {t : String} {old tr : TaskRun} (hold : Loaded expected r t old)
    (hid : tr.id = old.id) (hrun : tr.runId = old.runId) (hname : tr.taskName = old.taskName) :
    (storeTaskRun tr).Meets expected (RecordCall expected r) fun _ ↦ True := by
  refine ⟨⟨t, old, hold, hid, hrun, hname⟩, fun answer _ ↦ ?_⟩
  cases answer <;> trivial

theorem meets_settleTask (r : RunId) (t : String) (target : TaskStatus) (label : String)
    {record : TaskRun → TaskRun} (hrecord : ∀ tr, (record tr).id = tr.id ∧
      (record tr).runId = tr.runId ∧ (record tr).taskName = tr.taskName) :
    (settleTask r t target label record).Meets expected (RecordCall expected r) fun _ ↦ True := by
  refine keeps_bind (meets_loadTask r t) fun tr htr ↦ ?_
  split_ifs
  · trivial
  · refine keeps_bind (meets_now trivial) fun now _ ↦ ?_
    obtain ⟨hid, hrun, hname⟩ := hrecord { tr with status := target, finishedAtMs := some now }
    exact meets_storeTaskRun htr hid hrun hname

variable (run : Run) (d : WorkflowDef) (token : Option ClaimToken) (leaseMs : ℤ)

theorem meets_heartbeat :
    (heartbeat run.id token leaseMs : Prog ε Unit).Meets expected
      (WaveCall expected run d token leaseMs) fun _ ↦ True := by
  refine (returns_heartbeat run.id token leaseMs).meets.within fun call hcall ↦ ?_
  cases hcall with
  | now => exact .inl trivial
  | renew holder hholder nowMs => exact .inr ⟨rfl, hholder, rfl⟩

theorem meets_runHandler {task : TaskSpec} (htask : task ∈ d.tasks) (attempt : ℕ) :
    (runHandler task.handler task.name
      { tenant := run.tenant, defName := run.defName, runId := run.id, taskName := task.name
        input := task.input, attempt := attempt } : Prog ε _).Meets expected
      (WaveCall expected run d token leaseMs) fun _ ↦ True := by
  refine ⟨.inr trivial, fun registered _ ↦ ?_⟩
  cases registered with
  | false => trivial
  | true =>
    refine ⟨.inr ⟨task, htask, rfl, rfl, rfl, rfl, rfl, rfl⟩, fun answer _ ↦ ?_⟩
    cases answer <;> trivial

theorem meets_runTask (states : StatusMap) (t : String) :
    (runTask run d token leaseMs states t).Meets expected (WaveCall expected run d token leaseMs)
      fun _ ↦ True := by
  unfold runTask
  cases hfind : d.tasks.find? (·.name = t) with
  | none => trivial
  | some task =>
    have htask : task ∈ d.tasks := List.mem_of_find?_eq_some hfind
    obtain rfl : task.name = t := by simpa using List.find?_some hfind
    refine keeps_bind (meets_heartbeat run d token leaseMs) fun _ _ ↦ ?_
    refine keeps_bind ((meets_loadTask run.id task.name).within fun _ ↦ .inl) fun tr htr ↦ ?_
    refine keeps_bind (meets_now (.inl trivial)) fun now _ ↦ ?_
    refine keeps_bind (keeps_mono (fun _ ↦ .inl) (fun _ h ↦ h)
      (meets_storeTaskRun htr rfl rfl rfl)) fun _ _ ↦ ?_
    refine keeps_bind (meets_runHandler run d token leaseMs htask _) fun result _ ↦ ?_
    have hsettle (target : TaskStatus) (label : String) {record : TaskRun → TaskRun}
        (hrecord : ∀ tr, (record tr).id = tr.id ∧ (record tr).runId = tr.runId ∧
          (record tr).taskName = tr.taskName) :
        (settleTask run.id task.name target label record).Meets expected
          (WaveCall expected run d token leaseMs) fun _ ↦ True :=
      (meets_settleTask _ _ _ _ hrecord).within fun _ ↦ .inl
    cases result with
    | ok result => exact keeps_bind (hsettle _ _ fun _ ↦ ⟨rfl, rfl, rfl⟩) fun _ _ ↦ trivial
    | error e => exact keeps_bind (hsettle _ _ fun _ ↦ ⟨rfl, rfl, rfl⟩) fun _ _ ↦ trivial

/-- The part of a turn after the look at the run. It does not end the loop as cancelled. -/
theorem meets_dispatch (p : Progress) :
    (turn.dispatch run d token leaseMs p).Meets expected (WaveCall expected run d token leaseMs)
      fun result ↦ ∀ outcome, result ≠ .inr (.cancelled outcome) := by
  refine keeps_bind ((meets_of_reads (returns_nextWave run.id d p)).within fun _ ↦ .inl)
    fun wave _ ↦ ?_
  split_ifs
  · exact fun outcome h ↦ by cases h
  · refine keeps_bind (keeps_foldlM (fun _ _ ↦ True) (fun t _ p _ ↦ ?_) _ p trivial)
      fun p' _ outcome h ↦ by cases h
    exact keeps_bind (meets_runTask run d token leaseMs p.states t) fun _ _ ↦ trivial

end Waves

/-! ### The decision -/

section Decision

variable {expected : (call : Call) → call.Answer → Prop} {ε : Type}

theorem meets_persistSkipped (r : RunId) (states collapsed : StatusMap) :
    (persistSkipped r states collapsed).Meets expected (RecordCall expected r) fun _ ↦ True := by
  refine keeps_foldlM (fun _ _ ↦ True) (fun entry _ _ _ ↦ ?_) _ _ trivial
  split_ifs
  · refine keeps_bind (meets_loadTask r entry.1) fun tr htr ↦ ?_
    refine keeps_bind (meets_now trivial) fun now _ ↦ ?_
    exact meets_storeTaskRun htr rfl rfl rfl
  · trivial

theorem meets_validateRun (allowed : Call → Prop) (source target : RunStatus) :
    (validateRun source target).Meets expected allowed fun _ ↦ True := by
  unfold validateRun
  split <;> trivial

/-- The run is written, and the store is expected to have answered when the attempt goes on. -/
theorem meets_storeRun (h : allowed (.store (.putRun written))) :
    (storeRun written).Meets expected allowed
      fun _ ↦ expected (.store (.putRun written)) (.ok ()) := by
  refine ⟨h, fun answer hanswer ↦ ?_⟩
  cases answer with
  | ok => exact hanswer
  | error e => trivial

theorem meets_finishSucceeded (run : Run) (ids : RunId → Prop) :
    (finishSucceeded run).Meets expected (VerdictCall run) (AcksSettled expected ids) := by
  refine keeps_bind (meets_validateRun ..) fun _ _ ↦ ?_
  refine keeps_bind (meets_now (.inl trivial)) fun now _ ↦ ?_
  exact keeps_bind (meets_storeRun (.inr ⟨.succeeded now, nofun⟩)) fun _ hstored _ ↦
    .inl ⟨_, rfl, hstored⟩

theorem meets_finishRetry (ex : RunExecutor) (run : Run) (d : WorkflowDef) (failing : List String)
    (ids : RunId → Prop) : (finishRetry ex run d failing).Meets expected (VerdictCall run)
      (AcksSettled expected ids) := by
  refine keeps_bind (meets_validateRun ..) fun _ _ ↦ keeps_bind (meets_validateRun ..) fun _ _ ↦ ?_
  refine keeps_bind (meets_now (.inl trivial)) fun now _ ↦ ?_
  split
  · trivial
  · refine keeps_bind (meets_now (.inl trivial)) fun fallback _ ↦ ?_
    exact keeps_bind (meets_storeRun (.inr ⟨.retried _, nofun⟩)) fun _ _ hack ↦ by cases hack

theorem meets_finishFailed (run : Run) (failing : List String) (reason : String)
    (ids : RunId → Prop) : (finishFailed run failing reason).Meets expected
      (VerdictCall run) (AcksSettled expected ids) := by
  refine keeps_bind (meets_validateRun ..) fun _ _ ↦ ?_
  refine keeps_bind (meets_now (.inl trivial)) fun now _ ↦ ?_
  exact keeps_bind (meets_storeRun (.inr ⟨.failed now _, nofun⟩)) fun _ hstored _ ↦
    .inl ⟨_, rfl, hstored⟩

theorem meets_finishTimedOut (run : Run) (ids : RunId → Prop) :
    (finishTimedOut run).Meets expected (LateCall run) (AcksSettled expected ids) := by
  refine keeps_bind (meets_validateRun ..) fun _ _ ↦ ?_
  refine keeps_bind (meets_now (.inl rfl)) fun now _ ↦ ?_
  exact keeps_bind (meets_storeRun (.inr ⟨now, _, rfl⟩)) fun _ hstored _ ↦ .inl ⟨_, rfl, hstored⟩

theorem meets_finalize (ex : RunExecutor) (run : Run) (d : WorkflowDef) (states : StatusMap)
    (ids : RunId → Prop) : (finalize ex run d states).Meets expected (VerdictCall run)
      (AcksSettled expected ids) := by
  have hread {α : Type} {post : α → Prop} {p : Prog ExecutorError α}
      (h : p.Returns (fun _ _ ↦ True) (ReadCall run.id) post) :
      p.Meets expected (VerdictCall run) fun _ ↦ True :=
    h.meets.within fun _ ↦ .inl
  unfold finalize
  dsimp only
  split_ifs
  · trivial
  · exact meets_finishSucceeded run ids
  · refine keeps_bind (hread (returns_failureReason ..)) fun reason _ ↦ ?_
    refine keeps_bind (hread (returns_budgetsLeft ..)) fun budgets _ ↦ ?_
    split_ifs
    · exact meets_finishRetry ..
    · exact meets_finishFailed ..

/-- The part of an attempt after its waves. -/
theorem meets_collapse (ex : RunExecutor) (run : Run) (d : WorkflowDef) (states : StatusMap)
    (ids : RunId → Prop) :
    (persistSkipped run.id states (pendingToSkip d states) >>= fun _ ↦
      finalize ex run d (pendingToSkip d states)).Meets expected (DecisionCall expected run)
        (AcksSettled expected ids) := by
  refine keeps_bind ((meets_persistSkipped ..).within fun _ ↦ .inl) fun _ _ ↦ ?_
  exact (meets_finalize ..).within fun _ ↦ Or.imp_left ReadCall.record

end Decision

/-! ### Whole programs -/

section Programs

variable {expected : (call : Call) → call.Answer → Prop} {ε : Type}

theorem meets_turn (run : Run) (d : WorkflowDef) (token : Option ClaimToken) (leaseMs : ℤ)
    (p : Progress) :
    (turn run d token leaseMs p).Meets expected (TimelyCall expected run d token leaseMs)
      fun result ↦ ∀ outcome, result = .inr (.cancelled outcome) →
        AcksSettled expected (· = run.id) outcome := by
  have hdispatch : (turn.dispatch run d token leaseMs p).Meets expected
      (TimelyCall expected run d token leaseMs) fun result ↦ ∀ outcome,
        result = .inr (.cancelled outcome) → AcksSettled expected (· = run.id) outcome :=
    keeps_mono (fun _ ↦ .inl) (fun _ h outcome hout ↦ absurd hout (h outcome))
      (meets_dispatch run d token leaseMs p)
  refine ⟨.inr (.inr rfl), fun answer hanswer ↦ ?_⟩
  cases answer with
  | error e => exact hdispatch
  | ok current =>
    change (ite _ _ _ : Prog _ _).Meets _ _ _
    split_ifs with hcancelled
    · exact fun outcome _ _ ↦ .inr ⟨run.id, current, rfl, hcancelled, hanswer⟩
    · exact hdispatch

theorem meets_runWaves (ex : RunExecutor) (run : Run) (d : WorkflowDef)
    (token : Option ClaimToken) (leaseMs : ℤ) :
    (runWaves ex run d token leaseMs).Meets expected (TimelyCall expected run d token leaseMs)
      (AcksSettled expected (· = run.id)) := by
  refine keeps_bind ((meets_of_reads (returns_loadedStates run.id d)).within
    fun _ h ↦ .inl (.inl h)) fun states _ ↦ ?_
  have hloop (fuel : ℕ) (p : Progress) : (CallProgram.iterate .exhausted (turn run d token leaseMs)
      fuel p).Meets expected (TimelyCall expected run d token leaseMs) fun loopExit ↦ ∀ outcome,
        loopExit = .cancelled outcome → AcksSettled expected (· = run.id) outcome := by
    refine meets_iterate (fun p ↦ ?_) fuel p
    refine keeps_mono (fun _ h ↦ h) (fun result h loopExit hresult outcome hexit ↦ ?_)
      (meets_turn run d token leaseMs p)
    exact h outcome (by rw [hresult, hexit])
  refine keeps_bind (hloop _ _) fun loopExit hexit ↦ ?_
  cases loopExit with
  | cancelled outcome => exact hexit outcome rfl
  | drained states => exact (meets_collapse ..).within fun _ h ↦ .inr (.inl h)

theorem meets_attemptWithToken (ex : RunExecutor) (r : RunId) (token : Option ClaimToken)
    (leaseMs : ℤ) : (attemptWithToken ex r token leaseMs).Meets expected
      (AttemptCall expected r token leaseMs) (AcksSettled expected (LooksUp expected r)) := by
  refine ⟨.inl rfl, fun answer hrun ↦ ?_⟩
  cases answer with
  | error e => trivial
  | ok run =>
    refine ⟨.inr ⟨run, hrun, .inl rfl⟩, fun answer hrecord ↦ ?_⟩
    cases answer with
    | error e => trivial
    | ok record =>
      change (ite _ _ _ : Prog _ _).Meets _ _ _
      split_ifs with hrunning hcancelled
      · exact fun _ ↦ .inr ⟨r, run, .inl rfl, hcancelled, hrun⟩
      · trivial
      · rw [not_not] at hrunning
        have hcourse {α : Type} {post : α → Prop} {p : Prog ExecutorError α}
            (hp : p.Meets expected (CourseCall expected run record.definition token leaseMs) post) :
            p.Meets expected (AttemptCall expected r token leaseMs) post :=
          hp.within fun _ h ↦ .inr ⟨run, hrun, .inr ⟨hrunning, record, hrecord, h⟩⟩
        refine keeps_bind (hcourse ((meets_of_reads (returns_deadlinePassed run)).within
          fun _ h ↦ .inl (.inl (.inl h)))) fun passed _ ↦ ?_
        split_ifs
        · exact hcourse ((meets_finishTimedOut run _).within fun _ ↦ .inr)
        · refine keeps_mono (fun _ h ↦ h) (fun outcome h hack ↦ ?_) (hcourse
            ((meets_runWaves ex run record.definition token leaseMs).within fun _ ↦ .inl))
          refine (h hack).imp_right ?_
          rintro ⟨id, found, rfl, hfound⟩
          exact ⟨run.id, found, .inr ⟨run, hrun, rfl⟩, hfound⟩

theorem meets_runJob (ex : RunExecutor) (job : Job) :
    (runJob ex job : Prog ε Unit).Meets expected (WorkCall expected job) fun _ ↦ True := by
  have hattempt : (attemptWithToken ex job.runId (some job.token) 60000).Meets expected
      (WorkCall expected job) (AcksSettled expected (LooksUp expected job.runId)) :=
    (meets_attemptWithToken ex job.runId (some job.token) 60000).within fun _ ↦ .inl
  have hreified : ((attemptWithToken ex job.runId (some job.token) 60000).reify :
      Prog ε _).Meets expected (WorkCall expected job) fun result ↦
        ∀ outcome, result = .ok outcome →
        AcksSettled expected (LooksUp expected job.runId) outcome := by
    refine meets_reify (keeps_mono (fun _ h ↦ h) (fun outcome h other hother ↦ ?_) hattempt)
      fun _ outcome h ↦ by cases h
    obtain rfl := Except.ok.inj hother
    exact h
  refine keeps_bind hreified fun result hsettled ↦ ?_
  cases result with
  | error reason =>
    refine keeps_bind (meets_now (.inr trivial)) fun now _ ↦ ?_
    exact keeps_bind (meets_ask (.inr ⟨rfl, rfl⟩) fun _ _ ↦ trivial) fun _ _ ↦ trivial
  | ok outcome =>
    have hack := hsettled outcome rfl
    obtain ⟨status, failed, action, error⟩ := outcome
    cases action with
    | ack =>
      exact keeps_bind (meets_ask (.inr ⟨rfl, rfl, hack rfl⟩) fun _ _ ↦ trivial) fun _ _ ↦ trivial
    | release atMs =>
      exact keeps_bind (meets_ask (.inr ⟨rfl, rfl⟩) fun _ _ ↦ trivial) fun _ _ ↦ trivial

theorem meets_markRunning (r : RunId) (claimMs : ℤ) :
    (markRunning r).Meets expected (DispatchCall expected claimMs) fun _ ↦ True := by
  refine ⟨trivial, fun answer hrun ↦ ?_⟩
  cases answer with
  | error e => trivial
  | ok run =>
    change (ite _ _ _ : Prog _ _).Meets _ _ _
    split_ifs with hrunning hqueued
    · trivial
    · trivial
    · split
      · trivial
      · refine keeps_bind (meets_now trivial) fun now _ ↦ ?_
        refine ⟨⟨r, run, now, hrun, not_not.mp hqueued, rfl⟩, fun answer _ ↦ ?_⟩
        cases answer <;> trivial

theorem meets_dispatchEntry (dispatcher : Dispatcher) (now : ℤ) (stats : DispatchStats)
    (entry : QueueEntry) : (dispatchEntry dispatcher now stats entry : Prog ε _).Meets expected
      (DispatchCall expected dispatcher.leaseMs) fun _ ↦ True := by
  refine keeps_bind (meets_ask trivial fun _ _ ↦ trivial) fun token _ ↦ ?_
  refine keeps_bind (meets_ask rfl fun _ _ ↦ trivial) fun answer _ ↦ ?_
  split
  · have hmark : ((markRunning entry.runId).reify : Prog ε _).Meets expected
        (DispatchCall expected dispatcher.leaseMs) fun _ ↦ True :=
      meets_reify (meets_markRunning entry.runId dispatcher.leaseMs) fun _ ↦ trivial
    refine keeps_bind hmark fun transitioned _ ↦ ?_
    refine keeps_bind (meets_ask trivial fun _ _ ↦ trivial) fun submitted _ ↦ ?_
    split_ifs
    · trivial
    · exact keeps_bind (meets_ask trivial fun _ _ ↦ trivial) fun _ _ ↦ trivial
  · trivial
  · trivial
  · trivial

theorem meets_step (dispatcher : Dispatcher) :
    (dispatcher.step : Prog ε DispatchStats).Meets expected
      (DispatchCall expected dispatcher.leaseMs) fun _ ↦ True := by
  refine keeps_bind (meets_now trivial) fun now _ ↦ ?_
  refine keeps_bind (meets_ask trivial fun _ _ ↦ trivial) fun answer _ ↦ ?_
  cases answer with
  | error e => trivial
  | ok ready =>
    exact keeps_foldlM (fun _ _ ↦ True) (fun entry _ stats _ ↦ meets_dispatchEntry ..) _ _ trivial

end Programs

/-! ### Kinds of calls -/

def Call.OnRecords : Call → Prop
  | .store (.getTaskRun _) | .store (.putTaskRun _) | .store (.listTaskRunsForRun _) | .nowMs =>
    True
  | _ => False

def Call.InWave (call : Call) : Prop :=
  call.OnRecords ∨ match call with
    | .store (.renewLease ..) | .registryGet _ | .execute .. => True
    | _ => False

def attemptStatuses : List RunStatus := [.succeeded, .failed, .queued, .timedOut]

/-- The calls with which an attempt decides where the run goes. -/
def Call.Deciding (call : Call) : Prop :=
  call.OnRecords ∨ match call with
    | .store (.putRun run) => run.status ∈ attemptStatuses
    | _ => False

def Call.Attempting (call : Call) : Prop :=
  call.InWave ∨ call.Deciding ∨ match call with
    | .store (.getRun _) | .store (.getWorkflow ..) => True
    | _ => False

def Call.Working (call : Call) : Prop :=
  call.Attempting ∨ match call with
    | .store (.ack ..) | .store (.release ..) => True
    | _ => False

def Call.Dispatching : Call → Prop
  | .nowMs | .newToken | .submit _ | .store (.scanReady ..) | .store (.claim ..)
  | .store (.getRun _) | .store (.failclaim ..) => True
  | .store (.putRun run) => run.status = .running
  | _ => False

theorem Call.OnRecords.inWave {call : Call} (h : call.OnRecords) : call.InWave := .inl h

section Kinds

variable {expected : (call : Call) → call.Answer → Prop} {call : Call}

theorem RecordCall.onRecords (h : RecordCall expected r call) : call.OnRecords := by
  cases call with
  | store call => cases call <;> trivial
  | _ => trivial

variable {run : Run} {token : Option ClaimToken} {leaseMs claimMs : ℤ}

theorem WaveCall.inWave {d : WorkflowDef}
    (h : WaveCall expected run d token leaseMs call) : call.InWave := by
  refine h.imp RecordCall.onRecords fun hcall ↦ ?_
  cases call with
  | store call => cases call <;> trivial
  | _ => trivial

theorem RunWrite.id_eq {run : Run} (h : RunWrite run written) : written.id = run.id := by
  cases h <;> rfl

theorem RunWrite.key_eq {run : Run} (h : RunWrite run written) :
    WorkflowKey.mk written.tenant written.defName = WorkflowKey.mk run.tenant run.defName := by
  cases h <;> rfl

theorem RunWrite.status_mem {run : Run} (h : RunWrite run written) :
    written.status ∈ attemptStatuses := by
  cases h <;> simp [attemptStatuses]

theorem DecisionCall.deciding (h : DecisionCall expected run call) : call.Deciding := by
  refine h.imp RecordCall.onRecords fun hcall ↦ ?_
  cases call with
  | store call =>
    cases call with
    | putRun written => exact RunWrite.status_mem hcall.1
    | _ => exact hcall
  | _ => exact hcall

theorem LateCall.deciding (h : LateCall run call) : call.Deciding := by
  rcases h with rfl | ⟨now, error, rfl⟩
  · exact .inl trivial
  · exact .inr (RunWrite.status_mem (.timedOut now error : RunWrite run _))

/-- A run that an attempt writes takes the place of the running one that it has read. -/
theorem AttemptCall.putRun
    (h : AttemptCall expected r token leaseMs (.store (.putRun written))) :
    ∃ run, expected (.store (.getRun r)) (.ok run) ∧ run.status = .running ∧
      RunWrite run written := by
  rcases h with h | ⟨run, hrun, h | ⟨hrunning, record, -, hcall⟩⟩
  · cases h
  · cases h
  · rcases hcall with ((hwave | hwave) | (hrecord | hwrite) | hread) | hnow | ⟨now, error, hlate⟩
    · exact hwave.elim
    · exact hwave.elim
    · exact hrecord.elim
    · exact ⟨run, hrun, hrunning, hwrite.1⟩
    · cases hread
    · cases hnow
    · cases hlate
      exact ⟨run, hrun, hrunning, .timedOut now error⟩

/-- A handler that an attempt invokes is the one of a task of the definition it has read, and is
passed the input of the task. -/
theorem AttemptCall.execute {handler : HandlerId} {ctx : TaskContext}
    (h : AttemptCall expected r token leaseMs (.execute handler ctx)) :
    ∃ record, expected (.store (.getWorkflow ctx.tenant ctx.defName)) (.ok record) ∧
      ∃ task ∈ record.definition.tasks,
        handler = task.handler ∧ ctx.taskName = task.name ∧ ctx.input = task.input := by
  rcases h with h | ⟨run, -, h | ⟨-, record, hrecord, hcall⟩⟩
  · cases h
  · cases h
  · rcases hcall with ((hwave | hwave) | (hrecord | hwrite) | hread) | hnow | ⟨now, error, hlate⟩
    · exact hwave.elim
    · obtain ⟨task, htask, hhandler, hname, hinput, -, htenant, hdef⟩ := hwave
      rw [← htenant, ← hdef] at hrecord
      exact ⟨record, hrecord, task, htask, hhandler, hname, hinput⟩
    · exact hrecord.elim
    · exact hwrite.elim
    · cases hread
    · cases hnow
    · cases hlate

theorem AttemptCall.attempting (h : AttemptCall expected r token leaseMs call) :
    call.Attempting := by
  rcases h with rfl | ⟨run, -, rfl | ⟨-, record, -, (hwave | hdecision | rfl) | hlate⟩⟩
  · exact .inr (.inr trivial)
  · exact .inr (.inr trivial)
  · exact .inl hwave.inWave
  · exact .inr (.inl hdecision.deciding)
  · exact .inr (.inr trivial)
  · exact .inr (.inl hlate.deciding)

theorem WorkCall.working {job : Job} (h : WorkCall expected job call) : call.Working := by
  rcases h with hattempt | hcall
  · exact .inl hattempt.attempting
  · cases call with
    | store call => cases call <;> first | exact .inr trivial | exact hcall.elim
    | nowMs => exact .inl (.inl (.inl trivial))
    | _ => exact hcall.elim

theorem DispatchCall.dispatching (h : DispatchCall expected claimMs call) : call.Dispatching := by
  cases call with
  | store call =>
    cases call with
    | putRun written =>
      obtain ⟨r, run, now, -, -, rfl⟩ := h
      exact rfl
    | _ => trivial
  | _ => trivial

end Kinds

section Calls

variable {ε : Type}

theorem calls_ask {call : Call} (h : allowed call) :
    (ask call : Prog ε call.Answer).Calls allowed :=
  meets_ask h fun _ _ ↦ trivial

theorem calls_loadedStates (r : RunId) (d : WorkflowDef) :
    (loadedStates r d : Prog ε StatusMap).Calls Call.OnRecords :=
  calls_of_meets (meets_of_reads (returns_loadedStates r d)) fun _ ↦ RecordCall.onRecords

theorem calls_deadlinePassed (run : Run) :
    (deadlinePassed run : Prog ε Bool).Calls Call.OnRecords :=
  calls_of_meets (meets_of_reads (returns_deadlinePassed run)) fun _ ↦ RecordCall.onRecords

theorem calls_dispatch (run : Run) (d : WorkflowDef) (token : Option ClaimToken) (leaseMs : ℤ)
    (p : Progress) : (turn.dispatch run d token leaseMs p).Calls Call.InWave :=
  calls_of_meets (meets_dispatch run d token leaseMs p) fun _ ↦ WaveCall.inWave

theorem calls_collapse (ex : RunExecutor) (run : Run) (d : WorkflowDef) (states : StatusMap) :
    (persistSkipped run.id states (pendingToSkip d states) >>= fun _ ↦
      finalize ex run d (pendingToSkip d states)).Calls Call.Deciding :=
  calls_of_meets (meets_collapse ex run d states fun _ ↦ True) fun _ ↦ DecisionCall.deciding

theorem calls_finishTimedOut (run : Run) : (finishTimedOut run).Calls Call.Deciding :=
  calls_of_meets (meets_finishTimedOut run fun _ ↦ True) fun _ ↦ LateCall.deciding

theorem calls_runJob (ex : RunExecutor) (job : Job) :
    (runJob ex job : Prog ε Unit).Calls Call.Working :=
  calls_of_meets (meets_runJob ex job) fun _ ↦ WorkCall.working

theorem calls_step (dispatcher : Dispatcher) :
    (dispatcher.step : Prog ε DispatchStats).Calls Call.Dispatching :=
  calls_of_meets (meets_step dispatcher) fun _ ↦ DispatchCall.dispatching

end Calls

end Runvane.Scheduler
