import Runvane.Scheduler.History

/-!
# The books of a task

Beside the status, the record of a task keeps a counter, two time stamps, an output and the message
of an error. What these say is compared with what happened, which is read off the log: a ledger of
the task counts how often it was taken up, and keeps the message of the latest error of its handler
(`Ledger`).

An attempt writes a task record in four ways: it starts the task, settles it as succeeded or failed,
or skips it, always over the record that is stored at that moment and with the time it has just read
(`Entry`). Each of these keeps the record in agreement with the ledger (`TaskBooks`), given that the
tasks move by the rules of the board. So the books are in order throughout the life of a run
(`booked_of_history`), wherever its attempts are cut off.
-/

set_option autoImplicit false

namespace Runvane.Scheduler

open Library Domain Persistence Prog
open CallProgram (Amid Alone Reaches amid_bind amid_seq amid_alone_call amid_alone_request
  amid_alone_of_calls calls_of_meets)

/-! ### What the log tells -/

/-- What the log tells of a task: whether it is the one that was taken up last, how often it was
taken up, and the message of the latest error of its handler. -/
structure Ledger where
  atWork : Bool := false
  dispatches : ℕ := 0
  error : Option String := none
  deriving DecidableEq, Repr

/-- The ledger of a task after one more event. A task is taken up when its record is written as
running. A handler that is not registered is an error of the task that was taken up last. -/
def Ledger.enter (r : RunId) (t : String) (l : Ledger) : Event → Ledger
  | ⟨_, .store (.putTaskRun tr), _⟩ =>
    if tr.status ≠ .running then l
    else if tr.id = taskRunId r t then { l with atWork := true, dispatches := l.dispatches + 1 }
    else { l with atWork := false }
  | ⟨_, .registryGet handler, false⟩ =>
    if l.atWork then { l with error := some s!"unknown handler {handler.text} for {t}" } else l
  | ⟨_, .execute _ ctx, some (.error e)⟩ =>
    if ctx.runId = r ∧ ctx.taskName = t then { l with error := some e.message } else l
  | _ => l

def ledger (r : RunId) (t : String) (log : List Event) : Ledger :=
  log.foldl (Ledger.enter r t) {}

/-- The time that was read, if the event is a look at the clock. -/
def Event.reading : Event → Option ℤ
  | ⟨_, .nowMs, now⟩ => some now
  | _ => none

/-- The times that were read off the clock, in order. -/
def readings (log : List Event) : List ℤ := log.filterMap Event.reading

/-- The calls that neither write or delete task runs nor have to do with handlers. -/
def Call.Quiet : Call → Prop
  | .store (.putTaskRun _) | .store (.deleteRun _) | .registryGet _ | .execute .. => False
  | _ => True

namespace Ledger

variable (l : Ledger) (r : RunId) (t : String) (s : MemoryStore) (handler : HandlerId)
  (ctx : TaskContext)

/-- The search for a handler is no dispatch, and concerns the task at work only. -/
theorem enter_registryGet (found : Bool) :
    (l.enter r t ⟨s, .registryGet handler, found⟩).dispatches = l.dispatches ∧
      (l.atWork = false → (l.enter r t ⟨s, .registryGet handler, found⟩).error = l.error) := by
  cases found with
  | true => exact ⟨rfl, fun _ ↦ rfl⟩
  | false =>
    simp only [enter]
    split_ifs with hwork
    · exact ⟨rfl, fun hidle ↦ by simp [hwork] at hidle⟩
    · exact ⟨rfl, fun _ ↦ rfl⟩

/-- The invocation of a handler is no dispatch, and concerns its own task only. -/
theorem enter_execute (answer : Option (Except HandlerError HandlerResult)) :
    (l.enter r t ⟨s, .execute handler ctx, answer⟩).dispatches = l.dispatches ∧
      (ctx.taskName ≠ t → (l.enter r t ⟨s, .execute handler ctx, answer⟩).error = l.error) := by
  match answer with
  | none | some (.ok _) => exact ⟨rfl, fun _ ↦ rfl⟩
  | some (.error e) =>
    simp only [enter]
    split_ifs with hown
    · exact ⟨rfl, fun hother ↦ absurd hown.2 hother⟩
    · exact ⟨rfl, fun _ ↦ rfl⟩

end Ledger

section Log

variable (env : Env) (r : RunId) (t : String) (w : World)

variable (call : Call)

theorem ledger_after : ledger r t (w.after env call).log =
    (ledger r t w.log).enter r t ⟨w.store, call, (env.answer w call).1⟩ := by
  simp only [ledger, World.after, List.foldl_append, List.foldl_cons, List.foldl_nil]

theorem ledger_after_quiet (h : call.Quiet) :
    ledger r t (w.after env call).log = ledger r t w.log := by
  rw [ledger_after]
  cases call with
  | store call =>
    cases call with
    | putTaskRun | deleteRun => exact h.elim
    | _ => rfl
  | registryGet | execute => exact h.elim
  | _ => rfl

theorem readings_after : readings (w.after env call).log =
    readings w.log ++ (Event.reading ⟨w.store, call, (env.answer w call).1⟩).toList := by
  simp only [readings, World.after, List.filterMap_append]
  cases hreading : Event.reading ⟨w.store, call, (env.answer w call).1⟩ <;> simp [hreading]

/-- The time just read is the last one. -/
theorem getLast?_readings_nowMs :
    (readings (w.after env .nowMs).log).getLast? = some (env.clock w.log) := by
  simp [readings_after, Event.reading, Env.answer]

theorem taskRuns_after_quiet {call : Call} (h : call.Quiet) :
    (w.after env call).store.taskRuns = w.store.taskRuns := by
  cases call with
  | store call =>
    cases call with
    | putTaskRun | deleteRun => exact h.elim
    | cancelRun runId nowMs => exact w.store.taskRuns_cancelRun runId nowMs
    | updateWorkflowVersion tenant name d expected =>
      change (w.store.updateWorkflowVersion tenant name d expected).2.taskRuns = _
      unfold MemoryStore.updateWorkflowVersion
      split
      · rfl
      · split_ifs <;> rfl
    | putWorkflow | putRun => rfl
    | _ => exact (sameRecords_after env w _ (by trivial)).taskRuns
  | registryGet | execute => exact h.elim
  | _ => rfl

theorem storedTask_after_quiet {call : Call} (h : call.Quiet) :
    storedTask (w.after env call).store r t = storedTask w.store r t :=
  storedTask_of_get? (by rw [taskRuns_after_quiet env w h])

end Log

/-! ### What an attempt calls -/

/-- The record of a task that is taken up. -/
def started (tr : TaskRun) (now : ℤ) : TaskRun :=
  { tr with status := .running, attempts := u32Succ tr.attempts, startedAtMs := some now }

/-- How an attempt writes the record of a task at a time: over the one that is stored. A task is
settled while its record is running, and as failed with the latest error of its handler. -/
inductive Entry (r : RunId) (w : World) (t : String) (now : ℤ) : TaskRun → Prop
  | start : Entry r w t now (started (storedTask w.store r t) now)
  | succeed (output : Json) (hrunning : (storedTask w.store r t).status = .running) :
      Entry r w t now { storedTask w.store r t with
        status := .succeeded, finishedAtMs := some now, output := some output }
  | fail (message : String) (hrunning : (storedTask w.store r t).status = .running)
      (herror : (ledger r t w.log).error = some message) :
      Entry r w t now { storedTask w.store r t with
        status := .failed, finishedAtMs := some now, lastError := some message }
  | skip : Entry r w t now { storedTask w.store r t with
      status := .skipped, finishedAtMs := some now }

/-- What an attempt of a run calls in a world. A task record is written with the time that was read
last, and a handler is only looked up and invoked for the task at work, which is stored as running
with the number of the attempt. -/
def Proper (r : RunId) : Call → World → Prop
  | .store (.putTaskRun tr), w =>
    ∃ t now, (readings w.log).getLast? = some now ∧ Entry r w t now tr
  | .store (.deleteRun _), _ => False
  | .registryGet _, w =>
    ∀ t, (ledger r t w.log).atWork = true → (storedTask w.store r t).status = .running
  | .execute _ ctx, w => ctx.runId = r ∧ (storedTask w.store r ctx.taskName).status = .running ∧
      ctx.attempt = (storedTask w.store r ctx.taskName).attempts
  | _, _ => True

theorem proper_of_quiet (r : RunId) (call : Call) (w : World) (h : call.Quiet) :
    Proper r call w := by
  cases call with
  | store call =>
    cases call with
    | putTaskRun | deleteRun => exact h.elim
    | _ => trivial
  | registryGet | execute => exact h.elim
  | _ => trivial

/-- The program, by itself and from this world on, makes only proper calls. -/
def Properly {ε α : Type} (env : Env) (r : RunId) (post : α → World → Prop) (p : Prog ε α)
    (w : World) : Prop :=
  Amid (serve env) Alone (Proper r) post (fun _ _ ↦ True) p w

variable (ex : RunExecutor) (run : Run)

section Quiet

variable {ε : Type}

theorem quiet_of_reads {r : RunId} {α : Type} {p : Prog ε α} {post : α → Prop}
    (h : p.Returns (fun _ _ ↦ True) (ReadCall r) post) : p.Calls Call.Quiet := by
  refine h.meets.within fun call hcall ↦ ?_
  cases call with
  | store call => cases call <;> trivial
  | _ => trivial

theorem quiet_heartbeat (r : RunId) (token : Option ClaimToken) (leaseMs : ℤ) :
    (heartbeat r token leaseMs : Prog ε Unit).Calls Call.Quiet := by
  refine (returns_heartbeat r token leaseMs).meets.within fun call hcall ↦ ?_
  cases hcall <;> trivial

theorem quiet_finalize (d : WorkflowDef) (states : StatusMap) :
    (finalize ex run d states).Calls Call.Quiet := by
  refine calls_of_meets (meets_finalize ex run d states fun _ ↦ True) fun call hcall ↦ ?_
  cases call with
  | store call =>
    cases call with
    | putTaskRun | deleteRun => exact hcall.elim False.elim False.elim
    | _ => trivial
  | registryGet | execute => exact hcall.elim False.elim False.elim
  | _ => trivial

theorem quiet_finishTimedOut : (finishTimedOut run).Calls Call.Quiet := by
  refine calls_of_meets (meets_finishTimedOut run fun _ ↦ True) ?_
  rintro call (rfl | ⟨nowMs, error, rfl⟩) <;> trivial

theorem quiet_markRunning (r : RunId) : (markRunning r).Calls Call.Quiet := by
  refine calls_of_meets (meets_markRunning r 0) fun call hcall ↦ ?_
  cases call with
  | store call => cases call <;> trivial
  | _ => trivial

end Quiet

section Attempts

variable {env : Env} {r : RunId} {t : String} {w : World}

@[simp] theorem properly_ret {ε α : Type} {post : α → World → Prop} (value : α) :
    Properly env r post (.ret value : Prog ε α) w ↔ post value w := Iff.rfl

variable {ε : Type}

theorem properly_bind {α β : Type} {post : β → World → Prop} (p : Prog ε α) (rest : α → Prog ε β) :
    Properly env r post (p >>= rest) w ↔
      Properly env r (fun value w' ↦ Properly env r post (rest value) w') p w :=
  amid_bind p rest w

theorem properly_seq {α β : Type} {post : β → World → Prop} {between : α → World → Prop}
    {p : Prog ε α} {rest : α → Prog ε β} (hp : Properly env r between p w)
    (hrest : ∀ value w', between value w' → Properly env r post (rest value) w') :
    Properly env r post (p >>= rest) w :=
  amid_seq hp hrest

/-- A program of quiet calls is proper, and says nothing of where it ends. -/
theorem properly_of_calls {α : Type} {p : Prog ε α} (h : p.Calls Call.Quiet) (w : World) :
    Properly env r (fun _ _ ↦ True) p w :=
  amid_alone_of_calls (proper_of_quiet r) h w

theorem properly_ask {call : Call} {post : call.Answer → World → Prop} (hcall : Proper r call w)
    (h : post (env.answer w call).1 (w.after env call)) :
    Properly env r post (ask call : Prog ε call.Answer) w :=
  amid_alone_request.mpr ⟨hcall, h⟩

theorem properly_loadTask {post : TaskRun → World → Prop}
    (h : post (storedTask w.store r t) (w.after env (.store (.getTaskRun (taskRunId r t))))) :
    Properly env r post (loadTask r t : Prog ε TaskRun) w := by
  unfold loadTask
  rw [properly_bind]
  refine properly_ask trivial ?_
  unfold storedTask at h
  simp only [Env.answer, StoreCall.apply, MemoryStore.getTaskRun]
  cases hget : w.store.taskRuns.get? (taskRunId r t) with
  | none => simpa [hget] using h
  | some tr => simpa [hget] using h

theorem properly_storeTaskRun {tr : TaskRun} {post : Unit → World → Prop} {now : ℤ}
    (hnow : (readings w.log).getLast? = some now) (hentry : Entry r w t now tr)
    (h : post () (w.after env (.store (.putTaskRun tr)))) :
    Properly env r post (storeTaskRun tr) w := by
  unfold storeTaskRun
  rw [properly_bind]
  have hproper : Proper r (.store (.putTaskRun tr)) w := ⟨t, now, hnow, hentry⟩
  exact properly_ask hproper h

def stampedWorld (env : Env) (r : RunId) (t : String) (w : World) : World :=
  (w.after env (.store (.getTaskRun (taskRunId r t)))).after env .nowMs

theorem storedTask_stampedWorld : storedTask (stampedWorld env r t w).store r t =
    storedTask w.store r t := rfl

theorem ledger_stampedWorld (t' : String) :
    ledger r t' (stampedWorld env r t w).log = ledger r t' w.log := by
  rw [stampedWorld, ledger_after_quiet _ _ _ _ .nowMs trivial,
    ledger_after_quiet _ _ _ _ (.store (.getTaskRun _)) trivial]

theorem properly_settleTask {target : TaskStatus} {label : String} {record : TaskRun → TaskRun}
    (hentry : ∀ now, Entry r (stampedWorld env r t w) t now
      (record { storedTask w.store r t with status := target, finishedAtMs := some now })) :
    Properly env r (fun _ _ ↦ True) (settleTask r t target label record) w := by
  unfold settleTask
  rw [properly_bind]
  refine properly_loadTask ?_
  split_ifs
  · trivial
  · rw [properly_bind]
    refine properly_ask trivial ?_
    exact properly_storeTaskRun (getLast?_readings_nowMs env _) (hentry _) trivial

/-- The handler of the task at work is looked up and invoked. An error it ends with is the latest
one in the ledger. -/
theorem properly_runHandler {handler : HandlerId} {ctx : TaskContext}
    {post : Except HandlerError HandlerResult → World → Prop} (hrun : ctx.runId = r)
    (hname : ctx.taskName = t) (hrunning : (storedTask w.store r t).status = .running)
    (hattempt : ctx.attempt = (storedTask w.store r t).attempts)
    (hwork : ∀ other, (ledger r other w.log).atWork = true ↔ other = t)
    (hok : ∀ result w', w'.store = w.store → post (.ok result) w')
    (herror : ∀ e w', w'.store = w.store → (ledger r t w'.log).error = some e.message →
      post (.error e) w') : Properly env r post (runHandler handler t ctx : Prog ε _) w := by
  have hlookup : Proper r (.registryGet handler) w := by
    intro other hother
    obtain rfl := (hwork other).mp hother
    exact hrunning
  unfold runHandler
  rw [properly_bind]
  refine properly_ask hlookup ?_
  set w₁ := w.after env (.registryGet handler)
  cases hregistered : (env.answer w (.registryGet handler)).1 with
  | false =>
    refine herror _ w₁ rfl ?_
    rw [ledger_after, hregistered]
    simp [Ledger.enter, (hwork t).mpr rfl, HandlerError.permanent]
  | true =>
    unfold execute
    simp only [if_true, properly_bind]
    refine properly_ask ⟨hrun, by rwa [hname], by rwa [hname]⟩ ?_
    set w₂ := w₁.after env (.execute handler ctx)
    have hledger : ledger r t w₂.log = (ledger r t w₁.log).enter r t _ := ledger_after ..
    cases hanswer : (env.answer w₁ (.execute handler ctx)).1 with
    | none => trivial
    | some result =>
      cases result with
      | ok result => exact hok result w₂ rfl
      | error e =>
        refine herror e w₂ rfl ?_
        rw [hledger, hanswer]
        simp [Ledger.enter, hrun, hname]

/-- The world after a task was taken up: its record was read, then the clock, and the record was
written. -/
def startedWorld (env : Env) (r : RunId) (t : String) (w : World) : World :=
  (stampedWorld env r t w).after env (.store (.putTaskRun (started (storedTask w.store r t)
    (env.clock (w.after env (.store (.getTaskRun (taskRunId r t)))).log))))

theorem storedTask_startedWorld (env : Env) (r : RunId) (t : String) (w : World) :
    ∃ now, storedTask (startedWorld env r t w).store r t =
      started (storedTask w.store r t) now := by
  refine ⟨env.clock (w.after env (.store (.getTaskRun (taskRunId r t)))).log, ?_⟩
  have hid (now : ℤ) : (started (storedTask w.store r t) now).id = taskRunId r t :=
    storedTask_id w.store r t
  exact (storedTask_put (hid _) t).trans (if_pos rfl)

theorem atWork_startedWorld (env : Env) (r : RunId) (t : String) (w : World) (other : String) :
    (ledger r other (startedWorld env r t w).log).atWork = true ↔ other = t := by
  rw [startedWorld, ledger_after]
  by_cases hother : t = other
  · simp [Ledger.enter, started, storedTask_id, hother]
  · simp [Ledger.enter, started, storedTask_id, hother, Ne.symm hother]

theorem properly_runTask (d : WorkflowDef) (token : Option ClaimToken) (leaseMs : ℤ)
    (states : StatusMap) (t : String) (w : World) :
    Properly env run.id (fun _ _ ↦ True) (runTask run d token leaseMs states t) w := by
  unfold runTask
  cases hfind : d.tasks.find? (·.name = t) with
  | none => trivial
  | some task =>
    dsimp only
    refine properly_seq (properly_of_calls (quiet_heartbeat ..) w) fun _ w₁ _ ↦ ?_
    simp only [properly_bind]
    refine properly_loadTask (properly_ask trivial ?_)
    refine properly_storeTaskRun (getLast?_readings_nowMs env _) (.start (t := t)) ?_
    obtain ⟨now, hstored⟩ := storedTask_startedWorld env run.id t w₁
    have hwork := atWork_startedWorld env run.id t w₁
    change Properly env run.id _ _ (startedWorld env run.id t w₁)
    generalize startedWorld env run.id t w₁ = w₂ at hstored hwork ⊢
    have hrunning : (storedTask w₂.store run.id t).status = .running := by rw [hstored]; rfl
    refine properly_runHandler rfl rfl hrunning (by rw [hstored]; rfl) hwork ?_ ?_
    · intro result w₃ hw₃
      refine properly_seq (properly_settleTask fun now ↦ ?_) fun _ _ _ ↦ trivial
      refine .succeed result.output ?_
      rw [storedTask_stampedWorld, hw₃, hrunning]
    · intro e w₃ hw₃ herror
      refine properly_seq (properly_settleTask fun now ↦ ?_) fun _ _ _ ↦ trivial
      refine .fail e.message ?_ ?_
      · rw [storedTask_stampedWorld, hw₃, hrunning]
      · rw [ledger_stampedWorld, herror]

theorem properly_turn (d : WorkflowDef) (token : Option ClaimToken) (leaseMs : ℤ) (p : Progress)
    (w : World) : Properly env run.id (fun _ _ ↦ True) (turn run d token leaseMs p) w := by
  have hdispatch (w : World) :
      Properly env run.id (fun _ _ ↦ True) (turn.dispatch run d token leaseMs p) w := by
    refine properly_seq (properly_of_calls (quiet_of_reads (returns_nextWave ..)) w)
      fun wave w₁ _ ↦ ?_
    split_ifs
    · trivial
    · have hwave : Properly env run.id (fun _ _ ↦ True)
          (wave.foldlM (waveTask run d token leaseMs) p) w₁ := by
        refine CallProgram.amid_foldlM (fun _ _ _ ↦ True) (fun t _ p w _ ↦ ?_) wave p w₁ trivial
        exact properly_seq (properly_runTask run d token leaseMs p.states t w) fun _ _ _ ↦ trivial
      exact properly_seq hwave fun _ _ _ ↦ trivial
  unfold turn
  rw [properly_bind]
  refine properly_ask trivial ?_
  split
  · split_ifs
    · trivial
    · exact hdispatch _
  · exact hdispatch _

theorem properly_persistSkipped (states collapsed : StatusMap) (w : World) :
    Properly env r (fun _ _ ↦ True) (persistSkipped r states collapsed) w := by
  refine CallProgram.amid_foldlM (fun _ _ _ ↦ True) (fun entry _ _ w _ ↦ ?_) _ _ w trivial
  split_ifs
  · simp only [amid_bind]
    refine properly_loadTask (properly_ask trivial ?_)
    exact properly_storeTaskRun (getLast?_readings_nowMs env _) .skip trivial
  · trivial

theorem properly_runWaves (d : WorkflowDef) (token : Option ClaimToken) (leaseMs : ℤ) (w : World) :
    Properly env run.id (fun _ _ ↦ True) (runWaves ex run d token leaseMs) w := by
  refine properly_seq (properly_of_calls (quiet_of_reads (returns_loadedStates ..)) w)
    fun states w₁ _ ↦ ?_
  refine properly_seq (CallProgram.amid_alone_iterate (properly_turn run d token leaseMs) _ _ w₁)
    fun loopExit w₂ _ ↦ ?_
  cases loopExit with
  | cancelled outcome => trivial
  | drained states =>
    refine properly_seq (properly_persistSkipped states _ w₂) fun _ w₃ _ ↦ ?_
    exact properly_of_calls (quiet_finalize ..) w₃

/-- An attempt makes only proper calls. -/
theorem properly_attemptWithToken (token : Option ClaimToken) (leaseMs : ℤ) (w : World) :
    Properly env r (fun _ _ ↦ True) (attemptWithToken ex r token leaseMs) w := by
  unfold attemptWithToken
  rw [properly_bind]
  refine properly_ask trivial ?_
  split
  · trivial
  · next run hrun =>
    obtain rfl : run.id = r := KeyedMap.key_of_get? (MemoryStore.getRun_eq_ok.mp hrun)
    rw [properly_bind]
    refine properly_ask trivial ?_
    split
    · trivial
    · split_ifs
      · trivial
      · trivial
      · refine properly_seq (properly_of_calls (quiet_of_reads (returns_deadlinePassed run)) _)
          fun passed w₁ _ ↦ ?_
        split_ifs
        · exact properly_of_calls (quiet_finishTimedOut run) w₁
        · exact properly_runWaves ex run _ token leaseMs w₁

end Attempts

/-! ### The books -/

/-- The record of a task agrees with its ledger, and with the times that were read. -/
structure TaskBooks (l : Ledger) (times : List ℤ) (tr : TaskRun) : Prop where
  attempts : tr.attempts = l.dispatches
  untouched : tr.attempts = 0 ↔ tr.status = .pending ∨ tr.status = .skipped
  output : tr.output.isSome ↔ tr.status = .succeeded
  running : tr.status = .running → ∃ started ∈ times, tr.startedAtMs = some started
  stamped : tr.status = .succeeded ∨ tr.status = .failed → ∃ started finished,
    tr.startedAtMs = some started ∧ tr.finishedAtMs = some finished ∧
      (times.Pairwise (· ≤ ·) → started ≤ finished)
  error : tr.status = .failed → tr.lastError = l.error ∧ l.error.isSome

namespace TaskBooks

variable {l l' : Ledger} {times times' : List ℤ} {tr : TaskRun} {now : ℤ}

/-- Times go by, and another error of the handler comes while the task is running. -/
theorem later (h : TaskBooks l times tr) (htimes : times.Sublist times')
    (hdispatches : l'.dispatches = l.dispatches)
    (herror : tr.status ≠ .running → l'.error = l.error) : TaskBooks l' times' tr where
  attempts := h.attempts.trans hdispatches.symm
  untouched := h.untouched
  output := h.output
  running hrunning := by
    obtain ⟨started, hmem, hstarted⟩ := h.running hrunning
    exact ⟨started, htimes.subset hmem, hstarted⟩
  stamped hsettled := by
    obtain ⟨started, finished, hstarted, hfinished, hle⟩ := h.stamped hsettled
    exact ⟨started, finished, hstarted, hfinished, fun hordered ↦ hle (hordered.sublist htimes)⟩
  error hfailed := by
    rw [herror (by simp [hfailed])]
    exact h.error hfailed

theorem start (h : TaskBooks l times tr) (hstatus : tr.status = .pending ∨ tr.status = .failed)
    (hrange : tr.attempts + 1 < 2 ^ 32) (hnow : now ∈ times)
    (hdispatches : l'.dispatches = l.dispatches + 1) : TaskBooks l' times (started tr now) where
  attempts := by
    rw [hdispatches, ← h.attempts]
    exact u32Succ_of_lt hrange
  untouched := by
    have hcount : (started tr now).attempts = tr.attempts + 1 := u32Succ_of_lt hrange
    rw [hcount]
    simp [started]
  output := by
    have houtput : ¬ tr.output.isSome := fun hsome ↦ by
      rcases hstatus with hstatus | hstatus <;> simp [h.output.mp hsome] at hstatus
    simpa [started] using houtput
  running _ := ⟨now, hnow, rfl⟩
  stamped hsettled := by simp [started] at hsettled
  error hfailed := by simp [started] at hfailed

/-- The stamps of a task that is settled now. -/
theorem stamps (h : TaskBooks l times tr) (hrunning : tr.status = .running)
    (hnow : times.getLast? = some now) :
    ∃ started, tr.startedAtMs = some started ∧ (times.Pairwise (· ≤ ·) → started ≤ now) := by
  obtain ⟨started, hmem, hstarted⟩ := h.running hrunning
  refine ⟨started, hstarted, fun hordered ↦ ?_⟩
  have hle := hordered.rel_getLast hmem
  rw [List.getLast?_eq_some_getLast (List.ne_nil_of_mem hmem)] at hnow
  exact hle.trans (Option.some.inj hnow).le

theorem succeed (h : TaskBooks l times tr) (hrunning : tr.status = .running)
    (hnow : times.getLast? = some now) (output : Json) :
    TaskBooks l times { tr with
      status := .succeeded, finishedAtMs := some now, output := some output } where
  attempts := h.attempts
  untouched := by simpa [hrunning] using h.untouched
  output := by simp
  running hstatus := by cases hstatus
  stamped _ := by
    obtain ⟨started, hstarted, hle⟩ := h.stamps hrunning hnow
    exact ⟨started, now, hstarted, rfl, hle⟩
  error hstatus := by cases hstatus

theorem fail (h : TaskBooks l times tr) (hrunning : tr.status = .running)
    (hnow : times.getLast? = some now) {message : String} (herror : l.error = some message) :
    TaskBooks l times { tr with
      status := .failed, finishedAtMs := some now, lastError := some message } where
  attempts := h.attempts
  untouched := by simpa [hrunning] using h.untouched
  output := by simpa [hrunning] using h.output
  running hstatus := by cases hstatus
  stamped _ := by
    obtain ⟨started, hstarted, hle⟩ := h.stamps hrunning hnow
    exact ⟨started, now, hstarted, rfl, hle⟩
  error _ := ⟨herror.symm, by rw [herror]; rfl⟩

theorem skip (h : TaskBooks l times tr) (hstatus : tr.status = .pending ∨ tr.status = .skipped) :
    TaskBooks l times { tr with status := .skipped, finishedAtMs := some now } where
  attempts := h.attempts
  untouched := by simpa using h.untouched.mpr hstatus
  output := by
    have houtput : ¬ tr.output.isSome := fun hsome ↦ by
      rcases hstatus with hstatus | hstatus <;> simp [h.output.mp hsome] at hstatus
    simpa using houtput
  running hrunning := by cases hrunning
  stamped hsettled := by simp at hsettled
  error hfailed := by cases hfailed

end TaskBooks

/-! ### The life of a run -/

/-- The books of a run are in order: every handler was given the number of its dispatch, and the
records of the tasks agree with their ledgers. -/
structure Booked (r : RunId) (w : World) : Prop where
  passed : ∀ {before : List Event} {e : Event}, before ++ [e] <+: w.log →
    ∀ {handler : HandlerId} {ctx : TaskContext}, e.call = .execute handler ctx →
      ctx.attempt = (ledger r ctx.taskName before).dispatches
  tasks : ∀ t, TaskBooks (ledger r t w.log) (readings w.log) (storedTask w.store r t)

section Steps

variable {env : Env} {r : RunId} {d : WorkflowDef} {a : ℕ} {w : World} {call : Call} {t : String}
  {tr : TaskRun} {now : ℤ}

theorem Entry.id_eq (h : Entry r w t now tr) : tr.id = taskRunId r t := by
  cases h <;> exact storedTask_id w.store r t

theorem board_after_entry (env : Env) (h : Entry r w t now tr) :
    board r (w.after env (.store (.putTaskRun tr))).store t = ⟨tr.status, tr.attempts⟩ := by
  change board r (w.store.putTaskRun tr).2 t = _
  rw [board_put h.id_eq, Function.update_self]

/-- A task that is taken up was pending, or had failed and not spent its budget. -/
theorem startable_of_started
    (hsound : Sound r d a (w.after env
      (.store (.putTaskRun (started (storedTask w.store r t) now))))) :
    Board.Startable (boardRules d) (board r w.store) t := by
  have hafter : board r (w.after env
      (.store (.putTaskRun (started (storedTask w.store r t) now)))).store t =
        ⟨.running, u32Succ (storedTask w.store r t).attempts⟩ := board_after_entry env .start
  have hcases := hsound.advances.apply_cases t
  rw [hafter] at hcases
  rcases hcases with hsame | ⟨-, hstart⟩ | ⟨hstatus, -⟩ | ⟨hstatus, -⟩
  · exact absurd (congrArg Cell.attempts hsame) (u32Succ_ne _)
  · exact hstart
  · simp at hstatus
  · simp at hstatus

/-- A task that is skipped was pending, if it was not skipped already. -/
theorem pending_or_skipped_of_skip
    (hsound : Sound r d a (w.after env (.store (.putTaskRun { storedTask w.store r t with
      status := .skipped, finishedAtMs := some now })))) :
    (storedTask w.store r t).status = .pending ∨ (storedTask w.store r t).status = .skipped := by
  have hentry : Entry r w t now { storedTask w.store r t with
    status := .skipped, finishedAtMs := some now } := .skip
  have hafter := board_after_entry env hentry
  have hcases := hsound.advances.apply_cases t
  rw [hafter] at hcases
  rcases hcases with hsame | ⟨hstatus, -⟩ | ⟨hstatus, -⟩ | ⟨-, hpending⟩
  · exact .inr (congrArg Cell.status hsame).symm
  · simp at hstatus
  · simp at hstatus
  · exact .inl hpending

/-- The written record of a task agrees with its ledger. -/
theorem Booked.entry (hw : Booked r w) (hsound : Sound r d a w)
    (hrange : ∀ t, (d.policyOf t).maxAttempts < 2 ^ 32)
    (hsound' : Sound r d a (w.after env (.store (.putTaskRun tr))))
    (hnow : (readings w.log).getLast? = some now) (h : Entry r w t now tr) :
    TaskBooks (ledger r t (w.after env (.store (.putTaskRun tr))).log) (readings w.log) tr := by
  have hbooks := hw.tasks t
  rw [ledger_after]
  cases h with
  | start =>
    refine hbooks.start ?_ ?_ (List.mem_of_getLast? hnow)
      (by simp [Ledger.enter, started, storedTask_id])
    · rcases startable_of_started hsound' with ⟨hpending, -⟩ | ⟨hfailed, -⟩
      · exact .inl hpending
      · exact .inr hfailed
    · rcases startable_of_started hsound' with ⟨hpending, -⟩ | ⟨-, hbudget⟩
      · have hzero : (storedTask w.store r t).attempts = 0 :=
          hsound.ok.attempts_pending t hpending
        omega
      · exact Nat.lt_of_le_of_lt hbudget (hrange t)
  | succeed output hrunning => exact hbooks.succeed hrunning hnow output
  | fail message hrunning herror => exact hbooks.fail hrunning hnow herror
  | skip => exact hbooks.skip (pending_or_skipped_of_skip hsound')

/-- After a proper call the record of every task agrees with its ledger. -/
theorem Booked.after_tasks (hw : Booked r w) (hsound : Sound r d a w)
    (hrange : ∀ t, (d.policyOf t).maxAttempts < 2 ^ 32)
    (hsound' : Sound r d a (w.after env call)) (hcall : Proper r call w) (t : String) :
    TaskBooks (ledger r t (w.after env call).log) (readings (w.after env call).log)
      (storedTask (w.after env call).store r t) := by
  have htimes : (readings w.log).Sublist (readings (w.after env call).log) := by
    rw [readings_after]
    exact List.sublist_append_left _ _
  by_cases hquiet : call.Quiet
  · rw [storedTask_after_quiet env r t w hquiet]
    exact (hw.tasks t).later htimes (by rw [ledger_after_quiet _ _ _ _ _ hquiet])
      fun _ ↦ by rw [ledger_after_quiet _ _ _ _ _ hquiet]
  · cases call with
    | store call =>
      cases call with
      | putTaskRun written =>
        obtain ⟨t', now, hnow, hentry⟩ := hcall
        have hstored : storedTask (w.after env (.store (.putTaskRun written))).store r t =
            if t = t' then written else storedTask w.store r t := storedTask_put hentry.id_eq t
        by_cases ht : t = t'
        · subst ht
          rw [hstored, if_pos rfl]
          exact (hw.entry hsound hrange hsound' hnow hentry).later htimes rfl fun _ ↦ rfl
        · -- the ledger of another task only notes that it is not at work
          have hid : written.id ≠ taskRunId r t := by
            rw [hentry.id_eq]
            simpa using Ne.symm ht
          rw [hstored, if_neg ht, ledger_after]
          refine (hw.tasks t).later htimes ?_ fun _ ↦ ?_ <;>
            simp only [Ledger.enter, hid, if_false] <;> split_ifs <;> rfl
      | deleteRun => exact hcall.elim
      | _ => exact absurd trivial hquiet
    | registryGet handler =>
      obtain ⟨hdispatches, herror⟩ := (ledger r t w.log).enter_registryGet r t w.store handler
        (env.registered w.log handler)
      rw [ledger_after]
      -- an error would be one of the task at work, and that is running
      refine (hw.tasks t).later htimes hdispatches fun hstatus ↦ herror ?_
      exact Bool.eq_false_iff.mpr fun hwork ↦ hstatus (hcall t hwork)
    | execute handler ctx =>
      obtain ⟨hdispatches, herror⟩ := (ledger r t w.log).enter_execute r t w.store handler ctx
        (env.execute w.log handler ctx)
      rw [ledger_after]
      refine (hw.tasks t).later htimes hdispatches fun hstatus ↦ herror fun hname ↦ hstatus ?_
      exact hname ▸ hcall.2.1
    | _ => exact absurd trivial hquiet

/-- Every proper call leaves the books in order. -/
theorem Booked.after (hw : Booked r w) (hsound : Sound r d a w)
    (hrange : ∀ t, (d.policyOf t).maxAttempts < 2 ^ 32)
    (hsound' : Sound r d a (w.after env call)) (hcall : Proper r call w) :
    Booked r (w.after env call) where
  passed {before e} hbefore handler ctx hexecute := by
    rcases List.prefix_concat_iff.mp hbefore with hlast | hearlier
    · obtain ⟨rfl, he⟩ := List.append_inj' hlast rfl
      obtain rfl : e = ⟨w.store, call, (env.answer w call).1⟩ := by simpa using he
      obtain rfl : call = .execute handler ctx := hexecute
      exact hcall.2.2.trans (hw.tasks ctx.taskName).attempts
    · exact hw.passed hearlier hexecute
  tasks := hw.after_tasks hsound hrange hsound' hcall

/-- As far as a program of proper calls gets, the books are in order, if the run is sound on the
way. -/
theorem Booked.reaches {ε α : Type} {p p' : Prog ε α} {post : α → World → Prop} {w' : World}
    (hw : Booked r w) (hrange : ∀ t, (d.policyOf t).maxAttempts < 2 ^ 32)
    (hp : Properly env r post p w)
    (hsound : ∀ {p₁ : Prog ε α} {w₁ : World}, Reaches (serve env) (p, w) (p₁, w₁) → Sound r d a w₁)
    (h : Reaches (serve env) (p, w) (p', w')) : Booked r w' := by
  have hall : ∀ c, Reaches (serve env) (p, w) c → Booked r c.2 := by
    intro c hc
    induction hc with
    | refl => exact hw
    | tail hreach hstep ih =>
      have hreach' := hreach.tail hstep
      cases hstep with
      | call i next w₁ =>
        exact ih.after (hsound hreach) hrange (hsound hreach')
          (CallProgram.pre_of_reaches hp hreach)
  exact hall _ h

theorem Booked.lifeStep {w' : World} (hd : WellFormed d)
    (hrange : ∀ t, (d.policyOf t).maxAttempts < 2 ^ 32) (hsound : Sound r d a w) (hw : Booked r w)
    (h : LifeStep env r w w') : Booked r w' := by
  have hsound' := hsound.lifeStep hd h
  cases h with
  | attempt ex token leaseMs h =>
    exact hw.reaches hrange (properly_attemptWithToken ex token leaseMs w)
      (fun h₁ ↦ hsound.lifeStep hd (.attempt ex token leaseMs h₁)) h
  | dispatch h =>
    exact hw.reaches hrange (properly_of_calls (quiet_markRunning r) w)
      (fun h₁ ↦ hsound.lifeStep hd (.dispatch h₁)) h
  | cancel nowMs => exact hw.after hsound hrange hsound' (proper_of_quiet r _ w trivial)
  | @other _ s h =>
    refine ⟨hw.passed, fun t ↦ ?_⟩
    rw [storedTask_of_get? (h.task t)]
    exact hw.tasks t

theorem Submitted.booked {s : MemoryStore} (h : Submitted r d a s) : Booked r ⟨s, []⟩ where
  passed hbefore := by simp at hbefore
  tasks t := by
    simp only [storedTask, NoTaskRuns.get?_eq_none h.noTaskRuns t, Option.getD_none]
    exact ⟨rfl, by simp, by simp, by simp, by simp, by simp⟩

/-- The books of a run are in order throughout its life. -/
theorem booked_of_history {s : MemoryStore} (hd : WellFormed d)
    (hrange : ∀ t, (d.policyOf t).maxAttempts < 2 ^ 32) (hsubmitted : Submitted r d a s)
    (h : History env r ⟨s, []⟩ w) : Booked r w := by
  induction h with
  | refl => exact hsubmitted.booked
  | tail hhistory hstep ih =>
    exact ih.lifeStep hd hrange (sound_of_history hd hsubmitted hhistory) hstep

end Steps

section Guarantees

variable {parse : UrlParser} {env : Env} {r : RunId} {d : WorkflowDef} {a : ℕ} {s : MemoryStore}
  {w : World}

/-- The budget of a task fits its counter: it is that of a policy of its own, which was validated,
or that of the workflow, which fits the type. -/
theorem policyOf_range (hvalid : validateDefinition parse d = .ok ())
    (hfits : d.retry.maxAttempts < 2 ^ 32) (t : String) :
    (d.policyOf t).maxAttempts < 2 ^ 32 := by
  have hd := wellFormed_of_validateDefinition hvalid
  unfold WorkflowDef.policyOf
  cases hfind : d.tasks.find? (·.name = t) with
  | none => exact hfits
  | some task =>
    dsimp only
    unfold TaskSpec.effectiveRetry
    cases hretry : task.retry with
    | none => exact hfits
    | some policy =>
      have hpolicy := hd.policy task (List.mem_of_find?_eq_some hfind) policy hretry
      have hle := (RetryPolicy.bounds_of_validate hpolicy).1.2
      exact Nat.lt_of_le_of_lt hle (by decide)

/-- In every history of a fresh run whose clock readings do not go back: every handler is given the
number of its dispatch, the counter of a task is the number of its dispatches so far, and the record
of a task that has come to an end is complete. It has an output exactly when the task succeeded and
a counter of zero exactly when it was skipped, a task that was not skipped was started before it was
finished, and a failed one has the message of the latest error of its handler. -/
theorem task_bookkeeping (hvalid : validateDefinition parse d = .ok ())
    (hfits : d.retry.maxAttempts < 2 ^ 32) (hsubmitted : Submitted r d a s)
    (h : History env r ⟨s, []⟩ w) (hclock : (readings w.log).Pairwise (· ≤ ·)) :
    (∀ before e, before ++ [e] <+: w.log → ∀ handler ctx, e.call = .execute handler ctx →
      ctx.attempt = (ledger r ctx.taskName before).dispatches) ∧
    ∀ task ∈ d.tasks,
      (storedTask w.store r task.name).attempts = (ledger r task.name w.log).dispatches ∧
      ∀ tr, w.store.getTaskRun (taskRunId r task.name) = .ok tr → tr.status.isTerminal = true →
        (tr.output.isSome ↔ tr.status = .succeeded) ∧ (tr.attempts = 0 ↔ tr.status = .skipped) ∧
        (tr.status ≠ .skipped → ∃ started finished, tr.startedAtMs = some started ∧
          tr.finishedAtMs = some finished ∧ started ≤ finished) ∧
        (tr.status = .failed → ∃ message, tr.lastError = some message ∧
          (ledger r task.name w.log).error = some message) := by
  have hd := wellFormed_of_validateDefinition hvalid
  have hbooked := booked_of_history hd (policyOf_range hvalid hfits) hsubmitted h
  refine ⟨fun before e hbefore handler ctx hcall ↦ hbooked.passed hbefore hcall,
    fun task _ ↦ ⟨(hbooked.tasks task.name).attempts, fun tr htr hterminal ↦ ?_⟩⟩
  have hbooks := hbooked.tasks task.name
  have hstored : storedTask w.store r task.name = tr := by
    simp [storedTask, MemoryStore.getTaskRun_eq_ok.mp htr]
  rw [hstored] at hbooks
  refine ⟨hbooks.output, ?_, fun hstatus ↦ ?_, fun hfailed ↦ ?_⟩
  · rw [hbooks.untouched]
    refine or_iff_right fun hpending ↦ ?_
    simp [hpending, TaskStatus.isTerminal] at hterminal
  · have hsettled : tr.status = .succeeded ∨ tr.status = .failed := by
      cases hcase : tr.status <;> simp [hcase, TaskStatus.isTerminal] at hterminal hstatus ⊢
    obtain ⟨started, finished, hstarted, hfinished, hle⟩ := hbooks.stamped hsettled
    exact ⟨started, finished, hstarted, hfinished, hle hclock⟩
  · obtain ⟨hlast, hsome⟩ := hbooks.error hfailed
    obtain ⟨message, hmessage⟩ := Option.isSome_iff_exists.mp hsome
    exact ⟨message, hlast.trans hmessage, hmessage⟩

theorem task_bookkeeping_sample :
    (storedTask sampleRetried.store sampleRun "a").attempts = 2 ∧
      (ledger sampleRun "a" sampleRetried.log).dispatches = 2 := by
  have hdispatches : (ledger sampleRun "a" sampleRetried.log).dispatches = 2 := by decide +kernel
  have hbooks := (task_bookkeeping sampleDef_valid (by decide) sampleStore_submitted sample_history
    (by decide +kernel)).2 _ List.mem_cons_self
  exact ⟨hbooks.1.trans hdispatches, hdispatches⟩

end Guarantees

end Runvane.Scheduler
