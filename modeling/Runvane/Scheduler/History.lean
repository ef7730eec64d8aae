import Runvane.Scheduler.AttemptSpec

/-!
# The life of a run

A run that was submitted is dispatched and attempted again and again. One step of its life
(`LifeStep`) is an attempt or a dispatch that gets as far as some call of it, be it the end, a
panic or a crash; a cancellation by an operator; or a change of the store that concerns other runs.
A history is any sequence of such steps. The invariant `Sound` holds throughout
(`sound_of_history`).

Two guarantees are read off it. A handler is only invoked when all its task depends on has
succeeded, and a success is final (`invoked_after_dependencies`). And however often a run is
attempted, the counters stay within their budgets, and with them the number of invocations
(`budgets_respected`).
-/

set_option autoImplicit false

namespace Runvane.Scheduler

open Library Domain Persistence Prog
open CallProgram (wp wp_bind Reaches)

/-! ### Histories -/

/-- The run is stored with `a` attempts, together with its definition, and has no task runs yet. -/
structure Submitted (r : RunId) (d : WorkflowDef) (a : ℕ) (s : MemoryStore) : Prop where
  run : ∃ run, s.runs.get? r = some run ∧ run.attempts = a ∧
    s.defs[WorkflowKey.mk run.tenant run.defName]? = some ⟨d⟩
  noTaskRuns : NoTaskRuns s r

/-- A change of the store that concerns neither the run nor its task runs nor its definition. -/
structure Undisturbed (r : RunId) (s s' : MemoryStore) : Prop where
  run : s'.runs.get? r = s.runs.get? r
  task : ∀ t, s'.taskRuns.get? (taskRunId r t) = s.taskRuns.get? (taskRunId r t)
  owned : ∀ {tr : TaskRun}, s'.taskRuns.get? tr.id = some tr → tr.runId = r →
    s.taskRuns.get? tr.id = some tr
  definition : ∀ {run : Run}, s.runs.get? r = some run →
    s'.defs[WorkflowKey.mk run.tenant run.defName]? =
      s.defs[WorkflowKey.mk run.tenant run.defName]?

/-- One step in the life of a run. An attempt and a dispatch may stop after any of their calls. -/
inductive LifeStep (env : Env) (r : RunId) : World → World → Prop
  | attempt (ex : RunExecutor) (token : Option ClaimToken) (leaseMs : ℤ) {w w' : World}
      {p : Prog ExecutorError AttemptOutcome}
      (h : Reaches (serve env) (attemptWithToken ex r token leaseMs, w) (p, w')) :
      LifeStep env r w w'
  | dispatch {w w' : World} {p : Prog StorageError Unit}
      (h : Reaches (serve env) (markRunning r, w) (p, w')) : LifeStep env r w w'
  | cancel (nowMs : ℤ) (w : World) : LifeStep env r w (w.after env (.store (.cancelRun r nowMs)))
  | other {w : World} {s : MemoryStore} (h : Undisturbed r w.store s) :
      LifeStep env r w ⟨s, w.log⟩

def History (env : Env) (r : RunId) : World → World → Prop := Relation.ReflTransGen (LifeStep env r)

section Invariant

variable {env : Env} {r : RunId} {d : WorkflowDef} {a : ℕ} {s : MemoryStore} {w w' : World}

/-- The invariant holds of a run that has just been submitted. -/
theorem Submitted.sound (h : Submitted r d a s) : Sound r d a ⟨s, []⟩ := by
  obtain ⟨⟨run, hrun, hattempts, hdef⟩, hnone⟩ := h
  have hfresh := board_of_noTaskRuns hnone
  refine ⟨.of_noTaskRuns hnone d, ?_, ?_, by simp, ?_, ?_, ?_⟩
  · simp [World.stores]
  · simpa [World.stores] using hfresh
  · exact fun _ t _ ↦ ascending_nil _
  · intro run' hrun'
    obtain rfl : run = run' := Option.some.inj (hrun.symm.trans hrun')
    exact hdef
  · intro run' hrun'
    obtain rfl : run = run' := Option.some.inj (hrun.symm.trans hrun')
    exact le_max_of_le_right (by omega)

/-- How a dispatch returns: it moves the run from queued to running, or finds it running. -/
inductive DispatchEnd (r : RunId) (w w' : World) : Prop
  | moved (run : Run) (w₁ : World) (hrun : w.store.runs.get? r = some run)
      (hstatus : run.status = .queued) (htouched : Touched r [] [.check] w w₁)
      (hdecided : Decided r .running run.attempts w₁ w')
  | found (run : Run) (hrun : w.store.runs.get? r = some run) (hstatus : run.status = .running)
      (htouched : Touched r [] [.check] w w')

structure DispatchFail (r : RunId) (w w' : World) : Prop where
  status : ∀ {run : Run}, w.store.runs.get? r = some run →
    run.status ≠ .queued ∧ run.status ≠ .running
  touched : Touched r [] [.check] w w'

/-- The specification of a dispatch. -/
theorem wp_markRunning (env : Env) (hw : Sound r d a w) :
    wp (serve env) (Sound r d a) (fun _ w' ↦ Sound r d a w' ∧ DispatchEnd r w w')
      (fun _ w' ↦ Sound r d a w' ∧ DispatchFail r w w') (markRunning r) w := by
  unfold markRunning
  rw [wp_bind]
  refine wp_check hw fun w₁ hw₁ h₁ ↦ ?_
  cases hrun : w.store.runs.get? r with
  | none =>
    simp only [MemoryStore.getRun, hrun]
    exact ⟨hw₁, by simp [hrun], h₁⟩
  | some run =>
    simp only [MemoryStore.getRun, hrun]
    have hrun₁ : w₁.store.runs.get? r = some run := by rwa [h₁.runs]
    split_ifs with hrunning hqueued
    · exact ⟨hw₁, .found run hrun hrunning h₁⟩
    · refine ⟨hw₁, fun {run'} hrun' ↦ ?_, h₁⟩
      obtain rfl : run = run' := Option.some.inj (hrun.symm.trans hrun')
      exact ⟨hqueued, hrunning⟩
    · simp only [RunFsm.validate, RunFsm.isLegal, RunFsm.canTransition, if_true, wp_bind]
      refine wp_silent .nowMs trivial rfl hw₁ fun w₂ hw₂ h₂ ↦ ⟨hw₂, ?_⟩
      have hrun₂ : w₂.store.runs.get? r = some run := by rwa [h₂.runs]
      have hid : run.id = r := KeyedMap.key_of_get? hrun
      have hdef := hw₂.definition hrun₂
      have hattempts := hw₂.attempts_le hrun₂
      refine ⟨hw₂.after_putRun hid hdef hattempts,
        .moved run w₂ hrun (not_not.mp hqueued) (h₁.trans h₂) ?_⟩
      exact (Touched.refl r w₂).decided env { run with status := .running, startedAtMs := _ } hid

theorem Sound.cancel (hw : Sound r d a w) (env : Env) (nowMs : ℤ) :
    Sound r d a (w.after env (.store (.cancelRun r nowMs))) := by
  have hcases := w.store.cancelRun_cases r nowMs
  have htasks := w.store.taskRuns_cancelRun r nowMs
  refine hw.after_of_taskRuns (by simp [Call.mark]) htasks fun {run'} hrun' ↦ ?_
  change (w.store.cancelRun r nowMs).2.runs.get? r = some run' at hrun'
  change (w.store.cancelRun r nowMs).2.defs[_]? = _ ∧ _
  rcases hcases with ⟨-, hstore⟩ | ⟨run, hrun, -, hstore⟩ <;> rw [hstore] at hrun' ⊢
  · exact ⟨hw.definition hrun', hw.attempts_le hrun'⟩
  · have hid : run.id = r := KeyedMap.key_of_get? hrun
    have hdef := hw.definition hrun
    have hattempts := hw.attempts_le hrun
    simp only [KeyedMap.get?_put, hid, if_true, Option.some.injEq] at hrun'
    subst hrun'
    exact ⟨hdef, hattempts⟩

theorem Undisturbed.board_eq {s s' : MemoryStore} (h : Undisturbed r s s') :
    board r s' = board r s :=
  board_of_get? h.task

theorem Sound.other (hw : Sound r d a w) (h : Undisturbed r w.store s) :
    Sound r d a ⟨s, w.log⟩ := by
  have hboard := h.board_eq
  have hboards : (World.mk s w.log).stores.map (board r) = w.stores.map (board r) := by
    simp [World.stores, hboard]
  refine ⟨⟨?_, ?_⟩, hboards ▸ hw.moves, hboards ▸ hw.fresh, hw.invoked_running, ?_, ?_, ?_⟩
  · intro t tr hget
    exact hw.filed.owner (by rwa [h.task] at hget)
  · exact fun hget hrun ↦ hw.filed.named (h.owned hget hrun) hrun
  · simpa only [hboard] using hw.tallied
  · intro run hrun
    rw [h.run] at hrun
    exact (h.definition hrun).trans (hw.definition hrun)
  · intro run hrun
    rw [h.run] at hrun
    exact hw.attempts_le hrun

/-- Every step in the life of a run keeps the invariant. -/
theorem Sound.lifeStep (hd : WellFormed d) (hw : Sound r d a w) (h : LifeStep env r w w') :
    Sound r d a w' := by
  cases h with
  | attempt ex token leaseMs h =>
    exact CallProgram.mid_of_reaches
      (wp_attemptWithToken ex token leaseMs hd hw (settles_true env r d)) h
      (fun _ _ hend ↦ hend.1) fun _ _ hend ↦ hend.1
  | dispatch h =>
    exact CallProgram.mid_of_reaches (wp_markRunning env hw) h (fun _ _ hend ↦ hend.1)
      fun _ _ hend ↦ hend.1
  | cancel nowMs => exact hw.cancel env nowMs
  | other h => exact hw.other h

/-- The invariant holds throughout the life of a run. -/
theorem sound_of_history (hd : WellFormed d) (hsubmitted : Submitted r d a s)
    (h : History env r ⟨s, []⟩ w) : Sound r d a w := by
  induction h with
  | refl => exact hsubmitted.sound
  | tail _ hstep ih => exact ih.lifeStep hd hstep

end Invariant

/-! ### A small workflow -/

/-- Numerics for delays without growth or jitter. -/
def plainNumerics : Retry.Numerics where
  ofU64 n := .finite n
  sub x _ := x
  mul x _ := x
  powf x _ := x
  draw _ _ _ := 0
  draw_le _ _ _ := Nat.zero_le _

/-- An executor for delays without growth or jitter. -/
def plainExecutor : RunExecutor := ⟨plainNumerics, 0⟩

/-- A world at time zero in which every handler is registered and answers by its context. -/
def answering (answer : TaskContext → Option (Except HandlerError HandlerResult)) : Env where
  clock _ := 0
  registered _ _ := true
  execute _ _ ctx := answer ctx
  token _ := ⟨"token"⟩
  submit _ _ := .ok ()
  order _ := .stored

def failsFirst (ctx : TaskContext) : Option (Except HandlerError HandlerResult) :=
  if ctx.attempt = 1 then some (.error (.permanent "first attempt")) else some (.ok ⟨.null⟩)

def sampleRun : RunId := ⟨"run_1"⟩

/-- Two tasks of which the second depends on the first, and three attempts. -/
def sampleDef : WorkflowDef where
  tenant := "t"
  name := "flow"
  tasks := [{ name := "a", handler := ⟨"h"⟩ },
    { name := "b", handler := ⟨"h"⟩, dependsOn := ["a"] }]
  retry := .fixed 3 1000

def sampleStore : MemoryStore :=
  ((MemoryStore.new.putWorkflow sampleDef).2.putRun
    { id := sampleRun, tenant := "t", defName := "flow", status := .running }).2

def attempted (env : Env) (r : RunId) (w : World) : World :=
  ((attemptWithToken plainExecutor r none 0).run (serve env) w).2

def dispatched (env : Env) (r : RunId) (w : World) : World := ((markRunning r).run (serve env) w).2

def sampleRedispatched : World :=
  dispatched (answering failsFirst) sampleRun
    (attempted (answering failsFirst) sampleRun ⟨sampleStore, []⟩)

def sampleRetried : World := attempted (answering failsFirst) sampleRun sampleRedispatched

theorem sampleDef_valid : validateDefinition (fun _ ↦ .error "") sampleDef = .ok () := by
  decide

theorem noTaskRuns_of_empty {s : MemoryStore} (h : s.taskRuns = .empty) (r : RunId) :
    NoTaskRuns s r := by
  intro id tr hget
  rw [h, KeyedMap.get?_empty] at hget
  cases hget

theorem sampleStore_submitted : Submitted sampleRun sampleDef 0 sampleStore where
  run := ⟨_, rfl, rfl, rfl⟩
  noTaskRuns := noTaskRuns_of_empty rfl sampleRun

theorem LifeStep.attempted (env : Env) (r : RunId) (w : World) :
    LifeStep env r w (attempted env r w) :=
  .attempt plainExecutor none 0 (CallProgram.reaches_run ..)

theorem LifeStep.dispatched (env : Env) (r : RunId) (w : World) :
    LifeStep env r w (dispatched env r w) :=
  .dispatch (CallProgram.reaches_run ..)

theorem sample_history :
    History (answering failsFirst) sampleRun ⟨sampleStore, []⟩ sampleRetried :=
  ((Relation.ReflTransGen.single (.attempted ..)).tail (.dispatched ..)).tail (.attempted ..)

/-! ### Dependencies and budgets -/

section Guarantees

variable {parse : UrlParser} {env : Env} {r : RunId} {d : WorkflowDef} {a : ℕ} {s : MemoryStore}
  {w : World}

/-- What is succeeded in a store the log has seen is so in all stores after it. -/
theorem Sound.succeeded_later (h : Sound r d a w) {earlier later : List MemoryStore}
    {s s' : MemoryStore} {t : String} (hstores : w.stores = earlier ++ s :: later)
    (hs' : s' ∈ later) (hdone : (board r s t).status = .succeeded) :
    (board r s' t).status = .succeeded := by
  have hkeeps := Board.keeps_of_isChain h.moves
  rw [hstores, List.map_append, List.map_cons] at hkeeps
  have hpair := (List.pairwise_cons.mp (List.pairwise_append.mp hkeeps).2.1).1 _
    (List.mem_map_of_mem hs')
  exact (hpair t (.inl hdone)).trans hdone

/-- A handler that is invoked finds everything its task depends on stored as succeeded. -/
theorem Sound.dependencies_succeeded (h : Sound r d a w) {e : Event} (he : e ∈ w.log)
    {handler : HandlerId} {ctx : TaskContext} (hcall : e.call = .execute handler ctx)
    (hrun : ctx.runId = r) {task : TaskSpec} (htask : task ∈ d.tasks)
    (hname : task.name = ctx.taskName) {dep : String} (hdep : dep ∈ task.dependsOn) :
    HasStatus e.store r dep .succeeded := by
  have hinvokes : e.Invokes r ctx.taskName := ⟨handler, ctx, hcall, hrun, rfl⟩
  obtain ⟨-, hrunning⟩ := h.invoked_running e he _ hinvokes.mark_eq
  have hstore : e.store ∈ w.stores := List.mem_append_left _ (List.mem_map_of_mem he)
  have hmet := (h.ok_of_mem hstore).needs_met _ (.inl hrunning)
  exact (hasStatus_iff (by simp)).mpr (hmet dep ⟨task, htask, hname, hdep⟩)

/-- In every history of a run, whatever its handlers answer and wherever its attempts are cut off:
a handler is invoked only when all its task depends on is stored as succeeded, and a task that is
once stored as succeeded stays so and is not invoked again. -/
theorem invoked_after_dependencies (hvalid : validateDefinition parse d = .ok ())
    (hsubmitted : Submitted r d a s) (h : History env r ⟨s, []⟩ w) :
    (∀ e ∈ w.log, ∀ handler ctx, e.call = .execute handler ctx → ctx.runId = r →
      ∃ task ∈ d.tasks, task.name = ctx.taskName ∧
        ∀ dep ∈ task.dependsOn, HasStatus e.store r dep .succeeded) ∧
    ∀ earlier e later, w.log = earlier ++ e :: later →
      ∀ t, HasStatus e.store r t .succeeded → HasStatus w.store r t .succeeded ∧
        ¬ e.Invokes r t ∧ ∀ e' ∈ later, HasStatus e'.store r t .succeeded ∧ ¬ e'.Invokes r t := by
  have hsound := sound_of_history (wellFormed_of_validateDefinition hvalid) hsubmitted h
  have hnot : ∀ e ∈ w.log, ∀ t, (board r e.store t).status = .succeeded → ¬ e.Invokes r t := by
    intro e he t hdone hinvokes
    have hrunning := (hsound.invoked_running e he t hinvokes.mark_eq).2
    simp [hdone] at hrunning
  refine ⟨fun e he handler ctx hcall hrun ↦ ?_, fun earlier e later hlog t hdone ↦ ?_⟩
  · have hinvokes : e.Invokes r ctx.taskName := ⟨handler, ctx, hcall, hrun, rfl⟩
    obtain ⟨task, htask, hname⟩ := List.mem_map.mp
      (hsound.invoked_running e he _ hinvokes.mark_eq).1
    exact ⟨task, htask, hname, fun dep hdep ↦
      hsound.dependencies_succeeded he hcall hrun htask hname hdep⟩
  · rw [hasStatus_iff (by simp)] at hdone
    have hstores : w.stores = earlier.map Event.store ++
        e.store :: (later.map Event.store ++ [w.store]) := by
      simp [World.stores, hlog]
    have hlater : ∀ s' ∈ later.map Event.store ++ [w.store],
        (board r s' t).status = .succeeded := fun s' hs' ↦
      hsound.succeeded_later hstores hs' hdone
    refine ⟨(hasStatus_iff (by simp)).mpr (hlater _ (by simp)), hnot e (by simp [hlog]) t hdone,
      fun e' he' ↦ ?_⟩
    have hdone' := hlater e'.store (List.mem_append_left _ (List.mem_map_of_mem he'))
    exact ⟨(hasStatus_iff (by simp)).mpr hdone', hnot e' (by simp [hlog, he']) t hdone'⟩

theorem invoked_after_dependencies_sample :
    (∀ e ∈ sampleRetried.log, ∀ handler ctx, e.call = .execute handler ctx →
      ctx.runId = sampleRun → ∃ task ∈ sampleDef.tasks, task.name = ctx.taskName ∧
        ∀ dep ∈ task.dependsOn, HasStatus e.store sampleRun dep .succeeded) ∧
    ∀ earlier e later, sampleRetried.log = earlier ++ e :: later →
      ∀ t, HasStatus e.store sampleRun t .succeeded →
        HasStatus sampleRetried.store sampleRun t .succeeded ∧ ¬ e.Invokes sampleRun t ∧
          ∀ e' ∈ later, HasStatus e'.store sampleRun t .succeeded ∧ ¬ e'.Invokes sampleRun t :=
  invoked_after_dependencies sampleDef_valid sampleStore_submitted sample_history

theorem budgetsOk_of_valid (hvalid : validateDefinition parse d = .ok ())
    (hpolicy : validateWorkflowPolicy d = .ok ()) : BudgetsOk d := by
  have hd := wellFormed_of_validateDefinition hvalid
  intro t ht
  obtain ⟨task, htask, rfl⟩ := List.mem_map.mp ht
  rw [hd.policyOf_eq htask]
  have hvalidated : (task.effectiveRetry d.retry).validate = .ok () := by
    unfold TaskSpec.effectiveRetry
    cases hretry : task.retry with
    | none => exact retry_of_validateWorkflowPolicy hpolicy
    | some policy => exact hd.policy task htask policy hretry
  exact (RetryPolicy.bounds_of_validate hvalidated).1

/-- In every history of a run that was submitted with no attempts: no handler is invoked more often
than its task's policy allows, the stored counter of a task stays within that number, and the run's
own counter stays below the number of attempts of the workflow's policy. -/
theorem budgets_respected (hvalid : validateDefinition parse d = .ok ())
    (hpolicy : validateWorkflowPolicy d = .ok ()) (hsubmitted : Submitted r d 0 s)
    (h : History env r ⟨s, []⟩ w) :
    (∀ task ∈ d.tasks,
      invocations r task.name w.log ≤ (task.effectiveRetry d.retry).maxAttempts ∧
        ∀ tr, w.store.getTaskRun (taskRunId r task.name) = .ok tr →
          tr.attempts ≤ (task.effectiveRetry d.retry).maxAttempts) ∧
    ∀ run, w.store.getRun r = .ok run → run.attempts ≤ d.retry.maxAttempts - 1 := by
  have hd := wellFormed_of_validateDefinition hvalid
  have hsound := sound_of_history hd hsubmitted h
  have hbudgets := budgetsOk_of_valid hvalid hpolicy
  refine ⟨fun task htask ↦ ?_, fun run hrun ↦ ?_⟩
  · have hname : task.name ∈ d.names := List.mem_map_of_mem htask
    have hinvoked := hsound.invoked_le hbudgets hname
    have hattempts := hsound.ok.attempts_le task.name
    have hbudget := (hbudgets task.name hname).1
    simp only [boardRules, hd.policyOf_eq htask] at hattempts hbudget
    have hwithin : (board r w.store task.name).attempts ≤
        (task.effectiveRetry d.retry).maxAttempts := by omega
    refine ⟨hinvoked.trans hwithin, fun tr htr ↦ ?_⟩
    simpa [board, storedTask, MemoryStore.getTaskRun_eq_ok.mp htr] using hwithin
  · have hle := hsound.attempts_le (MemoryStore.getRun_eq_ok.mp hrun)
    have hmax := (RetryPolicy.bounds_of_validate (retry_of_validateWorkflowPolicy hpolicy)).1.1
    omega

theorem budgets_respected_sample :
    (∀ task ∈ sampleDef.tasks,
      invocations sampleRun task.name sampleRetried.log ≤
          (task.effectiveRetry sampleDef.retry).maxAttempts ∧
        ∀ tr, sampleRetried.store.getTaskRun (taskRunId sampleRun task.name) = .ok tr →
          tr.attempts ≤ (task.effectiveRetry sampleDef.retry).maxAttempts) ∧
    ∀ run, sampleRetried.store.getRun sampleRun = .ok run →
      run.attempts ≤ sampleDef.retry.maxAttempts - 1 :=
  budgets_respected sampleDef_valid (by decide) sampleStore_submitted sample_history

end Guarantees

end Runvane.Scheduler
