import Runvane.Domain.Consistency
import Runvane.Scheduler.Amidst
import Runvane.Scheduler.History

/-!
# A run agrees with its tasks

A run is dispatched and attempted, one thing at a time, and an operator may cancel it at any moment,
also between two calls of an attempt or of a dispatch (`Cancels`). Nothing panics or is cut off, so
that every attempt and every dispatch comes to its end, be it an error (`Managed`).

Between two such steps no task is running, and a task is skipped only if some task has failed
(`Calm`), unless the run is terminal, and then stays as it is. For a retry may turn the failure that
caused a task to be skipped into a success: the run then succeeds with a task skipped and none
failed. An attempt that returns leaves the run cancelled, or timed out with its tasks calm, or with
all its tasks terminal and a status that fits them (`Agreed`). In each case the consistency check
accepts what is stored (`attempt_leaves_consistent`).
-/

set_option autoImplicit false

namespace Runvane.Scheduler

open Library Domain Persistence Prog
open CallProgram (Amid amid_bind amid_mono amid_of_disturbed Disturbed ofResult)
open Relation (ReflTransGen)

/-! ### The life of a run -/

def Cancels (env : Env) (r : RunId) (w w' : World) : Prop :=
  ∃ nowMs, w' = w.after env (.store (.cancelRun r nowMs))

/-- An attempt or a dispatch that comes to its end without a panic, while the run may be cancelled,
or a cancellation. -/
inductive Managed (env : Env) (r : RunId) : World → World → Prop
  | attempt (ex : RunExecutor) (token : Option ClaimToken) (leaseMs : ℤ) {w w' : World}
      {result : Except (Abort ExecutorError) AttemptOutcome} (hresult : result ≠ .error .panic)
      (h : Disturbed (serve env) (Cancels env r) (attemptWithToken ex r token leaseMs, w)
        (ofResult result, w')) : Managed env r w w'
  | dispatch {w w' : World} {result : Except (Abort StorageError) Unit}
      (h : Disturbed (serve env) (Cancels env r) (markRunning r, w) (ofResult result, w')) :
      Managed env r w w'
  | cancel {w w' : World} (h : Cancels env r w w') : Managed env r w w'

/-! ### What the steps keep -/

/-- No task is running, and one is skipped only if one has failed. -/
structure Calm (r : RunId) (d : WorkflowDef) (s : MemoryStore) : Prop where
  idle : ∀ t ∈ d.names, (board r s t).status ≠ .running
  skipped : ∀ t ∈ d.names, (board r s t).status = .skipped →
    ∃ other ∈ d.names, (board r s other).status = .failed

def RunTerminal (s : MemoryStore) (r : RunId) : Prop :=
  ∃ status : RunStatus, status.isTerminal = true ∧ RunHasStatus s r status

/-- Between two steps, the tasks are calm or the run is terminal. -/
structure Rested (r : RunId) (d : WorkflowDef) (w : World) : Prop where
  fit : Fit r d w
  calm : Calm r d w.store ∨ RunTerminal w.store r

/-- What an attempt that returns leaves: the run is cancelled, or timed out and calm, or decided. -/
structure Agreed (r : RunId) (d : WorkflowDef) (w : World) : Prop where
  fit : Fit r d w
  status : RunHasStatus w.store r .cancelled ∨
    RunHasStatus w.store r .timedOut ∧ Calm r d w.store ∨ Concluded r d w.store

section Steps

variable {env : Env} {r : RunId} {d : WorkflowDef} {w w' : World} {s s' : MemoryStore}

theorem Calm.of_board (h : Calm r d s) (hboard : board r s' = board r s) : Calm r d s' := by
  obtain ⟨hidle, hskipped⟩ := h
  rw [← hboard] at hidle hskipped
  exact ⟨hidle, hskipped⟩

theorem runHasStatus_of_runs {status : RunStatus} (h : RunHasStatus s r status)
    (hruns : s'.runs = s.runs) : RunHasStatus s' r status := by
  rw [runHasStatus_iff] at h ⊢
  rwa [hruns]

/-- A cancellation leaves the tasks and the definition of the run alone. -/
theorem Cancels.shared (d : WorkflowDef) (h : Cancels env r w w') : Shared r d w w' := by
  obtain ⟨nowMs, rfl⟩ := h
  change Shared r d w ⟨(w.store.cancelRun r nowMs).2, _⟩
  rcases w.store.cancelRun_cases r nowMs with ⟨-, hstore⟩ | ⟨run, hrun, -, hstore⟩ <;> rw [hstore]
  · exact ⟨rfl, rfl, fun hw ↦ hw⟩
  · have hid : run.id = r := KeyedMap.key_of_get? hrun
    refine ⟨rfl, rfl, fun hw {found} hfound ↦ ?_⟩
    have hdef := hw hrun
    simp only [KeyedMap.get?_put, hid, if_true, Option.some.injEq] at hfound
    subst hfound
    exact hdef

/-- A run that is terminal stays as it is, and any other is stored as cancelled, unless there is
none. -/
theorem Cancels.runs (h : Cancels env r w w') : w'.store.runs = w.store.runs ∨
    RunHasStatus w'.store r .cancelled ∧ ¬ RunTerminal w.store r := by
  obtain ⟨nowMs, rfl⟩ := h
  change (w.store.cancelRun r nowMs).2.runs = _ ∨
    RunHasStatus (w.store.cancelRun r nowMs).2 r _ ∧ _
  rcases w.store.cancelRun_cases r nowMs with ⟨-, hstore⟩ | ⟨run, hrun, hterminal, hstore⟩ <;>
    rw [hstore]
  · exact .inl rfl
  · have hid : run.id = r := KeyedMap.key_of_get? hrun
    refine .inr ⟨?_, ?_⟩
    · rw [runHasStatus_iff]
      simp [KeyedMap.get?_put, hid]
    · rintro ⟨status, hended, hstatus⟩
      rw [runHasStatus_iff, hrun] at hstatus
      obtain rfl := Option.some.inj hstatus
      exact absurd hended (by rw [show run.status.isTerminal = false from hterminal]; simp)

theorem RunTerminal.cancel (hw : RunTerminal w.store r) (h : Cancels env r w w') :
    RunTerminal w'.store r := by
  rcases h.runs with hruns | ⟨hcancelled, -⟩
  · obtain ⟨status, hterminal, hstatus⟩ := hw
    exact ⟨status, hterminal, runHasStatus_of_runs hstatus hruns⟩
  · exact ⟨.cancelled, rfl, hcancelled⟩

theorem Rested.cancel (hw : Rested r d w) (h : Cancels env r w w') : Rested r d w' where
  fit := (h.shared d).fit hw.fit
  calm := hw.calm.imp (fun hcalm ↦ hcalm.of_board (h.shared d).apart.board_eq)
    fun hterminal ↦ hterminal.cancel h

theorem Rested.cancels (hw : Rested r d w) (h : ReflTransGen (Cancels env r) w w') :
    Rested r d w' := by
  induction h with
  | refl => exact hw
  | tail _ hstep ih => exact ih.cancel hstep

theorem Rested.of_same (hw : Rested r d w) (h : SameRecords w.store w'.store) : Rested r d w' where
  fit := h.shared.fit hw.fit
  calm := hw.calm.imp (fun hcalm ↦ hcalm.of_board (h.board_eq r))
    fun ⟨status, hterminal, hstatus⟩ ↦ ⟨status, hterminal, runHasStatus_of_runs hstatus h.runs⟩

theorem Agreed.of_same (hw : Agreed r d w) (h : SameRecords w.store w'.store) : Agreed r d w' where
  fit := h.shared.fit hw.fit
  status := by
    have hboard := h.board_eq r
    have hsame (status : RunStatus) (hstatus : RunHasStatus w.store r status) :
        RunHasStatus w'.store r status := runHasStatus_of_runs hstatus h.runs
    refine hw.status.imp (hsame _) (Or.imp (And.imp (hsame _) fun h ↦ h.of_board hboard) ?_)
    rintro ⟨hterminal, hstatus⟩
    rw [← hboard] at hterminal hstatus
    exact ⟨hterminal, hstatus.imp (hsame _) (And.imp_left (Or.imp (hsame _) (hsame _)))⟩

/-- A cancellation keeps what an attempt has left: a run that waits for its next attempt becomes
cancelled. -/
theorem Agreed.cancel (hw : Agreed r d w) (h : Cancels env r w w') : Agreed r d w' := by
  have hshared := h.shared d
  rcases h.runs with hruns | ⟨hcancelled, -⟩
  · exact hw.of_same ⟨hruns, hshared.taskRuns, hshared.defs⟩
  · exact ⟨hshared.fit hw.fit, .inl hcancelled⟩

theorem Agreed.cancels (hw : Agreed r d w) (h : ReflTransGen (Cancels env r) w w') :
    Agreed r d w' := by
  induction h with
  | refl => exact hw
  | tail _ hstep ih => exact ih.cancel hstep

/-- Where all tasks are terminal none is running. -/
theorem Agreed.rested (hw : Agreed r d w) : Rested r d w where
  fit := hw.fit
  calm := by
    rcases hw.status with hcancelled | ⟨-, hcalm⟩ | ⟨hterminal, hsucceeded | ⟨-, hfailed⟩⟩
    · exact .inr ⟨.cancelled, rfl, hcancelled⟩
    · exact .inl hcalm
    · exact .inr ⟨.succeeded, rfl, hsucceeded⟩
    · refine .inl ⟨fun t ht hrunning ↦ ?_, fun _ _ _ ↦ hfailed⟩
      simpa [hrunning, TaskStatus.isTerminal] using hterminal t ht

end Steps

/-! ### Attempts and dispatches -/

section Programs

variable {env : Env} {r : RunId} {d : WorkflowDef} {w : World}

/-- What was read as not terminal was calm, and still is. -/
theorem Rested.calm_of_read (hw : Rested r d w) {run : Run} (hrun : w.store.runs.get? r = some run)
    (hstatus : run.status.isTerminal = false) : Calm r d w.store := by
  refine hw.calm.resolve_right ?_
  rintro ⟨status, hterminal, hhas⟩
  rw [runHasStatus_iff, hrun] at hhas
  obtain rfl := Option.some.inj hhas
  rw [hstatus] at hterminal
  cases hterminal

/-- An attempt, while the run may be cancelled, returns with the run in agreement with its tasks. If
it fails without a panic, the run is as ready for the next step as before. -/
theorem amid_attemptWithToken (ex : RunExecutor) (token : Option ClaimToken) (leaseMs : ℤ)
    (hd : WellFormed d) (hw : Rested r d w) :
    Amid (serve env) (Cancels env r) (Lawful r d) (fun _ w' ↦ Agreed r d w')
      (fun reason w' ↦ reason = .panic ∨ Rested r d w')
      (attemptWithToken ex r token leaseMs) w := by
  have hchange : ∀ w w', Cancels env r w w' → Shared r d w w' := fun _ _ h ↦ h.shared d
  unfold attemptWithToken
  rw [amid_bind]
  refine amid_silent hchange (.store (.getRun r)) trivial hw.fit
    fun w₁ w₂ hcancels hstore hfit₂ h₂ ↦ ?_
  have hw₁ := hw.cancels hcancels
  have hsame₂ : w₂.store = w₁.store := hstore
  have hw₂ : Rested r d w₂ := hw₁.of_same (by rw [hsame₂]; exact ⟨rfl, rfl, rfl⟩)
  simp only [Env.answer, StoreCall.apply, MemoryStore.getRun]
  cases hrun : w₁.store.runs.get? r with
  | none => exact .inr hw₂
  | some run =>
    rw [← hsame₂] at hrun
    have hid : run.id = r := KeyedMap.key_of_get? hrun
    have hdef := hfit₂.definition hrun
    dsimp only
    rw [amid_bind]
    refine amid_silent hchange (.store (.getWorkflow run.tenant run.defName)) trivial hfit₂
      fun w₃ w₄ hcancels₃ hstore hfit₄ h₄ ↦ ?_
    have hsame₄ : SameRecords w₃.store w₄.store := by
      rw [hstore]
      exact sameRecords_after env w₃ _ trivial
    have hget : w₃.store.getWorkflow run.tenant run.defName = .ok ⟨d⟩ := by
      unfold MemoryStore.getWorkflow
      rw [(Shared.of_changes hchange hcancels₃).defs, hdef]
    simp only [Env.answer, StoreCall.apply, hget]
    by_cases hstatus : run.status = .running
    · rw [if_neg (not_not_intro hstatus), amid_bind]
      have hcalm : Calm r d w₂.store := hw₂.calm_of_read hrun (by rw [hstatus]; rfl)
      refine Setting.holds_reads (K := .amidst env hchange) (returns_deadlinePassed run)
        (hid ▸ ReadCall.silent) hfit₄ fun passed w₅ _ hfit₅ h₅ ↦ ?_
      have h₂₅ := h₄.trans h₅
      have hcalm₅ : Calm r d w₅.store := hcalm.of_board h₂₅.board_eq
      split_ifs
      · exact Setting.holds_finishTimedOut (K := .amidst env hchange) hfit₅ (.refl r w₅)
          ⟨hid, by rwa [h₂₅.defs]⟩ fun w₆ _ hfit₆ hend ↦
            ⟨hfit₆, .inr (.inl ⟨hend.2, hcalm₅.of_board hend.1⟩)⟩
      · refine amid_mono ?_ ?_ (amid_runWaves hchange hd hfit₅ hid (by rwa [h₂₅.defs]) hstatus)
        · rintro _ w₆ ⟨hfit₆, hend⟩
          exact ⟨hfit₆, hend.imp_right .inr⟩
        · rintro reason w₆ (hpanic | ⟨t, ht, hrunning⟩)
          · exact .inl hpanic
          · exact absurd hrunning (hcalm₅.idle t ht)
    · rw [if_pos hstatus]
      split_ifs with hcancelled
      · have hagreed : Agreed r d w₂ := by
          refine ⟨hfit₂, .inl (runHasStatus_iff.mpr ?_)⟩
          rw [hrun, ← hcancelled]
          rfl
        exact (hagreed.cancels hcancels₃).of_same hsame₄
      · exact .inr ((hw₂.cancels hcancels₃).of_same hsame₄)

/-- A dispatch, while the run may be cancelled, leaves the run as ready for the next step as before.
-/
theorem amid_markRunning (hw : Rested r d w) :
    Amid (serve env) (Cancels env r) (Lawful r d) (fun _ w' ↦ Rested r d w')
      (fun _ w' ↦ Rested r d w') (markRunning r) w := by
  have hchange : ∀ w w', Cancels env r w w' → Shared r d w w' := fun _ _ h ↦ h.shared d
  unfold markRunning
  rw [amid_bind]
  refine amid_silent hchange (.store (.getRun r)) trivial hw.fit
    fun w₁ w₂ hcancels hstore hfit₂ h₂ ↦ ?_
  have hw₁ := hw.cancels hcancels
  have hsame₂ : w₂.store = w₁.store := hstore
  have hw₂ : Rested r d w₂ := hw₁.of_same (by rw [hsame₂]; exact ⟨rfl, rfl, rfl⟩)
  simp only [Env.answer, StoreCall.apply, MemoryStore.getRun]
  cases hrun : w₁.store.runs.get? r with
  | none => exact hw₂
  | some run =>
    rw [← hsame₂] at hrun
    have hid : run.id = r := KeyedMap.key_of_get? hrun
    have hdef := hfit₂.definition hrun
    dsimp only
    split_ifs with hrunning hqueued
    · exact hw₂
    · exact hw₂
    · have hcalm : Calm r d w₂.store :=
        hw₂.calm_of_read hrun (by rw [not_not.mp hqueued]; rfl)
      simp only [RunFsm.validate, RunFsm.isLegal, RunFsm.canTransition, if_true, amid_bind]
      refine amid_silent hchange .nowMs trivial hfit₂ fun _ w₃ _ _ hfit₃ h₃ ↦ ?_
      intro w₄ hcancels₄
      have hshared := Shared.of_changes hchange hcancels₄
      have hdef₄ : w₄.store.defs[WorkflowKey.mk run.tenant run.defName]? = some ⟨d⟩ := by
        rwa [hshared.defs, h₃.defs]
      exact ⟨⟨hid, hdef₄⟩,
        ((hshared.fit hfit₃).putRun env { run with status := .running, startedAtMs := _ } hid
          hdef₄).1,
        .inl (hcalm.of_board (h₃.trans hshared.apart).board_eq)⟩

theorem Rested.managed (hd : WellFormed d) (hw : Rested r d w) {w' : World}
    (h : Managed env r w w') :
    Rested r d w' := by
  cases h with
  | @attempt ex token leaseMs _ _ result hresult h =>
    obtain ⟨w₁, hcancels, hend⟩ := amid_of_disturbed
      (amid_attemptWithToken ex token leaseMs hd hw) h
    cases result with
    | ok outcome =>
      have hagreed : Agreed r d w₁ := hend
      exact hagreed.rested.cancels hcancels
    | error reason =>
      have hfail : reason = .panic ∨ Rested r d w₁ := hend
      rcases hfail with rfl | hw₁
      · exact absurd rfl hresult
      · exact hw₁.cancels hcancels
  | @dispatch _ _ result h =>
    obtain ⟨w₁, hcancels, hend⟩ := amid_of_disturbed (amid_markRunning hw) h
    have hw₁ : Rested r d w₁ := by cases result <;> exact hend
    exact hw₁.cancels hcancels
  | cancel h => exact hw.cancel h

/-- Between any two steps of its life the run is at rest. -/
theorem Rested.history (hd : WellFormed d) (hw : Rested r d w) {w' : World}
    (h : ReflTransGen (Managed env r) w w') : Rested r d w' := by
  induction h with
  | refl => exact hw
  | tail _ hstep ih => exact ih.managed hd hstep

end Programs

/-! ### The check -/

section Check

variable {parse : UrlParser} {env : Env} {r : RunId} {d : WorkflowDef} {a : ℕ} {s : MemoryStore}
  {w w' : World}

theorem Submitted.rested (h : Submitted r d a s) : Rested r d ⟨s, []⟩ := by
  have hsound := h.sound
  have hfresh := board_of_noTaskRuns h.noTaskRuns
  refine ⟨⟨hsound.filed, hsound.definition⟩, .inl ⟨fun t _ hrunning ↦ ?_, fun t _ hskipped ↦ ?_⟩⟩
  · simp [hfresh, Board.fresh] at hrunning
  · simp [hfresh, Board.fresh] at hskipped

/-- A task that is not pending has a task run. -/
theorem TasksFiled.exists_stored (h : TasksFiled s r d) {t : String}
    (ht : (board r s t).status ≠ .pending) :
    ∃ tr, s.taskRuns.get? tr.id = some tr ∧ tr.runId = r ∧ tr.taskName = t := by
  cases hget : s.taskRuns.get? (taskRunId r t) with
  | none => simp [board, storedTask, hget] at ht
  | some tr =>
    obtain ⟨hrun, hname⟩ := h.owner hget
    exact ⟨tr, by rwa [KeyedMap.key_of_get? hget], hrun, hname⟩

/-- The check accepts what an attempt leaves. -/
theorem Agreed.consistent (hw : Agreed r d w) {stored : List TaskRun}
    (hstored : w.store.listTaskRunsForRun r = .ok stored) :
    ∃ run, w.store.getRun r = .ok run ∧
      Consistent run.status (stored.map fun tr ↦ (tr.taskName, tr.status)) := by
  have hfiled := hw.fit.filed
  have hmem (tr : TaskRun) (htr : tr ∈ stored) :
      tr.taskName ∈ d.names ∧ tr.status = (board r w.store tr.taskName).status := by
    obtain ⟨hget, hrun⟩ := (mem_of_listTaskRunsForRun hstored).mp htr
    exact ⟨(hfiled.named hget hrun).2, hfiled.status_eq hget hrun⟩
  have hfailed : AnyFailed r d w.store →
      ∃ tr ∈ stored, tr.status = .failed := by
    rintro ⟨t, ht, hstatus⟩
    obtain ⟨tr, hget, hrun, rfl⟩ := hfiled.exists_stored (t := t) (by simp [hstatus])
    exact ⟨tr, (mem_of_listTaskRunsForRun hstored).mpr ⟨hget, hrun⟩,
      (hfiled.status_eq hget hrun).trans hstatus⟩
  have hterminal : AllTerminal r d w.store →
      ∀ tr ∈ stored, tr.status.isTerminal = true := by
    intro hall tr htr
    rw [(hmem tr htr).2]
    exact hall _ (hmem tr htr).1
  -- a run with one of the two statuses of a failure needs no task running, and a skip explained
  have hexplained (hidle : ∀ t ∈ d.names, (board r w.store t).status ≠ .running)
      (hskipped : ∀ t ∈ d.names, (board r w.store t).status = .skipped →
        ∃ other ∈ d.names, (board r w.store other).status = .failed) :
      Consistent .failed (stored.map fun tr ↦ (tr.taskName, tr.status)) := by
    simp only [Consistent, List.mem_map, exists_exists_and_eq_and, forall_exists_index, and_imp,
      forall_apply_eq_imp_iff₂]
    refine ⟨fun tr htr ↦ ?_, fun tr htr hstatus ↦ hfailed ?_⟩
    · rw [(hmem tr htr).2]
      exact hidle _ (hmem tr htr).1
    · exact hskipped _ (hmem tr htr).1 ((hmem tr htr).2.symm.trans hstatus)
  rcases hw.status with ⟨run, hrun, hstatus⟩ | ⟨⟨run, hrun, hstatus⟩, hcalm⟩ |
    ⟨hall, ⟨run, hrun, hstatus⟩ | ⟨⟨run, hrun, hstatus⟩ | ⟨run, hrun, hstatus⟩, hsome⟩⟩
  all_goals refine ⟨run, hrun, ?_⟩; rw [hstatus]
  · trivial
  · exact hexplained hcalm.idle hcalm.skipped
  · simpa only [Consistent, List.forall_mem_map] using hterminal hall
  · refine hexplained (fun t ht hrunning ↦ ?_) fun _ _ _ ↦ hsome
    simpa [hrunning, TaskStatus.isTerminal] using hall t ht
  · trivial

/-- From a submission of a valid definition, through whatever sequence of attempts, dispatches and
cancellations, an attempt that returns leaves a run and task runs that the check accepts. -/
theorem attempt_leaves_consistent (hvalid : validateDefinition parse d = .ok ())
    (hsubmitted : Submitted r d a s) (hsteps : ReflTransGen (Managed env r) ⟨s, []⟩ w)
    {ex : RunExecutor} {token : Option ClaimToken} {leaseMs : ℤ} {outcome : AttemptOutcome}
    (hattempt : Disturbed (serve env) (Cancels env r) (attemptWithToken ex r token leaseMs, w)
      (.ret outcome, w')) :
    ∃ run stored, w'.store.getRun r = .ok run ∧ w'.store.listTaskRunsForRun r = .ok stored ∧
      checkRunConsistency run.status (stored.map fun tr ↦ (tr.taskName, tr.status)) = .ok () := by
  have hd := wellFormed_of_validateDefinition hvalid
  have hw : Rested r d w := hsubmitted.rested.history hd hsteps
  obtain ⟨w₁, hcancels, hend⟩ := amid_of_disturbed
    (amid_attemptWithToken ex token leaseMs hd hw) hattempt
  have hagreed : Agreed r d w₁ := hend
  obtain ⟨run, hrun, hconsistent⟩ := (hagreed.cancels hcancels).consistent rfl
  exact ⟨run, _, hrun, rfl, (checkRunConsistency_eq_ok_iff _ _).mpr hconsistent⟩

/-- An attempt that fails, a dispatch, and the attempt that succeeds. -/
theorem attempt_leaves_consistent_sample : ∃ run stored,
    sampleRetried.store.getRun sampleRun = .ok run ∧
      sampleRetried.store.listTaskRunsForRun sampleRun = .ok stored ∧
      checkRunConsistency run.status (stored.map fun tr ↦ (tr.taskName, tr.status)) = .ok () := by
  have hfirst : Managed (answering failsFirst) sampleRun ⟨sampleStore, []⟩
      (attempted (answering failsFirst) sampleRun ⟨sampleStore, []⟩) :=
    .attempt plainExecutor none 0 (by decide)
      ((CallProgram.reaches_run ..).disturbed _)
  have hdispatch : Managed (answering failsFirst) sampleRun
      (attempted (answering failsFirst) sampleRun ⟨sampleStore, []⟩) sampleRedispatched :=
    .dispatch ((CallProgram.reaches_run ..).disturbed _)
  have hreturns : ((attemptWithToken plainExecutor sampleRun none 0).run
      (serve (answering failsFirst)) sampleRedispatched).1 = .ok ⟨.succeeded, [], .ack, none⟩ := by
    decide
  have hattempt := (CallProgram.reaches_run (serve (answering failsFirst))
    (attemptWithToken plainExecutor sampleRun none 0) sampleRedispatched).disturbed
      (Cancels (answering failsFirst) sampleRun)
  rw [hreturns] at hattempt
  exact attempt_leaves_consistent sampleDef_valid sampleStore_submitted
    ((ReflTransGen.single hfirst).tail hdispatch) hattempt

end Check

end Runvane.Scheduler
