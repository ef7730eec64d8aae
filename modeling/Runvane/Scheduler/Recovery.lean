import Runvane.Scheduler.Retry

/-!
# Recovery after a crash

An attempt that is cut off between storing a task as running and storing its result leaves that task
running. No later attempt picks it up: it is neither pending nor failed. So a later attempt ends in
an invariant violation exactly when it finds such a task (`recovers_iff_none_running`).
-/

set_option autoImplicit false

namespace Runvane.Scheduler

open Library Domain Persistence Prog

section Recovery

variable {parse : UrlParser} {env env' : Env} {r : RunId} {d : WorkflowDef} {a : ℕ}
  {s : MemoryStore} {w : World}

/-- From every state a history can reach: an attempt of the running run within its deadline, with
handlers that return, avoids the invariant violation exactly when no task is stored as running. -/
theorem recovers_iff_none_running (ex : RunExecutor) (token : Option ClaimToken) (leaseMs : ℤ)
    (hvalid : validateDefinition parse d = .ok ()) (hsubmitted : Submitted r d a s)
    (h : History env r ⟨s, []⟩ w) (hrunning : RunHasStatus w.store r .running)
    (hopen : DeadlineOpen env' r w) (hreturn : HandlersReturn env' r) :
    (∀ message, ((attemptWithToken ex r token leaseMs).run (serve env') w).1 ≠
        .error (.error (.invariant message))) ↔
      ∀ t ∈ d.names, ¬ HasStatus w.store r t .running := by
  have hd := wellFormed_of_validateDefinition hvalid
  have hw := sound_of_history hd hsubmitted h
  obtain ⟨run, hrun, hstatus⟩ := hrunning
  rw [MemoryStore.getRun_eq_ok] at hrun
  simp only [hasStatus_iff (show TaskStatus.running ≠ .pending by simp)]
  cases hresult : (attemptWithToken ex r token leaseMs).run (serve env') w with
  | mk result w' =>
    rcases attempt_cases ex token leaseMs hd hw (settles_true env' r d) hrun hstatus hopen hreturn
      hresult with
      ⟨outcome, ws, w₁, rfl, -, hcourse, hterminal, -⟩ |
      ⟨message, executed, w₁, rfl, hcollapsed, t, ht, hnot⟩ |
      ⟨executed, w₁, rfl, hcollapsed, hterminal, -, -⟩
    · refine iff_of_true (by simp) fun t ht ↦ ?_
      exact ((hcourse.collapsed (by simp)).isTerminal_iff ht).mp (hterminal t ht)
    · refine iff_of_false (fun hnever ↦ hnever message rfl) fun hidle ↦ ?_
      simp [(hcollapsed.isTerminal_iff ht).mpr (hidle t ht)] at hnot
    · exact iff_of_true (by simp) fun t ht ↦ (hcollapsed.isTerminal_iff ht).mp (hterminal t ht)

theorem recovers_iff_none_running_sample :
    (∀ message, ((attemptWithToken plainExecutor sampleRun none 0).run (serve allUp)
        sampleRedispatched).1 ≠ .error (.error (.invariant message))) ↔
      ∀ t ∈ sampleDef.names, ¬ HasStatus sampleRedispatched.store sampleRun t .running :=
  recovers_iff_none_running plainExecutor none 0 sampleDef_valid sampleStore_submitted
    ((Relation.ReflTransGen.single (.attempted (answering failsFirst) ..)).tail (.dispatched ..))
    (by decide) (deadlineOpen_of_none _ (by decide))
    (handlersReturn_answering (by simp) sampleRun)

def allPanic : Env := answering fun _ ↦ none

/-- After a panic of its first handler the run is still running, and an attempt of it with handlers
that now return ends in the invariant violation. -/
theorem stuck_after_panic :
    validateDefinition (fun _ ↦ .error "") sampleDef = .ok () ∧
    Submitted sampleRun sampleDef 0 sampleStore ∧
    History allPanic sampleRun ⟨sampleStore, []⟩ (attempted allPanic sampleRun ⟨sampleStore, []⟩) ∧
    RunHasStatus (attempted allPanic sampleRun ⟨sampleStore, []⟩).store sampleRun .running ∧
    DeadlineOpen allUp sampleRun (attempted allPanic sampleRun ⟨sampleStore, []⟩) ∧
    HandlersReturn allUp sampleRun ∧
    ((attemptWithToken plainExecutor sampleRun none 0).run (serve allUp)
        (attempted allPanic sampleRun ⟨sampleStore, []⟩)).1 =
      .error (.error (.invariant "attempt ended with non-terminal tasks")) := by
  refine ⟨sampleDef_valid, sampleStore_submitted, .single (.attempted ..), by decide,
    deadlineOpen_of_none _ (by decide), handlersReturn_answering (by simp) sampleRun, ?_⟩
  decide

end Recovery

end Runvane.Scheduler
