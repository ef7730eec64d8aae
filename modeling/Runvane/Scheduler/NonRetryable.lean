import Runvane.Scheduler.History

/-!
# Failures that are not to be retried

A policy can say that only retryable failures are retried, and a handler classifies its failures.
The executor keeps of a failure only its message: neither the picker nor the retry decision sees its
kind, and the decision asks for the next attempt as if the failure were retryable. So a task that
was rejected for good is invoked again as long as it has attempts left (`invoked_after_rejection`).

What does hold is what the counters give: after a failure in the last attempt that the task's policy
allows, its handler is not invoked again, in any history of the run (`not_invoked_after_rejection`).
-/

set_option autoImplicit false

namespace Runvane.Scheduler

open Library Domain Persistence

/-- The task's policy retries only what is retryable, and the event is a failure of its handler that
is not. -/
def Rejected (r : RunId) (d : WorkflowDef) (task : TaskSpec) : Event → Prop
  | ⟨_, .execute _ ctx, some (.error e)⟩ => ctx.runId = r ∧ ctx.taskName = task.name ∧
      (task.effectiveRetry d.retry).retryableOnly = true ∧ e.kind.retryable = false
  | _ => False

instance (r : RunId) (d : WorkflowDef) (task : TaskSpec) (e : Event) :
    Decidable (Rejected r d task e) := by
  unfold Rejected
  split <;> infer_instance

/-- The stored counter of the task has reached the number of attempts its policy allows. -/
def OutOfAttempts (r : RunId) (d : WorkflowDef) (task : TaskSpec) (s : MemoryStore) : Prop :=
  ∃ tr, s.getTaskRun (taskRunId r task.name) = .ok tr ∧
    (task.effectiveRetry d.retry).maxAttempts ≤ tr.attempts

instance (r : RunId) (d : WorkflowDef) (task : TaskSpec) (s : MemoryStore) :
    Decidable (OutOfAttempts r d task s) :=
  decidable_of_iff ((s.taskRuns.get? (taskRunId r task.name)).any fun tr ↦
      (task.effectiveRetry d.retry).maxAttempts ≤ tr.attempts) (by
    simp only [OutOfAttempts, MemoryStore.getTaskRun_eq_ok, Option.any_eq_true, decide_eq_true_eq])

theorem Rejected.invokes {r : RunId} {d : WorkflowDef} {task : TaskSpec} {e : Event}
    (h : Rejected r d task e) : e.Invokes r task.name := by
  unfold Rejected at h
  split at h
  · exact ⟨_, _, rfl, h.1, h.2.1⟩
  · exact h.elim

section Guarantee

variable {parse : UrlParser} {env : Env} {r : RunId} {d : WorkflowDef} {a : ℕ} {s : MemoryStore}
  {w : World}

/-- From one invocation of a handler to the next, the counter of its task has gone up. -/
theorem Sound.attempts_lt (h : Sound r d a w) (hbudgets : BudgetsOk d) {t : String}
    (ht : t ∈ d.names) {earlier later : List Event} {e e' : Event}
    (hlog : w.log = earlier ++ e :: later) (he' : e' ∈ later) (hinvokes : e.Invokes r t)
    (hinvokes' : e'.Invokes r t) :
    (board r e.store t).attempts < (board r e'.store t).attempts := by
  have hascending := (List.pairwise_cons.mp (h.tallied hbudgets t ht).pairwise).2
  have hsplit : tally r t w.log =
      tally r t earlier ++ (board r e.store t).attempts :: tally r t later := by
    rw [hlog, tally_append]
    simp [tally, hinvokes.mark_eq]
  rw [hsplit] at hascending
  refine (List.pairwise_cons.mp (List.pairwise_append.mp hascending).2.1).1 _ ?_
  refine List.mem_map.mpr ⟨e', List.mem_filter.mpr ⟨he', ?_⟩, rfl⟩
  exact decide_eq_true hinvokes'.mark_eq

/-- In every history of a run: after a task has failed for a reason that is not to be retried, in
the last attempt that its policy allows, its handler is not invoked again. -/
theorem not_invoked_after_rejection (hvalid : validateDefinition parse d = .ok ())
    (hpolicy : validateWorkflowPolicy d = .ok ()) (hsubmitted : Submitted r d a s)
    (h : History env r ⟨s, []⟩ w) {task : TaskSpec} (htask : task ∈ d.tasks)
    {earlier later : List Event} {e : Event} (hlog : w.log = earlier ++ e :: later)
    (hrejected : Rejected r d task e) (hlast : OutOfAttempts r d task e.store) :
    ∀ e' ∈ later, ¬ e'.Invokes r task.name := by
  intro e' he' hinvokes'
  have hd := wellFormed_of_validateDefinition hvalid
  have hsound := sound_of_history hd hsubmitted h
  have hbudgets := budgetsOk_of_valid hvalid hpolicy
  have hname : task.name ∈ d.names := List.mem_map_of_mem htask
  have hlt := hsound.attempts_lt hbudgets hname hlog he' hrejected.invokes hinvokes'
  have hstore : e'.store ∈ w.stores := by
    refine List.mem_append_left _ (List.mem_map_of_mem ?_)
    rw [hlog]
    exact List.mem_append_right _ (List.mem_cons_of_mem _ he')
  have hle := (hsound.ok_of_mem hstore).attempts_le task.name
  have hpositive := (hbudgets task.name hname).1
  simp only [boardRules, hd.policyOf_eq htask] at hle hpositive
  obtain ⟨tr, htr, hspent⟩ := hlast
  have hstored : (board r e.store task.name).attempts = tr.attempts := by
    simp [board, storedTask, MemoryStore.getTaskRun_eq_ok.mp htr]
  omega

end Guarantee

/-- The two tasks of the small workflow, under a policy that retries only what is retryable. -/
def strictDef (attempts : ℕ) : WorkflowDef :=
  { sampleDef with retry := { RetryPolicy.fixed attempts 1000 with retryableOnly := true } }

/-- A store with the definition and a running run of it. -/
def strictStore (attempts : ℕ) : MemoryStore :=
  ((MemoryStore.new.putWorkflow (strictDef attempts)).2.putRun
    { id := sampleRun, tenant := "t", defName := "flow", status := .running }).2

/-- The first task of the small workflow. -/
def sampleTask : TaskSpec := { name := "a", handler := ⟨"h"⟩ }

theorem strictStore_submitted (attempts : ℕ) :
    Submitted sampleRun (strictDef attempts) 0 (strictStore attempts) where
  run := ⟨_, rfl, rfl, Std.ExtTreeMap.getElem?_insert_self⟩
  noTaskRuns := noTaskRuns_of_empty rfl _

/-- The world after an attempt in which the first task fails, another dispatch and another attempt.
-/
def strictRetried (attempts : ℕ) : World :=
  attempted (answering failsFirst) sampleRun (dispatched (answering failsFirst) sampleRun
    (attempted (answering failsFirst) sampleRun ⟨strictStore attempts, []⟩))

theorem strict_history (attempts : ℕ) :
    History (answering failsFirst) sampleRun ⟨strictStore attempts, []⟩ (strictRetried attempts) :=
  ((Relation.ReflTransGen.single (.attempted ..)).tail (.dispatched ..)).tail (.attempted ..)

/-- A policy of one attempt is spent by the failure. -/
theorem not_invoked_after_rejection_sample : ∃ earlier e later,
    (strictRetried 1).log = earlier ++ e :: later ∧
      Rejected sampleRun (strictDef 1) sampleTask e ∧
      ∀ e' ∈ later, ¬ e'.Invokes sampleRun "a" := by
  have hevent : ∃ e ∈ (strictRetried 1).log, Rejected sampleRun (strictDef 1) sampleTask e ∧
      OutOfAttempts sampleRun (strictDef 1) sampleTask e.store := by decide
  obtain ⟨e, he, hrejected, hlast⟩ := hevent
  obtain ⟨earlier, later, hlog⟩ := List.append_of_mem he
  have hvalid : validateDefinition (fun _ ↦ .error "") (strictDef 1) = .ok () := by decide
  exact ⟨earlier, e, later, hlog, hrejected, not_invoked_after_rejection hvalid (by decide)
    (strictStore_submitted 1) (strict_history 1) List.mem_cons_self hlog hrejected hlast⟩

/-- With attempts left, a task that was rejected is invoked again in the next attempt of the run. -/
theorem invoked_after_rejection :
    validateDefinition (fun _ ↦ .error "") (strictDef 3) = .ok () ∧
    validateWorkflowPolicy (strictDef 3) = .ok () ∧
    Submitted sampleRun (strictDef 3) 0 (strictStore 3) ∧
    History (answering failsFirst) sampleRun ⟨strictStore 3, []⟩ (strictRetried 3) ∧
    ∃ earlier e later, (strictRetried 3).log = earlier ++ e :: later ∧
      Rejected sampleRun (strictDef 3) sampleTask e ∧ ∃ e' ∈ later, e'.Invokes sampleRun "a" := by
  refine ⟨by decide, by decide, strictStore_submitted 3, strict_history 3, ?_⟩
  have hevents :
      (∃ e ∈ (strictRetried 3).log.take 20, Rejected sampleRun (strictDef 3) sampleTask e) ∧
      ∃ e' ∈ (strictRetried 3).log.drop 20, e'.Invokes sampleRun "a" := by decide
  obtain ⟨⟨e, he, hrejected⟩, e', he', hinvokes⟩ := hevents
  obtain ⟨earlier, later, hlog⟩ := List.append_of_mem he
  refine ⟨earlier, e, later ++ (strictRetried 3).log.drop 20, ?_, hrejected, e',
    List.mem_append_right _ he', hinvokes⟩
  rw [← List.cons_append, ← List.append_assoc, ← hlog, List.take_append_drop]

end Runvane.Scheduler
