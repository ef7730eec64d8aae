import Runvane.Scheduler.FirstAttempt

/-!
# Retries

A run whose handlers return is attempted again and again, each attempt to its end. The sequence is
recorded as `Attempts`, with the world in which each attempt started.

Every such sequence ends: a run that is dispatched whenever it is queued has succeeded or failed
after at most as many attempts as its policy allows (`retries_terminate`).

What a success of the run means depends on where its attempts started. A task that one attempt
skipped stays skipped in all later ones, also when the failure it was skipped for is repaired, and
the run then succeeds without it. So a run that succeeded has run all its tasks exactly when none of
its attempts started with a skipped task (`all_succeeded_iff_none_skipped`).
-/

set_option autoImplicit false

namespace Runvane.Scheduler

open Library Domain Persistence Prog

/-- A sequence of whole attempts and dispatches of a run, with the worlds in which the attempts
started. In between the store may change in what does not concern the run. -/
inductive Attempts (env : Env) (r : RunId) (w₀ : World) : List World → World → Prop
  | start : Attempts env r w₀ [] w₀
  | attempt (ex : RunExecutor) (token : Option ClaimToken) (leaseMs : ℤ) {starts : List World}
      {w w' : World} {result : Except (Abort ExecutorError) AttemptOutcome}
      (h : Attempts env r w₀ starts w)
      (hresult : (attemptWithToken ex r token leaseMs).run (serve env) w = (result, w')) :
      Attempts env r w₀ (starts ++ [w]) w'
  | dispatch {starts : List World} {w w' : World} {result : Except (Abort StorageError) Unit}
      (h : Attempts env r w₀ starts w)
      (hresult : (markRunning r).run (serve env) w = (result, w')) :
      Attempts env r w₀ starts w'
  | other {starts : List World} {w : World} {s : MemoryStore} (h : Attempts env r w₀ starts w)
      (hother : Undisturbed r w.store s) : Attempts env r w₀ starts ⟨s, w.log⟩

/-! ### Attempts -/

/-- A task that no attempt starts or skips. -/
def Cell.Frozen (cell : Cell) : Prop := cell.status ≠ .pending ∧ cell.status ≠ .failed

variable {t : String} {run : Run}

section Attempt

variable {env : Env} {r : RunId} {d : WorkflowDef} {a : ℕ} {w w' : World}
  {ok : String → Bool → Prop} {executed : List String} {outcome : AttemptOutcome}
  {reason : Abort ExecutorError}

/-- A frozen task is left alone by the waves and the collapse. -/
theorem Collapsed.frozen (h : Collapsed (Touched r) r d ok w executed w')
    (ht : (board r w.store t).Frozen) : board r w'.store t = board r w.store t := by
  refine h.kept t (fun hexecuted ↦ ?_) ht.1
  rcases h.started t hexecuted with hpending | ⟨hfailed, -⟩
  · exact ht.1 hpending
  · exact ht.2 hfailed

/-- When an attempt that began without skipped tasks ends with all tasks terminal and none failed,
all have succeeded. -/
theorem Collapsed.all_succeeded (hd : WellFormed d) (h : Collapsed (Touched r) r d ok w executed w')
    (hterminal : AllTerminal r d w'.store)
    (hnone : ∀ t ∈ d.names, (board r w'.store t).status ≠ .failed)
    (hclean : ∀ t ∈ d.names, (board r w.store t).status ≠ .skipped) (ht : t ∈ d.names) :
    (board r w'.store t).status = .succeeded := by
  obtain ⟨rank, hrank⟩ := hd.rank
  -- a skipped task of least rank would have all its dependencies succeeded
  induction hn : rank t using Nat.strong_induction_on generalizing t with
  | _ n ih =>
    subst hn
    have hnot : (board r w'.store t).status ≠ .skipped := by
      intro hskipped
      have hout : t ∉ executed := by
        intro hexecuted
        obtain ⟨status, hfinal, -, hcell⟩ := h.settled t hexecuted
        rcases hfinal with rfl | rfl <;> simp [hcell] at hskipped
      have hpending : (board r w.store t).status = .pending := by
        by_contra hne
        rw [h.kept t hout hne] at hskipped
        exact hclean t ht hskipped
      refine (h.skipped t ht hout hpending).2 ?_
      rintro dep ⟨task, htask, rfl, hdep⟩
      exact ih (rank dep) (hrank task htask dep hdep) (hd.known task htask dep hdep) rfl
    have hend := hterminal t ht
    have hfailed := hnone t ht
    revert hend hfailed hnot
    cases (board r w'.store t).status <;> simp [TaskStatus.isTerminal]

theorem AttemptEnd.frozen (h : AttemptEnd env r d ok w outcome w')
    (ht : (board r w.store t).Frozen) : board r w'.store t = board r w.store t := by
  cases h with
  | cancelled run _ hrun hstatus htouched => rw [htouched.board_eq]
  | timedOut run error w₁ _ hrun hstatus hlate htouched hdecided =>
    rw [hdecided.board_eq, htouched.board_eq]
  | decided run ws w₁ _ _ hrun hstatus hcourse hterminal hverdict =>
    rw [hverdict.board_eq, (hcourse.collapsed (by simp)).frozen ht]

theorem AttemptFail.frozen (h : AttemptFail env r d ok w reason w')
    (hreturn : HandlersReturn env r) (ht : (board r w.store t).Frozen) :
    board r w'.store t = board r w.store t := by
  cases h with
  | runLost _ hrun htouched => rw [htouched.board_eq]
  | notRunning run _ message hrun hstatus htouched => rw [htouched.board_eq]
  | handlerPanic _ hpanic => exact absurd hreturn hpanic
  | notTerminal run executed w₁ _ message hrun hstatus hcollapsed hrunning htouched =>
    rw [htouched.board_eq, hcollapsed.frozen ht]
  | backoffPanic run executed w₁ _ hrun hstatus hcollapsed hterminal hsome hinvalid htouched =>
    rw [htouched.board_eq, hcollapsed.frozen ht]

/-- Where a run succeeds that began the attempt without skipped tasks, all its tasks have. -/
theorem AttemptEnd.all_succeeded (hd : WellFormed d) (h : AttemptEnd env r d ok w outcome w')
    {run' : Run} (hrun' : w'.store.runs.get? r = some run') (hstatus' : run'.status = .succeeded)
    (hclean : ∀ t ∈ d.names, (board r w.store t).status ≠ .skipped) (ht : t ∈ d.names) :
    (board r w'.store t).status = .succeeded := by
  cases h with
  | cancelled run _ hrun hstatus htouched =>
    rw [htouched.runs, hrun] at hrun'
    simp [← Option.some.inj hrun', hstatus] at hstatus'
  | timedOut run error w₁ _ hrun hstatus hlate htouched hdecided =>
    obtain ⟨run₂, hrun₂, hstatus₂, -⟩ := hdecided.run
    rw [hrun₂] at hrun'
    simp [← Option.some.inj hrun', hstatus₂] at hstatus'
  | decided run ws w₁ _ _ hrun hstatus hcourse hterminal hverdict =>
    obtain ⟨run₂, hrun₂, hsucceeded, -⟩ := hverdict.status_iff
    rw [hrun₂] at hrun'
    obtain rfl := Option.some.inj hrun'
    rw [hverdict.board_eq]
    refine (hcourse.collapsed (by simp)).all_succeeded hd hterminal
      (fun t ht hfailed ↦ ?_) hclean ht
    exact hsucceeded.mp hstatus' ⟨t, ht, hfailed⟩

/-- A run that is succeeded after an attempt that failed was so before. -/
theorem AttemptFail.succeeded_before (h : AttemptFail env r d ok w reason w')
    (hreturn : HandlersReturn env r) {run' : Run} (hrun' : w'.store.runs.get? r = some run')
    (hstatus' : run'.status = .succeeded) :
    w.store.runs.get? r = some run' ∧ board r w'.store = board r w.store := by
  cases h with
  | runLost _ hrun htouched => exact ⟨htouched.runs ▸ hrun', htouched.board_eq⟩
  | notRunning run _ message hrun hstatus htouched =>
    exact ⟨htouched.runs ▸ hrun', htouched.board_eq⟩
  | handlerPanic _ hpanic => exact absurd hreturn hpanic
  | notTerminal run executed w₁ _ message hrun hstatus hcollapsed hrunning htouched =>
    rw [htouched.runs, hcollapsed.runs, hrun] at hrun'
    simp [← Option.some.inj hrun', hstatus] at hstatus'
  | backoffPanic run executed w₁ _ hrun hstatus hcollapsed hterminal hsome hinvalid htouched =>
    rw [htouched.runs, hcollapsed.runs, hrun] at hrun'
    simp [← Option.some.inj hrun', hstatus] at hstatus'

end Attempt

/-! ### Dispatches -/

section Dispatch

variable {env : Env} {r : RunId} {d : WorkflowDef} {a : ℕ} {w w' : World}
  {result : Except (Abort StorageError) Unit}

theorem DispatchEnd.board_eq (h : DispatchEnd r w w') : board r w'.store = board r w.store := by
  cases h with
  | moved run w₁ hrun hstatus htouched hdecided => rw [hdecided.board_eq, htouched.board_eq]
  | found run hrun hstatus htouched => exact htouched.board_eq

/-- A dispatch leaves the run as it is, or moves it from queued to running. -/
structure Dispatched (r : RunId) (w w' : World) : Prop where
  board_eq : board r w'.store = board r w.store
  run : w'.store.runs.get? r = w.store.runs.get? r ∨ ∃ run run',
    w.store.runs.get? r = some run ∧ run.status = .queued ∧ w'.store.runs.get? r = some run' ∧
      run'.status = .running ∧ run'.attempts = run.attempts

theorem dispatched_of_run (hw : Sound r d a w)
    (hresult : (markRunning r).run (serve env) w = (result, w')) :
    Sound r d a w' ∧ Dispatched r w w' := by
  have hspec := wp_markRunning env hw
  cases result with
  | ok =>
    obtain ⟨hw', hend⟩ := CallProgram.post_of_run hspec hresult
    refine ⟨hw', hend.board_eq, ?_⟩
    cases hend with
    | moved run w₁ hrun hstatus htouched hdecided =>
      obtain ⟨run', hrun', hstatus', hattempts'⟩ := hdecided.run
      exact .inr ⟨run, run', hrun, hstatus, hrun', hstatus', hattempts'⟩
    | found run hrun hstatus htouched => exact .inl (by rw [htouched.runs])
  | error reason =>
    obtain ⟨hw', hfail⟩ := CallProgram.fail_of_run hspec hresult
    exact ⟨hw', hfail.touched.board_eq, .inl (by rw [hfail.touched.runs])⟩

end Dispatch

/-! ### What a success means -/

section Success

variable {parse : UrlParser} {env : Env} {r : RunId} {d : WorkflowDef} {a : ℕ} {s : MemoryStore}
  {w₀ w : World} {starts : List World}

/-- What was frozen when a sequence of attempts or one of them began is the same in the end. -/
theorem Attempts.frozen (hd : WellFormed d) (hw₀ : Sound r d a w₀) (hreturn : HandlersReturn env r)
    (h : Attempts env r w₀ starts w) : Sound r d a w ∧ ∀ w₁ ∈ w₀ :: starts, ∀ t,
      (board r w₁.store t).Frozen → board r w.store t = board r w₁.store t := by
  induction h with
  | start => exact ⟨hw₀, by simp⟩
  | @attempt ex token leaseMs starts w w' result _ hresult ih =>
    obtain ⟨hw, hkept⟩ := ih
    have hspec := wp_attemptWithToken ex token leaseMs hd hw (settles_true env r d)
    obtain ⟨hw', hstep⟩ : Sound r d a w' ∧ ∀ t, (board r w.store t).Frozen →
        board r w'.store t = board r w.store t := by
      cases result with
      | ok outcome => exact (CallProgram.post_of_run hspec hresult).imp_right fun h _ ↦ h.frozen
      | error reason =>
        exact (CallProgram.fail_of_run hspec hresult).imp_right fun h _ ↦ h.frozen hreturn
    refine ⟨hw', fun w₁ hw₁ t ht ↦ ?_⟩
    rw [← List.cons_append, List.mem_append, List.mem_singleton] at hw₁
    rcases hw₁ with hw₁ | rfl
    · have hsame := hkept w₁ hw₁ t ht
      rw [hstep t (by rwa [hsame]), hsame]
    · exact hstep t ht
  | dispatch _ hresult ih =>
    obtain ⟨hw', hdispatched⟩ := dispatched_of_run ih.1 hresult
    exact ⟨hw', by rw [hdispatched.board_eq]; exact ih.2⟩
  | other _ hother ih => exact ⟨ih.1.other hother, by rw [hother.board_eq]; exact ih.2⟩

/-- When no attempt started with a skipped task, the run succeeds with all its tasks. -/
theorem Attempts.all_succeeded (hd : WellFormed d) (hfirst : FirstDispatched r d s)
    (hreturn : HandlersReturn env r) (h : Attempts env r ⟨s, []⟩ starts w)
    (hclean : ∀ w₁ ∈ starts, ∀ t ∈ d.names, (board r w₁.store t).status ≠ .skipped)
    (hrun : w.store.runs.get? r = some run) (hstatus : run.status = .succeeded) (ht : t ∈ d.names) :
    (board r w.store t).status = .succeeded := by
  induction h generalizing run with
  | start =>
    obtain ⟨run', hrun', hrunning, -⟩ := hfirst.run
    rw [MemoryStore.getRun_eq_ok, hrun] at hrun'
    simp [Option.some.inj hrun', hrunning] at hstatus
  | @attempt ex token leaseMs starts w w' result h hresult ih =>
    obtain ⟨hw, -⟩ := h.frozen hd hfirst.submitted.sound hreturn
    have hspec := wp_attemptWithToken ex token leaseMs hd hw (settles_true env r d)
    cases result with
    | ok outcome =>
      obtain ⟨-, hend⟩ := CallProgram.post_of_run hspec hresult
      exact hend.all_succeeded hd hrun hstatus (hclean w (by simp)) ht
    | error reason =>
      obtain ⟨-, hfail⟩ := CallProgram.fail_of_run hspec hresult
      obtain ⟨hrun₀, hboard⟩ := hfail.succeeded_before hreturn hrun hstatus
      rw [hboard]
      exact ih (fun w₁ hw₁ ↦ hclean w₁ (List.mem_append_left _ hw₁)) hrun₀ hstatus
  | dispatch h hresult ih =>
    obtain ⟨hw, -⟩ := h.frozen hd hfirst.submitted.sound hreturn
    obtain ⟨-, hdispatched⟩ := dispatched_of_run hw hresult
    rw [hdispatched.board_eq]
    rcases hdispatched.run with hsame | ⟨_, run', -, -, hrun', hrunning, -⟩
    · exact ih hclean (hsame ▸ hrun) hstatus
    · rw [hrun] at hrun'
      simp [Option.some.inj hrun', hrunning] at hstatus
  | other _ hother ih =>
    rw [hother.board_eq]
    exact ih hclean (hother.run ▸ hrun) hstatus

/-- A run that has succeeded after a sequence of attempts has run all its tasks with success exactly
when none of the attempts started with a task that was already skipped. -/
theorem all_succeeded_iff_none_skipped (hvalid : validateDefinition parse d = .ok ())
    (hfirst : FirstDispatched r d s) (hreturn : HandlersReturn env r)
    (h : Attempts env r ⟨s, []⟩ starts w) (hsucceeded : RunHasStatus w.store r .succeeded) :
    (∀ t ∈ d.names, HasStatus w.store r t .succeeded) ↔
      ∀ w₁ ∈ starts, ∀ t ∈ d.names, ¬ HasStatus w₁.store r t .skipped := by
  have hd := wellFormed_of_validateDefinition hvalid
  obtain ⟨run, hrun, hstatus⟩ := hsucceeded
  simp only [hasStatus_iff (show TaskStatus.succeeded ≠ .pending by simp),
    hasStatus_iff (show TaskStatus.skipped ≠ .pending by simp)]
  constructor
  · intro hall w₁ hw₁ t ht hskipped
    obtain ⟨-, hkept⟩ := h.frozen hd hfirst.submitted.sound hreturn
    have hsame := hkept w₁ (List.mem_cons_of_mem _ hw₁) t (by simp [Cell.Frozen, hskipped])
    simp [← hsame, hall t ht] at hskipped
  · exact fun hclean t ht ↦
      h.all_succeeded hd hfirst hreturn hclean (MemoryStore.getRun_eq_ok.mp hrun) hstatus ht

/-- Handlers that always succeed. -/
def allUp : Env := answering fun _ ↦ some (.ok ⟨.null⟩)

theorem handlersReturn_answering
    {answer : TaskContext → Option (Except HandlerError HandlerResult)}
    (h : ∀ ctx, answer ctx ≠ none) (r : RunId) : HandlersReturn (answering answer) r :=
  fun _ _ ctx _ ↦ h ctx

theorem Attempts.attempted {w₀ : World} (h : Attempts env r w₀ starts w) :
    Attempts env r w₀ (starts ++ [w]) (attempted env r w) :=
  .attempt plainExecutor none 0 h rfl

theorem Attempts.dispatched {w₀ : World} (h : Attempts env r w₀ starts w) :
    Attempts env r w₀ starts (dispatched env r w) :=
  .dispatch h rfl

theorem all_succeeded_iff_none_skipped_sample :
    (∀ t ∈ sampleDef.names,
      HasStatus (attempted allUp sampleRun ⟨sampleStore, []⟩).store sampleRun t .succeeded) ↔
    ∀ w₁ ∈ [World.mk sampleStore []], ∀ t ∈ sampleDef.names,
      ¬ HasStatus w₁.store sampleRun t .skipped :=
  all_succeeded_iff_none_skipped sampleDef_valid sampleStore_firstDispatched
    (handlersReturn_answering (by simp) sampleRun) (.attempted .start) (by decide)

/-- The first task fails, the second one is skipped for it; the first one is repaired by a retry,
and the run has succeeded without the second. -/
theorem succeeded_with_skipped_task :
    validateDefinition (fun _ ↦ .error "") sampleDef = .ok () ∧
    validateWorkflowPolicy sampleDef = .ok () ∧
    FirstDispatched sampleRun sampleDef sampleStore ∧
    HandlersReturn (answering failsFirst) sampleRun ∧
    Attempts (answering failsFirst) sampleRun ⟨sampleStore, []⟩
      [⟨sampleStore, []⟩, sampleRedispatched] sampleRetried ∧
    RunHasStatus sampleRetried.store sampleRun .succeeded ∧
    "b" ∈ sampleDef.names ∧ ¬ HasStatus sampleRetried.store sampleRun "b" .succeeded := by
  refine ⟨sampleDef_valid, by decide, sampleStore_firstDispatched,
    handlersReturn_answering (fun ctx ↦ ?_) sampleRun, ?_, by decide, by decide, ?_⟩
  · unfold failsFirst
    split_ifs <;> simp
  · exact (Attempts.start.attempted.dispatched).attempted
  · rw [hasStatus_iff (by simp)]
    decide

end Success

/-! ### Termination -/

section Termination

variable {parse : UrlParser} {env : Env} {r : RunId} {d : WorkflowDef} {s : MemoryStore}
  {w w' : World} {starts : List World} {n : ℕ}

/-- What holds of a run after `n` attempts that came to their decisions: no task is running, and
the run is terminal or has attempts left. -/
structure InBudget (r : RunId) (d : WorkflowDef) (n : ℕ) (w : World) : Prop where
  sound : Sound r d 0 w
  idle : ∀ t ∈ d.names, (board r w.store t).status ≠ .running
  run : ∃ run, w.store.runs.get? r = some run ∧
    (((run.status = .queued ∨ run.status = .running) ∧ run.attempts = n ∧
        n < d.retry.maxAttempts) ∨
      (run.status = .succeeded ∨ run.status = .failed) ∧ n ≤ d.retry.maxAttempts)

theorem Verdict.trail_eq {outcome : AttemptOutcome} (h : Verdict (Decided r) r d run w w' outcome) :
    trail r w'.log = trail r w.log := by
  cases h with
  | succeeded _ hdecided => exact hdecided.trail_eq
  | retried _ _ _ _ hdecided => exact hdecided.trail_eq
  | failed _ _ _ _ hdecided => exact hdecided.trail_eq

/-- The decision uses up one attempt of the run. -/
theorem Verdict.inBudget {outcome : AttemptOutcome} (h : Verdict (Decided r) r d run w w' outcome)
    (hw' : Sound r d 0 w') (hpolicy : d.retry.validate = .ok ()) (hattempts : run.attempts = n)
    (hlt : n < d.retry.maxAttempts) (hidle : ∀ t ∈ d.names, (board r w.store t).status ≠ .running) :
    InBudget r d (n + 1) w' := by
  refine ⟨hw', by rwa [h.board_eq], ?_⟩
  cases h with
  | succeeded hnone hdecided =>
    obtain ⟨run', hrun', hstatus', -⟩ := hdecided.run
    exact ⟨run', hrun', .inr ⟨.inl hstatus', hlt⟩⟩
  | retried failing releaseAtMs hsome hretry hdecided =>
    obtain ⟨run', hrun', hstatus', hattempts'⟩ := hdecided.run
    have hlimit := (RetryPolicy.bounds_of_validate hpolicy).1.2
    unfold maxAttemptsLimit at hlimit
    have hsucc : u32Succ run.attempts = n + 1 := by
      rw [hattempts]
      exact u32Succ_of_lt (by omega)
    have hbudget := hretry.1
    rw [hsucc] at hattempts' hbudget
    exact ⟨run', hrun', .inl ⟨.inl hstatus', hattempts', hbudget⟩⟩
  | failed failing error hsome hretry hdecided =>
    obtain ⟨run', hrun', hstatus', -⟩ := hdecided.run
    exact ⟨run', hrun', .inr ⟨.inr hstatus', hlt⟩⟩

/-- An attempt of a running run within its deadline returns, invokes no handler twice, and uses up
one attempt. -/
theorem InBudget.attempt (ex : RunExecutor) (token : Option ClaimToken) (leaseMs : ℤ)
    (h : InBudget r d n w) (hd : WellFormed d) (hpolicy : d.retry.validate = .ok ())
    (hrunning : RunHasStatus w.store r .running) (hopen : DeadlineOpen env r w)
    (hreturn : HandlersReturn env r) :
    ∃ outcome w', (attemptWithToken ex r token leaseMs).run (serve env) w = (.ok outcome, w') ∧
      InBudget r d (n + 1) w' ∧ ∀ t, invocations r t w'.log ≤ invocations r t w.log + 1 := by
  obtain ⟨run, hrun, hstatus⟩ := hrunning
  rw [MemoryStore.getRun_eq_ok] at hrun
  obtain ⟨outcome, w', ws, w₁, hresult, hw', hcourse, hverdict⟩ :=
    attempt_decides ex token leaseMs hd h.sound (settles_true env r d) hrun hstatus hopen hreturn
      h.idle fun _ _ _ _ ↦ hpolicy
  have hcollapsed := hcourse.collapsed (by simp)
  refine ⟨outcome, w', hresult, ?_, fun t ↦ ?_⟩
  · obtain ⟨run', hrun', hbudget⟩ := h.run
    obtain rfl : run = run' := Option.some.inj (hrun.symm.trans hrun')
    rw [hstatus] at hbudget
    obtain ⟨hattempts, hlt⟩ : run.attempts = n ∧ n < d.retry.maxAttempts := by simpa using hbudget
    refine hverdict.inBudget hw' hpolicy hattempts hlt fun t ht hrunning ↦ ?_
    have hterminal := (hcollapsed.isTerminal_iff ht).mpr (h.idle t ht)
    simp [hrunning, TaskStatus.isTerminal] at hterminal
  · obtain ⟨-, marks, ⟨-, -, -, htrail, -⟩, hcount⟩ := hcollapsed.invoked
    unfold invocations
    rw [hverdict.trail_eq, htrail, List.count_append]
    exact Nat.add_le_add_left (hcount t).1 _

theorem InBudget.dispatch {result : Except (Abort StorageError) Unit} (h : InBudget r d n w)
    (hresult : (markRunning r).run (serve env) w = (result, w')) : InBudget r d n w' := by
  obtain ⟨hw', hdispatched⟩ := dispatched_of_run h.sound hresult
  refine ⟨hw', by rw [hdispatched.board_eq]; exact h.idle, ?_⟩
  obtain ⟨run, hrun, hbudget⟩ := h.run
  rcases hdispatched.run with hsame | ⟨run₁, run', hrun₁, hqueued, hrun', hrunning, hattempts⟩
  · exact ⟨run, hsame ▸ hrun, hbudget⟩
  · obtain rfl : run = run₁ := Option.some.inj (hrun.symm.trans hrun₁)
    rw [hqueued] at hbudget
    exact ⟨run', hrun', .inl ⟨.inr hrunning, by simpa [hattempts] using hbudget⟩⟩

theorem InBudget.other {s : MemoryStore} (h : InBudget r d n w)
    (hother : Undisturbed r w.store s) : InBudget r d n ⟨s, w.log⟩ :=
  ⟨h.sound.other hother, by rw [hother.board_eq]; exact h.idle, by rw [hother.run]; exact h.run⟩

/-- A dispatch of a run that is not terminal returns, and the run is then running. -/
theorem InBudget.markRunning_ok (h : InBudget r d n w)
    (hopen : ¬ RunHasStatus w.store r .succeeded ∧ ¬ RunHasStatus w.store r .failed) (env : Env) :
    n < d.retry.maxAttempts ∧ ∃ w', (markRunning r).run (serve env) w = (.ok (), w') ∧
      RunHasStatus w'.store r .running := by
  obtain ⟨run, hrun, ⟨hstatus, -, hlt⟩ | ⟨hstatus, -⟩⟩ := h.run
  · refine ⟨hlt, ?_⟩
    have hspec := wp_markRunning env h.sound
    cases hresult : (markRunning r).run (serve env) w with
    | mk result w' =>
      cases result with
      | ok =>
        refine ⟨w', rfl, ?_⟩
        obtain ⟨-, hend⟩ := CallProgram.post_of_run hspec hresult
        cases hend with
        | moved run₁ w₁ hrun₁ hqueued htouched hdecided =>
          obtain ⟨run', hrun', hstatus', -⟩ := hdecided.run
          exact ⟨run', MemoryStore.getRun_eq_ok.mpr hrun', hstatus'⟩
        | found run₁ hrun₁ hrunning htouched =>
          exact ⟨run₁, MemoryStore.getRun_eq_ok.mpr (by rwa [htouched.runs]), hrunning⟩
      | error reason =>
        obtain ⟨-, hfail⟩ := CallProgram.fail_of_run hspec hresult
        have hmoved := hfail.status hrun
        tauto
  · rw [← MemoryStore.getRun_eq_ok] at hrun
    rcases hstatus with hstatus | hstatus
    · exact absurd ⟨run, hrun, hstatus⟩ hopen.1
    · exact absurd ⟨run, hrun, hstatus⟩ hopen.2

theorem inBudget_of_attempts (hvalid : validateDefinition parse d = .ok ())
    (hpolicy : d.retry.validate = .ok ()) (hsubmitted : Submitted r d 0 s)
    (hqueued : RunHasStatus s r .queued) (hreturn : HandlersReturn env r)
    (h : Attempts env r ⟨s, []⟩ starts w)
    (hstarts : ∀ w₁ ∈ starts, RunHasStatus w₁.store r .running ∧ DeadlineOpen env r w₁) :
    (∀ w₁ ∈ starts, ∃ k, InBudget r d k w₁) ∧ InBudget r d starts.length w := by
  have hd := wellFormed_of_validateDefinition hvalid
  induction h with
  | start =>
    refine ⟨by simp, hsubmitted.sound, fun t _ ↦ ?_, ?_⟩
    · simp [board_of_noTaskRuns hsubmitted.noTaskRuns, Board.fresh]
    · obtain ⟨run, hrun, hattempts, -⟩ := hsubmitted.run
      obtain ⟨run', hrun', hstatus⟩ := hqueued
      rw [MemoryStore.getRun_eq_ok, hrun] at hrun'
      obtain rfl := Option.some.inj hrun'
      exact ⟨run, hrun, .inl ⟨.inl hstatus, hattempts,
        (RetryPolicy.bounds_of_validate hpolicy).1.1⟩⟩
  | @attempt ex token leaseMs starts w w' result _ hresult ih =>
    simp only [List.forall_mem_append, List.forall_mem_singleton] at hstarts
    obtain ⟨hbefore, hw⟩ := ih hstarts.1
    obtain ⟨outcome, w₂, hresult₂, hbudget, -⟩ :=
      hw.attempt ex token leaseMs hd hpolicy hstarts.2.1 hstarts.2.2 hreturn
    obtain ⟨-, rfl⟩ := Prod.mk.inj (hresult.symm.trans hresult₂)
    simp only [List.forall_mem_append, List.forall_mem_singleton, List.length_append,
      List.length_singleton]
    exact ⟨⟨hbefore, _, hw⟩, hbudget⟩
  | dispatch _ hresult ih => exact (ih hstarts).imp_right fun hw ↦ hw.dispatch hresult
  | other _ hother ih => exact (ih hstarts).imp_right fun hw ↦ hw.other hother

/-- A run that is dispatched whenever it is queued, and attempted within its deadline with handlers
that return: every attempt returns and invokes no handler twice, there are at most as many attempts
as the policy allows, and until the run has succeeded or failed it can be dispatched again with
attempts left. -/
theorem retries_terminate (hvalid : validateDefinition parse d = .ok ())
    (hpolicy : validateWorkflowPolicy d = .ok ()) (hsubmitted : Submitted r d 0 s)
    (hqueued : RunHasStatus s r .queued) (hreturn : HandlersReturn env r)
    (h : Attempts env r ⟨s, []⟩ starts w)
    (hstarts : ∀ w₁ ∈ starts, RunHasStatus w₁.store r .running ∧ DeadlineOpen env r w₁) :
    (∀ w₁ ∈ starts, ∀ ex token leaseMs, ∃ outcome w',
      (attemptWithToken ex r token leaseMs).run (serve env) w₁ = (.ok outcome, w') ∧
        ∀ t, invocations r t w'.log ≤ invocations r t w₁.log + 1) ∧
    starts.length ≤ d.retry.maxAttempts ∧
    (RunHasStatus w.store r .succeeded ∨ RunHasStatus w.store r .failed ∨
      starts.length < d.retry.maxAttempts ∧ ∃ w', (markRunning r).run (serve env) w =
        (.ok (), w') ∧ RunHasStatus w'.store r .running) := by
  have hd := wellFormed_of_validateDefinition hvalid
  have hretry := retry_of_validateWorkflowPolicy hpolicy
  obtain ⟨hbefore, hw⟩ :=
    inBudget_of_attempts hvalid hretry hsubmitted hqueued hreturn h hstarts
  refine ⟨fun w₁ hw₁ ex token leaseMs ↦ ?_, ?_, ?_⟩
  · obtain ⟨k, hk⟩ := hbefore w₁ hw₁
    obtain ⟨hrunning, hopen⟩ := hstarts w₁ hw₁
    obtain ⟨outcome, w', hresult, -, hinvoked⟩ :=
      hk.attempt ex token leaseMs hd hretry hrunning hopen hreturn
    exact ⟨outcome, w', hresult, hinvoked⟩
  · obtain ⟨run, -, ⟨-, -, hlt⟩ | ⟨-, hle⟩⟩ := hw.run
    · exact hlt.le
    · exact hle
  · by_cases hsucceeded : RunHasStatus w.store r .succeeded
    · exact .inl hsucceeded
    · by_cases hfailed : RunHasStatus w.store r .failed
      · exact .inr (.inl hfailed)
      · exact .inr (.inr (hw.markRunning_ok ⟨hsucceeded, hfailed⟩ env))

/-- The sample run before its first dispatch. -/
def sampleQueued : World :=
  ⟨(sampleStore.putRun
    { id := sampleRun, tenant := "t", defName := "flow", status := .queued }).2, []⟩

/-- The world after a number of rounds of a dispatch and an attempt that fails. -/
def sampleRounds : ℕ → World
  | 0 => sampleQueued
  | n + 1 => attempted allDown sampleRun (dispatched allDown sampleRun (sampleRounds n))

theorem deadlineOpen_of_none (env : Env)
    (h : (w.store.runs.get? r).bind Run.deadlineAtMs = none) : DeadlineOpen env r w := by
  intro run deadline hrun hdeadline
  simp [hrun, hdeadline] at h

theorem retries_terminate_sample : RunHasStatus (sampleRounds 3).store sampleRun .succeeded ∨
    RunHasStatus (sampleRounds 3).store sampleRun .failed := by
  have hattempts : Attempts allDown sampleRun sampleQueued
      [dispatched allDown sampleRun (sampleRounds 0), dispatched allDown sampleRun (sampleRounds 1),
        dispatched allDown sampleRun (sampleRounds 2)] (sampleRounds 3) :=
    Attempts.start.dispatched.attempted.dispatched.attempted.dispatched.attempted
  have hstarts : ∀ n < 3,
      RunHasStatus (dispatched allDown sampleRun (sampleRounds n)).store sampleRun .running ∧
        DeadlineOpen allDown sampleRun (dispatched allDown sampleRun (sampleRounds n)) := by
    intro n hn
    refine ⟨?_, deadlineOpen_of_none allDown ?_⟩ <;> revert n <;> decide
  obtain ⟨-, -, hend⟩ := retries_terminate sampleDef_valid (by decide)
    ⟨⟨_, rfl, rfl, rfl⟩, noTaskRuns_of_empty rfl sampleRun⟩ (by decide)
    (handlersReturn_answering (by simp) sampleRun) hattempts
    (by simpa using ⟨hstarts 0 (by simp), hstarts 1 (by simp), hstarts 2 (by simp)⟩)
  rcases hend with hsucceeded | hfailed | ⟨hlt, -⟩
  · exact .inl hsucceeded
  · exact .inr hfailed
  · exact absurd hlt (by decide)

end Termination

end Runvane.Scheduler
