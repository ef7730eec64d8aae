import Runvane.Scheduler.History

/-!
# The first attempt

What the first attempt of a run does, as a function of the answers of its handlers. A task succeeds
when its own handler and those of all its transitive dependencies succeed, it fails when it is the
first on its way to fail, and it is skipped otherwise; the run succeeds, is queued again or fails
accordingly (`first_attempt_spec`).

The attempt gives the direct reading: a task is run when its direct dependencies have succeeded.
The transitive one follows by induction along the rank of the definition
(`hereditary_iff_transGen`).
-/

set_option autoImplicit false

namespace Runvane.Scheduler

open Library Domain Persistence Prog

/-- A property that holds of a point when the point is good and the property holds of all its
successors, holds of it when it and all its transitive successors are good. -/
theorem hereditary_iff_transGen {α : Type} {rel : α → α → Prop} {good holds : α → Prop}
    (domain : α → Prop) (rank : α → ℕ) (hrank : ∀ {x y}, rel x y → rank y < rank x)
    (hdomain : ∀ {x y}, rel x y → domain y)
    (hholds : ∀ x, domain x → (holds x ↔ good x ∧ ∀ y, rel x y → holds y)) {x : α} :
    (∀ y, rel x y → holds y) ↔ ∀ y, Relation.TransGen rel x y → good y := by
  induction hn : rank x using Nat.strong_induction_on generalizing x with
  | _ n ih =>
    subst hn
    constructor
    · intro hsucc y hxy
      obtain ⟨z, hxz, hzy⟩ := Relation.TransGen.head'_iff.mp hxy
      obtain ⟨hgood, hnext⟩ := (hholds z (hdomain hxz)).mp (hsucc z hxz)
      rcases Relation.reflTransGen_iff_eq_or_transGen.mp hzy with rfl | hzy
      · exact hgood
      · exact (ih (rank z) (hrank hxz) rfl).mp hnext y hzy
    · intro hgood z hxz
      refine (hholds z (hdomain hxz)).mpr ⟨hgood z (.single hxz), ?_⟩
      exact (ih (rank z) (hrank hxz) rfl).mpr fun y hzy ↦ hgood y (.head hxz hzy)

/-- A run that is dispatched for the first time: it is running, has no attempts and no task runs,
and its definition is stored. -/
structure FirstDispatched (r : RunId) (d : WorkflowDef) (s : MemoryStore) : Prop where
  run : ∃ run, s.getRun r = .ok run ∧ run.status = .running ∧ run.attempts = 0 ∧
    s.getWorkflow run.tenant run.defName = .ok ⟨d⟩
  noTaskRuns : NoTaskRuns s r

theorem FirstDispatched.submitted {r : RunId} {d : WorkflowDef} {s : MemoryStore}
    (h : FirstDispatched r d s) : Submitted r d 0 s := by
  obtain ⟨run, hrun, -, hattempts, hdef⟩ := h.run
  exact ⟨⟨run, MemoryStore.getRun_eq_ok.mp hrun, hattempts,
    MemoryStore.getWorkflow_eq_ok.mp hdef⟩, h.noTaskRuns⟩

theorem sampleStore_firstDispatched : FirstDispatched sampleRun sampleDef sampleStore where
  run := ⟨_, rfl, rfl, rfl, rfl⟩
  noTaskRuns := sampleStore_submitted.noTaskRuns

variable {t : String} {run : Run}

section FirstAttempt

variable {parse : UrlParser} {env : Env} {r : RunId} {d : WorkflowDef} {a : ℕ} {w w' : World}
  {f : String → Bool} {executed : List String}

section Fresh

variable (h : Collapsed (Touched r) r d (fun t ok ↦ ok = f t) w executed w')
  (hfresh : board r w.store = Board.fresh)
include h hfresh

/-- On a fresh board, a task whose direct dependencies have succeeded is settled as its handler
answers, after one attempt. -/
theorem Collapsed.cell_of_needsMet (ht : t ∈ d.names)
    (hmet : (board r w'.store).NeedsMet (boardRules d) t) :
    board r w'.store t = ⟨if f t then .succeeded else .failed, 1⟩ := by
  have hexecuted : t ∈ executed := by
    by_contra hout
    exact (h.skipped t ht hout (by rw [hfresh]; rfl)).2 hmet
  obtain ⟨status, hfinal, hresult, hcell⟩ := h.settled t hexecuted
  rw [hcell, hfresh, ← hresult]
  rcases hfinal with rfl | rfl <;> rfl

variable (hok : (board r w'.store).Ok (boardRules d))
include hok

/-- On a fresh board, a task with a direct dependency that has not succeeded is skipped. -/
theorem Collapsed.cell_of_not_needsMet (ht : t ∈ d.names)
    (hunmet : ¬ (board r w'.store).NeedsMet (boardRules d) t) :
    board r w'.store t = ⟨.skipped, 0⟩ := by
  have hout : t ∉ executed := by
    intro hexecuted
    obtain ⟨status, hfinal, -, hcell⟩ := h.settled t hexecuted
    refine hunmet (hok.needs_met t ?_)
    rw [Board.Started, hcell]
    exact .inr hfinal
  have hskipped := (h.skipped t ht hout (by rw [hfresh]; rfl)).1
  rwa [hfresh] at hskipped

/-- How the tasks of a fresh board end, by their direct dependencies. -/
theorem Collapsed.status_iff (ht : t ∈ d.names) :
    ((board r w'.store t).status = .succeeded ↔
      f t ∧ (board r w'.store).NeedsMet (boardRules d) t) ∧
    ((board r w'.store t).status = .failed ↔
      ¬ f t ∧ (board r w'.store).NeedsMet (boardRules d) t) ∧
    ((board r w'.store t).status = .skipped ↔
      ¬ (board r w'.store).NeedsMet (boardRules d) t) := by
  by_cases hmet : (board r w'.store).NeedsMet (boardRules d) t
  · rw [h.cell_of_needsMet hfresh ht hmet]
    cases f t <;> simp [hmet]
  · rw [h.cell_of_not_needsMet hfresh hok ht hmet]
    simp [hmet]

/-- The same by their transitive dependencies. -/
theorem Collapsed.needsMet_iff (hd : WellFormed d) (t : String) :
    (board r w'.store).NeedsMet (boardRules d) t ↔
      ∀ dep, Relation.TransGen d.DependsOn t dep → f dep := by
  obtain ⟨rank, hrank⟩ := hd.rank
  refine hereditary_iff_transGen (· ∈ d.names) rank ?_ ?_
    fun t ht ↦ (h.status_iff hfresh hok ht).1
  · rintro _ dep ⟨task, htask, rfl, hdep⟩
    exact hrank task htask dep hdep
  · rintro _ dep ⟨task, htask, rfl, hdep⟩
    exact hd.known task htask dep hdep

/-- A first attempt leaves the failed tasks of a fresh board with one attempt each. -/
theorem Collapsed.canRetry_iff (hd : WellFormed d) (hattempts : run.attempts = 0) :
    CanRetry r d run w'.store ↔ 1 < d.retry.maxAttempts ∧ ∀ task ∈ d.tasks,
      (board r w'.store task.name).status = .failed →
        1 < (task.effectiveRetry d.retry).maxAttempts := by
  have hone : ∀ t ∈ d.names, (board r w'.store t).status = .failed →
      (board r w'.store t).attempts = 1 := by
    intro t ht hfailed
    rw [h.cell_of_needsMet hfresh ht ((h.status_iff hfresh hok ht).2.1.mp hfailed).2]
  unfold CanRetry
  rw [hattempts]
  refine and_congr_right fun _ ↦ ⟨fun hleft task htask hfailed ↦ ?_, fun hleft t ht hfailed ↦ ?_⟩
  · have ht : task.name ∈ d.names := List.mem_map_of_mem htask
    have hlt := hleft task.name ht hfailed
    rwa [hone task.name ht hfailed, hd.policyOf_eq htask] at hlt
  · obtain ⟨task, htask, rfl⟩ := List.mem_map.mp ht
    rw [hone task.name ht hfailed, hd.policyOf_eq htask]
    exact hleft task htask hfailed

end Fresh

section Verdict

variable {outcome : AttemptOutcome} (h : Verdict (Decided r) r d run w w' outcome)
include h

/-- The status of the run after its decision. -/
theorem Verdict.status_iff :
    ∃ run', w'.store.runs.get? r = some run' ∧
      (run'.status = .succeeded ↔ ¬ AnyFailed r d w.store) ∧
      (run'.status = .queued ↔ AnyFailed r d w.store ∧ CanRetry r d run w.store) ∧
      (run'.status = .failed ↔ AnyFailed r d w.store ∧ ¬ CanRetry r d run w.store) := by
  cases h with
  | succeeded hnone hdecided =>
    obtain ⟨run', hrun', hstatus, -⟩ := hdecided.run
    have hsome : ¬ AnyFailed r d w.store := by simpa using hnone
    exact ⟨run', hrun', by simp [hstatus, hsome]⟩
  | retried failing releaseAtMs hsome hretry hdecided =>
    obtain ⟨run', hrun', hstatus, -⟩ := hdecided.run
    exact ⟨run', hrun', by simp [hstatus, hsome, hretry]⟩
  | failed failing error hsome hretry hdecided =>
    obtain ⟨run', hrun', hstatus, -⟩ := hdecided.run
    exact ⟨run', hrun', by simp [hstatus, hsome, hretry]⟩

theorem Verdict.board_eq : board r w'.store = board r w.store := by
  cases h with
  | succeeded _ hdecided => exact hdecided.board_eq
  | retried _ _ _ _ hdecided => exact hdecided.board_eq
  | failed _ _ _ _ hdecided => exact hdecided.board_eq

end Verdict

/-- The first attempt of a run as a function of the answers `f` of its handlers: the attempt
returns, every task is stored with the status its transitive dependencies give it, and the run with
the status its tasks give it. -/
theorem first_attempt_spec (ex : RunExecutor) (token : Option ClaimToken) (leaseMs : ℤ)
    {s : MemoryStore} (hvalid : validateDefinition parse d = .ok ())
    (hpolicy : validateWorkflowPolicy d = .ok ()) (hfirst : FirstDispatched r d s)
    (hopen : DeadlineOpen env r ⟨s, []⟩) (hreturn : HandlersReturn env r)
    (hf : Settles env r d fun t ok ↦ ok = f t) :
    ∃ outcome w' run', (attemptWithToken ex r token leaseMs).run (serve env) ⟨s, []⟩ =
        (.ok outcome, w') ∧ w'.store.getRun r = .ok run' ∧
      (∀ t ∈ d.names,
        (HasStatus w'.store r t .succeeded ↔
          f t ∧ ∀ dep, Relation.TransGen d.DependsOn t dep → f dep) ∧
        (HasStatus w'.store r t .failed ↔
          ¬ f t ∧ ∀ dep, Relation.TransGen d.DependsOn t dep → f dep) ∧
        (HasStatus w'.store r t .skipped ↔
          ¬ ∀ dep, Relation.TransGen d.DependsOn t dep → f dep)) ∧
      (run'.status = .succeeded ↔ ¬ ∃ t ∈ d.names, HasStatus w'.store r t .failed) ∧
      (run'.status = .queued ↔ (∃ t ∈ d.names, HasStatus w'.store r t .failed) ∧
        1 < d.retry.maxAttempts ∧ ∀ task ∈ d.tasks, HasStatus w'.store r task.name .failed →
          1 < (task.effectiveRetry d.retry).maxAttempts) ∧
      (run'.status = .failed ↔ (∃ t ∈ d.names, HasStatus w'.store r t .failed) ∧
        ¬ (1 < d.retry.maxAttempts ∧ ∀ task ∈ d.tasks, HasStatus w'.store r task.name .failed →
          1 < (task.effectiveRetry d.retry).maxAttempts)) := by
  have hd := wellFormed_of_validateDefinition hvalid
  obtain ⟨run, hrun, hstatus, hattempts, -⟩ := hfirst.run
  have hfresh : board r s = Board.fresh := board_of_noTaskRuns hfirst.noTaskRuns
  obtain ⟨outcome, w', ws, w₁, hresult, hw', hcourse, hverdict⟩ :=
    attempt_decides ex token leaseMs hd hfirst.submitted.sound hf
      (MemoryStore.getRun_eq_ok.mp hrun) hstatus hopen hreturn
      (fun t _ ↦ by simp [hfresh, Board.fresh])
      fun _ _ _ _ ↦ retry_of_validateWorkflowPolicy hpolicy
  have hcollapsed := hcourse.collapsed (by simp)
  have hboard := hverdict.board_eq
  have hok : (board r w₁.store).Ok (boardRules d) := hboard ▸ hw'.ok
  have hhas : ∀ t status, status ≠ .pending →
      (HasStatus w'.store r t status ↔ (board r w₁.store t).status = status) := by
    intro t status hne
    rw [hasStatus_iff hne, hboard]
  have hretry := hcollapsed.canRetry_iff hfresh hok hd hattempts
  obtain ⟨run', hrun', hends⟩ := hverdict.status_iff
  refine ⟨outcome, w', run', hresult, MemoryStore.getRun_eq_ok.mpr hrun', fun t ht ↦ ?_, ?_⟩
  · rw [hhas t _ (by simp), hhas t _ (by simp), hhas t _ (by simp),
      ← hcollapsed.needsMet_iff hfresh hok hd t]
    exact hcollapsed.status_iff hfresh hok ht
  · simp only [hhas _ _ (show TaskStatus.failed ≠ .pending by simp), ← hretry]
    exact hends

/-- Handlers that always fail. -/
def allDown : Env := answering fun _ ↦ some (.error (.permanent "down"))

theorem first_attempt_spec_sample : ∃ outcome w' run',
    (attemptWithToken plainExecutor sampleRun none 0).run
        (serve allDown) ⟨sampleStore, []⟩ = (.ok outcome, w') ∧
        w'.store.getRun sampleRun = .ok run' ∧
    HasStatus w'.store sampleRun "a" .failed ∧ HasStatus w'.store sampleRun "b" .skipped ∧
      run'.status = .queued := by
  have hreturn : HandlersReturn allDown sampleRun := fun _ _ _ _ ↦ by simp [allDown, answering]
  have hsettles : Settles allDown sampleRun sampleDef fun _ ok ↦ ok = false := by
    refine fun task _ ↦ ⟨fun _ _ ↦ rfl, fun _ _ answer _ _ hanswer ↦ ?_⟩
    obtain rfl := Option.some.inj hanswer
    rfl
  obtain ⟨outcome, w', run', hresult, hrun', hstatus, -, hqueued, -⟩ :=
    first_attempt_spec plainExecutor none 0 sampleDef_valid (by decide)
      sampleStore_firstDispatched (by rintro run deadline ⟨⟩ ⟨⟩) hreturn hsettles
  have hfailed : HasStatus w'.store sampleRun "a" .failed := by
    refine (hstatus "a" (by decide)).2.1.mpr ⟨by simp, fun dep hdep ↦ ?_⟩
    obtain ⟨_, ⟨task, htask, hname, hdirect⟩, -⟩ := Relation.TransGen.head'_iff.mp hdep
    fin_cases htask <;> simp_all
  refine ⟨outcome, w', run', hresult, hrun', hfailed, ?_, ?_⟩
  · refine (hstatus "b" (by decide)).2.2.mpr fun hall ↦ ?_
    simpa using hall "a" (.single ⟨_, List.mem_cons_of_mem _ (List.mem_singleton.mpr rfl), rfl,
      by decide⟩)
  · refine hqueued.mpr ⟨⟨"a", by decide, hfailed⟩, by decide, fun task htask _ ↦ ?_⟩
    fin_cases htask <;> decide

end FirstAttempt

end Runvane.Scheduler
