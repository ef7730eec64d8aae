import Runvane.Scheduler.WaveSpec

/-!
# A whole attempt

The rest of the attempt around the loop over waves, in an arbitrary setting: the statuses it starts
from (`holds_loadedStates`), the tasks it skips (`holds_persistSkipped`) and the decision it takes
(`holds_finalize`), up to all that comes after its prelude (`holds_runWaves`). For an attempt by
itself the specification of `attemptWithToken` follows.

What the waves and the collapse leave is `Collapsed`: every task of the run is as it was, or run
once and settled, or skipped because something it needs did not succeed. From there the decision
depends on the board alone. A task that was stored as running when the attempt began is still so in
the end, and makes the attempt fail with an invariant violation.
-/

set_option autoImplicit false

namespace Runvane.Scheduler

open Library Domain Persistence Retry Prog
open CallProgram (wp wp_bind wp_mono wp_of_amid_alone amid_mono)
open Std (ExtTreeMap)

variable {s : MemoryStore} {fail : Abort ExecutorError → World → Prop} {ex : RunExecutor}
  {run : Run} {states : StatusMap}

section Load

variable {env : Env} {r : RunId} {d : WorkflowDef} {K : Setting env r d} {w : World}

/-- Collecting task runs whose status is a function of their name. -/
theorem getElem?_foldl_insert {f : String → TaskStatus} (stored : List TaskRun)
    (hstored : ∀ tr ∈ stored, tr.status = f tr.taskName) (m : StatusMap) (t : String) :
    (stored.foldl (fun m tr ↦ m.insert tr.taskName tr.status) m)[t]? =
      if ∃ tr ∈ stored, tr.taskName = t then some (f t) else m[t]? := by
  induction stored generalizing m with
  | nil => simp
  | cons tr stored ih =>
    obtain ⟨hstatus, hstored⟩ := List.forall_mem_cons.mp hstored
    rw [List.foldl_cons, ih hstored, ExtTreeMap.getElem?_insert]
    simp only [Std.compare_eq_iff_eq, List.mem_cons, exists_eq_or_imp]
    by_cases hname : tr.taskName = t
    · subst hname
      simp [hstatus]
    · simp [hname]

/-- Filling in pending for the tasks without a record. -/
theorem getElem?_foldl_insertIfNew (tasks : List TaskSpec) (m : StatusMap) (t : String) :
    (tasks.foldl (fun m task ↦ m.insertIfNew task.name .pending) m)[t]? =
      if t ∈ tasks.map TaskSpec.name then some (m[t]?.getD .pending) else m[t]? := by
  induction tasks generalizing m with
  | nil => simp
  | cons task tasks ih =>
    rw [List.foldl_cons, ih, ExtTreeMap.getElem?_insertIfNew]
    simp only [Std.compare_eq_iff_eq, List.map_cons, List.mem_cons]
    by_cases hname : task.name = t
    · subst hname
      cases hget : m[task.name]? with
      | none => simp [ExtTreeMap.mem_iff_isSome_getElem?, hget]
      | some status => simp [ExtTreeMap.mem_iff_isSome_getElem?, hget]
    · simp [hname, Ne.symm hname]

def statesOf (d : WorkflowDef) (stored : List TaskRun) : StatusMap :=
  d.tasks.foldl (fun m task ↦ m.insertIfNew task.name .pending)
    (stored.foldl (fun m tr ↦ m.insert tr.taskName tr.status) ∅)

theorem mem_of_listTaskRunsForRun {stored : List TaskRun}
    (h : s.listTaskRunsForRun r = .ok stored) {tr : TaskRun} :
    tr ∈ stored ↔ s.taskRuns.get? tr.id = some tr ∧ tr.runId = r := by
  unfold MemoryStore.listTaskRunsForRun at h
  obtain rfl := Except.ok.inj h
  simp [KeyedMap.mem_values]

/-- A stored task run has the status that the board shows for its task. -/
theorem TasksFiled.status_eq (h : TasksFiled s r d) {tr : TaskRun}
    (hget : s.taskRuns.get? tr.id = some tr) (hrun : tr.runId = r) :
    tr.status = (board r s tr.taskName).status := by
  rw [(h.named hget hrun).1] at hget
  simp [board, storedTask, hget]

/-- The statuses that an attempt makes of all task runs of the run are those on the board. -/
theorem getElem?_statesOf (hfiled : TasksFiled s r d) (t : String) :
    (statesOf d ((s.listTaskRunsForRun r).toOption.getD []))[t]? =
      if t ∈ d.names then some (board r s t).status else none := by
  have hmem : ∀ tr, tr ∈ (s.taskRuns.values.filter (·.runId = r)).insertionSort
      (·.taskName ≤ ·.taskName) ↔ s.taskRuns.get? tr.id = some tr ∧ tr.runId = r := fun tr ↦
    mem_of_listTaskRunsForRun rfl
  simp only [statesOf, MemoryStore.listTaskRunsForRun, Except.toOption, Option.getD_some]
  have hstatus : ∀ tr, s.taskRuns.get? tr.id = some tr ∧ tr.runId = r →
      tr.status = (board r s tr.taskName).status := fun tr htr ↦ hfiled.status_eq htr.1 htr.2
  rw [getElem?_foldl_insertIfNew, getElem?_foldl_insert (f := fun t ↦ (board r s t).status) _
    fun tr htr ↦ hstatus tr ((hmem tr).mp htr)]
  change (if t ∈ d.names then _ else _) = _
  split_ifs with hlisted ht ht
  · rfl
  · -- a task without a record shows as pending on the board
    have hnone : s.taskRuns.get? (taskRunId r t) = none := by
      rw [Option.eq_none_iff_forall_ne_some]
      intro tr hget
      obtain ⟨hrun, hname⟩ := hfiled.owner hget
      refine ht ⟨tr, (hmem tr).mpr ⟨?_, hrun⟩, hname⟩
      rwa [KeyedMap.key_of_get? hget]
    simp [board, storedTask, hnone]
  · obtain ⟨tr, htr, rfl⟩ := ht
    obtain ⟨hget, hrun⟩ := (hmem tr).mp htr
    exact absurd (hfiled.named hget hrun).2 hlisted
  · simp

/-- The statuses an attempt starts from are those on the board. -/
theorem Setting.holds_loadedStates {ε : Type} {post : StatusMap → World → Prop}
    {fail : Abort ε → World → Prop} (hw : K.inv w)
    (h : ∀ w' states, K.inv w' → K.touched [] [] w w' → Agrees r d states w' → post states w') :
    K.Holds post fail (loadedStates r d) w := by
  unfold loadedStates
  rw [holds_bind]
  refine holds_silent (.store (.listTaskRunsForRun r)) trivial rfl hw
    fun w₁ w' hw₁ h₁ hw' h' ↦ h w' _ hw' h' fun t ↦ ?_
  rw [board_eq h', ← board_eq h₁]
  exact getElem?_statesOf (K.filed hw₁) t

end Load

/-! ### The collapse -/

/-- Whether the task is pending and needs something that has not succeeded. -/
def Stuck (r : RunId) (d : WorkflowDef) (s : MemoryStore) (t : String) : Prop :=
  t ∈ d.names ∧ (board r s t).status = .pending ∧ ¬ (board r s).NeedsMet (boardRules d) t

section Collapse

variable {r : RunId} {d : WorkflowDef} {w w₁ : World}

theorem Agrees.blocked_iff (h : Agrees r d states w) (hd : WellFormed d) (t : String) :
    Blocked d.tasks states t ↔ Stuck r d w.store t := by
  constructor
  · rintro ⟨hpending, task, htask, rfl, hdeps⟩
    have hname : task.name ∈ d.names := List.mem_map_of_mem htask
    refine ⟨hname, (h.statusOf hname).symm.trans hpending, fun hmet ↦ ?_⟩
    simp [(h.depsSucceeded_iff hd htask).mpr hmet] at hdeps
  · rintro ⟨hname, hpending, hunmet⟩
    obtain ⟨task, htask, rfl⟩ := List.mem_map.mp hname
    refine ⟨(h.statusOf hname).trans hpending, task, htask, rfl, ?_⟩
    rw [← Bool.not_eq_true]
    exact fun hdeps ↦ hunmet ((h.depsSucceeded_iff hd htask).mp hdeps)

/-- The tasks that are stuck in `w` are skipped in `w'`, up to those in `rest` that are still to be
persisted, and all other tasks are as they were. -/
structure StuckSkipped (r : RunId) (d : WorkflowDef) (rest : List String) (w w' : World) :
    Prop where
  stuck : ∀ t ∉ rest, Stuck r d w.store t →
    board r w'.store t = ⟨.skipped, (board r w.store t).attempts⟩
  other : ∀ t, t ∈ rest ∨ ¬ Stuck r d w.store t → board r w'.store t = board r w.store t

section StuckSkipped

variable {rest : List String} {t : String}

/-- What was not met before the collapse is not met in its course. -/
theorem StuckSkipped.not_needsMet (h : StuckSkipped r d rest w w₁)
    (hunmet : ¬ (board r w.store).NeedsMet (boardRules d) t) :
    ¬ (board r w₁.store).NeedsMet (boardRules d) t := by
  refine fun hmet ↦ hunmet fun dep hdep ↦ ?_
  have hdone := hmet dep hdep
  by_cases hstuck : dep ∉ rest ∧ Stuck r d w.store dep
  · simp [h.stuck dep hstuck.1 hstuck.2] at hdone
  · rwa [h.other dep (by tauto)] at hdone

/-- Persisting one more of the tasks. -/
theorem StuckSkipped.persist (h : StuckSkipped r d (t :: rest) w w₁) {w₂ : World}
    (hsame : ∀ other ≠ t, board r w₂.store other = board r w₁.store other)
    (hcell : board r w₂.store t = ⟨.skipped, (board r w₁.store t).attempts⟩)
    (hnodup : t ∉ rest) (hstuck : Stuck r d w.store t) : StuckSkipped r d rest w w₂ where
  stuck other hother hother' := by
    by_cases heq : other = t
    · subst heq
      rw [hcell, h.other other (.inl (List.mem_cons_self ..))]
    · rw [hsame other heq]
      exact h.stuck other (by simp [heq, hother]) hother'
  other other hother := by
    have hne : other ≠ t := by
      rintro rfl
      tauto
    rw [hsame other hne]
    exact h.other other (hother.imp_left (List.mem_cons_of_mem t))

/-- Passing over a task that is not stuck. -/
theorem StuckSkipped.pass (h : StuckSkipped r d (t :: rest) w w₁) (hstuck : ¬ Stuck r d w.store t) :
    StuckSkipped r d rest w w₁ where
  stuck other hother hother' := by
    refine h.stuck other ?_ hother'
    rw [List.mem_cons, not_or]
    refine ⟨?_, hother⟩
    rintro rfl
    exact hstuck hother'
  other other hother := h.other other (hother.imp_left (List.mem_cons_of_mem t))

/-- After the collapse the collapsed statuses are those on the board. -/
theorem Agrees.collapsed (h : Agrees r d states w) (hd : WellFormed d)
    (hskipped : StuckSkipped r d [] w w₁) : Agrees r d (pendingToSkip d states) w₁ := by
  intro t
  rw [skips_pendingToSkip d states t]
  by_cases hstuck : Stuck r d w.store t
  · rw [if_pos ((h.blocked_iff hd t).mpr hstuck), if_pos hstuck.1,
      hskipped.stuck t List.not_mem_nil hstuck]
  · rw [if_neg fun hblocked ↦ hstuck ((h.blocked_iff hd t).mp hblocked), h t,
      hskipped.other t (.inr hstuck)]

/-- At the start all the tasks that are stuck are among those to be persisted. -/
theorem Agrees.stuckSkipped_start (h : Agrees r d states w) (hd : WellFormed d) :
    StuckSkipped r d ((pendingToSkip d states).toList.map Prod.fst) w w where
  stuck t ht hstuck := by
    refine absurd ?_ ht
    rw [ExtTreeMap.map_fst_toList_eq_keys, ExtTreeMap.mem_keys,
      ExtTreeMap.mem_iff_isSome_getElem?, skips_pendingToSkip d states t,
      if_pos ((h.blocked_iff hd t).mpr hstuck)]
    rfl
  other _ _ := rfl

end StuckSkipped

/-- The tasks that are newly skipped are those that are stuck. -/
theorem Agrees.newly_skipped_iff (h : Agrees r d states w) (hd : WellFormed d)
    {entry : String × TaskStatus} (hentry : entry ∈ (pendingToSkip d states).toList) :
    (entry.2 = .skipped ∧ states[entry.1]? ≠ some .skipped) ↔ Stuck r d w.store entry.1 := by
  have hget := ExtTreeMap.mem_toList_iff_getElem?_eq_some.mp hentry
  rw [skips_pendingToSkip d states entry.1] at hget
  rw [← h.blocked_iff hd]
  split_ifs at hget with hblocked
  · have hpending := hblocked.1
    unfold StatusMap.statusOf at hpending
    refine iff_of_true ⟨(Option.some.inj hget).symm, fun hskipped ↦ ?_⟩ hblocked
    simp [hskipped] at hpending
  · refine iff_of_false ?_ hblocked
    rintro ⟨hskipped, hne⟩
    exact hne (hskipped ▸ hget)

/-- Every task that is stuck is persisted as skipped, and nothing else changes. -/
theorem Setting.holds_persistSkipped {env : Env} {K : Setting env r d} {post : Unit → World → Prop}
    (hd : WellFormed d) (hw : K.inv w) (hagrees : Agrees r d states w)
    (h : ∀ w' ts, K.inv w' → StuckSkipped r d [] w w' → K.touched ts [] w w' → post () w') :
    K.Holds post fail (persistSkipped r states (pendingToSkip d states)) w := by
  unfold persistSkipped
  refine amid_mono (fun _ w' hinv ↦ ?_) (fun _ _ hf ↦ hf) (CallProgram.amid_foldlM
    (fun entries _ w' ↦ K.inv w' ∧ StuckSkipped r d (entries.map Prod.fst) w w' ∧
      (∃ ts, K.touched ts [] w w') ∧ (entries.map Prod.fst).Nodup ∧
      ∀ entry ∈ entries, entry ∈ (pendingToSkip d states).toList)
    ?_ _ () w ⟨hw, hagrees.stuckSkipped_start hd, ⟨[], K.refl w⟩, ?_, fun _ hentry ↦ hentry⟩)
  · obtain ⟨hw', hskipped, ⟨ts, htouched⟩, -⟩ := hinv
    exact h w' ts hw' hskipped htouched
  · rintro entry entries _ w₁ ⟨hw₁, hskipped, ⟨ts, htouched⟩, hnodup, hentries⟩
    rw [List.map_cons, List.nodup_cons] at hnodup
    obtain ⟨hentry, hentries⟩ := List.forall_mem_cons.mp hentries
    have hiff := hagrees.newly_skipped_iff hd hentry
    by_cases hstuck : Stuck r d w.store entry.1
    · rw [if_pos (hiff.mpr hstuck)]
      refine (holds_bind _ _).mpr (holds_loadTask hw₁ fun w₂ hw₂ h₂ ↦ ?_)
      refine (holds_bind _ _).mpr (holds_nowMs hw₂ fun now w₃ hw₃ h₃ ↦ ?_)
      have h₂₃ := K.trans h₂ h₃
      have hsame : board r w₁.store entry.1 = board r w.store entry.1 :=
        hskipped.other _ (.inl (List.mem_cons_self ..))
      obtain ⟨hid, hrun, hname, -⟩ := isRecord_storedTask hw₁ hstuck.1
      refine holds_put hw₃ ⟨hid, hrun, hname, hstuck.1⟩ ?_ ?_ fun w₄ hw₄ h₄ hstored ↦
        ⟨hw₄, ?_, ⟨_, K.trans htouched (K.trans h₂₃ h₄)⟩, hnodup.2, hentries⟩
      · rw [board_eq h₂₃]
        exact .skip entry.1 (by rw [hsame]; exact hstuck.2.1) (hskipped.not_needsMet hstuck.2.2)
      · rw [board_eq h₂₃]
        rfl
      · refine hskipped.persist (fun other hother ↦ ?_) ?_ hnodup.1 hstuck
        · exact board_apply (K.trans h₂₃ h₄) (by simpa using hother)
        · simp only [board, hstored]
    · rw [if_neg fun hskip ↦ hstuck (hiff.mp hskip)]
      exact ⟨hw₁, hskipped.pass hstuck, ⟨ts, htouched⟩, hnodup.2, hentries⟩
  · rw [ExtTreeMap.map_fst_toList_eq_keys]
    exact ExtTreeMap.nodup_keys

end Collapse

/-! ### The decision -/

abbrev AllTerminal (r : RunId) (d : WorkflowDef) (s : MemoryStore) : Prop :=
  ∀ t ∈ d.names, (board r s t).status.isTerminal = true

abbrev AnyFailed (r : RunId) (d : WorkflowDef) (s : MemoryStore) : Prop :=
  ∃ t ∈ d.names, (board r s t).status = .failed

/-- Whether a run that failed gets another attempt: it has attempts left, and so has every one of
its failed tasks. -/
def CanRetry (r : RunId) (d : WorkflowDef) (run : Run) (s : MemoryStore) : Prop :=
  u32Succ run.attempts < d.retry.maxAttempts ∧
    ∀ t ∈ d.names, (board r s t).status = .failed →
      (board r s t).attempts < (d.policyOf t).maxAttempts

/-- Where the run goes when all its tasks are terminal. -/
inductive Verdict (decided : RunStatus → ℕ → World → World → Prop) (r : RunId) (d : WorkflowDef)
    (run : Run) (w w' : World) : AttemptOutcome → Prop
  | succeeded (hnone : ∀ t ∈ d.names, (board r w.store t).status ≠ .failed)
      (hdecided : decided .succeeded run.attempts w w') :
      Verdict decided r d run w w' ⟨.succeeded, [], .ack, none⟩
  | retried (failing : List String) (releaseAtMs : ℤ)
      (hsome : AnyFailed r d w.store) (hretry : CanRetry r d run w.store)
      (hdecided : decided .queued (u32Succ run.attempts) w w') :
      Verdict decided r d run w w' ⟨.queued, failing, .release releaseAtMs, none⟩
  | failed (failing : List String) (error : RunError)
      (hsome : AnyFailed r d w.store) (hretry : ¬ CanRetry r d run w.store)
      (hdecided : decided .failed run.attempts w w') :
      Verdict decided r d run w w' ⟨.failed, failing, .ack, some error⟩

section Decision

variable {env : Env} {r : RunId} {d : WorkflowDef} {K : Setting env r d} {w w₀ : World}

theorem Agrees.all_isTerminal_iff (h : Agrees r d states w) :
    states.toList.all (·.2.isTerminal) = true ↔ AllTerminal r d w.store := by
  simp only [List.all_eq_true, Prod.forall, ExtTreeMap.mem_toList_iff_getElem?_eq_some]
  constructor
  · intro hall t ht
    exact hall t _ (by rw [h t, if_pos ht])
  · intro hall t status hget
    rw [h t] at hget
    split_ifs at hget with ht
    obtain rfl := Option.some.inj hget
    exact hall t ht

theorem Agrees.mem_failing_iff (h : Agrees r d states w) {t : String} :
    t ∈ (states.toList.filter (·.2 = .failed)).map Prod.fst ↔
      t ∈ d.names ∧ (board r w.store t).status = .failed := by
  simp only [List.mem_map, List.mem_filter, ExtTreeMap.mem_toList_iff_getElem?_eq_some,
    Prod.exists, exists_and_right, exists_eq_right, decide_eq_true_eq, h t]
  split_ifs with ht <;> simp [ht]

/-- How the decision can fail: some task is not terminal, or the backoff of an invalid policy
panics. -/
def DecisionFail (r : RunId) (d : WorkflowDef) (w : World) (reason : Abort ExecutorError) : Prop :=
  (∃ t ∈ d.names, (board r w.store t).status.isTerminal = false) ∧
      reason = .error (.invariant "attempt ended with non-terminal tasks") ∨
    AllTerminal r d w.store ∧ AnyFailed r d w.store ∧ reason = .panic ∧
      d.retry.validate ≠ .ok ()

namespace Setting

theorem holds_validateRun {source target : RunStatus} {post : Unit → World → Prop}
    (hlegal : RunFsm.isLegal source target = true) (h : post () w) :
    K.Holds post fail (validateRun source target) w := by
  simpa [Holds, validateRun, RunFsm.validate, hlegal] using h

section Finish

variable {post : AttemptOutcome → World → Prop} {failing : List String}
  (hw : K.inv w) (h₀ : K.touched [] [] w₀ w) (howns : K.owns run w)
include hw h₀ howns

/-- What comes after the clock was read: a record of the run is persisted with a new status. -/
theorem holds_now_storeRun {written : ℤ → Run} {outcome : ℤ → AttemptOutcome} {status : RunStatus}
    {attempts : ℕ} (hwrite : ∀ now, RunWrite run (written now))
    (hstatus : ∀ now, (written now).status = status)
    (hattempts : ∀ now, (written now).attempts = attempts)
    (hbound : attempts = run.attempts ∨ attempts < d.retry.maxAttempts)
    (h : ∀ now w', K.inv w' → K.decided status attempts w₀ w' → post (outcome now) w') :
    K.Holds post fail
      (do
        let now ← ask .nowMs
        storeRun (written now)
        pure (outcome now)) w := by
  refine (holds_bind _ _).mpr (holds_nowMs hw fun now w₁ hw₁ h₁ ↦ ?_)
  refine (holds_bind _ _).mpr (holds_storeRun hw₁ (K.trans h₀ h₁) (K.owns_of_touched h₁ howns)
    (hwrite now) (by rwa [hattempts]) fun w₂ hw₂ hdecided ↦ h now w₂ hw₂ ?_)
  rwa [hstatus, hattempts] at hdecided

theorem holds_finishSucceeded (hstatus : run.status = .running)
    (h : ∀ w', K.inv w' → K.decided .succeeded run.attempts w₀ w' →
      post ⟨.succeeded, [], .ack, none⟩ w') : K.Holds post fail (finishSucceeded run) w := by
  unfold finishSucceeded
  rw [holds_bind]
  refine holds_validateRun (by rw [hstatus]; rfl) ?_
  exact holds_now_storeRun hw h₀ howns .succeeded (fun _ ↦ rfl) (fun _ ↦ rfl) (.inl rfl) fun _ ↦ h

theorem holds_finishFailed {reason : String} (hstatus : run.status = .running)
    (h : ∀ w' error, K.inv w' → K.decided .failed run.attempts w₀ w' →
      post ⟨.failed, failing, .ack, some error⟩ w') :
    K.Holds post fail (finishFailed run failing reason) w := by
  unfold finishFailed
  rw [holds_bind]
  refine holds_validateRun (by rw [hstatus]; rfl) ?_
  exact holds_now_storeRun hw h₀ howns (.failed · _) (fun _ ↦ rfl) (fun _ ↦ rfl) (.inl rfl)
    fun _ w₁ ↦ h w₁ _

theorem holds_finishTimedOut
    (h : ∀ w' error, K.inv w' → K.decided .timedOut run.attempts w₀ w' →
      post ⟨.timedOut, [], .ack, some error⟩ w') :
    K.Holds post fail (finishTimedOut run) w := by
  unfold finishTimedOut
  rw [holds_bind]
  refine holds_validateRun rfl ?_
  exact holds_now_storeRun hw h₀ howns (.timedOut · _) (fun _ ↦ rfl) (fun _ ↦ rfl) (.inl rfl)
    fun _ w₁ ↦ h w₁ _

theorem holds_finishRetry (hstatus : run.status = .running)
    (hbudget : u32Succ run.attempts < d.retry.maxAttempts)
    (hpanic : ∀ w', K.inv w' → K.touched [] [] w₀ w' → d.retry.validate ≠ .ok () → fail .panic w')
    (h : ∀ w' releaseAtMs, K.inv w' → K.decided .queued (u32Succ run.attempts) w₀ w' →
      post ⟨.queued, failing, .release releaseAtMs, none⟩ w') :
    K.Holds post fail (finishRetry ex run d failing) w := by
  unfold finishRetry
  rw [holds_bind]
  refine holds_validateRun (by rw [hstatus]; rfl) ?_
  refine (holds_bind _ _).mpr (holds_validateRun rfl ?_)
  refine (holds_bind _ _).mpr (holds_nowMs hw fun now w₁ hw₁ h₁ ↦ ?_)
  cases hnext : nextAttemptAtMs ex.num d.retry (u32Succ run.attempts) true now ex.seed with
  | none =>
    refine hpanic w₁ hw₁ (K.trans h₀ h₁) fun hvalid ↦ ?_
    obtain ⟨answer, hanswer⟩ := exists_nextAttemptAtMs ex.num hvalid (u32Succ run.attempts) true
      now ex.seed
    simp [hnext] at hanswer
  | some answer =>
    exact holds_now_storeRun hw₁ (K.trans h₀ h₁) (K.owns_of_touched h₁ howns) (fun _ ↦ .retried _)
      (fun _ ↦ rfl) (fun _ ↦ rfl) (.inr hbudget) fun _ w₂ ↦ h w₂ _

end Finish

/-- The decision depends on the board: it fails when some task is not terminal, and otherwise
reaches its verdict. -/
theorem holds_finalize {post : AttemptOutcome → World → Prop} (hw : K.inv w) (hid : run.id = r)
    (hagrees : Agrees r d states w) (howns : K.owns run w) (hstatus : run.status = .running)
    (hfail : ∀ w' reason, K.inv w' → K.touched [] [] w w' → DecisionFail r d w reason →
      fail reason w')
    (h : ∀ w' outcome, K.inv w' → AllTerminal r d w.store →
      Verdict K.decided r d run w w' outcome → post outcome w') :
    K.Holds post fail (finalize ex run d states) w := by
  subst hid
  unfold finalize
  by_cases hterminal : AllTerminal run.id d w.store
  · rw [if_neg (by simp [hagrees.all_isTerminal_iff.mpr hterminal])]
    have hfailing := fun t ↦ hagrees.mem_failing_iff (t := t)
    generalize (states.toList.filter (·.2 = .failed)).map Prod.fst = failing at hfailing ⊢
    split_ifs with hempty
    · refine holds_finishSucceeded hw (K.refl w) howns hstatus fun w' hw' hdecided ↦
        h w' _ hw' hterminal (.succeeded (fun t ht hfailed ↦ ?_) hdecided)
      have hmem := (hfailing t).mpr ⟨ht, hfailed⟩
      simp [List.isEmpty_iff.mp hempty] at hmem
    · have hsome : AnyFailed run.id d w.store := by
        obtain ⟨t, ht⟩ := List.exists_mem_of_ne_nil failing (by simpa using hempty)
        exact ⟨t, (hfailing t).mp ht⟩
      have hretry : CanRetry run.id d run w.store ↔ (d.retry.allowsAttempt (u32Succ run.attempts) &&
          decide (∀ t ∈ failing, (board run.id w.store t).attempts <
            (d.policyOf t).maxAttempts)) = true := by
        simp only [CanRetry, RetryPolicy.allowsAttempt, Bool.and_eq_true, decide_eq_true_eq,
          hfailing, and_imp]
      rw [holds_bind]
      refine holds_reads (returns_failureReason ..) ReadCall.silent hw fun reason w₁ _ hw₁ h₁ ↦ ?_
      rw [holds_bind]
      refine holds_reads ((counts_shows _ _).budgetsLeft failing) ReadCall.silent hw₁
        fun budgets w₂ hbudgets hw₂ h₂ ↦ ?_
      rw [hbudgets, board_eq h₁]
      have h₁₂ := K.trans h₁ h₂
      have howns₂ := K.owns_of_touched h₁₂ howns
      split_ifs with hdecide
      · have hcan := hretry.mpr hdecide
        refine holds_finishRetry hw₂ h₁₂ howns₂ hstatus hcan.1 ?_ fun w₃ releaseAtMs hw₃ hdecided ↦
          h w₃ _ hw₃ hterminal (.retried failing releaseAtMs hsome hcan hdecided)
        exact fun w₃ hw₃ h₃ hinvalid ↦
          hfail w₃ _ hw₃ h₃ (.inr ⟨hterminal, hsome, rfl, hinvalid⟩)
      · refine holds_finishFailed hw₂ h₁₂ howns₂ hstatus fun w₃ error hw₃ hdecided ↦
          h w₃ _ hw₃ hterminal (.failed failing error hsome (fun hcan ↦ ?_) hdecided)
        exact hdecide (hretry.mp hcan)
  · rw [if_pos (by simpa [← Bool.not_eq_true, hagrees.all_isTerminal_iff] using hterminal)]
    exact hfail w _ hw (K.refl w) (.inl ⟨by simpa using hterminal, rfl⟩)

end Setting

end Decision

/-! ### The attempt -/

/-- What the waves and the collapse have made of the run since `w₀`. -/
structure Collapsed (touched : List String → List Mark → World → World → Prop) (r : RunId)
    (d : WorkflowDef) (ok : String → Bool → Prop) (w₀ : World) (executed : List String)
    (w : World) : Prop extends Executed touched r d ok w₀ executed w where
  skipped : ∀ t ∈ d.names, t ∉ executed → (board r w₀.store t).status = .pending →
    board r w.store t = ⟨.skipped, (board r w₀.store t).attempts⟩ ∧
      ¬ (board r w.store).NeedsMet (boardRules d) t
  spent : ∀ t ∈ d.names, t ∉ executed → (board r w₀.store t).status = .failed →
    (d.policyOf t).maxAttempts ≤ (board r w₀.store t).attempts
  kept : ∀ t ∉ executed, (board r w₀.store t).status ≠ .pending →
    board r w.store t = board r w₀.store t

/-- The course of an attempt from `w₀` up to its decision: some marks, the waves `ws`, a last look
at the run record that finds no wave, and the collapse. -/
inductive Course (touched : List String → List Mark → World → World → Prop) (env : Env) (r : RunId)
    (d : WorkflowDef) (ok : String → Bool → Prop) (marks : List Mark) (w₀ : World)
    (ws : List (List String)) (w' : World) : Prop
  | intro (loop drained stopped : World) (ts : List String) (hprelude : touched [] marks w₀ loop)
      (hturns : Turns touched env r d ok loop ws drained) (hlast : IsWave r d ws.flatten drained [])
      (hcheck : touched [] [.check] drained stopped) (hskipped : StuckSkipped r d [] stopped w')
      (hquiet : touched ts [] stopped w')

/-- The deadline of the run is not passed when an attempt that starts now looks at the clock, which
it does after it has loaded the run and its definition. -/
def DeadlineOpen (env : Env) (r : RunId) (w : World) : Prop :=
  ∀ run deadline, w.store.runs.get? r = some run → run.deadlineAtMs = some deadline →
    env.clock ((w.after env (.store (.getRun r))).after env
      (.store (.getWorkflow run.tenant run.defName))).log ≤ deadline

/-- How an attempt that starts in `w` returns. -/
inductive AttemptEnd (env : Env) (r : RunId) (d : WorkflowDef) (ok : String → Bool → Prop)
    (w : World) : AttemptOutcome → World → Prop
  | cancelled (run : Run) (w' : World) (hrun : w.store.runs.get? r = some run)
      (hstatus : run.status = .cancelled) (htouched : Touched r [] [.check] w w') :
      AttemptEnd env r d ok w ⟨.cancelled, [], .ack, run.error⟩ w'
  | timedOut (run : Run) (error : RunError) (w₁ w' : World)
      (hrun : w.store.runs.get? r = some run) (hstatus : run.status = .running)
      (hlate : ¬ DeadlineOpen env r w) (htouched : Touched r [] [.check] w w₁)
      (hdecided : Decided r .timedOut run.attempts w₁ w') :
      AttemptEnd env r d ok w ⟨.timedOut, [], .ack, some error⟩ w'
  | decided (run : Run) (ws : List (List String)) (w₁ w' : World) (outcome : AttemptOutcome)
      (hrun : w.store.runs.get? r = some run) (hstatus : run.status = .running)
      (hcourse : Course (Touched r) env r d ok [.check] w ws w₁)
      (hterminal : AllTerminal r d w₁.store)
      (hverdict : Verdict (Decided r) r d run w₁ w' outcome) : AttemptEnd env r d ok w outcome w'

/-- How an attempt that starts in `w` fails. -/
inductive AttemptFail (env : Env) (r : RunId) (d : WorkflowDef) (ok : String → Bool → Prop)
    (w : World) : Abort ExecutorError → World → Prop
  | runLost (w' : World) (hrun : w.store.runs.get? r = none)
      (htouched : Touched r [] [.check] w w') :
      AttemptFail env r d ok w (.error (.runLost r.text)) w'
  | notRunning (run : Run) (w' : World) (message : String)
      (hrun : w.store.runs.get? r = some run) (hstatus : run.status ≠ .running)
      (htouched : Touched r [] [.check] w w') :
      AttemptFail env r d ok w (.error (.invariant message)) w'
  | handlerPanic (w' : World) (hpanic : ¬ HandlersReturn env r) :
      AttemptFail env r d ok w .panic w'
  | notTerminal (run : Run) (executed : List String) (w₁ w' : World) (message : String)
      (hrun : w.store.runs.get? r = some run) (hstatus : run.status = .running)
      (hcollapsed : Collapsed (Touched r) r d ok w executed w₁)
      (hrunning : ∃ t ∈ d.names, (board r w₁.store t).status.isTerminal = false)
      (htouched : Touched r [] [] w₁ w') :
      AttemptFail env r d ok w (.error (.invariant message)) w'
  | backoffPanic (run : Run) (executed : List String) (w₁ w' : World)
      (hrun : w.store.runs.get? r = some run) (hstatus : run.status = .running)
      (hcollapsed : Collapsed (Touched r) r d ok w executed w₁)
      (hterminal : AllTerminal r d w₁.store) (hsome : AnyFailed r d w₁.store)
      (hinvalid : d.retry.validate ≠ .ok ()) (htouched : Touched r [] [] w₁ w') :
      AttemptFail env r d ok w .panic w'

section Collapsed

variable {env : Env} {r : RunId} {d : WorkflowDef} {K : Setting env r d} {w₀ w w' : World}
  {ok : String → Bool → Prop} {executed : List String} {marks : List Mark}
  {ws : List (List String)}

namespace Setting

/-- The waves and the collapse one after the other. -/
theorem collapsed_of_progressed {ts : List String}
    (h : Progressed K.touched r d ok w₀ executed w)
    (hdone : ∀ t ∈ d.names, t ∉ executed → ¬ (board r w.store).Startable (boardRules d) t)
    (hskipped : StuckSkipped r d [] w w') (hquiet : K.touched ts [] w w') :
    Collapsed K.touched r d ok w₀ executed w' := by
  have hsettled : ∀ t ∈ executed, ¬ Stuck r d w.store t := by
    rintro t ht ⟨-, hpending, -⟩
    obtain ⟨status, hfinal, -, hcell⟩ := h.settled t ht
    rcases hfinal with rfl | rfl <;> simp [hcell] at hpending
  refine ⟨⟨h.names, h.started, ?_, ?_⟩, ?_, ?_, ?_⟩
  · intro t ht
    rw [hskipped.other t (.inr (hsettled t ht))]
    exact h.settled t ht
  · obtain ⟨ts', marks, htouched, hcount⟩ := h.invoked
    exact ⟨_, _, K.trans htouched hquiet, by simpa using hcount⟩
  · intro t hname ht hpending
    rw [← h.untouched t ht] at hpending ⊢
    have hunmet : ¬ (board r w.store).NeedsMet (boardRules d) t := fun hmet ↦
      hdone t hname ht (.inl ⟨hpending, hmet⟩)
    exact ⟨hskipped.stuck t List.not_mem_nil ⟨hname, hpending, hunmet⟩,
      hskipped.not_needsMet hunmet⟩
  · intro t hname ht hfailed
    rw [← h.untouched t ht] at hfailed ⊢
    by_contra hlt
    exact hdone t hname ht (.inr ⟨hfailed, not_le.mp hlt⟩)
  · intro t ht hne
    rw [← h.untouched t ht] at hne ⊢
    exact hskipped.other t (.inr fun hstuck ↦ hne hstuck.2.1)

theorem course_of_touched {marks' : List Mark} (h : Course K.touched env r d ok marks w₀ ws w')
    (htouched : K.touched [] marks' w w₀) :
    Course K.touched env r d ok (marks' ++ marks) w ws w' := by
  obtain ⟨loop, drained, stopped, ts, hprelude, hturns, hlast, hcheck, hskipped, hquiet⟩ := h
  exact ⟨loop, drained, stopped, ts, K.trans htouched hprelude, hturns, hlast, hcheck, hskipped,
    hquiet⟩

theorem collapsed_of_course (h : Course K.touched env r d ok marks w ws w')
    (hmarks : ∀ t, Mark.invoke t ∉ marks) : Collapsed K.touched r d ok w ws.flatten w' := by
  obtain ⟨loop, drained, stopped, ts, hprelude, hturns, hlast, hcheck, hskipped, hquiet⟩ := h
  have hcollapsed := collapsed_of_progressed (progressed_check (progressed_turns hturns) hcheck)
    (fun t ht hout hstart ↦ ?_) hskipped hquiet
  · -- the same seen from before the marks
    obtain ⟨⟨hnames, hstarted, hsettled, ts', marks', htouched, hcount⟩, hskipped, hspent, hkept⟩ :=
      hcollapsed
    rw [board_eq hprelude] at hstarted hsettled hskipped hspent hkept
    refine ⟨⟨hnames, hstarted, hsettled, _, _, K.trans hprelude htouched, fun t ↦ ?_⟩, hskipped,
      hspent, hkept⟩
    simpa [List.count_append, List.count_eq_zero_of_not_mem (hmarks t)] using hcount t
  · rw [board_eq hcheck] at hstart
    exact List.not_mem_nil ((hlast.mem_iff t).mpr ⟨ht, hout, hstart⟩)

end Setting

/-- A task ends terminal unless it was stored as running when the attempt began. -/
theorem Collapsed.isTerminal_iff {touched : List String → List Mark → World → World → Prop}
    (h : Collapsed touched r d ok w executed w') {t : String} (ht : t ∈ d.names) :
    (board r w'.store t).status.isTerminal = true ↔ (board r w.store t).status ≠ .running := by
  by_cases hexecuted : t ∈ executed
  · obtain ⟨status, hfinal, -, hcell⟩ := h.settled t hexecuted
    rw [hcell]
    refine iff_of_true ?_ ?_
    · rcases hfinal with rfl | rfl <;> rfl
    · rcases h.started t hexecuted with hstatus | ⟨hstatus, -⟩ <;> simp [hstatus]
  · by_cases hpending : (board r w.store t).status = .pending
    · rw [(h.skipped t ht hexecuted hpending).1]
      exact iff_of_true rfl (by simp [hpending])
    · rw [h.kept t hexecuted hpending]
      revert hpending
      cases (board r w.store t).status <;> simp [TaskStatus.isTerminal]

/-- How the waves, the collapse and the decision return, seen from `w`. -/
def Setting.WavesEnd (K : Setting env r d) (ok : String → Bool → Prop) (run : Run) (w : World)
    (outcome : AttemptOutcome) (w' : World) : Prop :=
  K.inv w' ∧ ((∃ ts marks, K.touched ts marks w w' ∧ RunHasStatus w'.store r .cancelled) ∨
    ∃ ws w₁, Course K.touched env r d ok [] w ws w₁ ∧ AllTerminal r d w₁.store ∧
      Verdict K.decided r d run w₁ w' outcome)

/-- How they fail, seen from `w`. -/
def Setting.WavesFail (K : Setting env r d) (ok : String → Bool → Prop) (w : World)
    (reason : Abort ExecutorError) (w' : World) : Prop :=
  K.inv w' ∧ ((reason = .panic ∧ ¬ HandlersReturn env r) ∨ ∃ ws w₁,
    Course K.touched env r d ok [] w ws w₁ ∧ K.touched [] [] w₁ w' ∧ DecisionFail r d w₁ reason)

theorem Setting.holds_runWaves {token : Option ClaimToken} {leaseMs : ℤ} (hd : WellFormed d)
    (hw : K.inv w) (hid : run.id = r) (howns : K.owns run w) (hstatus : run.status = .running)
    (hok : Settles env r d ok) :
    K.Holds (K.WavesEnd ok run w) (K.WavesFail ok w) (runWaves ex run d token leaseMs) w := by
  subst hid
  unfold runWaves
  rw [holds_bind]
  refine holds_loadedStates hw fun w₁ states hw₁ h₁ hagrees ↦ ?_
  rw [holds_bind]
  refine holds_waves (fun w' hw' hpanic ↦ ⟨hw', .inl ⟨rfl, hpanic⟩⟩) hd hw₁ rfl hok hagrees ?_ ?_
  · exact fun w' outcome ts marks hw' h' hcancelled ↦
      ⟨hw', .inl ⟨_, _, K.trans h₁ h', hcancelled⟩⟩
  · intro drained w₂ states₂ ws hw₂ hagrees₂ hturns hlast hcheck
    simp only [holds_bind]
    refine holds_persistSkipped hd hw₂ hagrees₂ fun w₃ ts hw₃ hskipped hquiet ↦ ?_
    have hcourse : Course K.touched env run.id d ok [] w ws w₃ :=
      ⟨w₁, drained, w₂, ts, h₁, hturns, hlast, hcheck, hskipped, hquiet⟩
    obtain ⟨ts', marks, htouched, -⟩ := (collapsed_of_course hcourse (by simp)).invoked
    exact holds_finalize hw₃ rfl (hagrees₂.collapsed hd hskipped)
      (K.owns_of_touched htouched howns) hstatus
      (fun w₄ reason hw₄ h₄ hfail ↦ ⟨hw₄, .inr ⟨ws, w₃, hcourse, h₄, hfail⟩⟩)
      fun w₄ outcome hw₄ hterminal hverdict ↦
        ⟨hw₄, .inr ⟨ws, w₃, hcourse, hterminal, hverdict⟩⟩

end Collapsed

section Attempt

variable {r : RunId} {d : WorkflowDef} {a : ℕ} {w w' : World} {env : Env}
  {ok : String → Bool → Prop} {marks : List Mark} {ws : List (List String)}

theorem Course.collapsed (h : Course (Touched r) env r d ok marks w ws w')
    (hmarks : ∀ t, Mark.invoke t ∉ marks) : Collapsed (Touched r) r d ok w ws.flatten w' :=
  Setting.collapsed_of_course (K := .alone env r d 0) h hmarks

theorem Collapsed.runs {executed : List String} (h : Collapsed (Touched r) r d ok w executed w') :
    w'.store.runs = w.store.runs :=
  let ⟨_, _, htouched, _⟩ := h.invoked
  htouched.runs

variable (ex : RunExecutor) (token : Option ClaimToken) (leaseMs : ℤ)

theorem wp_deadlinePassed {ε : Type} {post : Bool → World → Prop} {fail : Abort ε → World → Prop}
    (hw : Sound r d a w)
    (hopen : ∀ w', Sound r d a w' → Touched r [] [] w w' →
      (∀ deadline, run.deadlineAtMs = some deadline → env.clock w.log ≤ deadline) → post false w')
    (hpassed : ∀ w' deadline, Sound r d a w' → Touched r [] [] w w' →
      run.deadlineAtMs = some deadline → deadline < env.clock w.log → post true w') :
    wp (serve env) (Sound r d a) post fail (deadlinePassed run) w := by
  unfold deadlinePassed
  cases hdeadline : run.deadlineAtMs with
  | none => exact hopen w hw (.refl r w) (by simp [hdeadline])
  | some deadline =>
    simp only [wp_bind]
    refine wp_silent .nowMs trivial rfl hw fun w₁ hw₁ h₁ ↦ ?_
    change post (decide (deadline < env.clock w.log)) w₁
    by_cases hlate : deadline < env.clock w.log
    · simpa [hlate] using hpassed w₁ deadline hw₁ h₁ hdeadline hlate
    · simpa [hlate] using hopen w₁ hw₁ h₁ (by simpa [hdeadline] using hlate)

/-- The specification of an attempt: from any point in the life of a run, it keeps the invariant
between its calls, and ends or fails in one of the ways listed. -/
theorem wp_attemptWithToken (hd : WellFormed d) (hw : Sound r d a w) (hok : Settles env r d ok) :
    wp (serve env) (Sound r d a)
      (fun outcome w' ↦ Sound r d a w' ∧ AttemptEnd env r d ok w outcome w')
      (fun reason w' ↦ Sound r d a w' ∧ AttemptFail env r d ok w reason w')
      (attemptWithToken ex r token leaseMs) w := by
  unfold attemptWithToken
  rw [wp_onStore_bind]
  refine ⟨hw, ?_⟩
  obtain ⟨hw₁, h₁⟩ := hw.check env
  cases hrun : w.store.runs.get? r with
  | none =>
    simp only [StoreCall.apply, MemoryStore.getRun, hrun]
    exact ⟨hw₁, .runLost _ hrun h₁⟩
  | some run =>
    simp only [StoreCall.apply, MemoryStore.getRun, hrun]
    rw [wp_onStore_bind]
    refine ⟨hw₁, ?_⟩
    have hget : (w.after env (.store (.getRun r))).store.getWorkflow run.tenant run.defName =
        .ok ⟨d⟩ := by
      unfold MemoryStore.getWorkflow
      rw [h₁.defs, hw.definition hrun]
    simp only [StoreCall.apply, hget]
    obtain ⟨hw₂, h₂⟩ := hw₁.silent env (.store (.getWorkflow run.tenant run.defName)) trivial rfl
    set w₂ := (w.after env (.store (.getRun r))).after env
      (.store (.getWorkflow run.tenant run.defName)) with hw₂_eq
    have h₁₂ : Touched r [] [.check] w w₂ := h₁.trans h₂
    by_cases hstatus : run.status = .running
    · rw [if_neg (not_not_intro hstatus), wp_bind]
      refine wp_deadlinePassed hw₂ (fun w₃ hw₃ h₃ hopen ↦ ?_)
        fun w₃ deadline hw₃ h₃ hdeadline hlate ↦ ?_
      · have hrun₃ : w₃.store.runs.get? r = some run := by rwa [h₃.runs, h₁₂.runs]
        have h₁₃ := h₁₂.trans h₃
        refine wp_mono (fun _ hs ↦ hs) ?_ ?_ (wp_of_amid_alone (Setting.holds_runWaves
          (K := .alone env r d a) hd hw₃ (KeyedMap.key_of_get? hrun) hrun₃ hstatus hok))
        · rintro outcome w' ⟨hw', ⟨ts, marks, h₄, hcancelled⟩ | ⟨ws, w₄, hcourse, hterminal,
            hverdict⟩⟩
          · -- the run is still as it was read
            rw [runHasStatus_iff, h₄.runs, hrun₃] at hcancelled
            simp [hstatus] at hcancelled
          · exact ⟨hw', .decided run ws w₄ w' outcome hrun hstatus
              (Setting.course_of_touched (K := .alone env r d a) hcourse h₁₃) hterminal hverdict⟩
        · rintro reason w' ⟨hw', ⟨rfl, hpanic⟩ | ⟨ws, w₄, hcourse, h₄, hfail⟩⟩
          · exact ⟨hw', .handlerPanic w' hpanic⟩
          · have hcollapsed : Collapsed (Touched r) r d ok w ws.flatten w₄ :=
              (Setting.course_of_touched (K := .alone env r d a) hcourse h₁₃).collapsed (by simp)
            rcases hfail with ⟨hrunning, rfl⟩ | ⟨hterminal, hsome, rfl, hinvalid⟩
            · exact ⟨hw', .notTerminal run _ w₄ w' _ hrun hstatus hcollapsed hrunning h₄⟩
            · exact ⟨hw', .backoffPanic run _ w₄ w' hrun hstatus hcollapsed hterminal hsome
                hinvalid h₄⟩
      · have hrun₃ : w₃.store.runs.get? r = some run := by rwa [h₃.runs, h₁₂.runs]
        have hclosed : ¬ DeadlineOpen env r w := fun hopen ↦
          absurd (hopen run deadline hrun hdeadline) (by simpa [hw₂_eq] using hlate)
        exact wp_of_amid_alone (Setting.holds_finishTimedOut (K := .alone env r d a) hw₃
          (.refl r w₃) hrun₃ fun w' error hw' hdecided ↦
            ⟨hw', .timedOut run error w₃ w' hrun hstatus hclosed (h₁₂.trans h₃) hdecided⟩)
    · rw [if_pos hstatus]
      split_ifs with hcancelled
      · exact ⟨hw₂, .cancelled run w₂ hrun hcancelled h₁₂⟩
      · exact ⟨hw₂, .notRunning run w₂ _ hrun hstatus h₁₂⟩

/-- How an attempt of a running run within its deadline ends when the handlers return: with its
decision, with a task that is stored as running, or with a panic over the workflow's policy. -/
theorem attempt_cases (hd : WellFormed d) (hw : Sound r d a w) (hok : Settles env r d ok)
    (hrun : w.store.runs.get? r = some run) (hstatus : run.status = .running)
    (hopen : DeadlineOpen env r w) (hreturn : HandlersReturn env r)
    {result : Except (Abort ExecutorError) AttemptOutcome}
    (hresult : (attemptWithToken ex r token leaseMs).run (serve env) w = (result, w')) :
    (∃ outcome ws w₁, result = .ok outcome ∧ Sound r d a w' ∧
      Course (Touched r) env r d ok [.check] w ws w₁ ∧ AllTerminal r d w₁.store ∧
      Verdict (Decided r) r d run w₁ w' outcome) ∨
    (∃ message executed w₁, result = .error (.error (.invariant message)) ∧
      Collapsed (Touched r) r d ok w executed w₁ ∧
      ∃ t ∈ d.names, (board r w₁.store t).status.isTerminal = false) ∨
    ∃ executed w₁, result = .error .panic ∧ Collapsed (Touched r) r d ok w executed w₁ ∧
      AllTerminal r d w₁.store ∧ AnyFailed r d w₁.store ∧ d.retry.validate ≠ .ok () := by
  have hspec := wp_attemptWithToken ex token leaseMs hd hw hok
  cases result with
  | ok outcome =>
    obtain ⟨hw', hend⟩ := CallProgram.post_of_run hspec hresult
    cases hend with
    | cancelled run' _ hrun' hcancelled =>
      obtain rfl : run = run' := Option.some.inj (hrun.symm.trans hrun')
      simp [hstatus] at hcancelled
    | timedOut run' error w₁ _ hrun' hrunning hlate => exact absurd hopen hlate
    | decided run' ws w₁ _ _ hrun' hrunning hcourse hterminal hverdict =>
      obtain rfl : run = run' := Option.some.inj (hrun.symm.trans hrun')
      exact .inl ⟨outcome, ws, w₁, rfl, hw', hcourse, hterminal, hverdict⟩
  | error reason =>
    obtain ⟨-, hfail⟩ := CallProgram.fail_of_run hspec hresult
    cases hfail with
    | runLost _ hlost => simp [hrun] at hlost
    | notRunning run' _ message hrun' hother =>
      obtain rfl : run = run' := Option.some.inj (hrun.symm.trans hrun')
      exact absurd hstatus hother
    | handlerPanic _ hpanic => exact absurd hreturn hpanic
    | notTerminal run' executed w₁ _ message hrun' hrunning hcollapsed hstuck =>
      exact .inr (.inl ⟨message, executed, w₁, rfl, hcollapsed, hstuck⟩)
    | backoffPanic run' executed w₁ _ hrun' hrunning hcollapsed hterminal hsome hinvalid =>
      exact .inr (.inr ⟨executed, w₁, rfl, hcollapsed, hterminal, hsome, hinvalid⟩)

/-- An attempt of a running run within its deadline comes to its decision, if the handlers return,
no task is stored as running, and the workflow's policy is valid when a task has failed. -/
theorem attempt_decides (hd : WellFormed d) (hw : Sound r d a w) (hok : Settles env r d ok)
    (hrun : w.store.runs.get? r = some run) (hstatus : run.status = .running)
    (hopen : DeadlineOpen env r w) (hreturn : HandlersReturn env r)
    (hidle : ∀ t ∈ d.names, (board r w.store t).status ≠ .running)
    (hpolicy : ∀ executed w₁, Collapsed (Touched r) r d ok w executed w₁ →
      AnyFailed r d w₁.store → d.retry.validate = .ok ()) :
    ∃ outcome w' ws w₁,
      (attemptWithToken ex r token leaseMs).run (serve env) w = (.ok outcome, w') ∧
        Sound r d a w' ∧ Course (Touched r) env r d ok [.check] w ws w₁ ∧
          Verdict (Decided r) r d run w₁ w' outcome := by
  cases hresult : (attemptWithToken ex r token leaseMs).run (serve env) w with
  | mk result w' =>
    rcases attempt_cases ex token leaseMs hd hw hok hrun hstatus hopen hreturn hresult with
      ⟨outcome, ws, w₁, rfl, hw', hcourse, -, hverdict⟩ |
      ⟨message, executed, w₁, rfl, hcollapsed, t, ht, hnot⟩ |
      ⟨executed, w₁, rfl, hcollapsed, -, hsome, hinvalid⟩
    · exact ⟨outcome, w', ws, w₁, rfl, hw', hcourse, hverdict⟩
    · simp [(hcollapsed.isTerminal_iff ht).mpr (hidle t ht)] at hnot
    · exact absurd (hpolicy executed w₁ hcollapsed hsome) hinvalid

end Attempt

end Runvane.Scheduler
