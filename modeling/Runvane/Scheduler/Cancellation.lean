import Runvane.Scheduler.Concurrency

/-!
# Cancelling a run that is being attempted

An attempt looks at its run before every wave, and stops when it finds it cancelled. In between it
does not look: the tasks of a wave that is under way are still started after the cancellation
(`invoked_after_cancellation`). When the cancellation lands at a point from which the attempt looks
at the run before it invokes another handler (`ChecksFirst`), it invokes none any more
(`not_invoked_after_cancellation`).
-/

set_option autoImplicit false

namespace Runvane.Scheduler

open Library Domain Persistence Prog
open CallProgram (Calls Reaches Restrained keeps_bind after_bind after_of_calls)

def Call.Harmless (r : RunId) (call : Call) : Prop := ∀ t, call.mark r ≠ some (.invoke t)

/-- The program looks at the run before it invokes a handler of it. -/
def ChecksFirst {ε α : Type} (r : RunId) (p : Prog ε α) : Prop :=
  p.Until (Call.Harmless r) fun call ↦ call.mark r = some .check

/-- The answers after which an attempt invokes no handler any more: the run is found cancelled, or
has been written or deleted. -/
def Call.Ends (r : RunId) : (call : Call) → call.Answer → Prop
  | .store (.getRun id), .ok run => id = r ∧ run.status = .cancelled
  | .store (.putRun _), _ | .store (.deleteRun _), _ => True
  | _, _ => False

theorem Call.InWave.not_ends {call : Call} (h : call.InWave) (r : RunId) (answer : call.Answer) :
    ¬ call.Ends r answer := by
  intro hends
  cases call with
  | store call =>
    cases call with
    | getRun | putRun | deleteRun => simp [Call.InWave, Call.OnRecords] at h
    | _ => exact hends
  | _ => exact hends

theorem Call.Deciding.harmless {call : Call} (h : call.Deciding) (r : RunId) :
    call.Harmless r := by
  intro t hmark
  cases call with
  | execute handler ctx => simp [Call.Deciding, Call.OnRecords] at h
  | store call =>
    cases call with
    | getRun id =>
      simp only [Call.mark] at hmark
      split_ifs at hmark
      cases hmark
    | _ => cases hmark
  | _ => cases hmark

section Attempt

variable {r : RunId}

theorem after_ask {ε α : Type} {call : Call} {rest : call.Answer → Prog ε α}
    (hends : ∀ answer, call.Ends r answer → (rest answer).Calls (Call.Harmless r))
    (hrest : ∀ answer, (rest answer).After (Call.Ends r) (Call.Harmless r)) :
    (ask call >>= rest).After (Call.Ends r) (Call.Harmless r) :=
  ⟨hends, hrest⟩

variable (run : Run) (d : WorkflowDef) (token : Option ClaimToken) (leaseMs : ℤ)

/-- A turn of the loop, and what follows it. -/
theorem after_turn {rest : Progress ⊕ LoopExit → Prog ExecutorError AttemptOutcome}
    (hcancelled : ∀ outcome, (rest (.inr (.cancelled outcome))).Calls (Call.Harmless r))
    (hrest : ∀ result, (rest result).After (Call.Ends r) (Call.Harmless r)) (p : Progress) :
    (turn run d token leaseMs p >>= rest).After (Call.Ends r) (Call.Harmless r) := by
  have hdispatch := after_bind ((calls_dispatch run d token leaseMs p).within
    fun call h answer ↦ h.not_ends r answer) hrest
  unfold turn
  rw [CallProgram.bind_assoc]
  refine after_ask (fun answer hends ↦ ?_) fun answer ↦ ?_
  · cases answer with
    | error e => exact hends.elim
    | ok current =>
      dsimp only
      rw [if_pos hends.2]
      exact hcancelled _
  · cases answer with
    | error e => exact hdispatch
    | ok current =>
      dsimp only
      split_ifs
      · exact hrest _
      · exact hdispatch

/-- The loop over waves, and what follows it. -/
theorem after_iterate_turn {rest : LoopExit → Prog ExecutorError AttemptOutcome}
    (hcancelled : ∀ outcome, (rest (.cancelled outcome)).Calls (Call.Harmless r))
    (hrest : ∀ loopExit, (rest loopExit).After (Call.Ends r) (Call.Harmless r)) (fuel : ℕ)
    (p : Progress) :
    (CallProgram.iterate .exhausted (turn run d token leaseMs) fuel p >>= rest).After
      (Call.Ends r) (Call.Harmless r) := by
  induction fuel generalizing p with
  | zero => trivial
  | succ fuel ih =>
    rw [CallProgram.iterate, CallProgram.bind_assoc]
    refine after_turn run d token leaseMs hcancelled (fun result ↦ ?_) p
    cases result with
    | inl p' => exact ih p'
    | inr loopExit => exact hrest loopExit

/-- Once an attempt finds its run cancelled, or has written it, it invokes no handler. -/
theorem after_attemptWithToken (ex : RunExecutor) :
    (attemptWithToken ex r token leaseMs).After (Call.Ends r) (Call.Harmless r) := by
  have hdecides : ∀ {p : Prog ExecutorError AttemptOutcome}, p.Calls Call.Deciding →
      p.Calls (Call.Harmless r) := fun h ↦ h.within fun call h ↦ h.harmless r
  have hrecords : ∀ {α : Type} {p : Prog ExecutorError α}, p.Calls Call.OnRecords →
      p.Calls fun call ↦ ∀ answer, ¬ call.Ends r answer :=
    fun h ↦ h.within fun call h answer ↦ h.inWave.not_ends r answer
  refine after_ask (fun answer hends ↦ ?_) fun answer ↦ ?_
  · cases answer with
    | error e => exact hends.elim
    | ok run =>
      have hstatus : run.status = .cancelled := hends.2
      have hmark : (Call.store (.getWorkflow run.tenant run.defName)).Harmless r :=
        fun t h ↦ by cases h
      refine keeps_bind (calls_ask hmark) fun answer _ ↦ ?_
      cases answer with
      | error e => trivial
      | ok record => simp [hstatus, CallProgram.Keeps]
  · cases answer with
    | error e => trivial
    | ok run =>
      refine after_ask (fun answer hends ↦ hends.elim) fun answer ↦ ?_
      cases answer with
      | error e => trivial
      | ok record =>
        dsimp only
        split_ifs
        · trivial
        · trivial
        · refine after_bind (hrecords (calls_deadlinePassed run)) fun passed ↦ ?_
          split_ifs
          · exact after_of_calls (hdecides (calls_finishTimedOut run))
          · refine after_bind (hrecords (calls_loadedStates ..)) fun states ↦ ?_
            refine after_iterate_turn run record.definition token leaseMs ?_ (fun loopExit ↦ ?_) _ _
            · exact fun _ ↦ trivial
            · cases loopExit with
              | cancelled outcome => trivial
              | drained states => exact after_of_calls (hdecides (calls_collapse ..))

end Attempt

/-! ### The cancellation -/

section Cancelled

variable {env : Env} {r : RunId} {w : World}

/-- A cancelled run stays cancelled until it is written or deleted. -/
theorem cancelled_after (h : RunHasStatus w.store r .cancelled) (call : Call) :
    call.Ends r (env.answer w call).1 ∨ RunHasStatus (w.after env call).store r .cancelled := by
  have hsame (hleaves : call.LeavesRuns) : RunHasStatus (w.after env call).store r .cancelled := by
    rw [runHasStatus_iff, runs_after env w call hleaves]
    exact runHasStatus_iff.mp h
  cases call with
  | store call =>
    cases call with
    | putRun | deleteRun => exact .inl trivial
    | cancelRun id nowMs =>
      refine .inr (runHasStatus_iff.mpr ?_)
      exact (statusStep_cancelRun id nowMs).staysCancelled (runHasStatus_iff.mp h)
    | _ => exact .inr (hsame trivial)
  | _ => exact .inr (hsame trivial)

/-- A look at a cancelled run finds it so. -/
theorem ends_of_check {call : Call} (hcheck : call.mark r = some .check)
    (h : RunHasStatus w.store r .cancelled) : call.Ends r (env.answer w call).1 := by
  cases call with
  | store call =>
    cases call with
    | getRun id =>
      simp only [Call.mark] at hcheck
      split_ifs at hcheck with hid
      subst hid
      obtain ⟨run, hrun, hstatus⟩ := h
      change Call.Ends id (.store (.getRun id)) (w.store.getRun id)
      rw [hrun]
      exact ⟨rfl, hstatus⟩
    | _ => cases hcheck
  | execute handler ctx =>
    simp only [Call.mark] at hcheck
    split_ifs at hcheck
    cases hcheck
  | _ => cases hcheck

/-- The program invokes no handler of the run from here on. -/
abbrev Spares {ε α : Type} (r : RunId) (c : Prog ε α × World) : Prop :=
  Restrained (Call.Ends r) (Call.Harmless r) (fun call ↦ call.mark r = some .check)
    (fun w ↦ RunHasStatus w.store r .cancelled) c

/-- A program that spares the run makes only harmless calls. -/
theorem Spares.reaches {ε α : Type} {c c' : Prog ε α × World} (h : Spares r c)
    (hreach : Reaches (serve env) c c') :
    Spares r c' ∧ ∃ later, c'.2.log = c.2.log ++ later ∧ ∀ t, .invoke t ∉ trail r later := by
  induction hreach with
  | refl => exact ⟨h, [], by simp, by simp [trail]⟩
  | tail _ hstep ih =>
    obtain ⟨hspares, later, hlog, htrail⟩ := ih
    refine ⟨hspares.step (fun call w hcheck hw ↦ ends_of_check hcheck hw)
      (fun call w hw ↦ cancelled_after hw call) hstep, ?_⟩
    cases hstep with
    | call call next w =>
      have hharmless : call.Harmless r :=
        hspares.allowed_of_call fun call hcheck t ht ↦ by simp [hcheck] at ht
      refine ⟨later ++ [⟨w.store, call, (env.answer w call).1⟩], ?_, fun t ↦ ?_⟩
      · change w.log ++ _ = _
        rw [← List.append_assoc, ← hlog]
      · have ht := htrail t
        unfold trail at ht ⊢
        rw [List.filterMap_append, List.mem_append, not_or]
        exact ⟨ht, by simpa using hharmless t⟩

theorem runHasStatus_of_cancelRun {nowMs : ℤ} (h : (w.store.cancelRun r nowMs).1 = .ok true) :
    RunHasStatus (w.after env (.store (.cancelRun r nowMs))).store r .cancelled := by
  rw [runHasStatus_iff]
  change ((w.store.cancelRun r nowMs).2.runs.get? r).map Run.status = _
  unfold MemoryStore.cancelRun at h ⊢
  cases hrun : w.store.runs.get? r with
  | none => simp [hrun] at h
  | some run =>
    have hid : run.id = r := KeyedMap.key_of_get? hrun
    simp only [hrun] at h ⊢
    split_ifs at h ⊢
    · cases h
    · rw [KeyedMap.get?_put, if_pos hid]
      rfl

/-- When an attempt is about to look at its run before it invokes a handler, a cancellation that
lands there keeps it from invoking any. -/
theorem not_invoked_after_cancellation {w₁ w₂ : World} {p₁ p₂ : Prog ExecutorError AttemptOutcome}
    (ex : RunExecutor) (token : Option ClaimToken) (leaseMs nowMs : ℤ)
    (hbefore : Reaches (serve env) (attemptWithToken ex r token leaseMs, w) (p₁, w₁))
    (hcancel : (w₁.store.cancelRun r nowMs).1 = .ok true) (hchecks : ChecksFirst r p₁)
    (hafter : Reaches (serve env) (p₁, w₁.after env (.store (.cancelRun r nowMs))) (p₂, w₂)) :
    ∀ t, .invoke t ∉ trail r (w₂.log.drop (w₁.log.length + 1)) := by
  have hrest : p₁.After (Call.Ends r) (Call.Harmless r) :=
    (after_attemptWithToken token leaseMs ex).reaches hbefore
  have hspares : Spares r (p₁, w₁.after env (.store (.cancelRun r nowMs))) :=
    .inr ⟨hchecks, hrest, runHasStatus_of_cancelRun hcancel⟩
  obtain ⟨-, later, hlog, htrail⟩ := hspares.reaches hafter
  have hdrop : w₂.log.drop (w₁.log.length + 1) = later := by
    rw [hlog]
    exact List.drop_left' (by simp [World.after])
  rwa [hdrop]

end Cancelled

def sampleAttempt (s : MemoryStore) (calls : ℕ) : Prog ExecutorError AttemptOutcome × World :=
  (CallProgram.advance (serve allUp))^[calls]
    (attemptWithToken plainExecutor sampleRun none 0, ⟨s, []⟩)

def sampleCancelled (s : MemoryStore) (before after : ℕ) :
    Prog ExecutorError AttemptOutcome × World :=
  (CallProgram.advance (serve allUp))^[after] ((sampleAttempt s before).1,
    (sampleAttempt s before).2.after allUp (.store (.cancelRun sampleRun 0)))

theorem not_invoked_after_cancellation_sample :
    trail sampleRun (sampleAttempt sampleStore 12).2.log = [.check, .check, .invoke "a"] ∧
      ∀ t, .invoke t ∉ trail sampleRun ((sampleCancelled sampleStore 12 40).2.log.drop
        ((sampleAttempt sampleStore 12).2.log.length + 1)) := by
  have hnext : ((sampleAttempt sampleStore 12).1.next?).map (Call.mark sampleRun) =
      some (some .check) := by decide
  obtain ⟨call, hcall, hcheck⟩ := Option.map_eq_some_iff.mp hnext
  exact ⟨by decide, not_invoked_after_cancellation plainExecutor none 0 0
    (CallProgram.reaches_advance ..) (by decide)
    (CallProgram.until_of_next? hcall hcheck) (CallProgram.reaches_advance ..)⟩

/-- Two tasks that do not depend on each other. -/
def sampleWide : MemoryStore :=
  (sampleStore.putWorkflow { sampleDef with
    tasks := [{ name := "a", handler := ⟨"h"⟩ }, { name := "b", handler := ⟨"h"⟩ }] }).2

/-- The cancellation lands when the first task of a wave has ended, and the second is started. -/
theorem invoked_after_cancellation : ∃ p₁ w₁ p₂ w₂,
    Reaches (serve allUp) (attemptWithToken plainExecutor sampleRun none 0, ⟨sampleWide, []⟩)
      (p₁, w₁) ∧
    (w₁.store.cancelRun sampleRun 0).1 = .ok true ∧
    Reaches (serve allUp) (p₁, w₁.after allUp (.store (.cancelRun sampleRun 0))) (p₂, w₂) ∧
    HasStatus w₁.store sampleRun "a" .succeeded ∧
    trail sampleRun (w₂.log.drop (w₁.log.length + 1)) = [.invoke "b"] := by
  refine ⟨(sampleAttempt sampleWide 12).1, (sampleAttempt sampleWide 12).2,
    (sampleCancelled sampleWide 12 5).1, (sampleCancelled sampleWide 12 5).2,
    CallProgram.reaches_advance .., by decide, CallProgram.reaches_advance .., ?_,
    by decide⟩
  rw [hasStatus_iff (by decide)]
  decide

end Runvane.Scheduler
