import Runvane.Scheduler.Retry

/-!
# The run machine under concurrency

Dispatchers, workers and operators work on one store, in turns of single calls. Each of the first
two reads a run, decides by what it read, and later writes the whole record back, so another's
change in between is lost: a cancellation that lands before the last write of an attempt is undone
(`cancellation_overwritten`). When every such write finds the run with the status its writer read,
queued for the dispatcher and running for a worker (`Fresh`), the statuses of every run move along
the edges of the run machine, in every interleaving, and a cancelled run stays cancelled
(`statuses_follow_fsm`).
-/

set_option autoImplicit false

namespace Runvane.Scheduler

open Library Domain Persistence Prog
open CallProgram (keeps_bind)

/-! ### Roles -/

/-- Who works on the store: a round of a dispatcher, a worker on a job, or an operator who cancels
a run. -/
inductive Role
  | dispatcher (settings : Dispatcher)
  | worker (ex : RunExecutor) (job : Job)
  | operator (runId : RunId)

def Role.program : Role → Prog Empty Unit
  | .dispatcher settings => do
    let _ ← settings.step
    pure ()
  | .worker ex job => runJob ex job
  | .operator runId => do
    let now ← ask .nowMs
    let _ ← onStore (.cancelRun runId now)
    pure ()

def Role.Writes : Role → Call → Prop
  | .dispatcher _, .store (.putRun run) => run.status = .running
  | .worker .., .store (.putRun run) => run.status ∈ attemptStatuses
  | .operator _, .store (.putRun _) => False
  | _, .store (.deleteRun _) => False
  | _, _ => True

/-- A run that is written in a role is still stored with the status it was read with. -/
def Fresh : Role → Call → World → Prop
  | .dispatcher _, .store (.putRun run), w => RunHasStatus w.store run.id .queued
  | .worker .., .store (.putRun run), w => RunHasStatus w.store run.id .running
  | _, _, _ => True

instance (role : Role) (call : Call) (w : World) : Decidable (Fresh role call w) := by
  unfold Fresh
  split <;> infer_instance

/-- Dispatchers, workers and operators over one world. -/
abbrev Engine := System Role Call Call.Answer (Abort Empty) Unit World

/-- The worlds of an interleaving, from one in which nobody is at work. -/
def worlds (env : Env) (w : World) (turns : List (Turn Role)) : List World :=
  System.states (serve env) Role.program (⟨w, []⟩ : Engine) turns

def statusOf (r : RunId) (w : World) : Option RunStatus := (w.store.runs.get? r).map Run.status

/-- The persisted status does not change, or moves along an edge of the run machine or along the
retry, which is two edges in one. -/
def StatusStep : Option RunStatus → Option RunStatus → Prop
  | some source, some target => source = target ∨ RunFsm.canTransition source target = true ∨
      source = .running ∧ target = .queued
  | before, after => before = after

instance : DecidableRel StatusStep := fun before after ↦ by
  unfold StatusStep
  split <;> infer_instance

theorem StatusStep.refl (status : Option RunStatus) : StatusStep status status := by
  cases status with
  | none => exact rfl
  | some status => exact .inl rfl

theorem Role.calls_program (role : Role) : role.program.Calls role.Writes := by
  cases role with
  | dispatcher settings =>
    refine keeps_bind ((calls_step settings).within fun call h ↦ ?_) fun _ _ ↦ trivial
    cases call with
    | store call => cases call <;> first | exact h | trivial
    | _ => trivial
  | worker ex job =>
    refine (calls_runJob ex job).within fun call h ↦ ?_
    cases call with
    | store call =>
      cases call with
      | putRun run =>
        show run.status ∈ attemptStatuses
        simpa [Call.Working, Call.Attempting, Call.InWave, Call.Deciding, Call.OnRecords] using h
      | deleteRun id =>
        simp [Call.Working, Call.Attempting, Call.InWave, Call.Deciding, Call.OnRecords] at h
      | _ => trivial
    | _ => trivial
  | operator runId =>
    exact keeps_bind (calls_ask trivial) fun _ _ ↦ keeps_bind (calls_ask trivial) fun _ _ ↦ trivial

/-! ### Single calls -/

section Calls

variable {env : Env} {w : World} {r : RunId}

theorem statusOf_putRun (run : Run) : statusOf r (w.after env (.store (.putRun run))) =
    if run.id = r then some run.status else statusOf r w := by
  change ((w.store.runs.put run).get? r).map Run.status = _
  rw [KeyedMap.get?_put]
  split_ifs <;> rfl

/-- A run that is written over the status it was read with moves along the machine. -/
theorem statusStep_putRun {role : Role} {run : Run} (hwrites : role.Writes (.store (.putRun run)))
    (hfresh : Fresh role (.store (.putRun run)) w) :
    StatusStep (statusOf r w) (statusOf r (w.after env (.store (.putRun run)))) := by
  rw [statusOf_putRun]
  split_ifs with hid
  · subst hid
    cases role with
    | dispatcher settings =>
      have hstatus : run.status = .running := hwrites
      have hqueued : statusOf run.id w = some .queued := runHasStatus_iff.mp hfresh
      rw [hqueued, hstatus]
      exact .inr (.inl rfl)
    | worker ex job =>
      have hstatus : run.status ∈ attemptStatuses := hwrites
      have hrunning : statusOf run.id w = some .running := runHasStatus_iff.mp hfresh
      rw [hrunning]
      simp only [attemptStatuses, List.mem_cons, List.not_mem_nil, or_false] at hstatus
      rcases hstatus with h | h | h | h <;> rw [h] <;> decide
    | operator runId => exact hwrites.elim
  · exact .refl _

/-- A cancellation moves along the machine, and only what is not terminal. -/
theorem statusStep_cancelRun (runId : RunId) (nowMs : ℤ) :
    StatusStep (statusOf r w) (statusOf r (w.after env (.store (.cancelRun runId nowMs)))) := by
  change StatusStep _ (((w.store.cancelRun runId nowMs).2.runs.get? r).map Run.status)
  rcases w.store.cancelRun_cases runId nowMs with ⟨-, hstore⟩ | ⟨run, hrun, hterminal, hstore⟩ <;>
    rw [hstore]
  · exact .refl _
  · have hid : run.id = runId := KeyedMap.key_of_get? hrun
    rw [KeyedMap.get?_put]
    split_ifs with hr
    · have hstatus : statusOf r w = some run.status := by
        rw [statusOf, ← hr, hid, hrun]
        rfl
      rw [hstatus]
      unfold Run.isTerminal at hterminal
      cases hrunStatus : run.status <;> rw [hrunStatus] at hterminal
      case queued | running => exact .inr (.inl rfl)
      all_goals cases hterminal
    · exact .refl _

/-- Every call of every role moves the statuses along the machine. -/
theorem statusStep_after {role : Role} {call : Call} (hwrites : role.Writes call)
    (hfresh : Fresh role call w) : StatusStep (statusOf r w) (statusOf r (w.after env call)) := by
  have hsame (hleaves : call.LeavesRuns) :
      StatusStep (statusOf r w) (statusOf r (w.after env call)) := by
    unfold statusOf
    rw [runs_after env w call hleaves]
    exact .refl _
  cases call with
  | store call =>
    cases call with
    | putRun run => exact statusStep_putRun hwrites hfresh
    | cancelRun runId nowMs => exact statusStep_cancelRun runId nowMs
    | deleteRun id => cases role <;> exact hwrites.elim
    | _ => exact hsame trivial
  | _ => exact hsame trivial

end Calls

/-- A run that was cancelled before is cancelled after. -/
def StaysCancelled (before after : Option RunStatus) : Prop :=
  before = some .cancelled → after = some .cancelled

instance : Trans StaysCancelled StaysCancelled StaysCancelled :=
  ⟨fun h h' hcancelled ↦ h' (h hcancelled)⟩

/-- The machine has no edge out of a cancelled run. -/
theorem StatusStep.staysCancelled {before after : Option RunStatus} (h : StatusStep before after) :
    StaysCancelled before after := by
  rintro rfl
  cases after with
  | none => cases h
  | some target =>
    rcases h with rfl | hedge | ⟨hrunning, -⟩
    · rfl
    · cases target <;> cases hedge
    · cases hrunning

/-! ### Interleavings -/

/-- In every interleaving in which no run is written over a status other than the one it was read
with, the statuses of every run move along the run machine, and a cancelled run stays cancelled. -/
theorem statuses_follow_fsm (env : Env) (w : World) (turns : List (Turn Role))
    (hfresh : System.Guarded (serve env) Role.program Fresh (⟨w, []⟩ : Engine) turns) (r : RunId) :
    ((worlds env w turns).map (statusOf r)).IsChain StatusStep ∧
      ((worlds env w turns).map (statusOf r)).Pairwise StaysCancelled := by
  have hchain : ((worlds env w turns).map (statusOf r)).IsChain StatusStep := by
    refine List.isChain_map_of_isChain (statusOf r) (fun _ _ h ↦ h) ?_
    exact System.isChain_states Role.calls_program (fun _ ↦ .refl _)
      (fun role call s hwrites hguard ↦ statusStep_after hwrites hguard) (by simp [System.Honours])
      hfresh
  exact ⟨hchain, (hchain.imp fun _ _ h ↦ h.staysCancelled).pairwise⟩

def sampleWaiting : World :=
  ⟨(sampleQueued.store.enqueue
    { runId := sampleRun, token := .empty, dueAtMs := 0, leaseUntilMs := none
      claimedBy := none }).2, []⟩

def sampleWork (calls : ℕ) : List (Turn Role) :=
  .start (.dispatcher ⟨8, 60000⟩) :: List.replicate 8 (.call 0) ++
    .start (.worker plainExecutor ⟨sampleRun, ⟨"token"⟩⟩) :: List.replicate calls (.call 1)

def sampleCancel : List (Turn Role) := [.start (.operator sampleRun), .call 2, .call 2]

theorem statuses_follow_fsm_sample :
    ((worlds allUp sampleWaiting (sampleWork 29 ++ sampleCancel)).map
      (statusOf sampleRun)).destutter (· ≠ ·) = [some .queued, some .running, some .succeeded] ∧
    ((worlds allUp sampleWaiting (sampleWork 29 ++ sampleCancel)).map
      (statusOf sampleRun)).IsChain StatusStep ∧
    ((worlds allUp sampleWaiting (sampleWork 29 ++ sampleCancel)).map
      (statusOf sampleRun)).Pairwise StaysCancelled :=
  ⟨by decide, statuses_follow_fsm allUp sampleWaiting (sampleWork 29 ++ sampleCancel)
    (by decide) sampleRun⟩

/-- An operator cancels the run before the last write of its worker, which does not look again. -/
theorem cancellation_overwritten :
    ((worlds allUp sampleWaiting (sampleWork 27 ++ sampleCancel ++ [.call 1])).map
      (statusOf sampleRun)).destutter (· ≠ ·) =
        [some .queued, some .running, some .cancelled, some .succeeded] ∧
    ¬ ((worlds allUp sampleWaiting (sampleWork 27 ++ sampleCancel ++ [.call 1])).map
      (statusOf sampleRun)).IsChain StatusStep := by
  decide

end Runvane.Scheduler
