import Runvane.Scheduler.Handover
import Runvane.Scheduler.LostRuns

/-!
# Entries that outlive their runs

The queue may hold an entry of a run that has ended or is missing. A round of the dispatcher claims
the entry, fails to move the run, hands the job over all the same, and then drops the claim. The
worker on the job finds the run ended or missing, and gives the entry back; only for a cancelled run
it acknowledges the entry, and that fails when the claim has been dropped before.

So the entry is removed exactly if the run is stored as cancelled, its definition is stored, and the
three calls of the worker come before the next one of the round (`stale_entry_removed_iff`).
Otherwise it stays, and the next round claims it again (`poison_entries`).
-/

set_option autoImplicit false

namespace Runvane.Scheduler

open Library Domain Persistence Prog
open CallProgram (Meets Keeps Reaches keeps_bind keeps_mono keeps_foldlM meets_reify bind_assoc
  reaches_call_cases reaches_call_of_bind)

/-! ### Calls that leave a run alone -/

/-- The run has ended, or is missing. -/
def Stale (s : MemoryStore) (r : RunId) : Prop :=
  ∀ run, s.runs.get? r = some run → run.isTerminal = true

/-- The record of the run and the definitions are those of the given store. -/
def Kept (s : MemoryStore) (r : RunId) (w : World) : Prop :=
  w.store.runs.get? r = s.runs.get? r ∧ w.store.defs = s.defs

/-- What is answered as long as the run and the definitions are kept. -/
def Sees (s : MemoryStore) (r : RunId) : (call : Call) → call.Answer → Prop
  | .store (.getRun id), answer =>
    (∀ run, answer = .ok run → run.id = id) ∧ (id = r → answer = s.getRun r)
  | .store (.getWorkflow tenant name), answer => answer = s.getWorkflow tenant name
  | _, _ => True

/-- The calls that do not remove the entry of the run, and write neither its record nor a
definition. -/
def Call.Leaves (r : RunId) : Call → Prop
  | .store (.ack id _) => id ≠ r
  | .store (.putRun run) => run.id ≠ r
  | .store (.deleteRun _) | .store (.cancelRun ..) | .store (.putWorkflow _)
  | .store (.updateWorkflowVersion ..) => False
  | _ => True

def ElsewhereCall (r : RunId) : Call → Prop
  | .nowMs | .newToken | .store (.getRun _) => True
  | .submit job => job.runId ≠ r
  | .store (.claim id ..) | .store (.failclaim id _) => id ≠ r
  | .store (.putRun run) => run.id ≠ r
  | _ => False

section Leaves

variable {env : Env} {s : MemoryStore} {r : RunId} {w : World} {call : Call}

theorem Kept.refl (r : RunId) (w : World) : Kept w.store r w := ⟨rfl, rfl⟩

theorem Kept.of_store {w' : World} (h : Kept s r w) (hstore : w'.store = w.store) :
    Kept s r w' := by
  unfold Kept
  rw [hstore]
  exact h

theorem Kept.sees (h : Kept s r w) (env : Env) (call : Call) :
    Sees s r call (env.answer w call).1 := by
  cases call with
  | store call =>
    cases call with
    | getRun id =>
      refine ⟨fun run hrun ↦ ?_, fun hid ↦ ?_⟩
      · exact KeyedMap.key_of_get? (MemoryStore.getRun_eq_ok.mp hrun)
      · change w.store.getRun id = _
        rw [hid, MemoryStore.getRun, MemoryStore.getRun, h.1]
    | getWorkflow tenant name =>
      change w.store.getWorkflow tenant name = _
      rw [MemoryStore.getWorkflow, MemoryStore.getWorkflow, h.2]
    | _ => trivial
  | _ => trivial

theorem Kept.after (h : Kept s r w) (env : Env) (hcall : call.Leaves r) :
    Kept s r (w.after env call) := by
  have hsame (hruns : call.LeavesRuns) (hdefs : call.LeavesDefs) : Kept s r (w.after env call) :=
    ⟨by rw [runs_after env w call hruns, h.1], by rw [defs_after env w call hdefs, h.2]⟩
  cases call with
  | store call =>
    cases call with
    | putRun run => exact ⟨(KeyedMap.get?_put ..).trans ((if_neg hcall).trans h.1), h.2⟩
    | deleteRun | cancelRun | putWorkflow | updateWorkflowVersion => exact hcall.elim
    | _ => exact hsame trivial trivial
  | _ => exact hsame trivial trivial

theorem Call.Leaves.leavesEntry (h : call.Leaves r) : call.LeavesEntry r := by
  cases call with
  | store call => cases call <;> first | exact h | exact h.elim | trivial
  | _ => trivial

theorem ElsewhereCall.leaves (h : ElsewhereCall r call) : call.Leaves r := by
  cases call with
  | store call => cases call <;> first | exact h | exact h.elim | trivial
  | _ => trivial

/-- What is called elsewhere does not concern the entry. -/
theorem ElsewhereCall.queue_after (h : ElsewhereCall r call) (env : Env) (w : World) :
    (w.after env call).store.queue.get? r = w.store.queue.get? r := by
  cases call with
  | store call =>
    cases call with
    | claim id token nowMs leaseMs => exact queue_claim_of_ne _ _ _ _ _ (Ne.symm h)
    | failclaim id token => exact queue_failclaim_of_ne _ _ _ (Ne.symm h)
    | getRun | putRun => rfl
    | _ => exact h.elim
  | _ => rfl

end Leaves

/-! ### The rest of a round -/

variable {entry : QueueEntry} {stats : DispatchStats} {dispatcher : Dispatcher}

/-- The program works elsewhere, as long as the run is kept. -/
def Elsewhere {ε α : Type} (s : MemoryStore) (r : RunId) (p : Prog ε α) : Prop :=
  p.Meets (Sees s r) (ElsewhereCall r) fun _ ↦ True

section Elsewhere

variable {s : MemoryStore} {r : RunId} {ε : Type}

theorem elsewhere_markRunning {id : RunId} (hid : id ≠ r) : Elsewhere s r (markRunning id) := by
  refine ⟨trivial, fun answer hanswer ↦ ?_⟩
  cases answer with
  | error e => trivial
  | ok run =>
    change (ite _ _ _ : Prog _ _).Meets _ _ _
    split_ifs
    · trivial
    · trivial
    · split
      · trivial
      · refine keeps_bind (meets_now trivial) fun now _ ↦ ?_
        refine ⟨fun hrun ↦ hid ((hanswer.1 run rfl).symm.trans hrun), fun answer _ ↦ ?_⟩
        cases answer <;> trivial

theorem elsewhere_dispatchEntry (dispatcher : Dispatcher) (now : ℤ) (stats : DispatchStats)
    (hid : entry.runId ≠ r) :
    Elsewhere s r (dispatchEntry dispatcher now stats entry : Prog ε _) := by
  refine keeps_bind (meets_ask trivial fun _ _ ↦ trivial) fun token _ ↦ ?_
  refine keeps_bind (meets_ask hid fun _ _ ↦ trivial) fun answer _ ↦ ?_
  split
  · have hmark : Elsewhere s r ((markRunning entry.runId).reify : Prog ε _) :=
      meets_reify (elsewhere_markRunning hid) fun _ ↦ trivial
    refine keeps_bind hmark fun transitioned _ ↦ ?_
    refine keeps_bind (meets_ask hid fun _ _ ↦ trivial) fun submitted _ ↦ ?_
    split_ifs
    · trivial
    · exact keeps_bind (meets_ask hid fun _ _ ↦ trivial) fun _ _ ↦ trivial
  · trivial
  · trivial
  · trivial

theorem elsewhere_entries (dispatcher : Dispatcher) (now : ℤ) (stats : DispatchStats)
    {entries : List QueueEntry} (hids : r ∉ entries.map QueueEntry.runId) :
    Elsewhere s r (entries.foldlM (dispatchEntry dispatcher now) stats : Prog ε _) := by
  refine keeps_mono (fun _ h ↦ h) (fun _ _ ↦ trivial) (keeps_foldlM
    (fun rest _ ↦ r ∉ rest.map QueueEntry.runId) (fun entry rest stats h ↦ ?_) _ stats hids)
  rw [List.map_cons, List.mem_cons, not_or] at h
  exact keeps_mono (fun _ h ↦ h) (fun _ _ ↦ h.2)
    (elsewhere_dispatchEntry dispatcher now stats (Ne.symm h.1))

end Elsewhere

/-! ### The handover -/

/-- The entry of the run is there, with the token. -/
def Held (token : ClaimToken) (r : RunId) (w : World) : Prop :=
  ∃ entry, w.store.queue.get? r = some entry ∧ entry.token = token

/-- The point at which a round hands over the job of a run that is kept: its entry is claimed for
the job, and what comes next is to drop the claim, whatever the pool answers. -/
structure AtHandover {α : Type} (s : MemoryStore) (job : Job)
    (next : (Call.submit job).Answer → Prog Empty α) (w : World) : Prop where
  kept : Kept s job.runId w
  claimed : Held job.token job.runId w
  dropping : ∀ answer, ∃ rest : Prog Empty α, Elsewhere s job.runId rest ∧
    next answer = .call (.store (.failclaim job.runId job.token)) fun _ ↦ rest

section Handover

variable {env : Env} {s : MemoryStore} {job : Job} {α : Type}
  {next : (Call.submit job).Answer → Prog Empty α} {w w₁ : World}

/-- A program that works elsewhere goes on doing so, and keeps the run. -/
theorem Kept.reaches {p p' : Prog Empty α} {w' : World} {r : RunId} (hw : Kept s r w)
    (hp : Elsewhere s r p) (h : Reaches (serve env) (p, w) (p', w')) :
    Elsewhere s r p' ∧ Kept s r w' := by
  have hserve (call : Call) (w : World) (hw : Kept s r w) (hcall : ElsewhereCall r call) :
      Sees s r call (serve env call w).1 ∧ Kept s r (serve env call w).2 :=
    ⟨hw.sees env call, hw.after env hcall.leaves⟩
  exact Keeps.reaches hserve h hp hw

/-- So it does not come to the handover. -/
theorem not_reaches_submit {p : Prog Empty α} (hp : Elsewhere s job.runId p)
    (hw : Kept s job.runId w) :
    ¬ Reaches (serve env) (p, w) (.call (.submit job) next, w₁) :=
  fun h ↦ (hw.reaches hp h).1.1 rfl

theorem reaches_ask {call : Call} {rest : call.Answer → Prog Empty α}
    {c : Prog Empty α × World} (h : Reaches (serve env) (ask call >>= rest, w) c) :
    c = (.call call rest, w) ∨
      Reaches (serve env) (rest (env.answer w call).1, w.after env call) c :=
  reaches_call_cases h

/-- A dispatch of a stale run is over after its first call. -/
theorem markRunning_of_stale {r : RunId} (h : Stale s r) :
    ∃ next, markRunning r = .call (.store (.getRun r)) next ∧
      ∃ reason, next (s.getRun r) = .abort reason := by
  refine ⟨_, rfl, ?_⟩
  rw [MemoryStore.getRun]
  cases hrun : s.runs.get? r with
  | none => exact ⟨_, rfl⟩
  | some run =>
    have hterminal := h run hrun
    have hnot : run.status ≠ .running ∧ run.status ≠ .queued := by
      unfold Run.isTerminal at hterminal
      constructor <;> intro hstatus <;> rw [hstatus] at hterminal <;> cases hterminal
    refine ⟨_, (if_neg hnot.1).trans (if_pos hnot.2)⟩

/-- What is done with a claimed entry of a stale run: the job is handed over, and the claim is
dropped next. -/
theorem atHandover_of_claimed {token : ClaimToken} {rest : DispatchStats → Prog Empty α}
    (hstale : Stale s job.runId) (hw : Kept s job.runId w)
    (hentry : Held token job.runId w) (hrest : ∀ stats, Elsewhere s job.runId (rest stats))
    (h : Reaches (serve env) ((markRunning job.runId).reify >>= fun transitioned ↦ (do
        let submitted ← ask (.submit ⟨job.runId, token⟩)
        if transitioned.isOk && submitted.isOk then
          pure { stats with claimed := stats.claimed + 1 }
        else do
          let _ ← onStore (.failclaim job.runId token)
          pure { stats with submitFailed := stats.submitFailed + 1 }) >>= rest, w)
      (.call (.submit job) next, w₁)) : AtHandover s job next w₁ := by
  obtain ⟨r, holder⟩ := job
  dsimp only at *
  obtain ⟨afterRead, hmark, reason, habort⟩ := markRunning_of_stale hstale
  rw [hmark] at h
  rcases reaches_call_cases h with heq | h
  · cases heq
  have hread : (serve env (.store (.getRun r)) w).1 = s.getRun r :=
    (hw.sees env (.store (.getRun r))).2 rfl
  have hw₂ : Kept s r (serve env (.store (.getRun r)) w).2 := hw.after env trivial
  have hqueue : (serve env (.store (.getRun r)) w).2.store.queue = w.store.queue := rfl
  rw [hread] at h
  beta_reduce at h
  rw [habort] at h
  rw [Held, ← hqueue] at hentry
  generalize (serve env (.store (.getRun r)) w).2 = w₂ at h hw₂ hentry
  rcases reaches_ask h with heq | h
  · cases heq
    exact ⟨hw₂, hentry, fun answer ↦ ⟨_, hrest _, rfl⟩⟩
  · have hw₃ : Kept s r (w₂.after env (.submit ⟨r, token⟩)) := hw₂.after env trivial
    rcases reaches_ask h with heq | h
    · cases heq
    · have hw₄ : Kept s r ((w₂.after env (.submit ⟨r, token⟩)).after env
          (.store (.failclaim r token))) := hw₃.after env trivial
      exact (not_reaches_submit (hrest _) hw₄ h).elim

/-- The work on the entry of a stale run. -/
theorem atHandover_of_entry {now : ℤ} {rest : DispatchStats → Prog Empty α}
    (hstale : Stale s job.runId) (hid : entry.runId = job.runId) (hw : Kept s job.runId w)
    (hrest : ∀ stats, Elsewhere s job.runId (rest stats))
    (h : Reaches (serve env) (dispatchEntry dispatcher now stats entry >>= rest, w)
      (.call (.submit job) next, w₁)) : AtHandover s job next w₁ := by
  rw [dispatchEntry, hid, bind_assoc] at h
  rcases reaches_ask h with heq | h
  · cases heq
  have hw₂ : Kept s job.runId (w.after env .newToken) := hw.after env trivial
  generalize w.after env .newToken = w₂ at h hw₂
  generalize (env.answer w .newToken).1 = token at h
  rw [bind_assoc] at h
  rcases reaches_ask h with heq | h
  · cases heq
  have hw₃ : Kept s job.runId
      (w₂.after env (.store (.claim job.runId token now dispatcher.leaseMs))) :=
    hw₂.after env trivial
  cases hclaim : (env.answer w₂ (.store (.claim job.runId token now dispatcher.leaseMs))).1 with
  | error e =>
    rw [hclaim] at h
    cases e <;> exact (not_reaches_submit (hrest _) hw₃ h).elim
  | ok _ =>
    rw [hclaim] at h
    obtain ⟨entry, hentry, htoken, -⟩ := owns_of_claim (Prod.ext hclaim rfl)
    rw [bind_assoc] at h
    exact atHandover_of_claimed hstale hw₃ ⟨entry, hentry, htoken⟩ hrest h

/-- The work on the entries of a round, if that of a stale run is among them at most once. -/
theorem atHandover_of_entries {now : ℤ} {entries : List QueueEntry}
    {next : (Call.submit job).Answer → Prog Empty DispatchStats} (hstale : Stale s job.runId)
    (hnodup : (entries.map QueueEntry.runId).Nodup) (hw : Kept s job.runId w)
    (h : Reaches (serve env) (entries.foldlM (dispatchEntry dispatcher now) stats, w)
      (.call (.submit job) next, w₁)) : AtHandover s job next w₁ := by
  induction entries generalizing stats w with
  | nil =>
    rcases Relation.ReflTransGen.cases_head h with heq | ⟨d, hstep, -⟩
    · cases heq
    · cases hstep
  | cons entry entries ih =>
    obtain ⟨hnew, hnodup⟩ := List.nodup_cons.mp hnodup
    rw [List.foldlM_cons] at h
    by_cases hid : entry.runId = job.runId
    · rw [hid] at hnew
      exact atHandover_of_entry hstale hid hw
        (fun stats ↦ elsewhere_entries dispatcher now stats hnew) h
    · have hentry := elsewhere_dispatchEntry (s := s) (ε := Empty) dispatcher now stats hid
      rcases reaches_call_of_bind h with ⟨first, hfirst, -⟩ | ⟨stats', w', hfirst, hrest⟩
      · exact (not_reaches_submit hentry hw hfirst).elim
      · exact ih hnodup (hw.reaches hentry hfirst).2 hrest

/-- A round, if the run is stale before it. -/
theorem atHandover_of_step {next : (Call.submit job).Answer → Prog Empty DispatchStats}
    (hstale : Stale w.store job.runId)
    (h : Reaches (serve env) (dispatcher.step, w) (.call (.submit job) next, w₁)) :
    AtHandover w.store job next w₁ := by
  rcases reaches_ask h with heq | h
  · cases heq
  have hw₂ : Kept w.store job.runId (w.after env .nowMs) := (Kept.refl _ w).after env trivial
  generalize w.after env .nowMs = w₂ at h hw₂
  rcases reaches_ask h with heq | h
  · cases heq
  have hw₃ : Kept w.store job.runId
      (w₂.after env (.store (.scanReady (env.answer w .nowMs).1 dispatcher.batchSize))) :=
    hw₂.after env trivial
  cases hready : (env.answer w₂ (.store (.scanReady (env.answer w .nowMs).1
      dispatcher.batchSize))).1 with
  | error e =>
    rw [hready] at h
    have hnone : Elsewhere w.store job.runId (pure {} : Prog Empty DispatchStats) := trivial
    exact (not_reaches_submit hnone hw₃ h).elim
  | ok ready =>
    rw [hready] at h
    exact atHandover_of_entries hstale (nodup_scanReady hready) hw₃ h

end Handover

/-! ### The worker -/

/-- The worker on the job of a cancelled run, with the number of calls that are left: it reads the
run and its definition, and acknowledges the entry. -/
inductive Poised (run : Run) (record : WorkflowRecord) (job : Job) : ℕ → Prog Empty Unit → Prop
  | acking : Poised run record job 1 (.call (.store (.ack job.runId job.token)) fun _ ↦ .ret ())
  | reading {next : Except StorageError WorkflowRecord → Prog Empty Unit}
      (h : Poised run record job 1 (next (.ok record))) :
      Poised run record job 2 (.call (.store (.getWorkflow run.tenant run.defName)) next)
  | starting {next : Except StorageError Run → Prog Empty Unit}
      (h : Poised run record job 2 (next (.ok run))) :
      Poised run record job 3 (.call (.store (.getRun job.runId)) next)

theorem poised_runJob (ex : RunExecutor) (job : Job) {run : Run} (hstatus : run.status = .cancelled)
    (record : WorkflowRecord) : Poised run record job 3 (runJob ex job) := by
  refine .starting (.reading ?_)
  have hcourse : (if run.status ≠ .running then
        if run.status = .cancelled then pure ⟨.cancelled, [], .ack, run.error⟩
        else throw (.invariant
          s!"run {job.runId.text} is {run.status.display} on attempt; expected Running")
      else do
        if ← deadlinePassed run then finishTimedOut run
        else runWaves ex run record.definition (some job.token) 60000 :
          Prog ExecutorError AttemptOutcome) = pure ⟨.cancelled, [], .ack, run.error⟩ := by
    rw [if_pos (by simp [hstatus]), if_pos hstatus]
  change Poised run record job 1 (CallProgram.bind (CallProgram.reify (ite _ _ _)) _)
  rw [hcourse]
  exact .acking

/-- The worker on the job of any other stale run only gives the entry back. -/
theorem meets_runJob_stale {s : MemoryStore} (ex : RunExecutor) (job : Job)
    (hstale : Stale s job.runId)
    (hnot : ¬ ∃ run, s.runs.get? job.runId = some run ∧ run.status = .cancelled ∧
      (s.getWorkflow run.tenant run.defName).isOk = true) :
    (runJob ex job : Prog Empty Unit).Meets (Sees s job.runId) (Call.Leaves job.runId)
      fun _ ↦ True := by
  have hrelease : (do
      let now ← ask .nowMs
      let _ ← onStore (.release job.runId job.token now)
      pure () : Prog Empty Unit).Meets (Sees s job.runId) (Call.Leaves job.runId) fun _ ↦ True :=
    ⟨trivial, fun _ _ ↦ ⟨trivial, fun _ _ ↦ trivial⟩⟩
  refine ⟨trivial, fun answer hanswer ↦ ?_⟩
  obtain rfl := hanswer.2 rfl
  rw [MemoryStore.getRun]
  cases hrun : s.runs.get? job.runId with
  | none => exact hrelease
  | some run =>
    refine ⟨trivial, fun answer hanswer ↦ ?_⟩
    obtain rfl : answer = s.getWorkflow run.tenant run.defName := hanswer
    cases hdef : s.getWorkflow run.tenant run.defName with
    | error e => exact hrelease
    | ok record =>
      have hterminal := hstale run hrun
      have hrunning : run.status ≠ .running := by
        intro hstatus
        rw [Run.isTerminal, hstatus] at hterminal
        cases hterminal
      have hcancelled : run.status ≠ .cancelled := fun hstatus ↦
        hnot ⟨run, hrun, hstatus, by rw [hdef]; rfl⟩
      change (CallProgram.bind (CallProgram.reify (ite _ _ _)) _).Meets _ _ _
      rw [if_pos hrunning, if_neg hcancelled]
      exact hrelease

/-! ### Taking turns -/

/-- Whose turn it is, the round's or the worker's. -/
inductive Hand
  | dispatcher
  | worker
  deriving DecidableEq, Repr

/-- The round is the first process, and the worker the second. -/
def Hand.turn : Hand → Turn Role
  | .dispatcher => .call 0
  | .worker => .call 1

/-- What is left of a round, and of the work on a job. -/
def duo (settings : Dispatcher) (ex : RunExecutor) (job : Job) (w : World)
    (d v : Prog Empty Unit) : Engine :=
  ⟨w, [⟨.dispatcher settings, d⟩, ⟨.worker ex job, v⟩]⟩

def afterHands (env : Env) (sys : Engine) (schedule : List Hand) : Engine :=
  System.after (serve env) Role.program sys (schedule.map Hand.turn)

def Done (sys : Engine) : Prop := ∀ process ∈ sys.processes, process.rest.next? = none

instance (sys : Engine) : Decidable (Done sys) := inferInstanceAs (Decidable (∀ _ ∈ _, _))

section Turns

variable {env : Env} {settings : Dispatcher} {ex : RunExecutor} {job : Job} {s : MemoryStore}
  {w : World} {d v : Prog Empty Unit} {schedule : List Hand}

/-- What the calls that are left keep is so at the end. -/
theorem inv_afterHands {expected : (call : Call) → call.Answer → Prop} {allowed : Call → Prop}
    (inv : World → Prop)
    (hserve : ∀ call w, inv w → allowed call →
      expected call (env.answer w call).1 ∧ inv (w.after env call))
    (hw : inv w) (hd : d.Meets expected allowed fun _ ↦ True)
    (hv : v.Meets expected allowed fun _ ↦ True) (schedule : List Hand) :
    inv (afterHands env (duo settings ex job w d v) schedule).state := by
  have hstart : (duo settings ex job w d v).Honours expected fun _ ↦ allowed := by
    intro process hprocess
    rcases List.mem_pair.mp hprocess with rfl | rfl
    · exact hd
    · exact hv
  have hnone (role : Role) : Turn.start role ∉ schedule.map Hand.turn := by
    intro hmem
    obtain ⟨hand, -, hturn⟩ := List.mem_map.mp hmem
    cases hand <;> cases hturn
  exact (hstart.trace (fun role hrole ↦ absurd hrole (hnone role))
    (fun _ call w hw hcall _ ↦ hserve call w hw hcall) hw (System.guarded_true ..) _
    (System.after_mem_trace ..)).2

/-- An entry stays in the queue if no call that is left removes it. -/
theorem isSome_afterHands (hw : Kept s job.runId w)
    (hentry : (w.store.queue.get? job.runId).isSome)
    (hd : d.Meets (Sees s job.runId) (Call.Leaves job.runId) fun _ ↦ True)
    (hv : v.Meets (Sees s job.runId) (Call.Leaves job.runId) fun _ ↦ True) (schedule : List Hand) :
    ((afterHands env (duo settings ex job w d v) schedule).state.store.queue.get?
      job.runId).isSome := by
  refine (inv_afterHands (fun w ↦ Kept s job.runId w ∧ (w.store.queue.get? job.runId).isSome)
    (fun call w h hcall ↦ ⟨h.1.sees env call, h.1.after env hcall, ?_⟩) ⟨hw, hentry⟩ hd hv
    schedule).2
  exact queued_after call h.2 hcall.leavesEntry

/-- An entry that was removed stays so, whether or not the claim is still to be dropped. -/
theorem none_afterHands (hw : Kept s job.runId w) (hentry : w.store.queue.get? job.runId = none)
    (hd : d.Meets (Sees s job.runId) (fun call ↦ ElsewhereCall job.runId call ∨
      call = .store (.failclaim job.runId job.token)) fun _ ↦ True) (schedule : List Hand) :
    (afterHands env (duo settings ex job w d (.ret ())) schedule).state.store.queue.get?
      job.runId = none := by
  refine (inv_afterHands (v := .ret ())
    (fun w ↦ Kept s job.runId w ∧ w.store.queue.get? job.runId = none)
    (fun call w h hcall ↦ ⟨h.1.sees env call, ?_⟩) ⟨hw, hentry⟩ hd trivial schedule).2
  rcases hcall with helsewhere | rfl
  · exact ⟨h.1.after env helsewhere.leaves, (helsewhere.queue_after env w).trans h.2⟩
  · refine ⟨h.1.after env trivial, ?_⟩
    change (w.store.failclaim job.runId job.token).2.queue.get? job.runId = none
    rw [MemoryStore.failclaim, MemoryStore.asHolder, h.2]
    exact h.2

/-- An acknowledgement by the holder of the claim removes the entry. -/
theorem queue_ack_of_token (env : Env) (hentry : w.store.queue.get? job.runId = some entry)
    (htoken : entry.token = job.token) :
    (w.after env (.store (.ack job.runId job.token))).store.queue.get? job.runId = none := by
  change (w.store.ack job.runId job.token).2.queue.get? job.runId = none
  rw [MemoryStore.ack, MemoryStore.asHolder, hentry]
  simp [htoken, KeyedMap.get?_erase]

/-- An acknowledgement by anybody else does not. -/
theorem queue_ack_of_ne (env : Env) (hentry : w.store.queue.get? job.runId = some entry)
    (htoken : entry.token ≠ job.token) :
    (w.after env (.store (.ack job.runId job.token))).store.queue.get? job.runId = some entry := by
  change (w.store.ack job.runId job.token).2.queue.get? job.runId = some entry
  rw [MemoryStore.ack, MemoryStore.asHolder, hentry]
  simp [htoken, hentry]

/-- To drop the claim leaves the entry without a token. -/
theorem queue_failclaim (env : Env)
    (h : Held job.token job.runId w) :
    Held .empty job.runId (w.after env (.store (.failclaim job.runId job.token))) := by
  obtain ⟨entry, hentry, htoken⟩ := h
  have hkey : entry.runId = job.runId := KeyedMap.key_of_get? hentry
  have hid : entry.unleased.runId = job.runId := hkey
  refine ⟨entry.unleased, ?_, rfl⟩
  change (w.store.failclaim job.runId job.token).2.queue.get? job.runId = _
  rw [MemoryStore.failclaim, MemoryStore.asHolder, hentry]
  simp [htoken, KeyedMap.get?_put, hid]

/-- After an acknowledgement, which leaves the run alone. -/
theorem Kept.after_ack (hw : Kept s job.runId w) :
    Kept s job.runId (w.after env (.store (.ack job.runId job.token))) := by
  have hruns := runs_after env w (.store (.ack job.runId job.token)) trivial
  have hdefs := defs_after env w (.store (.ack job.runId job.token)) trivial
  exact ⟨by rw [hruns, hw.1], hdefs.trans hw.2⟩

theorem Poised.next?_ne_none {run : Run} {record : WorkflowRecord} {k : ℕ}
    (h : Poised run record job k v) : v.next? ≠ none := by
  cases h <;> simp [CallProgram.next?]

theorem not_done_duo (hv : v.next? ≠ none) : ¬ Done (duo settings ex job w d v) :=
  fun h ↦ hv (h ⟨.worker ex job, v⟩ (by simp [duo]))

section Cancelled

variable {run : Run} {record : WorkflowRecord} {k : ℕ}

/-- As long as the run is kept, the worker finds what leads it to the acknowledgement. -/
theorem Poised.read (hrun : s.runs.get? job.runId = some run)
    (hdef : s.getWorkflow run.tenant run.defName = .ok record) (hw : Kept s job.runId w)
    (hv : Poised run record job (k + 2) v) (env : Env) :
    ∃ call next, v = .call call next ∧ Poised run record job (k + 1) (next (env.answer w call).1) ∧
      (w.after env call).store = w.store := by
  cases hv with
  | starting h =>
    have hread : (env.answer w (.store (.getRun job.runId))).1 = .ok run :=
      ((hw.sees env (.store (.getRun job.runId))).2 rfl).trans (MemoryStore.getRun_eq_ok.mpr hrun)
    rw [← hread] at h
    exact ⟨_, _, rfl, h, rfl⟩
  | reading h =>
    have hread : (env.answer w (.store (.getWorkflow run.tenant run.defName))).1 = .ok record :=
      (hw.sees env (.store (.getWorkflow run.tenant run.defName))).trans hdef
    rw [← hread] at h
    exact ⟨_, _, rfl, h, rfl⟩

/-- The claim was dropped before the worker comes to its acknowledgement, which then fails. -/
theorem afterHands_of_dropped (hrun : s.runs.get? job.runId = some run)
    (hdef : s.getWorkflow run.tenant run.defName = .ok record) (hw : Kept s job.runId w)
    (hentry : Held .empty job.runId w) (hd : Elsewhere s job.runId d)
    (hv : Poised run record job k v)
    (hdone : Done (afterHands env (duo settings ex job w d v) schedule)) :
    (afterHands env (duo settings ex job w d v) schedule).state.store.queue.get? job.runId = none ↔
      job.token = .empty := by
  induction schedule generalizing w d v k with
  | nil => exact absurd hdone (not_done_duo hv.next?_ne_none)
  | cons hand schedule ih =>
    cases hand with
    | dispatcher =>
      cases d with
      | ret | abort => exact ih hw hentry hd hv hdone
      | call call next =>
        have hw' : Kept s job.runId (w.after env call) := hw.after env hd.1.leaves
        have hentry' : Held .empty job.runId (w.after env call) := by
          rwa [Held, hd.1.queue_after env w]
        exact ih hw' hentry' (hd.2 _ (hw.sees env call)) hv hdone
    | worker =>
      rcases k with _ | _ | k
      · cases hv
      · cases hv
        obtain ⟨entry, hentry, htoken⟩ := hentry
        by_cases hempty : job.token = .empty
        · have hnone := queue_ack_of_token env hentry (htoken.trans hempty.symm)
          refine iff_of_true (none_afterHands hw.after_ack hnone ?_ schedule) hempty
          exact hd.within fun _ ↦ .inl
        · have hsome := queue_ack_of_ne env hentry fun h ↦ hempty (h.symm.trans htoken)
          refine iff_of_false (Option.isSome_iff_ne_none.mp ?_) hempty
          refine isSome_afterHands (v := .ret ()) hw.after_ack (by rw [hsome]; rfl) ?_ trivial
            schedule
          exact hd.within fun _ ↦ ElsewhereCall.leaves
      · obtain ⟨call, next, rfl, hnext, hstore⟩ := hv.read hrun hdef hw env
        rw [Held, ← hstore] at hentry
        exact ih (hw.of_store hstore) hentry hd hnext hdone

/-- The claim is still to be dropped: the acknowledgement is in time if the worker makes all its
calls before that. -/
theorem afterHands_of_claimed (hrun : s.runs.get? job.runId = some run)
    (hdef : s.getWorkflow run.tenant run.defName = .ok record) (hw : Kept s job.runId w)
    (hentry : Held job.token job.runId w) (hd : Elsewhere s job.runId d)
    (hv : Poised run record job k v)
    (hdone : Done (afterHands env (duo settings ex job w
      (.call (.store (.failclaim job.runId job.token)) fun _ ↦ d) v) schedule)) :
    (afterHands env (duo settings ex job w (.call (.store (.failclaim job.runId job.token))
      fun _ ↦ d) v) schedule).state.store.queue.get? job.runId = none ↔
      job.token = .empty ∨ List.replicate k .worker <+: schedule := by
  induction schedule generalizing w v k with
  | nil => exact absurd hdone (not_done_duo hv.next?_ne_none)
  | cons hand schedule ih =>
    cases hand with
    | dispatcher =>
      have hw' : Kept s job.runId (w.after env (.store (.failclaim job.runId job.token))) :=
        hw.after env trivial
      have hdropped := afterHands_of_dropped hrun hdef hw' (queue_failclaim env hentry) hd hv hdone
      have hnot : ¬ List.replicate k .worker <+: Hand.dispatcher :: schedule := by
        cases hv <;> simp [List.replicate_succ]
      rw [or_iff_left hnot]
      exact hdropped
    | worker =>
      rcases k with _ | _ | k
      · cases hv
      · cases hv
        obtain ⟨entry, hentry, htoken⟩ := hentry
        refine iff_of_true (none_afterHands hw.after_ack (queue_ack_of_token env hentry htoken) ?_
          schedule) (.inr (by simp))
        exact ⟨.inr rfl, fun _ _ ↦ hd.within fun _ ↦ .inl⟩
      · obtain ⟨call, next, rfl, hnext, hstore⟩ := hv.read hrun hdef hw env
        rw [Held, ← hstore] at hentry
        rw [List.replicate_succ, List.cons_prefix_cons, eq_self, true_and]
        exact ih (hw.of_store hstore) hentry hnext hdone

end Cancelled

end Turns

/-! ### Stale entries -/

section Round

variable {env : Env} {settings : Dispatcher} {s : MemoryStore} {job : Job}

def roundAfter (env : Env) (settings : Dispatcher) (s : MemoryStore) (calls : ℕ) :
    Prog Empty Unit × World :=
  (CallProgram.advance (serve env))^[calls] ((Role.dispatcher settings).program, ⟨s, []⟩)

/-- When the last thing a round has done is to hand a job over, it goes on from there. -/
theorem reaches_handover {calls : ℕ}
    (h : (roundAfter env settings s calls).2.log.getLast?.bind Event.accepted? = some job) :
    ∃ next w₁, Reaches (serve env) ((Role.dispatcher settings).program, ⟨s, []⟩)
        (.call (.submit job) next, w₁) ∧
      roundAfter env settings s calls = (next (.ok ()), w₁.after env (.submit job)) := by
  induction calls with
  | zero => simp [roundAfter] at h
  | succ calls ih =>
    have hreach : Reaches (serve env) ((Role.dispatcher settings).program, ⟨s, []⟩)
        (roundAfter env settings s calls) := CallProgram.reaches_advance ..
    have hsucc : roundAfter env settings s (calls + 1) =
        CallProgram.advance (serve env) (roundAfter env settings s calls) :=
      Function.iterate_succ_apply' ..
    rw [hsucc] at h ⊢
    rcases hround : roundAfter env settings s calls with ⟨p, w₁⟩
    rw [hround] at h hreach ih
    cases p with
    | ret | abort => exact ih h
    | call call next =>
      have hlast : Event.accepted? ⟨w₁.store, call, (env.answer w₁ call).1⟩ = some job := by
        simpa [CallProgram.advance, serve, World.after] using h
      cases call with
      | submit other =>
        cases haccepted : (env.answer w₁ (.submit other)).1 with
        | error e =>
          rw [haccepted] at hlast
          cases hlast
        | ok _ =>
          rw [haccepted] at hlast
          obtain rfl : other = job := Option.some.inj hlast
          refine ⟨next, w₁, hreach, ?_⟩
          simp only [CallProgram.advance, serve, haccepted]
      | _ => cases hlast

/-- A round that has handed over the job of a stale run is about to drop the claim. -/
theorem atHandover_of_program {w w₁ : World} {next : (Call.submit job).Answer → Prog Empty Unit}
    (h : Reaches (serve env) ((Role.dispatcher settings).program, w) (.call (.submit job) next, w₁))
    (hstale : Stale w.store job.runId) : AtHandover w.store job next w₁ := by
  rcases reaches_call_of_bind h with ⟨first, hfirst, rfl⟩ | ⟨stats, w', -, hrest⟩
  · obtain ⟨hkept, hclaimed, hdropping⟩ := atHandover_of_step hstale hfirst
    refine ⟨hkept, hclaimed, fun answer ↦ ?_⟩
    obtain ⟨rest, hrest, hanswer⟩ := hdropping answer
    refine ⟨rest >>= fun _ ↦ pure (), keeps_bind hrest fun _ _ ↦ trivial, ?_⟩
    rw [hanswer]
    rfl
  · rcases Relation.ReflTransGen.cases_head hrest with heq | ⟨d, hstep, -⟩
    · cases heq
    · cases hstep

end Round

/-- A round, after a number of its calls, and a worker that takes up a job then. -/
def handedOver (env : Env) (settings : Dispatcher) (ex : RunExecutor) (s : MemoryStore) (calls : ℕ)
    (job : Job) : Engine :=
  duo settings ex job (roundAfter env settings s calls).2 (roundAfter env settings s calls).1
    (Role.worker ex job).program

/-- A round claims the entry of a run that has ended or is missing, and the pool accepts the job.
When the round and the worker on the job have ended, in whatever order they took their turns, the
entry is gone exactly if the run is stored as cancelled and its definition is stored, and the
worker's three calls came first (or the token is the empty one, which no claim is made with). -/
theorem stale_entry_removed_iff (env : Env) (settings : Dispatcher) (ex : RunExecutor)
    (s : MemoryStore) (calls : ℕ) (job : Job) (schedule : List Hand) (hstale : Stale s job.runId)
    (haccepted : (roundAfter env settings s calls).2.log.getLast?.bind Event.accepted? = some job)
    (hdone : Done (afterHands env (handedOver env settings ex s calls job) schedule)) :
    (afterHands env (handedOver env settings ex s calls job) schedule).state.store.queue.get?
      job.runId = none ↔
      (∃ run, s.runs.get? job.runId = some run ∧ run.status = .cancelled ∧
        (s.getWorkflow run.tenant run.defName).isOk = true) ∧
      (job.token = .empty ∨ List.replicate 3 .worker <+: schedule) := by
  obtain ⟨next, w₁, hreach, hround⟩ := reaches_handover haccepted
  obtain ⟨hkept, hclaimed, hdropping⟩ := atHandover_of_program hreach hstale
  obtain ⟨rest, hrest, hnext⟩ := hdropping (.ok ())
  have hw : Kept s job.runId (w₁.after env (.submit job)) := hkept.after env trivial
  rw [handedOver, hround, hnext] at hdone ⊢
  by_cases hcancelled : ∃ run, s.runs.get? job.runId = some run ∧ run.status = .cancelled ∧
      (s.getWorkflow run.tenant run.defName).isOk = true
  · rw [and_iff_right hcancelled]
    obtain ⟨run, hrun, hstatus, hstored⟩ := hcancelled
    obtain ⟨record, hdef⟩ := exists_of_isOk hstored
    have hpoised : Poised run record job 3 (runJob ex job) := poised_runJob ex job hstatus record
    exact afterHands_of_claimed hrun hdef hw hclaimed hrest hpoised hdone
  · refine iff_of_false (Option.isSome_iff_ne_none.mp ?_) fun h ↦ hcancelled h.1
    obtain ⟨entry, hentry, -⟩ := hclaimed
    have hsome : ((w₁.after env (.submit job)).store.queue.get? job.runId).isSome := by
      change (w₁.store.queue.get? job.runId).isSome
      rw [hentry]
      rfl
    have hdrops : (CallProgram.call (.store (.failclaim job.runId job.token)) fun _ ↦ rest :
        Prog Empty Unit).Meets (Sees s job.runId) (Call.Leaves job.runId) fun _ ↦ True :=
      ⟨trivial, fun _ _ ↦ hrest.within fun _ ↦ ElsewhereCall.leaves⟩
    exact isSome_afterHands hw hsome hdrops (meets_runJob_stale ex job hstale hcancelled) schedule

/-- A store with the definition, a run of the given status, and an entry that was left behind. -/
def sampleStale (status : RunStatus) : MemoryStore :=
  (((MemoryStore.new.putWorkflow sampleDef).2.putRun
    { id := sampleRun, tenant := "t", defName := "flow", status := status }).2.enqueue
    { runId := sampleRun, token := .empty, dueAtMs := 0, leaseUntilMs := none
      claimedBy := none }).2

def sampleHandedOver (status : RunStatus) : Engine :=
  handedOver (answering fun _ ↦ none) ⟨8, 60000⟩ plainExecutor (sampleStale status) 6
    ⟨sampleRun, ⟨"token"⟩⟩

theorem stale_entry_removed_iff_sample :
    (afterHands (answering fun _ ↦ none) (sampleHandedOver .cancelled)
      [.worker, .worker, .worker, .dispatcher]).state.store.queue.get? sampleRun = none := by
  refine (stale_entry_removed_iff (answering fun _ ↦ none) ⟨8, 60000⟩ plainExecutor
    (sampleStale .cancelled) 6 ⟨sampleRun, ⟨"token"⟩⟩ _ ?_ (by decide)
    (by decide)).mpr ?_
  · intro run hrun
    obtain rfl := Option.some.inj hrun
    rfl
  · exact ⟨⟨_, rfl, rfl, rfl⟩, .inr (by decide)⟩

/-- The entry of a run that has succeeded, failed or timed out stays, even if its worker comes
first, and so does that of a cancelled run whose claim is dropped before its worker comes. -/
theorem poison_entries :
    (∀ status ∈ [RunStatus.succeeded, .failed, .timedOut, .cancelled],
      (roundAfter (answering fun _ ↦ none) ⟨8, 60000⟩ (sampleStale status) 6).2.log.getLast?.bind
        Event.accepted? = some ⟨sampleRun, ⟨"token"⟩⟩) ∧
    (∀ status ∈ [RunStatus.succeeded, .failed, .timedOut],
      let ended := afterHands (answering fun _ ↦ none) (sampleHandedOver status)
        [.worker, .worker, .worker, .worker, .dispatcher]
      Done ended ∧ (ended.state.store.queue.get? sampleRun).isSome) ∧
    let ended := afterHands (answering fun _ ↦ none) (sampleHandedOver .cancelled)
      [.dispatcher, .worker, .worker, .worker]
    Done ended ∧ (ended.state.store.queue.get? sampleRun).isSome := by
  decide

end Runvane.Scheduler
