import Runvane.Scheduler.Finishing

/-!
# Runs that nobody will ever take up

A run that is queued or running is taken up again only through its entry in the queue. The record
and the entry are written by separate calls: a submission stores the run and then queues it, a
worker writes the run and then gives the entry back or removes it, and a cancellation removes the
entry whoever holds it. So a writer that has read the run before a cancellation and writes it after
brings the run back without its entry (`run_lost`).

When no dispatch and no attempt writes a run over a status other than the one it has read, and no
submission over a stored run (`Current`), no run is lost in any interleaving (`no_lost_runs`). What
has ended then stays so, and an entry is removed by a worker only after its run has ended, which is
what a worker's program promises (`Dutiful`).
-/

set_option autoImplicit false

namespace Runvane.Scheduler

open Library Domain Persistence Prog Api
open CallProgram (Always)

/-! ### What is lost -/

/-- The run is queued or running, and not in the queue. -/
def Lost (r : RunId) (w : World) : Prop :=
  (statusOf r w = some .queued ∨ statusOf r w = some .running) ∧ w.store.queue.get? r = none

instance (r : RunId) (w : World) : Decidable (Lost r w) := inferInstanceAs (Decidable (_ ∧ _))

/-- A party of the service at work. -/
abbrev ServiceProcess := Process Service Call Call.Answer (Abort Empty) Unit

abbrev ServiceSystem := System Service Call Call.Answer (Abort Empty) Unit World

/-- The process is about to put the run into the queue. -/
def Submitting (r : RunId) (process : ServiceProcess) : Prop :=
  ∃ entry : QueueEntry, entry.runId = r ∧ process.rest.next? = some (.store (.enqueue entry))

/-- A run is written over the status that its writer has read, and a submission writes a new one. -/
def Current : Service → Call → World → Prop
  | .submission .., .store (.putRun run), w => w.store.runs.get? run.id = none
  | .engine role, call, w => Fresh role call w
  | _, _, _ => True

instance (member : Service) (call : Call) (w : World) : Decidable (Current member call w) := by
  rcases member with _ | role | _
  · rcases call with call | _ | _ | _ | _ | _
    · rcases call <;> unfold Current <;> infer_instance
    all_goals exact inferInstanceAs (Decidable True)
  · exact inferInstanceAs (Decidable (Fresh role call w))
  · exact inferInstanceAs (Decidable True)

def Ended (r : RunId) (w : World) : Prop := ∃ status, statusOf r w = some status ∧ status.isTerminal

/-- A run that is queued or running has not ended. -/
theorem not_ended_of_open {r : RunId} {w : World}
    (h : statusOf r w = some .queued ∨ statusOf r w = some .running) : ¬ Ended r w := by
  rintro ⟨status, hstatus, hterminal⟩
  rcases h with hopen | hopen
  · obtain rfl := Option.some.inj (hstatus.symm.trans hopen)
    cases hterminal
  · obtain rfl := Option.some.inj (hstatus.symm.trans hopen)
    cases hterminal

/-! ### Entries of the queue -/

section Queue

variable {env : Env} {w : World} {r : RunId}

def Call.LeavesEntry (r : RunId) : Call → Prop
  | .store (.ack id _) | .store (.cancelRun id _) => id ≠ r
  | _ => True

theorem queued_put {queue : KeyedMap QueueEntry.runId} (h : (queue.get? r).isSome)
    (entry : QueueEntry) : ((queue.put entry).get? r).isSome := by
  rw [KeyedMap.get?_put]
  split_ifs
  · rfl
  · exact h

theorem queued_erase {queue : KeyedMap QueueEntry.runId} (h : (queue.get? r).isSome) {id : RunId}
    (hid : id ≠ r) : ((queue.erase id).get? r).isSome := by
  rw [KeyedMap.get?_erase, if_neg hid]
  exact h

theorem queued_asHolder {s : MemoryStore} (h : (s.queue.get? r).isSome) (runId : RunId)
    (held : QueueEntry → Bool) {act : QueueEntry → KeyedMap QueueEntry.runId}
    (hact : ∀ entry, ((act entry).get? r).isSome) :
    ((s.asHolder runId held act).2.queue.get? r).isSome := by
  rcases s.asHolder_cases runId held act with ⟨e, heq⟩ | ⟨entry, -, -, heq⟩
  · rw [heq]
    exact h
  · rw [heq]
    exact hact entry

theorem queued_recover {s : MemoryStore} (h : (s.queue.get? r).isSome) (nowMs : ℤ) :
    ((s.recoverExpiredLeases nowMs).2.queue.get? r).isSome := by
  have hloop (ids : List RunId) (queue : KeyedMap QueueEntry.runId)
      (hqueue : (queue.get? r).isSome) :
      ((ids.foldl MemoryStore.unleaseEntry queue).get? r).isSome := by
    induction ids generalizing queue with
    | nil => exact hqueue
    | cons id ids ih =>
      refine ih _ ?_
      unfold MemoryStore.unleaseEntry
      split
      · exact queued_put hqueue _
      · exact hqueue
  exact hloop _ s.queue h

theorem queued_after (call : Call) (h : (w.store.queue.get? r).isSome)
    (hleaves : call.LeavesEntry r) : ((w.after env call).store.queue.get? r).isSome := by
  cases call with
  | store call =>
    cases call with
    | updateWorkflowVersion tenant name d expected =>
      change ((w.store.updateWorkflowVersion tenant name d expected).2.queue.get? r).isSome
      unfold MemoryStore.updateWorkflowVersion
      split
      · exact h
      · split_ifs <;> exact h
    | enqueue entry =>
      change ((w.store.enqueue entry).2.queue.get? r).isSome
      unfold MemoryStore.enqueue
      split
      · exact h
      · exact queued_put h entry
    | claim runId token nowMs leaseMs =>
      change ((w.store.claim runId token nowMs leaseMs).2.queue.get? r).isSome
      rcases w.store.claim_cases runId token nowMs leaseMs with ⟨e, heq⟩ | ⟨entry, -, heq⟩
      · rw [heq]
        exact h
      · rw [heq]
        exact queued_put h _
    | ack runId token => exact queued_asHolder h runId _ fun _ ↦ queued_erase h hleaves
    | release | failclaim | renewLease => exact queued_asHolder h _ _ fun _ ↦ queued_put h _
    | cancelRun runId nowMs =>
      change ((w.store.cancelRun runId nowMs).2.queue.get? r).isSome
      rcases w.store.cancelRun_cases runId nowMs with ⟨-, hstore⟩ | ⟨run, -, -, hstore⟩
      · rw [hstore]
        exact h
      · rw [hstore]
        exact queued_erase h hleaves
    | recoverExpiredLeases nowMs => exact queued_recover h nowMs
    | _ => exact h
  | _ => exact h

/-- After a run was put into the queue, or was found there, it is in the queue. -/
theorem queued_enqueue (entry : QueueEntry) :
    ((w.after env (.store (.enqueue entry))).store.queue.get? entry.runId).isSome := by
  change ((w.store.enqueue entry).2.queue.get? entry.runId).isSome
  unfold MemoryStore.enqueue
  split
  · next hfound =>
    rw [hfound]
    rfl
  · rw [KeyedMap.get?_put, if_pos rfl]
    rfl

end Queue

/-! ### Single calls -/

variable {member : Service} (lib : JsonLibrary)

section Calls

variable {env : Env} {w : World} {r : RunId}

/-- Nothing is expected of any answer. -/
def AnyAnswer (call : Call) (_ : call.Answer) : Prop := True

theorem statusOf_after {call : Call} (h : call.LeavesRuns) :
    statusOf r (w.after env call) = statusOf r w := by
  unfold statusOf
  rw [runs_after env w call h]

theorem lost_of_leaves {call : Call} (hruns : call.LeavesRuns) (hentry : call.LeavesEntry r)
    (h : Lost r (w.after env call)) : Lost r w := by
  refine ⟨by simpa only [statusOf_after hruns] using h.1, ?_⟩
  by_contra hqueued
  have hkept : ((w.after env call).store.queue.get? r).isSome :=
    queued_after call (Option.isSome_iff_ne_none.mpr hqueued) hentry
  rw [h.2] at hkept
  cases hkept

/-- After a cancellation a run is as it was before, or is cancelled and was not terminal. -/
theorem statusOf_cancelRun (runId : RunId) (nowMs : ℤ) :
    (statusOf r (w.after env (.store (.cancelRun runId nowMs))) = some .cancelled ∧ ¬ Ended r w) ∨
      statusOf r (w.after env (.store (.cancelRun runId nowMs))) = statusOf r w ∧
        (w.after env (.store (.cancelRun runId nowMs))).store.queue.get? r =
          w.store.queue.get? r := by
  change (((w.store.cancelRun runId nowMs).2.runs.get? r).map Run.status = _ ∧ _) ∨
    ((w.store.cancelRun runId nowMs).2.runs.get? r).map Run.status = _ ∧
      (w.store.cancelRun runId nowMs).2.queue.get? r = _
  rcases w.store.cancelRun_cases runId nowMs with ⟨-, hstore⟩ | ⟨run, hrun, hterminal, hstore⟩ <;>
    rw [hstore]
  · exact .inr ⟨rfl, rfl⟩
  · have hid : run.id = runId := KeyedMap.key_of_get? hrun
    rw [KeyedMap.get?_put, KeyedMap.get?_erase]
    by_cases hr : runId = r
    · subst hr
      refine .inl ⟨by rw [if_pos hid]; rfl, ?_⟩
      rintro ⟨status, hstatus, hended⟩
      rw [statusOf, hrun] at hstatus
      obtain rfl := Option.some.inj hstatus
      exact absurd hended (by rw [show run.status.isTerminal = false from hterminal]; simp)
    · rw [if_neg (by rwa [hid]), if_neg hr]
      exact .inr ⟨rfl, rfl⟩

/-- No party of the service deletes a run. -/
theorem not_serviceCall_deleteRun (id : RunId) :
    ¬ ServiceCall AnyAnswer member (.store (.deleteRun id)) := by
  intro h
  cases member with
  | submission request uuid => exact h
  | engine role =>
    cases role with
    | dispatcher settings => exact h
    | worker ex job =>
      have hworking := WorkCall.working h
      simp [Call.Working, Call.Attempting, Call.InWave, Call.Deciding, Call.OnRecords] at hworking
    | operator runId => rcases h with h | ⟨nowMs, h⟩ <;> cases h
  | recovery => rcases h with h | ⟨nowMs, h⟩ <;> cases h

/-- A run that an engine's role writes has not ended before. -/
theorem Fresh.status_of_putRun {role : Role} {run : Run}
    (hcall : RoleCall AnyAnswer role (.store (.putRun run)))
    (h : Fresh role (.store (.putRun run)) w) :
    statusOf run.id w = some .queued ∨ statusOf run.id w = some .running := by
  cases role with
  | dispatcher settings => exact .inl (runHasStatus_iff.mp h)
  | worker ex job => exact .inr (runHasStatus_iff.mp h)
  | operator runId => rcases hcall with hcall | ⟨nowMs, hcall⟩ <;> cases hcall

theorem Current.not_ended {run : Run}
    (hcall : ServiceCall AnyAnswer member (.store (.putRun run)))
    (h : Current member (.store (.putRun run)) w) : ¬ Ended run.id w := by
  cases member with
  | submission request uuid =>
    rintro ⟨status, hstatus, -⟩
    have hnone : w.store.runs.get? run.id = none := h
    rw [statusOf, hnone] at hstatus
    cases hstatus
  | engine role => exact not_ended_of_open (h.status_of_putRun hcall)
  | recovery => rcases hcall with hcall | ⟨nowMs, hcall⟩ <;> cases hcall

/-- A run is lost by a call only if it was lost before, or is stored by a submission, or its entry
is acknowledged. -/
theorem lost_after {call : Call} (hcall : ServiceCall AnyAnswer member call)
    (hcurrent : Current member call w) (h : Lost r (w.after env call)) :
    Lost r w ∨ (∃ request uuid run, member = .submission request uuid ∧
      call = .store (.putRun run) ∧ run.id = r) ∨ ∃ token, call = .store (.ack r token) := by
  have hbefore (hruns : call.LeavesRuns) (hentry : call.LeavesEntry r) : Lost r w :=
    lost_of_leaves hruns hentry h
  cases call with
  | store call =>
    cases call with
    | putRun run =>
      have hstatus := h.1
      rw [statusOf_putRun] at hstatus
      split_ifs at hstatus with hid
      · subst hid
        cases member with
        | submission request uuid => exact .inr (.inl ⟨request, uuid, run, rfl, rfl, rfl⟩)
        | engine role => exact .inl ⟨hcurrent.status_of_putRun hcall, h.2⟩
        | recovery => rcases hcall with hcall | ⟨nowMs, hcall⟩ <;> cases hcall
      · exact .inl ⟨hstatus, h.2⟩
    | cancelRun runId nowMs =>
      obtain ⟨hstatus, hqueue⟩ := h
      rcases statusOf_cancelRun runId nowMs with ⟨hcancelled, -⟩ | ⟨hsame, hsameQueue⟩
      · rw [hcancelled] at hstatus
        simp at hstatus
      · rw [hsame] at hstatus
        rw [hsameQueue] at hqueue
        exact .inl ⟨hstatus, hqueue⟩
    | deleteRun id => exact absurd hcall (not_serviceCall_deleteRun id)
    | ack id token =>
      by_cases hid : id = r
      · subst hid
        exact .inr (.inr ⟨token, rfl⟩)
      · exact .inl (hbefore trivial hid)
    | _ => exact .inl (hbefore trivial trivial)
  | _ => exact .inl (hbefore trivial trivial)

/-- What has ended is not written again. -/
theorem ended_after {call : Call} (hcall : ServiceCall AnyAnswer member call)
    (hcurrent : Current member call w) (h : Ended r w) : Ended r (w.after env call) := by
  have hsame (hstatus : statusOf r (w.after env call) = statusOf r w) :
      Ended r (w.after env call) := by
    unfold Ended
    rw [hstatus]
    exact h
  cases call with
  | store call =>
    cases call with
    | putRun run =>
      refine hsame ?_
      rw [statusOf_putRun]
      refine if_neg fun hid ↦ ?_
      subst hid
      exact hcurrent.not_ended hcall h
    | cancelRun runId nowMs =>
      rcases statusOf_cancelRun runId nowMs with ⟨-, hopen⟩ | ⟨hstatus, -⟩
      · exact absurd h hopen
      · exact hsame hstatus
    | deleteRun id => exact absurd hcall (not_serviceCall_deleteRun id)
    | _ => exact hsame (statusOf_after trivial)
  | _ => exact hsame (statusOf_after trivial)

end Calls

/-! ### What the parties promise -/

/-- When the next call stores a run, the one after it puts the run into the queue. -/
def EnqueuesNext : Prog Empty Unit → Prop
  | .call (.store (.putRun run)) next => ∃ entry : QueueEntry, entry.runId = run.id ∧
      (next (.ok ())).next? = some (.store (.enqueue entry))
  | _ => True

theorem always_enqueuesNext (request : Submission) (uuid : List UInt8) :
    ((Service.submission request uuid).program lib).Always EnqueuesNext := by
  have hsubmit (tenant name : String) (record : WorkflowRecord) (input : Json)
      (tags : Except ApiError (List (String × String))) :
      (do
        let _ ← (submit lib tenant name record input tags uuid).reify
        pure () : Prog Empty Unit).Always EnqueuesNext := by
    unfold submit
    cases validateRunInput lib.floatText input with
    | error e => trivial
    | ok =>
      refine ⟨trivial, fun nowMs ↦ ⟨trivial, fun answer ↦ ?_⟩⟩
      cases answer with
      | error e => trivial
      | ok number =>
        cases tags with
        | error e => trivial
        | ok tags =>
          refine ⟨⟨_, rfl, rfl⟩, fun answer ↦ ?_⟩
          cases answer with
          | error e => trivial
          | ok =>
            refine ⟨trivial, fun answer ↦ ?_⟩
            cases answer <;> trivial
  cases request with
  | http tenant name body =>
    refine ⟨trivial, fun answer ↦ ?_⟩
    cases answer with
    | error e => trivial
    | ok record => exact hsubmit ..
  | grpc req =>
    refine ⟨trivial, fun answer ↦ ?_⟩
    cases answer with
    | error e => trivial
    | ok record =>
      change (do
        let _ ← (do
          let input ← orThrow (fun e ↦ e) (parseJson lib "input" req.inputJson)
          submit lib req.tenant req.name record (orEmptyObject input)
            (parseTags lib "tags" req.tagsJson) uuid).reify
        pure () : Prog Empty Unit).Always EnqueuesNext
      cases parseJson lib "input" req.inputJson with
      | error e => trivial
      | ok input => exact hsubmit ..

/-- Answers to a worker that do not tell that the run has ended. -/
def OpenAnswer : (call : Call) → call.Answer → Prop
  | .store (.getRun id), .ok run => run.id = id ∧ run.status ≠ .cancelled
  | .store (.putRun run), .ok _ => run.isTerminal = false
  | _, _ => True

/-- What is left of the process keeps to the calls of its role. A submission queues the run that it
stores, and a worker does not acknowledge its entry unless the run has ended. -/
structure Dutiful (w : World) (process : ServiceProcess) : Prop where
  calls : process.rest.Meets AnyAnswer (ServiceCall AnyAnswer process.role) fun _ ↦ True
  queues : ∀ request uuid, process.role = .submission request uuid →
    process.rest.Always EnqueuesNext
  acks : ∀ ex job, process.role = .engine (.worker ex job) →
    process.rest.Meets OpenAnswer (WorkCall OpenAnswer job) (fun _ ↦ True) ∨ Ended job.runId w

theorem dutiful_start (member : Service) (w : World) :
    Dutiful w ⟨member, member.program lib⟩ where
  calls := meets_service lib member
  queues := by
    rintro request uuid rfl
    exact always_enqueuesNext lib request uuid
  acks := by
    rintro ex job rfl
    exact .inl (meets_runJob ex job)

/-! ### Workers -/

/-- While answers leave the run open, an attempt looks at its own run only. -/
theorem id_of_attemptCall_getRun {r id : RunId} {token : Option ClaimToken} {leaseMs : ℤ}
    (h : AttemptCall OpenAnswer r token leaseMs (.store (.getRun id))) : id = r := by
  rcases h with h | ⟨run, ⟨hid, -⟩, h | ⟨-, record, -, hcall⟩⟩
  · cases h
    rfl
  · cases h
  · rcases hcall with ((hwave | hwave) | (hrecord | hwrite) | hread) | hnow | ⟨now, error, hlate⟩
    · exact hwave.elim
    · exact hwave.elim
    · exact hrecord.elim
    · exact hwrite.elim
    · cases hread
      exact hid
    · cases hnow
    · cases hlate

/-- While answers leave the run open, an attempt writes its own run only. -/
theorem id_of_attemptCall_putRun {r : RunId} {token : Option ClaimToken} {leaseMs : ℤ}
    {written : Run} (h : AttemptCall OpenAnswer r token leaseMs (.store (.putRun written))) :
    written.id = r := by
  obtain ⟨run, hrun, -, hwrite⟩ := h.putRun
  exact hwrite.id_eq.trans hrun.1

/-- A worker does not acknowledge its entry while answers leave the run open. -/
theorem not_workCall_ack {job : Job} {id : RunId} {token : ClaimToken} :
    ¬ WorkCall OpenAnswer job (.store (.ack id token)) := by
  intro h
  rcases h with hattempt | ⟨-, -, ⟨written, hterminal, hopen⟩ | ⟨id, run, -, hcancelled, hopen⟩⟩
  · have hattempting := hattempt.attempting
    simp [Call.Attempting, Call.InWave, Call.Deciding, Call.OnRecords] at hattempting
  · have hrunning : written.isTerminal = false := hopen
    rw [hterminal] at hrunning
    cases hrunning
  · exact hopen.2 hcancelled

/-- Only a worker acknowledges an entry, and it is the entry of its job. -/
theorem worker_of_ack {r : RunId} {token : ClaimToken}
    (h : ServiceCall AnyAnswer member (.store (.ack r token))) :
    ∃ ex job, member = .engine (.worker ex job) ∧ r = job.runId := by
  cases member with
  | submission request uuid => exact h.elim
  | engine role =>
    cases role with
    | dispatcher settings => exact h.elim
    | worker ex job =>
      rcases h with hattempt | ⟨hid, -⟩
      · have hattempting := hattempt.attempting
        simp [Call.Attempting, Call.InWave, Call.Deciding, Call.OnRecords] at hattempting
      · exact ⟨ex, job, rfl, hid⟩
    | operator runId => rcases h with h | ⟨nowMs, h⟩ <;> cases h
  | recovery => rcases h with h | ⟨nowMs, h⟩ <;> cases h

section Worlds

variable {env : Env} {w : World}

/-- An answer that does not leave the run of the worker open tells the truth. -/
theorem ended_of_not_openAnswer {job : Job} {call : Call} (hcall : WorkCall OpenAnswer job call)
    (h : ¬ OpenAnswer call (env.answer w call).1) : Ended job.runId (w.after env call) := by
  cases call with
  | store call =>
    cases call with
    | getRun id =>
      obtain rfl := id_of_attemptCall_getRun (hcall.resolve_right False.elim)
      change ¬ OpenAnswer (.store (.getRun job.runId)) (w.store.getRun job.runId) at h
      cases hrun : w.store.getRun job.runId with
      | error e =>
        rw [hrun] at h
        exact absurd trivial h
      | ok run =>
        rw [hrun] at h
        have hstored := MemoryStore.getRun_eq_ok.mp hrun
        have hcancelled : run.status = .cancelled := by
          by_contra hother
          exact h ⟨KeyedMap.key_of_get? hstored, hother⟩
        refine ⟨.cancelled, ?_, rfl⟩
        rw [statusOf_after (by trivial), statusOf, hstored, ← hcancelled]
        rfl
    | putRun written =>
      rw [← id_of_attemptCall_putRun (hcall.resolve_right False.elim)]
      refine ⟨written.status, ?_, ?_⟩
      · rw [statusOf_putRun, if_pos rfl]
      · exact eq_true_of_ne_false h
    | _ => exact absurd trivial h
  | _ => exact absurd trivial h

/-- What a process promises, it promises after a call of another. -/
theorem Dutiful.after {call : Call} {process : ServiceProcess} (h : Dutiful w process)
    (hcall : ServiceCall AnyAnswer member call) (hcurrent : Current member call w) :
    Dutiful (w.after env call) process where
  calls := h.calls
  queues := h.queues
  acks ex job hrole := (h.acks ex job hrole).imp_right (ended_after hcall hcurrent)

/-- What a process promises, it promises after a call of its own. -/
theorem Dutiful.step {call : Call} {next : call.Answer → Prog Empty Unit}
    (h : Dutiful w ⟨member, .call call next⟩) (hcurrent : Current member call w) :
    Dutiful (w.after env call) ⟨member, next (env.answer w call).1⟩ where
  calls := h.calls.2 _ trivial
  queues request uuid hrole := (h.queues request uuid hrole).2 _
  acks ex job hrole := by
    rcases h.acks ex job hrole with ⟨hwork, hnext⟩ | hended
    · by_cases hopen : OpenAnswer call (env.answer w call).1
      · exact .inl (hnext _ hopen)
      · exact .inr (ended_of_not_openAnswer hwork hopen)
    · exact .inr (ended_after h.calls.1 hcurrent hended)

end Worlds

/-! ### Interleavings -/

/-- A run that is lost is about to be queued, and every process keeps its promise. -/
structure Accounted (sys : ServiceSystem) : Prop where
  lost : ∀ r, Lost r sys.state →
    ∃ (index : ℕ) (process : ServiceProcess), sys.processes[index]? = some process ∧
      Submitting r process
  dutiful : ∀ process ∈ sys.processes, Dutiful sys.state process

theorem Accounted.start {sys : ServiceSystem} (h : Accounted sys) (member : Service) :
    Accounted ⟨sys.state, sys.processes ++ [⟨member, member.program lib⟩]⟩ where
  lost r hlost := by
    obtain ⟨index, process, hprocess, hsubmitting⟩ := h.lost r hlost
    obtain ⟨hindex, -⟩ := List.getElem?_eq_some_iff.mp hprocess
    refine ⟨index, process, ?_, hsubmitting⟩
    rw [List.getElem?_append_left hindex]
    exact hprocess
  dutiful process hprocess := by
    rcases List.mem_append.mp hprocess with hold | hnew
    · exact h.dutiful process hold
    · obtain rfl := List.mem_singleton.mp hnew
      exact dutiful_start lib member sys.state

theorem Accounted.call {env : Env} {sys : ServiceSystem} (h : Accounted sys) {index : ℕ}
    {call : Call} {next : call.Answer → Prog Empty Unit}
    (hprocess : sys.processes[index]? = some ⟨member, .call call next⟩)
    (hcurrent : Current member call sys.state) :
    Accounted ⟨sys.state.after env call,
      sys.processes.set index ⟨member, next (env.answer sys.state call).1⟩⟩ where
  lost r hlost := by
    have hown := h.dutiful _ (List.mem_of_getElem? hprocess)
    obtain ⟨hindex, -⟩ := List.getElem?_eq_some_iff.mp hprocess
    rcases lost_after hown.calls.1 hcurrent hlost with hbefore |
      ⟨request, uuid, run, rfl, rfl, hid⟩ |
      ⟨token, rfl⟩
    · -- the submission that will queue the run is another process: this one has just queued it
      obtain ⟨other, process, hother, entry, rfl, hnext⟩ := h.lost r hbefore
      have hne : index ≠ other := by
        rintro rfl
        obtain rfl := Option.some.inj (hprocess.symm.trans hother)
        obtain rfl := Option.some.inj hnext
        have hqueued : ((sys.state.after env (.store (.enqueue entry))).store.queue.get?
            entry.runId).isSome := queued_enqueue entry
        rw [hlost.2] at hqueued
        cases hqueued
      refine ⟨other, process, ?_, entry, rfl, hnext⟩
      rw [List.getElem?_set_ne hne]
      exact hother
    · obtain ⟨entry, hentry, hnext⟩ := (hown.queues request uuid rfl).1
      exact ⟨index, _, List.getElem?_set_self hindex, entry, hentry.trans hid, hnext⟩
    · obtain ⟨ex, job, rfl, rfl⟩ := worker_of_ack hown.calls.1
      rcases hown.acks ex job rfl with ⟨hwork, -⟩ | hended
      · exact absurd hwork not_workCall_ack
      · exact absurd (ended_after hown.calls.1 hcurrent hended) (not_ended_of_open hlost.1)
  dutiful process hmem := by
    have hown := h.dutiful _ (List.mem_of_getElem? hprocess)
    rcases List.mem_or_eq_of_mem_set hmem with hold | rfl
    · exact (h.dutiful process hold).after hown.calls.1 hcurrent
    · exact hown.step hcurrent

/-- The systems of an interleaving of the parties of the service, from one in which nobody is at
work. -/
def serviceSystems (env : Env) (lib : JsonLibrary) (w : World) (turns : List (Turn Service)) :
    List ServiceSystem :=
  System.trace (serve env) (Service.program lib) ⟨w, []⟩ turns

/-- In every interleaving in which no run is written over a status other than the one its writer has
read, nor a new one over a stored one, a run that is queued or running is in the queue, unless its
submission is just about to put it there. -/
theorem no_lost_runs (env : Env) (lib : JsonLibrary) (w : World) (hw : ∀ r, ¬ Lost r w)
    (turns : List (Turn Service))
    (hcurrent : System.Guarded (serve env) (Service.program lib) Current ⟨w, []⟩ turns) :
    ∀ sys ∈ serviceSystems env lib w turns, ∀ r,
      (∀ process ∈ sys.processes, ¬ Submitting r process) → ¬ Lost r sys.state := by
  have haccounted : ∀ sys ∈ serviceSystems env lib w turns, Accounted sys := by
    refine System.forall_mem_trace (fun sys member _ h ↦ h.start lib member)
      (fun sys index member call next h hprocess hguard ↦ h.call hprocess hguard) ?_ hcurrent
    exact ⟨fun r hlost ↦ absurd hlost (hw r), by simp⟩
  intro sys hsys r hquiet hlost
  obtain ⟨index, process, hprocess, hsubmitting⟩ := (haccounted sys hsys).lost r hlost
  exact hquiet process (List.mem_of_getElem? hprocess) hsubmitting

/-- A run is submitted and dispatched, and its worker makes a number of calls. -/
def sampleService (calls : ℕ) : List (Turn Service) :=
  .start (sampleSubmission 0) :: List.replicate 5 (.call 0) ++
    .start (.engine (.dispatcher ⟨8, 60000⟩)) :: List.replicate 8 (.call 1) ++
    .start (.engine (.worker plainExecutor ⟨submittedId 0, ⟨"token"⟩⟩)) ::
      List.replicate calls (.call 2)

/-- An operator cancels the run, in the fourth process. -/
def sampleServiceCancel : List (Turn Service) :=
  [.start (.engine (.operator (submittedId 0))), .call 3, .call 3]

theorem not_lost_sampleDefined (r : RunId) : ¬ Lost r sampleDefined := by
  rintro ⟨hstatus, -⟩
  rw [statusOf, show sampleDefined.store.runs = .empty from rfl, KeyedMap.get?_empty] at hstatus
  simp at hstatus

/-- A run whose tasks fail is given back to the queue, and cancelled then. -/
theorem no_lost_runs_sample :
    (serviceSystems allDown plainJson sampleDefined
      (sampleService 24 ++ sampleServiceCancel)).getLast?.map
        (fun sys ↦ statusOf (submittedId 0) sys.state) = some (some .cancelled) ∧
    ∀ sys ∈ serviceSystems allDown plainJson sampleDefined
      (sampleService 24 ++ sampleServiceCancel),
      ∀ r, (∀ process ∈ sys.processes, ¬ Submitting r process) → ¬ Lost r sys.state := by
  -- one evaluation of the interleaving serves both
  have hsample : (serviceSystems allDown plainJson sampleDefined
      (sampleService 24 ++ sampleServiceCancel)).getLast?.map
        (fun sys ↦ statusOf (submittedId 0) sys.state) = some (some .cancelled) ∧
      System.Guarded (serve allDown) (Service.program plainJson) Current ⟨sampleDefined, []⟩
        (sampleService 24 ++ sampleServiceCancel) := by
    decide +kernel
  exact ⟨hsample.1, no_lost_runs allDown plainJson sampleDefined not_lost_sampleDefined
    (sampleService 24 ++ sampleServiceCancel) hsample.2⟩

/-- An operator cancels the run before the last write of its worker, which schedules a retry. In the
end nobody is at work, and the run is queued but not in the queue. -/
theorem run_lost :
    ∃ sys ∈ serviceSystems allDown plainJson sampleDefined
        (sampleService 22 ++ sampleServiceCancel ++ [.call 2, .call 2]),
      (∀ process ∈ sys.processes, process.rest.next? = none) ∧
        statusOf (submittedId 0) sys.state = some .queued ∧ Lost (submittedId 0) sys.state := by
  decide +kernel

end Runvane.Scheduler
