import Runvane.Persistence.ReadyScan
import Runvane.Scheduler.History

/-!
# Handing runs over to the pool

A round of the dispatcher claims each entry that is ready, moves its run to running, and submits it
to the pool. It submits whether or not the move succeeded, and looks at both results afterwards:
unless both are good it drops the claim, and does not count the run as claimed. So a job that the
pool has accepted may be left without its lease (`accepted_without_lease`).

Here any call on the store may fail (`serveOutage`), and the pool may accept or refuse. Accepted
jobs own their leases, and are the ones that were counted, exactly if the runs of all accepted jobs
were moved (`jobs_own_lease_iff`).
-/

set_option autoImplicit false

namespace Runvane.Scheduler

open Library Domain Persistence Prog
open CallProgram (wp wp_bind wp_mono wp_foldlM wp_reify)

/-! ### A store that may fail -/

def StoreCall.failure (e : StorageError) : (call : StoreCall) → call.Answer
  | .putWorkflow .. | .updateWorkflowVersion .. | .getWorkflow .. | .putRun .. | .getRun ..
  | .deleteRun .. | .putTaskRun .. | .getTaskRun .. | .listTaskRunsForRun .. | .nextRunNumber ..
  | .enqueue .. | .scanReady .. | .claim .. | .ack .. | .release .. | .failclaim ..
  | .renewLease .. | .cancelRun .. | .recoverExpiredLeases .. => .error e

/-- Answers calls, of which those on the store may fail without an effect, and keeps the log. -/
def serveOutage (env : Env) (outage : World → StoreCall → Option StorageError) :
    Server Call Call.Answer World
  | .store call, w =>
    match outage w call with
    | some e =>
      (call.failure e, ⟨w.store, w.log ++ [⟨w.store, .store call, call.failure e⟩]⟩)
    | none => serve env (.store call) w
  | call, w => serve env call w

section Calls

variable {env : Env} {outage : World → StoreCall → Option StorageError} {ε α : Type}
  {post : α → World → Prop} {fail : Abort ε → World → Prop} {w : World}

/-- A call on the store is logged, and fails without an effect or does what the store does. -/
theorem wp_onStore {call : StoreCall} {rest : call.Answer → Prog ε α}
    (h : ∀ w₁ answer, w₁.log = w.log ++ [⟨w.store, .store call, answer⟩] →
      ((∃ e, answer = call.failure e) ∧ w₁.store = w.store ∨
        (answer, w₁.store) = call.apply (env.order w.log) w.store) →
      wp (serveOutage env outage) (fun _ ↦ True) post fail (rest answer) w₁) :
    wp (serveOutage env outage) (fun _ ↦ True) post fail (onStore call >>= rest) w := by
  refine ⟨trivial, ?_⟩
  cases hout : outage w call with
  | some e =>
    have hserve : serveOutage env outage (.store call) w =
        (call.failure e, ⟨w.store, w.log ++ [⟨w.store, .store call, call.failure e⟩]⟩) := by
      simp only [serveOutage, hout]
    rw [hserve]
    exact h _ _ rfl (.inl ⟨⟨e, rfl⟩, rfl⟩)
  | none =>
    have hserve : serveOutage env outage (.store call) w = serve env (.store call) w := by
      simp only [serveOutage, hout]
    rw [hserve]
    exact h _ _ rfl (.inr rfl)

/-- Any other call is logged, and leaves the store alone. -/
theorem wp_elsewhere {call : Call} {rest : call.Answer → Prog ε α} (hcall : ∀ c, call ≠ .store c)
    (h : ∀ w₁ answer, w₁.log = w.log ++ [⟨w.store, call, answer⟩] → w₁.store = w.store →
      wp (serveOutage env outage) (fun _ ↦ True) post fail (rest answer) w₁) :
    wp (serveOutage env outage) (fun _ ↦ True) post fail (ask call >>= rest) w := by
  refine ⟨trivial, ?_⟩
  cases call with
  | store c => exact absurd rfl (hcall c)
  | nowMs | registryGet | execute | newToken | submit => exact h _ _ rfl rfl

end Calls

/-! ### What a round has seen -/

def Event.accepted? : Event → Option Job
  | ⟨_, .submit job, .ok _⟩ => some job
  | _ => none

def Event.read? : Event → Option Run
  | ⟨_, .store (.getRun _), .ok run⟩ => some run
  | _ => none

def Event.written? : Event → Option Run
  | ⟨_, .store (.putRun run), .ok _⟩ => some run
  | _ => none

def Moved (events : List Event) (r : RunId) : Prop :=
  ∃ run ∈ events.filterMap Event.read?, run.id = r ∧ (run.status = .running ∨
    run.status = .queued ∧ ∃ written ∈ events.filterMap Event.written?, written.id = r)

instance (events : List Event) (r : RunId) : Decidable (Moved events r) :=
  inferInstanceAs (Decidable (∃ run ∈ _, _))

/-- The entry of the job's run is leased to the job's token, until the given time. -/
def Owns (untilMs : ℤ) (s : MemoryStore) (job : Job) : Prop :=
  ∃ entry, s.queue.get? job.runId = some entry ∧ entry.token = job.token ∧
    entry.leaseUntilMs = some untilMs

/-- All runs that were read or written, and all jobs that were accepted, are of such runs. -/
structure Concerns (p : RunId → Prop) (events : List Event) : Prop where
  read : ∀ run ∈ events.filterMap Event.read?, p run.id
  written : ∀ run ∈ events.filterMap Event.written?, p run.id
  accepted : ∀ job ∈ events.filterMap Event.accepted?, p job.runId

variable {r : RunId} {events later : List Event} {r' : RunId} {s s' : MemoryStore} {untilMs : ℤ}

section Concerns

variable {p : RunId → Prop}

/-- From the runs that were read and written, and the jobs that were accepted. -/
theorem Concerns.of_eq (reads writes : List Run) (accepts : List Job)
    (hreads : events.filterMap Event.read? = reads)
    (hwrites : events.filterMap Event.written? = writes)
    (haccepts : events.filterMap Event.accepted? = accepts)
    (hids : ∀ run ∈ reads ++ writes, p run.id)
    (haccepted : ∀ job ∈ accepts, p job.runId) : Concerns p events := by
  subst hreads hwrites haccepts
  obtain ⟨hread, hwritten⟩ := List.forall_mem_append.mp hids
  exact ⟨hread, hwritten, haccepted⟩

theorem Concerns.append (h : Concerns p events) (h' : Concerns p later) :
    Concerns p (events ++ later) := by
  constructor <;> rw [List.filterMap_append]
  · exact List.forall_mem_append.mpr ⟨h.read, h'.read⟩
  · exact List.forall_mem_append.mpr ⟨h.written, h'.written⟩
  · exact List.forall_mem_append.mpr ⟨h.accepted, h'.accepted⟩

theorem Concerns.mono {q : RunId → Prop} (h : Concerns p events) (hpq : ∀ r, p r → q r) :
    Concerns q events :=
  ⟨fun run hrun ↦ hpq _ (h.read run hrun), fun run hrun ↦ hpq _ (h.written run hrun),
    fun job hjob ↦ hpq _ (h.accepted job hjob)⟩

end Concerns

/-- Events that read and write no run do not move one. -/
theorem moved_append_silent (hreads : later.filterMap Event.read? = [])
    (hwrites : later.filterMap Event.written? = []) :
    Moved (events ++ later) r ↔ Moved events r := by
  unfold Moved
  simp only [List.filterMap_append, hreads, hwrites, List.append_nil]

/-- What happens to another run does not move this one. -/
theorem moved_append_left (h : Concerns (· = r') later) (hne : r ≠ r') :
    Moved (events ++ later) r ↔ Moved events r := by
  unfold Moved
  simp only [List.filterMap_append, List.mem_append]
  constructor
  · rintro ⟨run, hrun | hrun, rfl, hstatus⟩
    · refine ⟨run, hrun, rfl, hstatus.imp_right fun ⟨hqueued, written, hwritten, hid⟩ ↦ ?_⟩
      rcases hwritten with hwritten | hwritten
      · exact ⟨hqueued, written, hwritten, hid⟩
      · exact absurd (hid.symm.trans (h.written written hwritten)) hne
    · exact absurd (h.read run hrun) hne
  · rintro ⟨run, hrun, hid, hstatus⟩
    refine ⟨run, .inl hrun, hid, hstatus.imp_right fun ⟨hqueued, written, hwritten, hid⟩ ↦ ?_⟩
    exact ⟨hqueued, written, .inl hwritten, hid⟩

/-- What happened to other runs before does not move this one. -/
theorem moved_append_right (h : Concerns (· ≠ r) events) :
    Moved (events ++ later) r ↔ Moved later r := by
  unfold Moved
  simp only [List.filterMap_append, List.mem_append]
  constructor
  · rintro ⟨run, hrun | hrun, hid, hstatus⟩
    · exact absurd hid (h.read run hrun)
    · refine ⟨run, hrun, hid, hstatus.imp_right fun ⟨hqueued, written, hmem, hid⟩ ↦ ?_⟩
      rcases hmem with hmem | hmem
      · exact absurd hid (h.written written hmem)
      · exact ⟨hqueued, written, hmem, hid⟩
  · rintro ⟨run, hrun, hid, hstatus⟩
    refine ⟨run, .inr hrun, hid, hstatus.imp_right fun ⟨hqueued, written, hmem, hid⟩ ↦ ?_⟩
    exact ⟨hqueued, written, .inr hmem, hid⟩

/-! ### One entry -/

section Entry

variable (env : Env) (outage : World → StoreCall → Option StorageError)

structure Logged (r : RunId) (events : List Event) (w w' : World) : Prop where
  log : w'.log = w.log ++ events
  concerns : Concerns (· = r) events

/-- How the move of a run ends: the queue is as it was, the pool has been given nothing, and it
succeeds if the run was moved. -/
def MoveEnd (r : RunId) (w : World) (succeeded : Bool) (w' : World) : Prop :=
  ∃ events, Logged r events w w' ∧ events.filterMap Event.accepted? = [] ∧
    w'.store.queue = w.store.queue ∧ (succeeded = true ↔ Moved events r)

/-- From the runs that were read and written on the way. -/
theorem moveEnd_of_eq {w w' : World} {succeeded : Bool} (reads writes : List Run)
    (hlog : w'.log = w.log ++ events) (hreads : events.filterMap Event.read? = reads)
    (hwrites : events.filterMap Event.written? = writes)
    (haccepts : events.filterMap Event.accepted? = [])
    (hqueue : w'.store.queue = w.store.queue) (hids : ∀ run ∈ reads ++ writes, run.id = r)
    (hmoved : succeeded = true ↔ ∃ run ∈ reads, run.id = r ∧ (run.status = .running ∨
      run.status = .queued ∧ ∃ written ∈ writes, written.id = r)) : MoveEnd r w succeeded w' := by
  refine ⟨events, ⟨hlog, .of_eq reads writes [] hreads hwrites haccepts hids (by simp)⟩, haccepts,
    hqueue, ?_⟩
  subst hreads hwrites
  exact hmoved

theorem wp_markRunning_outage (r : RunId) (w : World) :
    wp (serveOutage env outage) (fun _ ↦ True) (fun _ w' ↦ MoveEnd r w true w')
      (fun _ w' ↦ MoveEnd r w false w') (markRunning r) w := by
  unfold markRunning
  refine wp_onStore fun w₁ answer hlog hanswer ↦ ?_
  have hstore : w₁.store = w.store := by
    rcases hanswer with ⟨-, hstore⟩ | happly
    · exact hstore
    · exact congrArg Prod.snd happly
  cases answer with
  | error e =>
    exact moveEnd_of_eq [] [] hlog rfl rfl rfl (by rw [hstore]) (by simp) (by simp)
  | ok run =>
    have hid : run.id = r := by
      rcases hanswer with ⟨⟨e, herror⟩, -⟩ | happly
      · cases herror
      · exact KeyedMap.key_of_get? (MemoryStore.getRun_eq_ok.mp (congrArg Prod.fst happly).symm)
    dsimp only
    split_ifs with hrunning hqueued
    · exact moveEnd_of_eq [run] [] hlog rfl rfl rfl (by rw [hstore]) (by simp [hid])
        (by simp [hid, hrunning])
    · exact moveEnd_of_eq [run] [] hlog rfl rfl rfl (by rw [hstore]) (by simp [hid])
        (by simp [hid, hrunning])
    · simp only [RunFsm.validate, RunFsm.isLegal, RunFsm.canTransition, if_true]
      refine wp_elsewhere (by simp) fun w₂ now hlog₂ hstore₂ ↦ ?_
      refine wp_onStore fun w₃ answer₃ hlog₃ hanswer₃ ↦ ?_
      have hqueue : w₃.store.queue = w.store.queue := by
        rw [← hstore, ← hstore₂]
        rcases hanswer₃ with ⟨-, hstore₃⟩ | happly
        · rw [hstore₃]
        · exact congrArg (fun result ↦ result.2.queue) happly
      rw [hlog₂, hlog, List.append_assoc, List.append_assoc] at hlog₃
      cases answer₃ with
      | error e =>
        exact moveEnd_of_eq [run] [] hlog₃ rfl rfl rfl hqueue (by simp [hid])
          (by simp [hid, hrunning])
      | ok _ =>
        exact moveEnd_of_eq [run] [{ run with status := .running, startedAtMs := _ }] hlog₃ rfl rfl
          rfl hqueue (by simp [hid]) (by simp [hid, not_not.mp hqueued])

/-- How the work on an entry ends. Other entries are as they were. Either the pool has accepted
nothing; or it has accepted a job, and the run was moved, counted, and is owned by the job; or the
run was not moved, and not counted. -/
def EntryEnd (untilMs : ℤ) (r : RunId) (stats : DispatchStats) (w : World) (stats' : DispatchStats)
    (w' : World) : Prop :=
  ∃ events, Logged r events w w' ∧
    (∀ r', r' ≠ r → w'.store.queue.get? r' = w.store.queue.get? r') ∧
    (events.filterMap Event.accepted? = [] ∧ stats'.claimed = stats.claimed ∨
      ∃ job, events.filterMap Event.accepted? = [job] ∧
        (Moved events r ∧ Owns untilMs w'.store job ∧ stats'.claimed = stats.claimed + 1 ∨
          ¬ Moved events r ∧ stats'.claimed = stats.claimed))

theorem queue_claim_of_ne (s : MemoryStore) (r : RunId) (token : ClaimToken) (nowMs leaseMs : ℤ)
    (hne : r' ≠ r) : (s.claim r token nowMs leaseMs).2.queue.get? r' = s.queue.get? r' := by
  rcases s.claim_cases r token nowMs leaseMs with ⟨e, heq⟩ | ⟨entry, hentry, heq⟩
  · rw [heq]
  · rw [heq]
    have hid : entry.runId = r := KeyedMap.key_of_get? hentry
    exact (KeyedMap.get?_put ..).trans (if_neg fun h ↦ hne (h.symm.trans hid))

theorem owns_of_claim {token : ClaimToken} {nowMs leaseMs : ℤ}
    (h : s.claim r token nowMs leaseMs = (.ok (), s')) :
    Owns (i64Add nowMs leaseMs) s' ⟨r, token⟩ := by
  rcases s.claim_cases r token nowMs leaseMs with ⟨e, heq⟩ | ⟨entry, hentry, heq⟩
  · rw [heq] at h
    cases h
  · rw [heq] at h
    obtain rfl := (Prod.mk.inj h).2
    have hid : entry.runId = r := KeyedMap.key_of_get? hentry
    refine ⟨entry.leased token (i64Add nowMs leaseMs), ?_, rfl, rfl⟩
    exact (KeyedMap.get?_put ..).trans (if_pos hid)

theorem queue_failclaim_of_ne (s : MemoryStore) (r : RunId) (token : ClaimToken) (hne : r' ≠ r) :
    (s.failclaim r token).2.queue.get? r' = s.queue.get? r' := by
  unfold MemoryStore.failclaim
  rcases s.asHolder_cases r (·.token = token) fun entry ↦ s.queue.put entry.unleased with
    ⟨e, heq⟩ | ⟨entry, hentry, -, heq⟩
  · rw [heq]
  · rw [heq]
    have hid : entry.runId = r := KeyedMap.key_of_get? hentry
    exact (KeyedMap.get?_put ..).trans (if_neg fun h ↦ hne (h.symm.trans hid))

/-- A claimed run is submitted, and its claim is dropped unless all went well. -/
theorem wp_submitted {ε : Type} (stats : DispatchStats) (job : Job) {w w₂ w₃ : World}
    {claiming : List Event} (hclaiming : w₂.log = w.log ++ claiming)
    (hsilent : claiming.filterMap Event.read? = [] ∧ claiming.filterMap Event.written? = [] ∧
      claiming.filterMap Event.accepted? = [])
    (hframe : ∀ r', r' ≠ job.runId → w₂.store.queue.get? r' = w.store.queue.get? r')
    (howns : Owns untilMs w₂.store job) (transitioned : Except (Abort StorageError) Unit)
    (hmove : MoveEnd job.runId w₂ transitioned.isOk w₃) :
    wp (serveOutage env outage) (fun _ ↦ True)
      (fun stats' w' ↦ EntryEnd untilMs job.runId stats w stats' w') (fun _ _ ↦ False)
      (do
        let submitted ← ask (.submit job)
        if transitioned.isOk && submitted.isOk then
          pure { stats with claimed := stats.claimed + 1 }
        else do
          let _ ← onStore (.failclaim job.runId job.token)
          pure { stats with submitFailed := stats.submitFailed + 1 } :
            Prog ε DispatchStats) w₃ := by
  obtain ⟨moving, ⟨hmoving, hconcerns⟩, hnone, hqueue, hmoved⟩ := hmove
  obtain ⟨hreads, hwrites, haccepts⟩ := hsilent
  refine wp_elsewhere (by simp) fun w₄ submitted hlog₄ hstore₄ ↦ ?_
  rw [hmoving, hclaiming, List.append_assoc, List.append_assoc] at hlog₄
  have hmoved₄ : Moved (claiming ++ (moving ++ [⟨w₃.store, .submit job, submitted⟩])) job.runId ↔
      Moved moving job.runId := by
    rw [moved_append_right (.of_eq [] [] [] hreads hwrites haccepts (by simp) (by simp))]
    exact moved_append_silent rfl rfl
  have hconcerns₄ : Concerns (· = job.runId)
      (claiming ++ (moving ++ [⟨w₃.store, .submit job, submitted⟩])) := by
    refine .append (.of_eq [] [] [] hreads hwrites haccepts (by simp) (by simp))
      (hconcerns.append ?_)
    cases submitted with
    | error e => exact .of_eq [] [] [] rfl rfl rfl (by simp) (by simp)
    | ok _ => exact .of_eq [] [] [job] rfl rfl rfl (by simp) (by simp)
  have hqueue₄ : w₄.store.queue = w₂.store.queue := by rw [hstore₄, hqueue]
  have haccepted (answer : Except SubmitError Unit) :
      List.filterMap Event.accepted? (claiming ++ (moving ++ [⟨w₃.store, .submit job, answer⟩])) =
        (Event.accepted? ⟨w₃.store, .submit job, answer⟩).toList := by
    simp only [List.filterMap_append, haccepts, hnone, List.nil_append]
    cases answer <;> rfl
  -- the pool has accepted the job and the run was moved, or the claim is dropped
  split_ifs with hboth
  · obtain ⟨hok, hsubmitted⟩ := Bool.and_eq_true_iff.mp hboth
    obtain ⟨_, rfl⟩ := exists_of_isOk hsubmitted
    refine ⟨_, ⟨hlog₄, hconcerns₄⟩, fun r' hne ↦ by rw [hqueue₄, hframe r' hne],
      .inr ⟨job, haccepted _, .inl ⟨hmoved₄.mpr (hmoved.mp hok), ?_, rfl⟩⟩⟩
    obtain ⟨entry, hentry, hlease⟩ := howns
    exact ⟨entry, by rwa [hqueue₄], hlease⟩
  · refine wp_onStore fun w₅ answer hlog₅ hanswer ↦ ?_
    rw [hlog₄, List.append_assoc] at hlog₅
    refine ⟨_, ⟨hlog₅, hconcerns₄.append ?_⟩, fun r' hne ↦ ?_, ?_⟩
    · exact .of_eq [] [] [] rfl rfl rfl (by simp) (by simp)
    · rw [← hframe r' hne, ← hqueue₄]
      rcases hanswer with ⟨-, hstore⟩ | happly
      · rw [hstore]
      · rw [show w₅.store = _ from congrArg Prod.snd happly]
        exact queue_failclaim_of_ne _ _ _ hne
    · rw [List.filterMap_append, haccepted]
      cases submitted with
      | error e => exact .inl ⟨rfl, rfl⟩
      | ok _ =>
        refine .inr ⟨job, rfl, .inr ⟨?_, rfl⟩⟩
        have hnotMoved : ¬ Moved moving job.runId := by
          rw [← hmoved]
          simpa [Except.isOk, Except.toBool] using hboth
        rwa [moved_append_silent rfl rfl, hmoved₄]

theorem wp_dispatchEntry_outage {ε : Type} (dispatcher : Dispatcher) (now : ℤ)
    (stats : DispatchStats) (entry : QueueEntry) (w : World) :
    wp (serveOutage env outage) (fun _ ↦ True)
      (fun stats' w' ↦ EntryEnd (i64Add now dispatcher.leaseMs) entry.runId stats w stats' w')
      (fun _ _ ↦ False)
      (dispatchEntry dispatcher now stats entry : Prog ε DispatchStats) w := by
  unfold dispatchEntry
  refine wp_elsewhere (by simp) fun w₁ token hlog₁ hstore₁ ↦ ?_
  refine wp_onStore fun w₂ answer hlog₂ hanswer ↦ ?_
  rw [hlog₁, List.append_assoc] at hlog₂
  have hframe (r' : RunId) (hne : r' ≠ entry.runId) :
      w₂.store.queue.get? r' = w.store.queue.get? r' := by
    rw [← hstore₁]
    rcases hanswer with ⟨-, hstore⟩ | happly
    · rw [hstore]
    · rw [show w₂.store = _ from congrArg Prod.snd happly]
      exact queue_claim_of_ne _ _ _ _ _ hne
  have hsilent : ∀ answer : Except StorageError Unit,
      let claiming : List Event := [⟨w.store, .newToken, token⟩] ++
        [⟨w₁.store, .store (.claim entry.runId token now dispatcher.leaseMs), answer⟩]
      claiming.filterMap Event.read? = [] ∧ claiming.filterMap Event.written? = [] ∧
        claiming.filterMap Event.accepted? = [] := fun _ ↦ ⟨rfl, rfl, rfl⟩
  cases answer with
  | error e =>
    have hnothing (stats' : DispatchStats) (hclaimed : stats'.claimed = stats.claimed) :
        EntryEnd (i64Add now dispatcher.leaseMs) entry.runId stats w stats' w₂ := by
      refine ⟨_, ⟨hlog₂, ?_⟩, hframe, .inl ⟨rfl, hclaimed⟩⟩
      exact .of_eq [] [] [] rfl rfl rfl (by simp) (by simp)
    cases e <;> exact hnothing _ rfl
  | ok _ =>
    have howns : Owns (i64Add now dispatcher.leaseMs) w₂.store ⟨entry.runId, token⟩ := by
      rcases hanswer with ⟨⟨e, herror⟩, -⟩ | happly
      · cases herror
      · exact owns_of_claim happly.symm
    dsimp only
    rw [wp_bind, wp_reify]
    refine wp_mono (fun _ h ↦ h) (fun _ w₃ hmove ↦ ?_) (fun reason w₃ hmove ↦ ?_)
      (wp_markRunning_outage env outage entry.runId w₂)
    · exact wp_submitted env outage stats ⟨entry.runId, token⟩ hlog₂ (hsilent _) hframe howns
        (.ok ()) hmove
    · exact wp_submitted env outage stats ⟨entry.runId, token⟩ hlog₂ (hsilent _) hframe howns
        (.error reason) hmove

end Entry

/-! ### A round -/

/-- A round in the middle: nothing has happened to the runs of the entries that are left, the runs
of accepted jobs that were moved are the ones that were counted, and these jobs own their leases. -/
structure Round (untilMs : ℤ) (rest : List QueueEntry) (events : List Event) (stats : DispatchStats)
    (s : MemoryStore) : Prop where
  distinct : (rest.map QueueEntry.runId).Nodup
  untouched : ∀ entry ∈ rest, Concerns (· ≠ entry.runId) events
  counted : stats.claimed =
    (events.filterMap Event.accepted?).countP fun job ↦ Moved events job.runId
  owned : ∀ job ∈ events.filterMap Event.accepted?, Moved events job.runId →
    Owns untilMs s job

/-- A round starts with events that concern no run. -/
theorem Round.start {rest : List QueueEntry} {stats : DispatchStats}
    (hdistinct : (rest.map QueueEntry.runId).Nodup) (hreads : events.filterMap Event.read? = [])
    (hwrites : events.filterMap Event.written? = [])
    (haccepts : events.filterMap Event.accepted? = []) (hclaimed : stats.claimed = 0) :
    Round untilMs rest events stats s where
  distinct := hdistinct
  untouched _ _ := .of_eq [] [] [] hreads hwrites haccepts (by simp) (by simp)
  counted := by simp [haccepts, hclaimed]
  owned := by simp [haccepts]

theorem Owns.of_queue {job : Job} (h : Owns untilMs s job)
    (hqueue : s'.queue.get? job.runId = s.queue.get? job.runId) : Owns untilMs s' job := by
  obtain ⟨entry, hentry, hlease⟩ := h
  exact ⟨entry, hqueue.trans hentry, hlease⟩

/-- The work on one entry. -/
theorem Round.entry {entry : QueueEntry} {rest : List QueueEntry} {stats stats' : DispatchStats}
    (h : Round untilMs (entry :: rest) events stats s) (hlater : Concerns (· = entry.runId) later)
    (hframe : ∀ r', r' ≠ entry.runId → s'.queue.get? r' = s.queue.get? r')
    (hend : later.filterMap Event.accepted? = [] ∧ stats'.claimed = stats.claimed ∨
      ∃ job, later.filterMap Event.accepted? = [job] ∧
        (Moved later entry.runId ∧ Owns untilMs s' job ∧ stats'.claimed = stats.claimed + 1 ∨
          ¬ Moved later entry.runId ∧ stats'.claimed = stats.claimed)) :
    Round untilMs rest (events ++ later) stats' s' := by
  obtain ⟨hnew, hdistinct⟩ := List.nodup_cons.mp h.distinct
  have hhere := h.untouched entry List.mem_cons_self
  have hold (job : Job) (hjob : job ∈ events.filterMap Event.accepted?) :
      Moved (events ++ later) job.runId ↔ Moved events job.runId :=
    moved_append_left hlater (hhere.accepted job hjob)
  have hmoved : Moved (events ++ later) entry.runId ↔ Moved later entry.runId :=
    moved_append_right hhere
  have hcount : (events.filterMap Event.accepted?).countP
      (fun job ↦ Moved (events ++ later) job.runId) = stats.claimed := by
    rw [h.counted]
    exact List.countP_congr fun job hjob ↦ by simpa using hold job hjob
  have howned (job : Job) (hjob : job ∈ events.filterMap Event.accepted?)
      (hmove : Moved (events ++ later) job.runId) : Owns untilMs s' job :=
    (h.owned job hjob ((hold job hjob).mp hmove)).of_queue (hframe _ (hhere.accepted job hjob))
  have hrest : ∀ other ∈ rest, Concerns (· ≠ other.runId) (events ++ later) := by
    intro other hother
    refine (h.untouched other (List.mem_cons_of_mem _ hother)).append (hlater.mono ?_)
    rintro _ rfl heq
    exact hnew (List.mem_map.mpr ⟨other, hother, heq.symm⟩)
  rcases hend with ⟨hnone, hclaimed⟩ | ⟨job, hjob, hcases⟩
  · refine ⟨hdistinct, hrest, ?_, ?_⟩
    · rw [List.filterMap_append, hnone, List.append_nil, hcount, hclaimed]
    · rw [List.filterMap_append, hnone, List.append_nil]
      exact howned
  · have hid : job.runId = entry.runId := hlater.accepted job
      (by rw [hjob]; exact List.mem_singleton_self _)
    refine ⟨hdistinct, hrest, ?_, ?_⟩
    · rw [List.filterMap_append, hjob, List.countP_append, hcount, List.countP_singleton, hid]
      rcases hcases with ⟨hmove, -, hclaimed⟩ | ⟨hnot, hclaimed⟩
      · simp [hmoved, hmove, hclaimed]
      · simp [hmoved, hnot, hclaimed]
    · rw [List.filterMap_append, hjob]
      refine List.forall_mem_append.mpr ⟨howned, fun other hother hmove ↦ ?_⟩
      obtain rfl := List.mem_singleton.mp hother
      rw [hid, hmoved] at hmove
      rcases hcases with ⟨-, howns, -⟩ | ⟨hnot, -⟩
      · exact howns
      · exact absurd hmove hnot

theorem nodup_scanReady {order : IterationOrder QueueEntry} {nowMs : ℤ} {limit : ℕ}
    {ready : List QueueEntry} (h : s.scanReady order nowMs limit = .ok ready) :
    (ready.map QueueEntry.runId).Nodup := by
  obtain ⟨batch, hbatch, hscanned⟩ := s.batch_scanReady order nowMs limit
  obtain rfl := Except.ok.inj (hbatch.symm.trans h)
  exact hscanned.distinct

/-- The specification of a round. -/
theorem wp_step_outage (env : Env) (outage : World → StoreCall → Option StorageError)
    (dispatcher : Dispatcher) (w : World) {ε : Type} :
    wp (serveOutage env outage) (fun _ ↦ True)
      (fun stats w' ↦ ∃ events, w'.log = w.log ++ events ∧
        Round (i64Add (env.clock w.log) dispatcher.leaseMs) [] events stats w'.store)
      (fun _ _ ↦ False) (dispatcher.step : Prog ε DispatchStats) w := by
  unfold Dispatcher.step
  have hclock : serveOutage env outage .nowMs w = (env.clock w.log,
      ⟨w.store, w.log ++ [⟨w.store, .nowMs, env.clock w.log⟩]⟩) := rfl
  refine ⟨trivial, ?_⟩
  rw [hclock]
  refine wp_onStore fun w₂ answer hlog₂ hanswer ↦ ?_
  rw [List.append_assoc] at hlog₂
  cases answer with
  | error e => exact ⟨_, hlog₂, .start List.nodup_nil rfl rfl rfl rfl⟩
  | ok ready =>
    have hready : (ready.map QueueEntry.runId).Nodup := by
      rcases hanswer with ⟨⟨e, herror⟩, -⟩ | happly
      · cases herror
      · exact nodup_scanReady (congrArg Prod.fst happly).symm
    refine wp_foldlM (fun rest stats w' ↦ ∃ events, w'.log = w.log ++ events ∧
      Round (i64Add (env.clock w.log) dispatcher.leaseMs) rest events stats w'.store)
      ?_ ready _ w₂ ?_
    · rintro entry rest stats w' ⟨events, hlog, hround⟩
      refine wp_mono (fun _ h ↦ h) ?_ (fun _ _ h ↦ h)
        (wp_dispatchEntry_outage env outage dispatcher _ stats entry w')
      rintro stats' w'' ⟨later, ⟨hlater, hconcerns⟩, hframe, hend⟩
      refine ⟨events ++ later, ?_, hround.entry hconcerns hframe hend⟩
      rw [hlater, hlog, List.append_assoc]
    · exact ⟨_, hlog₂, .start hready rfl rfl rfl rfl⟩

/-- Whatever the calls of a round are answered: the jobs that the pool has accepted own their leases
at the end, and are as many as were counted, exactly if the runs of all of them were moved. -/
theorem jobs_own_lease_iff (env : Env) (outage : World → StoreCall → Option StorageError)
    (dispatcher : Dispatcher) (w : World) :
    ∃ stats w' events,
      (dispatcher.step : Prog Empty DispatchStats).run (serveOutage env outage) w =
        (.ok stats, w') ∧
      w'.log = w.log ++ events ∧
      (((∀ job ∈ events.filterMap Event.accepted?,
            Owns (i64Add (env.clock w.log) dispatcher.leaseMs) w'.store job) ∧
          (events.filterMap Event.accepted?).length = stats.claimed) ↔
        ∀ job ∈ events.filterMap Event.accepted?, Moved events job.runId) := by
  have hstep := wp_step_outage env outage dispatcher w (ε := Empty)
  rcases hrun : (dispatcher.step : Prog Empty DispatchStats).run (serveOutage env outage) w with
    ⟨reason | stats, w'⟩
  · exact (CallProgram.fail_of_run hstep hrun).elim
  · obtain ⟨events, hlog, hround⟩ := CallProgram.post_of_run hstep hrun
    refine ⟨stats, w', events, rfl, hlog, ?_⟩
    have hcounted := hround.counted
    constructor
    · rintro ⟨-, hlength⟩ job hjob
      rw [← hlength, eq_comm, List.countP_eq_length] at hcounted
      exact of_decide_eq_true (hcounted job hjob)
    · intro hmoved
      refine ⟨fun job hjob ↦ hround.owned job hjob (hmoved job hjob), ?_⟩
      rw [hcounted, eq_comm, List.countP_eq_length]
      exact fun job hjob ↦ decide_eq_true (hmoved job hjob)

def sampleLeftBehind : MemoryStore :=
  ((MemoryStore.new.putRun
    { id := sampleRun, tenant := "t", defName := "flow", status := .succeeded }).2.enqueue
    { runId := sampleRun, token := .empty, dueAtMs := 0, leaseUntilMs := none
      claimedBy := none }).2

/-- What a round makes of that entry, when no call fails. -/
def sampleHandover : Except (Abort Empty) DispatchStats × World :=
  (Dispatcher.step ⟨8, 60000⟩).run (serveOutage (answering fun _ ↦ none) fun _ _ ↦ none)
    ⟨sampleLeftBehind, []⟩

/-- The run has succeeded and is not moved, but its job is handed over. The entry is then free, and
nothing was claimed. -/
theorem accepted_without_lease :
    sampleHandover.1.toOption.map DispatchStats.claimed = some 0 ∧
    sampleHandover.2.log.filterMap Event.accepted? = [⟨sampleRun, ⟨"token"⟩⟩] ∧
    (sampleHandover.2.store.queue.get? sampleRun).map QueueEntry.token = some .empty ∧
    (sampleHandover.2.store.queue.get? sampleRun).bind QueueEntry.leaseUntilMs = none := by
  decide

end Runvane.Scheduler
