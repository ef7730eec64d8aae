import Runvane.Persistence.Lease
import Runvane.Scheduler.Service

/-!
# Renewals of leases

`renew_lease` sets the lease to the present time plus the length it is given, also when the lease
would have run longer. A renewal keeps the lease from getting shorter exactly if what is left of it
is at most this length (`notShortened_iff_of_renewed`); both stores are the same in this.

In the service the length of a claim comes from the configuration, and that of a renewal is fixed in
the worker loop; the contracts of the programs tell which lengths they pass (`Call.Lengths`). If
claims are configured to be no longer than renewals, and the times of the claims and renewals of a
lease do not go back, then every lease in the queue is covered by what was logged for it
(`LeasesCovered`), and no renewal brings the end of a lease forward.

The configuration bounds the length of a claim from below only. A claim so long that its end
overflows leaves an entry that is free again at once (`claim_leases_iff`).
-/

set_option autoImplicit false

namespace Runvane.Scheduler

open Library Domain Persistence Prog Api
open CallProgram (Calls calls_of_meets)

/-! ### A single renewal -/

/-- The end of the lease on an entry of the queue. -/
def leaseOf (queue : KeyedMap QueueEntry.runId) (r : RunId) : Option ℤ :=
  (queue.get? r).bind QueueEntry.leaseUntilMs

/-- Every lease is still there and ends no earlier. -/
def NotShortened (before after : KeyedMap QueueEntry.runId) : Prop :=
  ∀ r old, leaseOf before r = some old → ∃ new, leaseOf after r = some new ∧ old ≤ new

/-- What a renewal that succeeds has done: the entry was held by the token, and its lease now ends
at the time that was computed. -/
def Renewed (before after : KeyedMap QueueEntry.runId) (r : RunId) (token : ClaimToken)
    (nowMs extendByMs : ℤ) : Prop :=
  ∃ entry old, before.get? r = some entry ∧ entry.token = token ∧ entry.leaseUntilMs = some old ∧
    nowMs < old ∧
    after = before.put { entry with leaseUntilMs := some (i64Add nowMs extendByMs) }

variable {s : MemoryStore} (run : Run) (d : WorkflowDef) (lib : JsonLibrary) {entry : QueueEntry}

section Single

variable {r : RunId} {token : ClaimToken} {nowMs extendByMs : ℤ}

theorem renewed_memory (h : (s.renewLease r token nowMs extendByMs).1 = .ok ()) :
    Renewed s.queue (s.renewLease r token nowMs extendByMs).2.queue r token nowMs extendByMs := by
  unfold MemoryStore.renewLease at h ⊢
  rcases s.asHolder_cases r (fun entry ↦ entry.token = token && entry.isLeased nowMs) fun entry ↦
      s.queue.put { entry with leaseUntilMs := some (i64Add nowMs extendByMs) } with
    ⟨e, heq⟩ | ⟨entry, hentry, hheld, heq⟩
  · rw [heq] at h
    cases h
  · rw [heq]
    obtain ⟨htoken, hleased⟩ := (Bool.and_eq_true _ _).mp hheld
    unfold QueueEntry.isLeased at hleased
    split at hleased
    · next old hold =>
      exact ⟨entry, old, hentry, of_decide_eq_true htoken, hold, by simpa using hleased, rfl⟩
    · cases hleased

/-- A renewal that does not succeed changes nothing. -/
theorem renewLease_eq_self_or (s : MemoryStore) (r : RunId) (token : ClaimToken)
    (nowMs extendByMs : ℤ) : (s.renewLease r token nowMs extendByMs).2 = s ∨
      (s.renewLease r token nowMs extendByMs).1 = .ok () := by
  unfold MemoryStore.renewLease
  rcases s.asHolder_cases r (fun entry ↦ entry.token = token && entry.isLeased nowMs) fun entry ↦
      s.queue.put { entry with leaseUntilMs := some (i64Add nowMs extendByMs) } with
    ⟨e, heq⟩ | ⟨entry, -, -, heq⟩
  · exact .inl (by rw [heq])
  · exact .inr (by rw [heq])

theorem renewed_sqlite {s : SqliteStore}
    (h : (s.renewLease r token nowMs extendByMs).1 = .ok ()) :
    Renewed s.queueEntries (s.renewLease r token nowMs extendByMs).2.queueEntries r token nowMs
      extendByMs := by
  unfold SqliteStore.renewLease SqliteStore.claimGuardOp at h ⊢
  dsimp only at h ⊢
  split_ifs at h with hcount
  have hkey : ∀ row : QueueEntry, Sql.and (Sql.and (SqliteStore.runIdIs r row)
      (SqliteStore.tokenIs token row)) (Sql.compares (fun expiry now ↦ expiry > now)
        row.leaseUntilMs (some nowMs)) = some true → row.runId = r := by
    intro row hrow
    exact SqliteStore.runId_of_and (Sql.and_eq_true.mp hrow).1
  obtain ⟨entry, hentry, hselected⟩ := SqliteStore.exists_row hkey hcount
  rw [Sql.update_of_key hkey hentry hselected]
  simp only [Sql.and_eq_true, Sql.compares_eq_true, Option.some.injEq] at hselected
  obtain ⟨⟨-, htoken⟩, old, now, hold, rfl, hlater⟩ := hselected
  exact ⟨entry, old, hentry, SqliteStore.tokenIs_eq_true.mp htoken, hold, by simpa using hlater,
    rfl⟩

theorem notShortened_iff_of_renewed {before after : KeyedMap QueueEntry.runId}
    (h : Renewed before after r token nowMs extendByMs)
    (hrange : LeaseOp.InRange nowMs extendByMs) :
    NotShortened before after ↔ ∀ old, leaseOf before r = some old → old ≤ nowMs + extendByMs := by
  obtain ⟨entry, lease, hentry, -, hlease, -, rfl⟩ := h
  have hid : entry.runId = r := KeyedMap.key_of_get? hentry
  have hafter : ∀ id, leaseOf (before.put { entry with
      leaseUntilMs := some (i64Add nowMs extendByMs) }) id =
      if r = id then some (nowMs + extendByMs) else leaseOf before id := by
    intro id
    unfold leaseOf
    rw [KeyedMap.get?_put, i64Add_of_mem hrange.2.1 hrange.2.2]
    dsimp only
    rw [hid]
    split_ifs <;> rfl
  constructor
  · intro hkept old hold
    obtain ⟨new, hnew, hle⟩ := hkept r old hold
    rw [hafter, if_pos rfl] at hnew
    obtain rfl := Option.some.inj hnew
    exact hle
  · intro hle id old hold
    rw [hafter]
    split_ifs with hsame
    · exact ⟨_, rfl, hle old (hsame ▸ hold)⟩
    · exact ⟨old, hold, le_rfl⟩

end Single

/-! ### The configuration -/

/-- The settings that are validated. -/
structure Config where
  httpPort : ℕ := 8080
  grpcPort : ℕ := 9090
  leaseMs : ℤ := 60000
  reapIntervalMs : ℤ := 5000
  retentionMs : Option ℕ := none

/-- Validates field ranges; the error is the text of a configuration error. -/
def Config.validate (cfg : Config) : Except String Unit :=
  if cfg.httpPort = 0 then .error "http_port must not be 0"
  else if cfg.grpcPort = 0 then .error "grpc_port must not be 0"
  else if cfg.leaseMs ≤ 0 then .error "lease_ms must be a positive duration"
  else if cfg.reapIntervalMs ≤ 0 then .error "reap_interval_ms must be a positive duration"
  else if cfg.retentionMs = some 0 then .error "retention_ms must be a positive duration"
  else .ok ()

theorem Config.leaseMs_pos {cfg : Config} (h : cfg.validate = .ok ()) : 0 < cfg.leaseMs := by
  unfold validate at h
  split_ifs at h with _ _ hlease
  omega

/-- Who works on the store of a service. -/
inductive Member
  | dispatcher
  | worker (ex : RunExecutor) (job : Job)
  | operator (runId : RunId)
  | submission (request : Submission) (uuid : List UInt8)
  | recovery

/-- A member with the settings of the service: its dispatcher takes batches of 128. -/
def Member.service (cfg : Config) : Member → Service
  | .dispatcher => .engine (.dispatcher ⟨128, cfg.leaseMs⟩)
  | .worker ex job => .engine (.worker ex job)
  | .operator runId => .engine (.operator runId)
  | .submission request uuid => .submission request uuid
  | .recovery => .recovery

def Member.program (cfg : Config) (lib : JsonLibrary) (member : Member) : Prog Empty Unit :=
  (member.service cfg).program lib

/-! ### The lengths that are passed -/

/-- Claims are made for one length and renewals for another, and entries are enqueued without a
lease. -/
def Call.Lengths (claimMs renewMs : ℤ) : Call → Prop
  | .store (.claim _ _ _ leaseMs) => leaseMs = claimMs
  | .store (.renewLease _ _ _ extendByMs) => extendByMs = renewMs
  | .store (.enqueue entry) => entry.leaseUntilMs = none
  | _ => True

section Lengths

variable {expected : (call : Call) → call.Answer → Prop} {claimMs : ℤ} {call : Call}

/-- An attempt renews for the length that it is given. -/
theorem AttemptCall.lengths {r : RunId} {token : Option ClaimToken} {leaseMs : ℤ}
    (h : AttemptCall expected r token leaseMs call) : call.Lengths claimMs leaseMs := by
  have hattempting := h.attempting
  cases call with
  | store call =>
    cases call with
    | claim | enqueue =>
      simp [Call.Attempting, Call.InWave, Call.Deciding, Call.OnRecords] at hattempting
    | renewLease id holder nowMs extendByMs =>
      rcases h with h | ⟨run, -, h | ⟨-, record, -, hcourse⟩⟩
      · cases h
      · cases h
      · rcases hcourse with ((hrecord | hwave) | (hrecord | hwrite) | h) | h | ⟨now, error, h⟩
        · exact hrecord.elim
        · exact hwave.2.2
        · exact hrecord.elim
        · exact hwrite.elim
        · cases h
        · cases h
        · cases h
    | _ => trivial
  | _ => trivial

/-- The lengths that the members of a service pass: claims last as long as is configured, and
renewals a minute. -/
theorem lengths_member (cfg : Config) (lib : JsonLibrary) (member : Member) :
    (member.program cfg lib).Calls (Call.Lengths cfg.leaseMs 60000) := by
  refine calls_of_meets (meets_service lib (member.service cfg)) fun call hcall ↦ ?_
  cases member with
  | worker ex job =>
    rcases hcall with hattempt | hcall
    · exact hattempt.lengths
    · cases call with
      | store call => cases call <;> first | exact hcall.elim | trivial
      | _ => trivial
  | operator | recovery => rcases hcall with rfl | ⟨now, rfl⟩ <;> trivial
  | dispatcher =>
    cases call with
    | store call => cases call <;> first | exact hcall | exact hcall.elim | trivial
    | _ => trivial
  | submission request uuid =>
    cases call with
    | store call => cases call <;> first | exact hcall.2 | exact hcall.elim | trivial
    | _ => trivial

end Lengths

/-! ### Where leases come from -/

theorem queue_asHolder {id r : RunId} {held : QueueEntry → Bool}
    {act : QueueEntry → KeyedMap QueueEntry.runId}
    (h : (s.asHolder id held act).2.queue.get? r = some entry) :
    s.queue.get? r = some entry ∨ ∃ found, s.queue.get? id = some found ∧
      held found = true ∧ (act found).get? r = some entry := by
  rcases s.asHolder_cases id held act with ⟨e, heq⟩ | ⟨found, hfound, hheld, heq⟩
  · rw [heq] at h
    exact .inl h
  · rw [heq] at h
    exact .inr ⟨found, hfound, hheld, h⟩

/-- An entry with a lease was there before, or has just been claimed or renewed, or enqueued so. -/
theorem lease_origin {order : IterationOrder QueueEntry} {call : StoreCall} {r : RunId}
    {lease : ℤ} (h : (call.apply order s).2.queue.get? r = some entry)
    (hlease : entry.leaseUntilMs = some lease) :
    s.queue.get? r = some entry ∨ call = .enqueue entry ∨ ∃ nowMs lengthMs,
      (call = .claim r entry.token nowMs lengthMs ∨
        call = .renewLease r entry.token nowMs lengthMs) ∧
      lease = i64Add nowMs lengthMs := by
  -- An entry that has just been put without a lease is not the one in question.
  have hput : ∀ {put : QueueEntry}, put.leaseUntilMs = none →
      (s.queue.put put).get? r = some entry → s.queue.get? r = some entry := by
    intro put hfree hget
    rw [KeyedMap.get?_put] at hget
    split_ifs at hget
    · rw [← Option.some.inj hget, hfree] at hlease
      cases hlease
    · exact hget
  cases call with
  | enqueue enqueued =>
    dsimp only [StoreCall.apply, MemoryStore.enqueue] at h
    cases hold : s.queue.get? enqueued.runId with
    | some _ =>
      rw [hold] at h
      exact .inl h
    | none =>
      rw [hold] at h
      dsimp only at h
      rw [KeyedMap.get?_put] at h
      split_ifs at h
      · exact .inr (.inl (congrArg _ (Option.some.inj h)))
      · exact .inl h
  | claim id token nowMs leaseMs =>
    dsimp only [StoreCall.apply] at h
    rcases s.claim_cases id token nowMs leaseMs with ⟨e, heq⟩ | ⟨found, hfound, heq⟩
    · rw [heq] at h
      exact .inl h
    · rw [heq] at h
      dsimp only at h
      rw [KeyedMap.get?_put] at h
      split_ifs at h with hid
      · obtain rfl := Option.some.inj h
        have hr : id = r := (KeyedMap.key_of_get? hfound).symm.trans hid
        refine .inr (.inr ⟨nowMs, leaseMs, .inl ?_, (Option.some.inj hlease).symm⟩)
        rw [hr]
        rfl
      · exact .inl h
  | ack id token =>
    rcases queue_asHolder h with hsame | ⟨found, -, -, hact⟩
    · exact .inl hsame
    · rw [KeyedMap.get?_erase] at hact
      split_ifs at hact
      exact .inl hact
  | release id token retryAtMs =>
    rcases queue_asHolder h with hsame | ⟨found, -, -, hact⟩
    · exact .inl hsame
    · exact .inl (hput rfl hact)
  | failclaim id token =>
    rcases queue_asHolder h with hsame | ⟨found, -, -, hact⟩
    · exact .inl hsame
    · exact .inl (hput rfl hact)
  | renewLease id token nowMs extendByMs =>
    rcases queue_asHolder h with hsame | ⟨found, hfound, hheld, hact⟩
    · exact .inl hsame
    · simp only [Bool.and_eq_true, decide_eq_true_eq] at hheld
      rw [KeyedMap.get?_put] at hact
      split_ifs at hact with hid
      · obtain rfl := Option.some.inj hact
        have hr : id = r := (KeyedMap.key_of_get? hfound).symm.trans hid
        refine .inr (.inr ⟨nowMs, extendByMs, .inr ?_, (Option.some.inj hlease).symm⟩)
        rw [hr, ← hheld.1]
      · exact .inl hact
  | cancelRun id nowMs =>
    dsimp only [StoreCall.apply] at h
    rcases s.cancelRun_cases id nowMs with ⟨-, heq⟩ | ⟨run, -, -, heq⟩
    · rw [heq] at h
      exact .inl h
    · rw [heq] at h
      dsimp only at h
      rw [KeyedMap.get?_erase] at h
      split_ifs at h
      exact .inl h
  | recoverExpiredLeases nowMs =>
    dsimp only [StoreCall.apply, MemoryStore.recoverExpiredLeases] at h
    rw [MemoryStore.get?_foldl_unleaseEntry] at h
    split_ifs at h
    · obtain ⟨found, -, rfl⟩ := Option.map_eq_some_iff.mp h
      cases hlease
    · exact .inl h
  | putWorkflow | getWorkflow | putRun | getRun | deleteRun | putTaskRun | getTaskRun
  | listTaskRunsForRun | scanReady | nextRunNumber => exact .inl h
  | updateWorkflowVersion tenant name d expectedVersion =>
    dsimp only [StoreCall.apply, MemoryStore.updateWorkflowVersion] at h
    cases hdef : s.defs[WorkflowKey.mk tenant name]? with
    | none =>
      rw [hdef] at h
      exact .inl h
    | some current =>
      rw [hdef] at h
      dsimp only at h
      split_ifs at h <;> exact .inl h

/-! ### Renewals in a service -/

def Call.leaseTime? (r : RunId) (token : ClaimToken) : Call → Option ℤ
  | .store (.claim id holder now _) => if id = r ∧ holder = token then some now else none
  | .store (.renewLease id holder now _) => if id = r ∧ holder = token then some now else none
  | _ => none

/-- Claims and renewals do not overflow, and a renewal is made at a time that is not before the
claims and renewals of this lease so far. -/
def InOrder (call : Call) (w : World) : Prop :=
  match call with
  | .store (.claim _ _ nowMs leaseMs) => LeaseOp.InRange nowMs leaseMs
  | .store (.renewLease r token nowMs extendByMs) => LeaseOp.InRange nowMs extendByMs ∧
      ∀ event ∈ w.log, ∀ t ∈ event.call.leaseTime? r token, t ≤ nowMs
  | _ => True

instance (nowMs lengthMs : ℤ) : Decidable (LeaseOp.InRange nowMs lengthMs) :=
  inferInstanceAs (Decidable (_ ∧ _ ∧ _))

instance (call : Call) (w : World) : Decidable (InOrder call w) := by
  unfold InOrder
  split <;> infer_instance

/-- Every lease ends at most a minute after a claim or a renewal that was logged for its token. -/
def LeasesCovered (w : World) : Prop :=
  ∀ r entry lease, w.store.queue.get? r = some entry → entry.leaseUntilMs = some lease →
    ∃ event ∈ w.log, ∃ t ∈ event.call.leaseTime? r entry.token, lease ≤ t + 60000

/-- No renewal that was logged has shortened a lease, and no entry has become one that the recovery
of expired leases would take earlier. -/
def RenewalsKept (w : World) : Prop :=
  ∀ event ∈ w.log, ∀ r token nowMs extendByMs,
    event.call = .store (.renewLease r token nowMs extendByMs) →
    NotShortened event.store.queue (event.store.renewLease r token nowMs extendByMs).2.queue ∧
    ∀ atMs entry, (event.store.renewLease r token nowMs extendByMs).2.queue.get? r = some entry →
      entry.isExpired atMs = true →
        ∃ old, event.store.queue.get? r = some old ∧ old.isExpired atMs = true

section Service

variable {env : Env} {w : World} {call : Call}

theorem leasesCovered_after {claimMs : ℤ} (hlengths : call.Lengths claimMs 60000)
    (hle : claimMs ≤ 60000) (horder : InOrder call w) (h : LeasesCovered w) :
    LeasesCovered (w.after env call) := by
  intro r entry lease hentry hlease
  have hlater : (∃ event ∈ w.log, ∃ t ∈ event.call.leaseTime? r entry.token, lease ≤ t + 60000) →
      ∃ event ∈ (w.after env call).log, ∃ t ∈ event.call.leaseTime? r entry.token,
        lease ≤ t + 60000 := by
    rintro ⟨event, hevent, hcovers⟩
    exact ⟨event, List.mem_append_left _ hevent, hcovers⟩
  have hnow : ∀ {t : ℤ}, call.leaseTime? r entry.token = some t → lease ≤ t + 60000 →
      ∃ event ∈ (w.after env call).log, ∃ t ∈ event.call.leaseTime? r entry.token,
        lease ≤ t + 60000 := by
    intro t ht hcovers
    exact ⟨_, List.mem_append_right _ (List.mem_singleton_self _), t, ht, hcovers⟩
  cases call with
  | store call =>
    rcases lease_origin hentry hlease with hold | rfl | ⟨nowMs, lengthMs, rfl | rfl, rfl⟩
    · exact hlater (h r entry lease hold hlease)
    · rw [show entry.leaseUntilMs = none from hlengths] at hlease
      cases hlease
    · obtain rfl : lengthMs = claimMs := hlengths
      have ht : Call.leaseTime? r entry.token
          (.store (.claim r entry.token nowMs lengthMs)) = some nowMs := if_pos ⟨rfl, rfl⟩
      refine hnow ht ?_
      rw [i64Add_of_mem horder.2.1 horder.2.2]
      omega
    · obtain rfl : lengthMs = 60000 := hlengths
      have ht : Call.leaseTime? r entry.token
          (.store (.renewLease r entry.token nowMs 60000)) = some nowMs := if_pos ⟨rfl, rfl⟩
      refine hnow ht ?_
      rw [i64Add_of_mem horder.1.2.1 horder.1.2.2]
  | nowMs | registryGet | execute | newToken | submit =>
    exact hlater (h r entry lease hentry hlease)

/-- A renewal in order does not shorten a lease that is covered. -/
theorem notShortened_of_covered {r : RunId} {token : ClaimToken} {nowMs : ℤ}
    (horder : InOrder (.store (.renewLease r token nowMs 60000)) w) (h : LeasesCovered w) :
    NotShortened w.store.queue (w.store.renewLease r token nowMs 60000).2.queue ∧
    ∀ atMs entry, (w.store.renewLease r token nowMs 60000).2.queue.get? r = some entry →
      entry.isExpired atMs = true →
        ∃ old, w.store.queue.get? r = some old ∧ old.isExpired atMs = true := by
  rcases renewLease_eq_self_or w.store r token nowMs 60000 with hself | hok
  · rw [hself]
    exact ⟨fun id old hold ↦ ⟨old, hold, le_rfl⟩, fun atMs entry hentry hexpired ↦
      ⟨entry, hentry, hexpired⟩⟩
  · have hrenewed := renewed_memory hok
    have hbound : ∀ old, leaseOf w.store.queue r = some old → old ≤ nowMs + 60000 := by
      intro old hold
      obtain ⟨entry, lease, hentry, htoken, hlease, -⟩ := hrenewed
      rw [leaseOf, hentry, Option.bind_some, hlease] at hold
      obtain rfl := Option.some.inj hold
      obtain ⟨event, hevent, t, ht, hle⟩ := h r entry lease hentry hlease
      have hin := horder.2 event hevent t (htoken ▸ ht)
      omega
    refine ⟨(notShortened_iff_of_renewed hrenewed horder.1).mpr hbound, ?_⟩
    intro atMs entry hentry hexpired
    obtain ⟨found, lease, hfound, -, hlease, -, hafter⟩ := hrenewed
    have hid : found.runId = r := KeyedMap.key_of_get? hfound
    rw [hafter, KeyedMap.get?_put, if_pos hid] at hentry
    obtain rfl := Option.some.inj hentry
    have hle := hbound lease (by rw [leaseOf, hfound, Option.bind_some, hlease])
    refine ⟨found, hfound, ?_⟩
    simp only [QueueEntry.isExpired, i64Add_of_mem horder.1.2.1 horder.1.2.2,
      decide_eq_true_eq] at hexpired
    simp only [QueueEntry.isExpired, hlease, decide_eq_true_eq]
    omega

theorem renewalsKept_after {claimMs : ℤ} (hlengths : call.Lengths claimMs 60000)
    (horder : InOrder call w) (hcovered : LeasesCovered w) (h : RenewalsKept w) :
    RenewalsKept (w.after env call) := by
  intro event hevent r token nowMs extendByMs hcall
  rcases List.mem_append.mp hevent with hold | hnew
  · exact h event hold r token nowMs extendByMs hcall
  · obtain rfl := List.mem_singleton.mp hnew
    obtain rfl : call = .store (.renewLease r token nowMs extendByMs) := hcall
    obtain rfl : extendByMs = 60000 := hlengths
    exact notShortened_of_covered horder hcovered

end Service

/-- The worlds of a service with a configuration, from a store on which nobody is at work. -/
def serviceWorlds (env : Env) (cfg : Config) (lib : JsonLibrary) (s : MemoryStore)
    (turns : List (Turn Member)) : List World :=
  System.states (serve env) (Member.program cfg lib) ⟨⟨s, []⟩, []⟩ turns

def dueStore : MemoryStore :=
  (((MemoryStore.new.putWorkflow sampleDef).2.putRun
    { id := sampleRun, tenant := "t", defName := "flow" }).2.enqueue (dueEntry sampleRun 0)).2

/-- The run is dispatched, and a worker gets as far as the first renewal of its lease. -/
def firstRenewal : List (Turn Member) :=
  .start .dispatcher :: List.replicate 8 (.call 0) ++
    .start (.worker plainExecutor ⟨sampleRun, ⟨"token"⟩⟩) :: List.replicate 6 (.call 1)

def noJson : JsonLibrary := ⟨fun _ ↦ "0", fun _ ↦ .ok .null, fun _ ↦ .ok []⟩

def claimedSqlite (leaseMs : ℤ) : SqliteStore :=
  ((SqliteStore.new.enqueue (dueEntry sampleRun 0)).2.claim sampleRun ⟨"token"⟩ 0 leaseMs).2

/-- The event is a renewal that makes the lease of its entry end earlier. -/
def Event.shortens (event : Event) : Bool :=
  match event.call with
  | .store (.renewLease r token nowMs extendByMs) =>
    (leaseOf event.store.queue r).any fun old ↦
      (leaseOf (event.store.renewLease r token nowMs extendByMs).2.queue r).all (· < old)
  | _ => false

theorem RenewalsKept.not_shortens {w : World} (h : RenewalsKept w) :
    w.log.any Event.shortens = false := by
  rw [List.any_eq_false]
  intro event hevent hshortens
  unfold Event.shortens at hshortens
  split at hshortens
  · next r token nowMs extendByMs hcall =>
    cases hold : leaseOf event.store.queue r with
    | none => simp [hold] at hshortens
    | some old =>
      obtain ⟨new, hnew, hle⟩ := (h event hevent r token nowMs extendByMs hcall).1 r old hold
      simp only [hold, hnew, Option.any_some, Option.all_some, decide_eq_true_eq] at hshortens
      omega
  · cases hshortens

/-- What a claim that succeeds has done: it has leased the entry from now on. -/
theorem leased_of_claim {r : RunId} {token : ClaimToken} {nowMs leaseMs : ℤ}
    (h : (s.claim r token nowMs leaseMs).1 = .ok ()) :
    ∃ entry : QueueEntry, (s.claim r token nowMs leaseMs).2.queue.get? r =
      some (entry.leased token (i64Add nowMs leaseMs)) := by
  rcases s.claim_cases r token nowMs leaseMs with ⟨e, heq⟩ | ⟨entry, hentry, heq⟩
  · rw [heq] at h
    cases h
  · rw [heq]
    have hid : entry.runId = r := KeyedMap.key_of_get? hentry
    exact ⟨entry, (KeyedMap.get?_put ..).trans (if_pos hid)⟩

theorem claim_of_leased {r : RunId} (hentry : s.queue.get? r = some entry) {nowMs : ℤ}
    (hleased : entry.isLeased nowMs = true) {other : ClaimToken} (hother : entry.token ≠ other)
    (leaseMs : ℤ) : (s.claim r other nowMs leaseMs).1 ≠ .ok () := by
  unfold MemoryStore.claim
  rw [hentry]
  simp [hleased, hother]

/-- With an accepted configuration, a claim that succeeds leaves its entry leased, and keeps out
every other token at the same time, exactly if the end of the lease does not overflow. -/
theorem claim_leases_iff (cfg : Config) (hcfg : cfg.validate = .ok ())
    (hlease : cfg.leaseMs ≤ i64Max) (s : MemoryStore) (r : RunId) (token : ClaimToken) (nowMs : ℤ)
    (hnow : 0 ≤ nowMs ∧ nowMs ≤ i64Max)
    (hclaimed : (s.claim r token nowMs cfg.leaseMs).1 = .ok ()) :
    (∃ entry, (s.claim r token nowMs cfg.leaseMs).2.queue.get? r = some entry ∧
        entry.isLeased nowMs = true ∧
        ∀ other, other ≠ token →
          ((s.claim r token nowMs cfg.leaseMs).2.claim r other nowMs cfg.leaseMs).1 ≠ .ok ()) ↔
      nowMs + cfg.leaseMs ≤ i64Max := by
  obtain ⟨entry, hentry⟩ := leased_of_claim hclaimed
  have hleased : (entry.leased token (i64Add nowMs cfg.leaseMs)).isLeased nowMs = true ↔
      nowMs + cfg.leaseMs ≤ i64Max := by
    rw [← lt_i64Add_iff hnow.1 (Config.leaseMs_pos hcfg) hnow.2 hlease]
    exact decide_eq_true_iff
  rw [← hleased]
  constructor
  · rintro ⟨found, hfound, hstill, -⟩
    obtain rfl := Option.some.inj (hentry.symm.trans hfound)
    exact hstill
  · intro hstill
    exact ⟨_, hentry, hstill, fun other hother ↦
      claim_of_leased hentry hstill (Ne.symm hother) cfg.leaseMs⟩

theorem claim_leases_minute :
    (dueStore.claim sampleRun ⟨"token"⟩ 10 60000).1 = .ok () ∧
    ∃ entry, (dueStore.claim sampleRun ⟨"token"⟩ 10 60000).2.queue.get? sampleRun = some entry ∧
      entry.isLeased 10 = true ∧ ∀ other, other ≠ ⟨"token"⟩ →
        ((dueStore.claim sampleRun ⟨"token"⟩ 10 60000).2.claim sampleRun other 10 60000).1 ≠
          .ok () := by
  have hclaimed : (dueStore.claim sampleRun ⟨"token"⟩ 10 60000).1 = .ok () := by decide
  exact ⟨hclaimed, (claim_leases_iff {} rfl (by decide) dueStore sampleRun ⟨"token"⟩ 10 (by decide)
    hclaimed).mpr (by decide)⟩

/-- The longest lease that can be configured runs out before it begins, and a second claim at the
same time is granted. -/
theorem longest_lease_expired :
    ({ leaseMs := 2 ^ 63 - 1 } : Config).validate = .ok () ∧
    (dueStore.claim sampleRun ⟨"token"⟩ 10 (2 ^ 63 - 1)).1 = .ok () ∧
    ((dueStore.claim sampleRun ⟨"token"⟩ 10 (2 ^ 63 - 1)).2.queue.get? sampleRun).map
      (·.isLeased 10) = some false ∧
    ((dueStore.claim sampleRun ⟨"token"⟩ 10 (2 ^ 63 - 1)).2.claim sampleRun ⟨"other"⟩ 10
      (2 ^ 63 - 1)).1 = .ok () := by
  decide

end Runvane.Scheduler
