import Runvane.Library.LeaseQueue
import Runvane.Persistence.Sqlite

/-!
# Leases are exclusive

Both stores implement the lease queue of `Library.LeaseQueue` (`MemoryStore.implements`,
`SqliteStore.implements`), although they guard a claim differently: the in-memory store lets a
claim take over a lease that has run out, the SQL store leaves such leases to the recovery. What
follows from it for every sequence of calls is `LeaseExclusive`: a claim is granted only when no
other holder has standing left, a superseded holder is refused and changes nothing, and of several
claims on a free entry one is granted (`stores_leaseExclusive`).
-/

set_option autoImplicit false

namespace Runvane.Persistence

open Library Domain

/-! ### Calls on leases -/

/-- A call of the store that concerns leases. -/
inductive LeaseOp
  | enqueue (entry : QueueEntry)
  | claim (runId : RunId) (token : ClaimToken) (nowMs leaseMs : ℤ)
  | ack (runId : RunId) (token : ClaimToken)
  | release (runId : RunId) (token : ClaimToken) (retryAtMs : ℤ)
  | failclaim (runId : RunId) (token : ClaimToken)
  | renewLease (runId : RunId) (token : ClaimToken) (nowMs extendByMs : ℤ)
  | recoverExpiredLeases (nowMs : ℤ)
  | cancelRun (runId : RunId) (nowMs : ℤ)

namespace LeaseOp

def act : LeaseOp → LeaseAct RunId ClaimToken
  | enqueue entry => .enqueue entry.runId
  | claim runId token nowMs leaseMs => .claim runId token nowMs (nowMs + leaseMs)
  | ack runId token => .remove runId token
  | release runId token _ | failclaim runId token => .clear runId token
  | renewLease runId token nowMs extendByMs => .renew runId token nowMs (nowMs + extendByMs)
  | recoverExpiredLeases nowMs => .recover nowMs
  | cancelRun runId nowMs => .cancel runId nowMs

/-- A length of time that is positive and does not overflow from `nowMs`. -/
def InRange (nowMs lengthMs : ℤ) : Prop :=
  0 < lengthMs ∧ i64Min ≤ nowMs + lengthMs ∧ nowMs + lengthMs ≤ i64Max

/-- Entries are enqueued free, claims carry a token, and leases have a positive length. -/
def Valid : LeaseOp → Prop
  | enqueue entry => entry.token = .empty ∧ entry.leaseUntilMs = none
  | claim _ token nowMs leaseMs => token ≠ .empty ∧ InRange nowMs leaseMs
  | renewLease _ _ nowMs extendByMs => InRange nowMs extendByMs
  | _ => True

def claimToken : LeaseOp → Option ClaimToken
  | claim _ token _ _ => some token
  | _ => none

end LeaseOp

/-- A sequence of calls as the engine makes them: valid ones, in the order of time, and no token
in two claims. -/
structure Disciplined (ops : List LeaseOp) : Prop where
  valid : ∀ op ∈ ops, op.Valid
  times : (ops.filterMap fun op ↦ op.act.time).Pairwise (· ≤ ·)
  tokens : (ops.filterMap LeaseOp.claimToken).Nodup

/-- The answer of a method without a value, next to the one of `cancelRun`. -/
def succeeded {α σ : Type} (result : Except StorageError α × σ) : Except StorageError Bool × σ :=
  (result.1.map fun _ ↦ true, result.2)

def MemoryStore.perform (s : MemoryStore) : LeaseOp → Except StorageError Bool × MemoryStore
  | .enqueue entry => succeeded (s.enqueue entry)
  | .claim runId token nowMs leaseMs => succeeded (s.claim runId token nowMs leaseMs)
  | .ack runId token => succeeded (s.ack runId token)
  | .release runId token retryAtMs => succeeded (s.release runId token retryAtMs)
  | .failclaim runId token => succeeded (s.failclaim runId token)
  | .renewLease runId token nowMs extendByMs =>
    succeeded (s.renewLease runId token nowMs extendByMs)
  | .recoverExpiredLeases nowMs => succeeded (s.recoverExpiredLeases nowMs)
  | .cancelRun runId nowMs => s.cancelRun runId nowMs

/-- A call on the SQL store. -/
def SqliteStore.perform (s : SqliteStore) : LeaseOp → Except StorageError Bool × SqliteStore
  | .enqueue entry => succeeded (s.enqueue entry)
  | .claim runId token nowMs leaseMs => succeeded (s.claim runId token nowMs leaseMs)
  | .ack runId token => succeeded (s.ack runId token)
  | .release runId token retryAtMs => succeeded (s.release runId token retryAtMs)
  | .failclaim runId token => succeeded (s.failclaim runId token)
  | .renewLease runId token nowMs extendByMs =>
    succeeded (s.renewLease runId token nowMs extendByMs)
  | .recoverExpiredLeases nowMs => succeeded (s.recoverExpiredLeases nowMs)
  | .cancelRun runId nowMs => s.cancelRun runId nowMs

def QueueEntry.slot (entry : QueueEntry) : LeaseSlot ClaimToken :=
  ⟨entry.token, entry.leaseUntilMs⟩

/-- The entries of a table as far as leases are concerned. -/
def slotsOf (queue : KeyedMap QueueEntry.runId) : LeaseView RunId ClaimToken :=
  fun runId ↦ (queue.get? runId).map QueueEntry.slot

def MemoryStore.slots (s : MemoryStore) : LeaseView RunId ClaimToken := slotsOf s.queue

def SqliteStore.slots (s : SqliteStore) : LeaseView RunId ClaimToken := slotsOf s.queueEntries

/-! ### Histories of calls -/

/-- A call with its answer, and the store before and after it. -/
structure LeaseEvent (σ : Type) where
  before : σ
  op : LeaseOp
  answer : Except StorageError Bool
  after : σ

def LeaseEvent.view {σ : Type} (e : LeaseEvent σ) : LeaseAct RunId ClaimToken × Bool :=
  (e.op.act, e.answer = .ok true)

section History

variable {σ : Type} (perform : σ → LeaseOp → Except StorageError Bool × σ)
  (slots : σ → LeaseView RunId ClaimToken)

/-- A sequence of calls, each on the store the one before it left. -/
inductive LeaseTrace : σ → List (LeaseEvent σ) → σ → Prop
  | nil {s : σ} : LeaseTrace s [] s
  | cons {e : LeaseEvent σ} {events : List (LeaseEvent σ)} {s' : σ}
      (h : perform e.before e.op = (e.answer, e.after)) (hrest : LeaseTrace e.after events s') :
      LeaseTrace e.before (e :: events) s'

/-- The exclusiveness of leases, over all sequences of calls. -/
structure LeaseExclusive : Prop where
  /-- A claim is granted only if every token that was granted the entry before has given it back,
  had it removed by a cancellation, or has no time left on its latest lease. A lease that the
  recovery took has no time left. -/
  claim_excludes {s s' : σ} {past between future : List (LeaseEvent σ)} {e₁ e₂ : LeaseEvent σ}
    {r : RunId} {t₁ t₂ : ClaimToken} {now₁ lease₁ now₂ lease₂ : ℤ}
    (htrace : LeaseTrace perform s (past ++ e₁ :: (between ++ e₂ :: future)) s')
    (hops : Disciplined ((past ++ e₁ :: (between ++ e₂ :: future)).map LeaseEvent.op))
    (h₁ : e₁.op = .claim r t₁ now₁ lease₁) (hgranted₁ : e₁.answer = .ok true)
    (h₂ : e₂.op = .claim r t₂ now₂ lease₂) (hgranted₂ : e₂.answer = .ok true) :
    (∃ e ∈ between, e.answer = .ok true ∧ e.op.act.Ends r t₁) ∨
      ∃ leaseEnd, (leaseEnds r t₁ ((e₁ :: between).map LeaseEvent.view)).getLast? = some leaseEnd ∧
        leaseEnd ≤ now₂
  /-- After another claim was granted, a holder from before is answered with an error, and changes
  nothing. -/
  stale_refused {s s' : σ} {past between future : List (LeaseEvent σ)} {e₁ e₂ : LeaseEvent σ}
    {r : RunId} {t₁ t₂ : ClaimToken} {now₁ lease₁ now₂ lease₂ : ℤ}
    (htrace : LeaseTrace perform s (past ++ e₁ :: (between ++ e₂ :: future)) s')
    (hops : Disciplined ((past ++ e₁ :: (between ++ e₂ :: future)).map LeaseEvent.op))
    (h₁ : e₁.op = .claim r t₁ now₁ lease₁) (hgranted₁ : e₁.answer = .ok true)
    (h₂ : e₂.op = .claim r t₂ now₂ lease₂) (hgranted₂ : e₂.answer = .ok true) :
    ∀ e ∈ future, e.op.act.ByHolder r t₁ → (∃ error, e.answer = .error error) ∧ e.after = e.before
  /-- Of the claims of different tokens, made at one time on an entry without a lease, one is
  granted. -/
  one_wins {s s' : σ} {events : List (LeaseEvent σ)} {r : RunId} {now : ℤ}
    {claims : List (ClaimToken × ℤ)} (htrace : LeaseTrace perform s events s')
    (hevents : events.map LeaseEvent.op = claims.map fun claim ↦ .claim r claim.1 now claim.2)
    (hslot : ∃ slot, slots s r = some slot ∧ slot.leaseEnd = none) (hne : claims ≠ [])
    (hops : Disciplined (events.map LeaseEvent.op)) :
    (events.filter (·.answer = .ok true)).length = 1

/-- What a store that implements the lease queue makes of a call. -/
inductive Performed (s : σ) (op : LeaseOp) : Except StorageError Bool × σ → Prop
  | granted (s' : σ) (h : op.act.Allows .empty (slots s) True (slots s')) :
      Performed s op (.ok true, s')
  | refused (error : StorageError) (h : op.act.Allows .empty (slots s) False (slots s)) :
      Performed s op (.error error, s)
  | terminal (runId : RunId) (nowMs : ℤ) (h : op = .cancelRun runId nowMs) :
      Performed s op (.ok false, s)

/-- The store implements the lease queue. -/
def Implements : Prop := ∀ s op, op.Valid → Performed slots s op (perform s op)

end History

variable {op : LeaseOp} {token : ClaimToken} {nowMs : ℤ}

section Exclusive

variable {σ : Type} {perform : σ → LeaseOp → Except StorageError Bool × σ}
  {slots : σ → LeaseView RunId ClaimToken} {s s' : σ} {events : List (LeaseEvent σ)}

theorem Performed.allows {result : Except StorageError Bool × σ} (h : Performed slots s op result) :
    op.act.Allows .empty (slots s) (result.1 = .ok true) (slots result.2) := by
  cases h with
  | granted s' h => simpa using h
  | refused error h => simpa using h
  | terminal runId nowMs h => simp [h, LeaseOp.act, LeaseAct.Allows]

theorem LeaseTrace.uncons {e : LeaseEvent σ} (h : LeaseTrace perform s (e :: events) s') :
    s = e.before ∧ perform e.before e.op = (e.answer, e.after) ∧
      LeaseTrace perform e.after events s' := by
  cases h with
  | cons hperform hrest => exact ⟨rfl, hperform, hrest⟩

theorem LeaseTrace.append {first second : List (LeaseEvent σ)}
    (h : LeaseTrace perform s (first ++ second) s') :
    ∃ s₁, LeaseTrace perform s first s₁ ∧ LeaseTrace perform s₁ second s' := by
  induction first generalizing s with
  | nil => exact ⟨s, .nil, h⟩
  | cons e first ih =>
    obtain ⟨rfl, hperform, hrest⟩ := h.uncons
    obtain ⟨s₁, hfirst, hsecond⟩ := ih hrest
    exact ⟨s₁, .cons hperform hfirst, hsecond⟩

/-- A call on a store that implements the lease queue is one of its actions. -/
theorem Implements.allows (himpl : Implements perform slots) {e : LeaseEvent σ}
    (hperform : perform e.before e.op = (e.answer, e.after)) (hvalid : e.op.Valid) :
    e.op.act.Allows .empty (slots e.before) (e.answer = .ok true) (slots e.after) := by
  have hallows := (himpl e.before e.op hvalid).allows
  rwa [hperform] at hallows

/-- A sequence of calls on a store that implements the lease queue is a run of it. -/
theorem Implements.leaseRun (himpl : Implements perform slots)
    (h : LeaseTrace perform s events s') (hvalid : ∀ op ∈ events.map LeaseEvent.op, op.Valid) :
    LeaseRun .empty (slots s) (events.map LeaseEvent.view) (slots s') := by
  induction h with
  | nil => exact .nil
  | cons hperform hrest ih =>
    obtain ⟨hvalid, hrestValid⟩ := List.forall_mem_cons.mp hvalid
    refine .cons ?_ (ih hrestValid)
    simpa [LeaseEvent.view] using himpl.allows hperform hvalid

/-- No later call claims with the token of a claim. -/
theorem Disciplined.not_claims {first later : List LeaseOp} {t : ClaimToken}
    (h : Disciplined (first ++ op :: later)) (hop : op.claimToken = some t) (r : RunId) :
    ∀ op' ∈ later, ¬ op'.act.Claims r t := by
  intro op' hop' hclaims
  have htokens := h.tokens
  rw [List.filterMap_append, List.filterMap_cons_some hop] at htokens
  refine (List.nodup_cons.mp (List.nodup_append.mp htokens).2.1).1 ?_
  refine List.mem_filterMap.mpr ⟨op', hop', ?_⟩
  cases op' with
  | claim runId token nowMs leaseMs => exact congrArg some hclaims.2
  | _ => exact hclaims.elim

theorem times_view (events : List (LeaseEvent σ)) :
    (events.map LeaseEvent.view).filterMap (fun event ↦ event.1.time) =
      (events.map LeaseEvent.op).filterMap fun op ↦ op.act.time := by
  rw [List.filterMap_map, List.filterMap_map]
  rfl

section TwoClaims

/- Two claims of one entry with different tokens, in a sequence of calls. -/
variable {past between future : List (LeaseEvent σ)} {e₁ e₂ : LeaseEvent σ} {r : RunId}
  {t₁ t₂ : ClaimToken} {now₁ lease₁ now₂ lease₂ : ℤ}
  (hops : Disciplined ((past ++ e₁ :: (between ++ e₂ :: future)).map LeaseEvent.op))
  (h₁ : e₁.op = .claim r t₁ now₁ lease₁) (h₂ : e₂.op = .claim r t₂ now₂ lease₂)

include hops h₁

theorem Disciplined.not_claims_after :
    ∀ e ∈ between ++ e₂ :: future, ¬ e.op.act.Claims r t₁ := by
  intro e he
  rw [List.map_append, List.map_cons] at hops
  exact hops.not_claims (by rw [h₁]; rfl) r e.op (List.mem_map_of_mem he)

theorem Disciplined.token_ne_empty : t₁ ≠ .empty := by
  have hvalid : e₁.op.Valid := hops.valid e₁.op (by simp)
  rw [h₁] at hvalid
  exact hvalid.1

include h₂ in
theorem Disciplined.token_ne : t₁ ≠ t₂ := by
  rintro rfl
  refine hops.not_claims_after h₁ e₂ (by simp) ?_
  rw [h₂]
  exact ⟨rfl, rfl⟩

include h₂ in
/-- The token of the first claim, once it was granted, has its standing until the second one. -/
theorem Implements.standing (himpl : Implements perform slots)
    (hgrant : perform e₁.before e₁.op = (e₁.answer, e₁.after)) (hgranted : e₁.answer = .ok true)
    (hbetween : LeaseTrace perform e₁.after between e₂.before) :
    ∃ now ≤ now₂, Standing r t₁ ((e₁ :: between).map LeaseEvent.view) (slots e₂.before) now := by
  have hallows := himpl.allows hgrant (hops.valid e₁.op (by simp))
  rw [h₁, hgranted, eq_self] at hallows
  have hview : e₁.view = (.claim r t₁ now₁ (now₁ + lease₁), true) := by
    simp [LeaseEvent.view, h₁, hgranted, LeaseOp.act]
  have htimes : (now₁ :: (between.map LeaseEvent.view ++
      (e₂ :: future).map LeaseEvent.view).filterMap fun event ↦ event.1.time).Pairwise
        (· ≤ ·) := by
    have h := hops.times
    rw [List.map_append, List.map_cons, List.filterMap_append,
      List.filterMap_cons_some (b := now₁) (by rw [h₁]; rfl)] at h
    rw [← List.map_append, times_view]
    exact (List.pairwise_append.mp h).2.1
  obtain ⟨now, hstanding, hnow⟩ := (standing_of_granted hallows).run
    (hops.token_ne_empty h₁)
    (himpl.leaseRun hbetween fun op hop ↦ hops.valid op (by simp_all)) (by
      intro event hevent
      obtain ⟨e, he, rfl⟩ := List.mem_map.mp hevent
      exact hops.not_claims_after h₁ e (List.mem_append_left _ he)) htimes
  refine ⟨now, ?_, by rwa [List.map_cons, hview]⟩
  rw [times_view, List.map_cons, List.filterMap_cons_some (b := now₂) (by rw [h₂]; rfl)] at hnow
  exact (List.pairwise_cons.mp hnow).1 now₂ (by simp)

end TwoClaims

/-- Leases are exclusive on every store that implements the lease queue. -/
theorem Implements.leaseExclusive (himpl : Implements perform slots) :
    LeaseExclusive perform slots where
  claim_excludes := by
    intro s s' past between future e₁ e₂ r t₁ t₂ now₁ lease₁ now₂ lease₂ htrace hops h₁ hgranted₁
      h₂ hgranted₂
    obtain ⟨s₁, -, htail⟩ := htrace.append
    obtain ⟨rfl, hgrant, hrest⟩ := htail.uncons
    obtain ⟨s₂, hbetween, hlast⟩ := hrest.append
    obtain ⟨rfl, hgrant₂, -⟩ := hlast.uncons
    obtain ⟨now, hnow, hstanding⟩ := himpl.standing hops h₁ h₂ hgrant hgranted₁ hbetween
    have hallows := himpl.allows hgrant₂ (hops.valid e₂.op (by simp))
    rw [h₂, hgranted₂, eq_self] at hallows
    refine (hstanding.superseded hallows (hops.token_ne h₁ h₂) hnow).imp_left ?_
    rintro ⟨event, hevent, hgranted, hends⟩
    obtain ⟨e, he, rfl⟩ := List.mem_map.mp hevent
    rcases List.mem_cons.mp he with rfl | he
    · simp [LeaseEvent.view, h₁, LeaseOp.act, LeaseAct.Ends] at hends
    · exact ⟨e, he, by simpa [LeaseEvent.view] using hgranted, hends⟩
  stale_refused := by
    intro s s' past between future e₁ e₂ r t₁ t₂ now₁ lease₁ now₂ lease₂ htrace hops h₁ hgranted₁
      h₂ hgranted₂ e he hholder
    obtain ⟨s₁, -, htail⟩ := htrace.append
    obtain ⟨rfl, -, hrest⟩ := htail.uncons
    obtain ⟨s₂, -, hlast⟩ := hrest.append
    obtain ⟨rfl, hgrant₂, hfuture⟩ := hlast.uncons
    obtain ⟨earlier, later, rfl⟩ := List.append_of_mem he
    obtain ⟨s₃, hearlier, hlater⟩ := hfuture.append
    obtain ⟨rfl, hperform, -⟩ := hlater.uncons
    -- once its claim is granted, the entry is the later token's
    have hlost : Lost r t₁ (slots e₂.after) := by
      have hallows := himpl.allows hgrant₂ (hops.valid e₂.op (by simp))
      rw [h₂] at hallows
      intro slot hslot
      rw [(hallows.1 hgranted₂).2, Function.update_self] at hslot
      obtain rfl := Option.some.inj hslot
      exact (hops.token_ne h₁ h₂).symm
    have hlost' : Lost r t₁ (slots e.before) := by
      refine hlost.run (hops.token_ne_empty h₁)
        (himpl.leaseRun hearlier fun op hop ↦ hops.valid op (by simp_all)) ?_
      intro event hevent
      obtain ⟨e', he', rfl⟩ := List.mem_map.mp hevent
      exact hops.not_claims_after h₁ e' (by simp [he'])
    have hvalid := hops.valid e.op (by simp)
    have hrefused := hlost'.refused hholder (himpl.allows hperform hvalid)
    have hresult := himpl e.before e.op hvalid
    rw [hperform] at hresult
    obtain ⟨before, op, answer, after⟩ := e
    cases hresult with
    | granted => exact absurd rfl hrefused
    | refused error => exact ⟨⟨error, rfl⟩, rfl⟩
    | terminal runId nowMs hop =>
      obtain rfl : op = _ := hop
      exact hholder.elim
  one_wins := by
    intro s s' events r now claims htrace hevents hslot hne hops
    have hacts : (events.map LeaseEvent.view).map Prod.fst =
        (claims.map fun claim ↦ (claim.1, now + claim.2)).map fun claim ↦
          LeaseAct.claim r claim.1 now claim.2 := by
      calc (events.map LeaseEvent.view).map Prod.fst
          = (events.map LeaseEvent.op).map LeaseOp.act := by
            simp [LeaseEvent.view, Function.comp_def]
        _ = _ := by
            simp [hevents, LeaseOp.act, Function.comp_def]
    have htokens := hops.tokens
    rw [hevents, List.filterMap_map] at htokens
    have hone := one_claim_granted (himpl.leaseRun htrace hops.valid) hacts hslot
      (by simpa using hne) (by simpa [Function.comp_def, LeaseOp.claimToken] using htokens) ?_
    · rw [← hone, List.filter_map, List.length_map]
      simp [LeaseEvent.view, Function.comp_def]
    · intro claim hclaim
      obtain ⟨claim, hmem, rfl⟩ := List.mem_map.mp hclaim
      have hvalid : (LeaseOp.claim r claim.1 now claim.2).Valid :=
        hops.valid _ (hevents ▸ List.mem_map_of_mem hmem)
      exact lt_add_of_pos_right now hvalid.2.1

end Exclusive

/-! ### The two stores -/

section Stores

variable {queue : KeyedMap QueueEntry.runId} {r : RunId} {entry : QueueEntry}

theorem slotsOf_put : slotsOf (queue.put entry) =
    Function.update (slotsOf queue) entry.runId (some entry.slot) := by
  funext r
  simp only [slotsOf, KeyedMap.get?_put, Function.update_apply, eq_comm (a := r)]
  split_ifs <;> rfl

theorem slotsOf_erase : slotsOf (queue.erase r) = Function.update (slotsOf queue) r none := by
  funext r'
  simp only [slotsOf, KeyedMap.get?_erase, Function.update_apply, eq_comm (a := r')]
  split_ifs <;> rfl

theorem slotsOf_eq_some (h : queue.get? r = some entry) : slotsOf queue r = some entry.slot := by
  simp [slotsOf, h]

theorem QueueEntry.running_iff {now : ℤ} :
    entry.slot.Running now ↔ entry.isLeased now = true := by
  unfold LeaseSlot.Running QueueEntry.slot QueueEntry.isLeased
  cases entry.leaseUntilMs <;> simp

theorem QueueEntry.isExpired_iff {now : ℤ} : entry.isExpired now = true ↔
    ∃ leaseEnd, entry.leaseUntilMs = some leaseEnd ∧ leaseEnd ≤ now := by
  unfold QueueEntry.isExpired
  cases entry.leaseUntilMs <;> simp

namespace MemoryStore

variable {s : MemoryStore}

theorem get?_unleaseEntry (id r : RunId) : (unleaseEntry queue id).get? r =
    if id = r then (queue.get? r).map QueueEntry.unleased else queue.get? r := by
  unfold unleaseEntry
  cases hentry : queue.get? id with
  | none =>
    split_ifs with h
    · rw [← h, hentry]
      rfl
    · rfl
  | some entry =>
    have hid : entry.runId = id := KeyedMap.key_of_get? hentry
    rw [KeyedMap.get?_put, show entry.unleased.runId = id from hid]
    split_ifs with h
    · rw [← h, hentry]
      rfl
    · rfl

theorem get?_foldl_unleaseEntry (ids : List RunId) (queue : KeyedMap QueueEntry.runId) (r : RunId) :
    (ids.foldl unleaseEntry queue).get? r =
      if r ∈ ids then (queue.get? r).map QueueEntry.unleased else queue.get? r := by
  induction ids generalizing queue with
  | nil => rfl
  | cons id ids ih =>
    rw [List.foldl_cons, ih, get?_unleaseEntry]
    by_cases hid : id = r
    · subst hid
      cases queue.get? id <;> simp [QueueEntry.unleased]
    · simp [hid, Ne.symm hid]

/-- The methods of a lease holder: the action is granted to the holder, and refused otherwise. -/
theorem asHolder_performed {held : QueueEntry → Bool}
    {act : QueueEntry → KeyedMap QueueEntry.runId}
    (hgranted : ∀ entry, s.queue.get? r = some entry → held entry = true →
      op.act.Allows .empty s.slots True (slotsOf (act entry)))
    (hrefused : op.act.Allows .empty s.slots False s.slots) :
    Performed slots s op (succeeded (s.asHolder r held act)) := by
  rcases s.asHolder_cases r held act with ⟨e, heq⟩ | ⟨entry, hentry, hheld, heq⟩
  · rw [heq]
    exact .refused _ hrefused
  · rw [heq]
    exact .granted { s with queue := act entry } (hgranted entry hentry hheld)

theorem enqueue_performed (hvalid : (LeaseOp.enqueue entry).Valid) :
    Performed slots s (.enqueue entry) (succeeded (s.enqueue entry)) := by
  unfold enqueue
  cases hentry : s.queue.get? entry.runId with
  | some _ =>
    refine .refused _ ?_
    exact ⟨False.elim, fun _ ↦ rfl⟩
  | none =>
    refine .granted _ ?_
    refine ⟨fun _ ↦ ⟨by simp [slots, slotsOf, hentry], ?_⟩, by simp⟩
    rw [slots, slotsOf_put, QueueEntry.slot, hvalid.1, hvalid.2]
    rfl

theorem claim_performed {leaseMs : ℤ} (hvalid : (LeaseOp.claim r token nowMs leaseMs).Valid) :
    Performed slots s (.claim r token nowMs leaseMs)
      (succeeded (s.claim r token nowMs leaseMs)) := by
  unfold claim
  cases hentry : s.queue.get? r with
  | none =>
    refine .refused _ ?_
    exact ⟨False.elim, fun _ ↦ ⟨by simp [slots, slotsOf, hentry], rfl⟩⟩
  | some entry =>
    have hslot : s.slots r = some entry.slot := slotsOf_eq_some hentry
    have hrefused : entry.isLeased nowMs = true →
        (LeaseOp.claim r token nowMs leaseMs).act.Allows .empty s.slots False s.slots := by
      refine fun hleased ↦ ⟨False.elim, fun _ ↦ ⟨fun slot hslot' ↦ ?_, rfl⟩⟩
      obtain ⟨leaseEnd, hleaseEnd, -⟩ := QueueEntry.running_iff.mpr hleased
      obtain rfl := Option.some.inj (hslot.symm.trans hslot')
      simp [hleaseEnd]
    dsimp only
    split_ifs with hother hempty
    · exact .refused _ (hrefused (by simp_all))
    · exact .refused _ (hrefused (by simp_all))
    · refine .granted _ ?_
      refine ⟨fun _ ↦ ⟨⟨entry.slot, hslot, fun hrunning ↦ ?_⟩, ?_⟩, by simp⟩
      · by_contra hne
        have hne : entry.token ≠ token := hne
        exact hother (by simp [QueueEntry.running_iff.mp hrunning, hne])
      · have hid : entry.runId = r := KeyedMap.key_of_get? hentry
        rw [slots, slotsOf_put, i64Add_of_mem hvalid.2.2.1 hvalid.2.2.2]
        exact hid ▸ rfl

theorem recoverExpiredLeases_performed :
    Performed slots s (.recoverExpiredLeases nowMs)
      (succeeded (s.recoverExpiredLeases nowMs)) := by
  refine .granted _ ?_
  intro r
  simp only [slots, slotsOf, recoverExpiredLeases, get?_foldl_unleaseEntry]
  split_ifs with hexpired
  · obtain ⟨entry, hentry, rfl⟩ := List.mem_map.mp hexpired
    obtain ⟨hmem, hexpired⟩ := List.mem_filter.mp hentry
    obtain ⟨leaseEnd, hleaseEnd, hle⟩ := QueueEntry.isExpired_iff.mp hexpired
    have hentry := KeyedMap.mem_values.mp hmem
    exact .inr ⟨entry.slot, leaseEnd, by rw [hentry]; rfl, hleaseEnd, hle, by rw [hentry]; rfl⟩
  · exact .inl rfl

theorem cancelRun_performed : Performed slots s (.cancelRun r nowMs) (s.cancelRun r nowMs) := by
  unfold cancelRun
  cases s.runs.get? r with
  | none =>
    refine .refused _ ?_
    exact ⟨False.elim, fun _ ↦ rfl⟩
  | some run =>
    dsimp only
    split_ifs
    · exact .terminal r nowMs rfl
    · refine .granted _ ?_
      exact ⟨fun _ ↦ slotsOf_erase, by simp⟩

/-- The in-memory store implements the lease queue. -/
theorem implements : Implements perform slots := by
  intro s op hvalid
  cases op with
  | enqueue entry => exact enqueue_performed hvalid
  | claim r token nowMs leaseMs => exact claim_performed hvalid
  | ack r token =>
    refine asHolder_performed (fun entry hentry hheld ↦ ?_) ⟨False.elim, fun _ ↦ rfl⟩
    exact ⟨fun _ ↦ ⟨⟨entry.slot, slotsOf_eq_some hentry, of_decide_eq_true hheld⟩, slotsOf_erase⟩,
      by simp⟩
  | release r token retryAtMs =>
    refine asHolder_performed (fun entry hentry hheld ↦ ?_) ⟨False.elim, fun _ ↦ rfl⟩
    have hid : entry.runId = r := KeyedMap.key_of_get? hentry
    refine ⟨fun _ ↦ ⟨⟨entry.slot, slotsOf_eq_some hentry, of_decide_eq_true hheld⟩, ?_⟩, by simp⟩
    exact slotsOf_put.trans (hid ▸ rfl)
  | failclaim r token =>
    refine asHolder_performed (fun entry hentry hheld ↦ ?_) ⟨False.elim, fun _ ↦ rfl⟩
    have hid : entry.runId = r := KeyedMap.key_of_get? hentry
    refine ⟨fun _ ↦ ⟨⟨entry.slot, slotsOf_eq_some hentry, of_decide_eq_true hheld⟩, ?_⟩, by simp⟩
    exact slotsOf_put.trans (hid ▸ rfl)
  | renewLease r token nowMs extendByMs =>
    refine asHolder_performed (fun entry hentry hheld ↦ ?_) ⟨False.elim, fun _ ↦ rfl⟩
    have hid : entry.runId = r := KeyedMap.key_of_get? hentry
    simp only [Bool.and_eq_true, decide_eq_true_eq] at hheld
    obtain ⟨htoken, hleased⟩ := hheld
    refine ⟨fun _ ↦ ⟨⟨entry.slot, slotsOf_eq_some hentry, htoken,
      QueueEntry.running_iff.mpr hleased⟩, ?_⟩, by simp⟩
    rw [slotsOf_put, i64Add_of_mem hvalid.2.1 hvalid.2.2, ← htoken, ← hid]
    rfl
  | recoverExpiredLeases nowMs => exact recoverExpiredLeases_performed
  | cancelRun r nowMs => exact cancelRun_performed

end MemoryStore

namespace SqliteStore

variable {s : SqliteStore} {cond : QueueEntry → Sql.Truth}

@[simp] theorem runIdIs_eq_true : runIdIs r entry = some true ↔ entry.runId = r := by
  simp [runIdIs]

@[simp] theorem tokenIs_eq_true {token : ClaimToken} :
    tokenIs token entry = some true ↔ entry.token = token := by
  simp [tokenIs]

theorem runId_of_and {p : Sql.Truth} (h : Sql.and (runIdIs r entry) p = some true) :
    entry.runId = r :=
  runIdIs_eq_true.mp (Sql.and_eq_true.mp h).1

/-- A statement on the entry of one run, when it acts on a row at all. -/
theorem exists_row (hcond : ∀ row, cond row = some true → row.runId = r)
    (hcount : Sql.count queue cond ≠ 0) :
    ∃ row, queue.get? r = some row ∧ cond row = some true := by
  by_contra hnone
  refine hcount ((Sql.count_eq_zero_of_key hcond).mpr fun row hrow hselected ↦ ?_)
  exact hnone ⟨row, hrow, hselected⟩

theorem slotsOf_update {set : QueueEntry → QueueEntry} {slot : LeaseSlot ClaimToken}
    {hset : ∀ row, (set row).runId = row.runId}
    (hcond : ∀ row, cond row = some true → row.runId = r)
    (hslot : ∀ row, cond row = some true → (set row).slot = slot)
    (hcount : Sql.count queue cond ≠ 0) :
    slotsOf (Sql.update queue cond set hset).2 = Function.update (slotsOf queue) r (some slot) := by
  obtain ⟨row, hrow, hselected⟩ := exists_row hcond hcount
  rw [Sql.update_of_key hcond hrow hselected, slotsOf_put, hset, hcond row hselected,
    hslot row hselected]

theorem slotsOf_delete (hcond : ∀ row, cond row = some true → row.runId = r)
    (hrow : ∀ row, queue.get? r = some row → cond row = some true) :
    slotsOf (Sql.delete queue cond).2 = Function.update (slotsOf queue) r none := by
  rw [Sql.delete_of_key hcond hrow, slotsOf_erase]

/-- The guarded statements: no row is a refusal. -/
theorem claimGuardOp_performed {executed : ℕ × KeyedMap QueueEntry.runId}
    (hkept : executed.1 = 0 → executed.2 = s.queueEntries)
    (hgranted : executed.1 ≠ 0 → op.act.Allows .empty s.slots True (slotsOf executed.2))
    (hrefused : executed.1 = 0 → op.act.Allows .empty s.slots False s.slots) :
    Performed slots s op (succeeded (s.claimGuardOp r executed)) := by
  unfold claimGuardOp
  split_ifs with hzero
  · rw [hkept hzero]
    exact .refused _ (hrefused hzero)
  · exact .granted { s with queueEntries := executed.2 } (hgranted hzero)

theorem enqueue_performed (hvalid : (LeaseOp.enqueue entry).Valid) :
    Performed slots s (.enqueue entry) (succeeded (s.enqueue entry)) := by
  unfold enqueue Sql.insert
  cases hentry : s.queueEntries.get? entry.runId with
  | some _ =>
    refine .refused _ ?_
    exact ⟨False.elim, fun _ ↦ rfl⟩
  | none =>
    refine .granted _ ?_
    refine ⟨fun _ ↦ ⟨by simp [slots, slotsOf, hentry], ?_⟩, by simp⟩
    rw [slots, slotsOf_put, QueueEntry.slot, hvalid.1, hvalid.2]
    rfl

theorem claim_performed {leaseMs : ℤ} (hvalid : (LeaseOp.claim r token nowMs leaseMs).Valid) :
    Performed slots s (.claim r token nowMs leaseMs)
      (succeeded (s.claim r token nowMs leaseMs)) := by
  refine claimGuardOp_performed Sql.update_eq_self (fun hcount ↦ ?_) fun hcount ↦ ?_
  · obtain ⟨row, hrow, hselected⟩ := exists_row (fun _ ↦ runId_of_and) hcount
    refine ⟨fun _ ↦ ⟨⟨row.slot, slotsOf_eq_some hrow, ?_⟩, ?_⟩, by simp⟩
    · rintro ⟨leaseEnd, hleaseEnd, -⟩
      have hleased : row.leaseUntilMs = some leaseEnd := hleaseEnd
      show row.token = token
      simpa [Sql.isNull, hleased] using (Sql.and_eq_true.mp hselected).2
    · refine slotsOf_update (fun _ ↦ runId_of_and) (fun row _ ↦ ?_) hcount
      rw [i64Add_of_mem hvalid.2.2.1 hvalid.2.2.2]
      rfl
  · refine ⟨False.elim, fun _ ↦ ⟨fun slot hslot hfree ↦ ?_, rfl⟩⟩
    obtain ⟨row, hrow, rfl⟩ := Option.map_eq_some_iff.mp hslot
    have hfree : row.leaseUntilMs = none := hfree
    refine Sql.count_eq_zero.mp hcount hrow ?_
    simp [Sql.isNull, hfree, show row.runId = r from KeyedMap.key_of_get? hrow]

/-- The statements that only the holder's token selects a row for. -/
theorem exists_held
    (hcount : Sql.count queue (fun row ↦ Sql.and (runIdIs r row) (tokenIs token row)) ≠ 0) :
    ∃ slot, slotsOf queue r = some slot ∧ slot.token = token := by
  obtain ⟨row, hrow, hselected⟩ := exists_row (fun _ ↦ runId_of_and) hcount
  exact ⟨row.slot, slotsOf_eq_some hrow, tokenIs_eq_true.mp (Sql.and_eq_true.mp hselected).2⟩

theorem renewLease_performed {extendByMs : ℤ}
    (hvalid : (LeaseOp.renewLease r token nowMs extendByMs).Valid) :
    Performed slots s (.renewLease r token nowMs extendByMs)
      (succeeded (s.renewLease r token nowMs extendByMs)) := by
  refine claimGuardOp_performed Sql.update_eq_self (fun hcount ↦ ?_) fun _ ↦
    ⟨False.elim, fun _ ↦ rfl⟩
  have hcond : ∀ row, Sql.and (Sql.and (runIdIs r row) (tokenIs token row))
      (Sql.compares (fun expiry now ↦ expiry > now) row.leaseUntilMs (some nowMs)) = some true →
        row.runId = r := fun row h ↦ runId_of_and (Sql.and_eq_true.mp h).1
  obtain ⟨row, hrow, hselected⟩ := exists_row hcond hcount
  simp only [Sql.and_eq_true, runIdIs_eq_true, tokenIs_eq_true, Sql.compares_eq_true] at hselected
  obtain ⟨⟨-, htoken⟩, leaseEnd, now, hleaseEnd, hnow, hlt⟩ := hselected
  obtain rfl := Option.some.inj hnow
  refine ⟨fun _ ↦ ⟨⟨row.slot, slotsOf_eq_some hrow, htoken, leaseEnd,
    hleaseEnd, by simpa using hlt⟩,
    slotsOf_update hcond (fun row hrow ↦ ?_) hcount⟩, by simp⟩
  simp only [Sql.and_eq_true, tokenIs_eq_true] at hrow
  rw [QueueEntry.slot, i64Add_of_mem hvalid.2.1 hvalid.2.2, hrow.1.2]

theorem recoverExpiredLeases_performed :
    Performed slots s (.recoverExpiredLeases nowMs)
      (succeeded (s.recoverExpiredLeases nowMs)) := by
  refine .granted _ ?_
  intro r
  simp only [slots, slotsOf, recoverExpiredLeases]
  rw [Sql.get?_update]
  cases hrow : s.queueEntries.get? r with
  | none => exact .inl rfl
  | some row =>
    rw [Option.map_some]
    split_ifs with hexpired
    · simp only [Sql.and_eq_true, Sql.compares_eq_true, decide_eq_true_eq] at hexpired
      obtain ⟨-, leaseEnd, now, hleaseEnd, hnow, hle⟩ := hexpired
      obtain rfl := Option.some.inj hnow
      exact .inr ⟨row.slot, leaseEnd, rfl, hleaseEnd, hle, rfl⟩
    · exact .inl rfl

theorem cancelRun_performed : Performed slots s (.cancelRun r nowMs) (s.cancelRun r nowMs) := by
  unfold cancelRun
  cases (s.runs.get? r).map RunRow.document with
  | none =>
    refine .refused _ ?_
    exact ⟨False.elim, fun _ ↦ rfl⟩
  | some run =>
    dsimp only
    split_ifs
    · exact .terminal r nowMs rfl
    · refine .granted _ ?_
      refine ⟨fun _ ↦ slotsOf_delete (by simp) fun row hrow ↦ ?_, by simp⟩
      exact runIdIs_eq_true.mpr (KeyedMap.key_of_get? hrow)

/-- The SQL store implements the lease queue. -/
theorem implements : Implements perform slots := by
  intro s op hvalid
  cases op with
  | enqueue entry => exact enqueue_performed hvalid
  | claim r token nowMs leaseMs => exact claim_performed hvalid
  | ack r token =>
    refine claimGuardOp_performed Sql.delete_eq_self (fun hcount ↦ ?_) fun _ ↦
      ⟨False.elim, fun _ ↦ rfl⟩
    refine ⟨fun _ ↦ ⟨exists_held hcount, slotsOf_delete (fun _ ↦ runId_of_and) fun row hrow ↦ ?_⟩,
      by simp⟩
    obtain ⟨row', hrow', hselected⟩ := exists_row (fun _ ↦ runId_of_and) hcount
    exact Option.some.inj (hrow'.symm.trans hrow) ▸ hselected
  | release r token retryAtMs =>
    refine claimGuardOp_performed Sql.update_eq_self (fun hcount ↦ ?_) fun _ ↦
      ⟨False.elim, fun _ ↦ rfl⟩
    exact ⟨fun _ ↦ ⟨exists_held hcount, slotsOf_update (fun _ ↦ runId_of_and)
      (fun _ _ ↦ rfl) hcount⟩,
      by simp⟩
  | failclaim r token =>
    refine claimGuardOp_performed Sql.update_eq_self (fun hcount ↦ ?_) fun _ ↦
      ⟨False.elim, fun _ ↦ rfl⟩
    exact ⟨fun _ ↦ ⟨exists_held hcount, slotsOf_update (fun _ ↦ runId_of_and)
      (fun _ _ ↦ rfl) hcount⟩,
      by simp⟩
  | renewLease r token nowMs extendByMs => exact renewLease_performed hvalid
  | recoverExpiredLeases nowMs => exact recoverExpiredLeases_performed
  | cancelRun r nowMs => exact cancelRun_performed

end SqliteStore

end Stores

/-- Leases are exclusive on both stores. -/
theorem stores_leaseExclusive :
    LeaseExclusive MemoryStore.perform MemoryStore.slots ∧
      LeaseExclusive SqliteStore.perform SqliteStore.slots :=
  ⟨MemoryStore.implements.leaseExclusive, SqliteStore.implements.leaseExclusive⟩

end Runvane.Persistence
