import Runvane.Persistence.Lease

/-!
# Two backends of one queue

The queue of the in-memory store and the one of the SQL store, call by call. Both are made for the
same engine, and every method answers alike on equal queues and leaves equal queues behind, with one
exception. A claim on a lease that has run out is granted by the in-memory store and refused by the
SQL store, unless it is made with the token of this lease; and a claim with the empty token on an
entry that is leased to the empty token is refused by the first and granted by the second
(`backends_disagree`).

So two stores that started empty agree along a sequence of calls exactly when no claim of the
sequence comes in one of these two situations (`queues_agree_iff`).
-/

set_option autoImplicit false

namespace Runvane.Persistence

open Library Domain

/-! ### Agreement -/

inductive QueueCall
  | change (op : LeaseOp)
  | scanReady (nowMs : ℤ) (limit : ℕ)

/-- With a limit that cuts nothing off, both scans return the same entries by the time they are due,
whatever the order in which the stores yield them. -/
def SameScan (mem : MemoryStore) (sql : SqliteStore) (nowMs : ℤ) (limit : ℕ) : Prop :=
  (mem.queue.values.filter (·.isReady nowMs)).length ≤ limit → limit < 2 ^ 64 →
    ∀ order order', ∃ first second, mem.scanReady order nowMs limit = .ok first ∧
      sql.scanReady order' nowMs limit = .ok second ∧ first.Perm second ∧
        first.Pairwise (·.dueAtMs ≤ ·.dueAtMs) ∧ second.Pairwise (·.dueAtMs ≤ ·.dueAtMs)

/-- Along a sequence of calls, both stores agree on success and failure, on the entries after each
call, and on what is scanned. -/
def Agree (mem : MemoryStore) (sql : SqliteStore) : List QueueCall → Prop
  | [] => True
  | .change op :: calls =>
    ((mem.perform op).1.isOk = (sql.perform op).1.isOk ∧
      (mem.perform op).2.queue = (sql.perform op).2.queueEntries) ∧
    Agree (mem.perform op).2 (sql.perform op).2 calls
  | .scanReady nowMs limit :: calls => SameScan mem sql nowMs limit ∧ Agree mem sql calls

/-- A claim does not come on a lease of another token that has run out, and not with the empty token
on an entry that is leased to it. -/
def LeaseOp.Clear (queue : KeyedMap QueueEntry.runId) : LeaseOp → Prop
  | .claim runId token nowMs _ => ∀ entry, queue.get? runId = some entry →
      (entry.isExpired nowMs = true → entry.token = token) ∧
        (entry.isLeased nowMs = true → ¬ (entry.token = .empty ∧ token = .empty))
  | _ => True

def AllClear (mem : MemoryStore) : List QueueCall → Prop
  | [] => True
  | .change op :: calls => op.Clear mem.queue ∧ AllClear (mem.perform op).2 calls
  | .scanReady .. :: calls => AllClear mem calls

/-! ### Single calls -/

/-- Two stores with the same queue and the same runs. -/
structure Matched (mem : MemoryStore) (sql : SqliteStore) : Prop where
  queue : mem.queue = sql.queueEntries
  runs : ∀ id, mem.runs.get? id = (sql.runs.get? id).map RunRow.document

/-- Two answers with the same success, and stores that match. -/
def Alike {α β : Type} (first : Except StorageError α × MemoryStore)
    (second : Except StorageError β × SqliteStore) : Prop :=
  first.1.isOk = second.1.isOk ∧ Matched first.2 second.2

variable {held : QueueEntry → Bool} {entry : QueueEntry}

section Calls

variable {mem : MemoryStore} {sql : SqliteStore} {r : RunId} {cond : QueueEntry → Sql.Truth}
  {α β : Type}

theorem isOk_succeeded {σ : Type} (result : Except StorageError α × σ) :
    (succeeded result).1.isOk = result.1.isOk := by
  obtain ⟨answer, s⟩ := result
  cases answer <;> rfl

theorem alike_succeeded {first : Except StorageError α × MemoryStore}
    {second : Except StorageError β × SqliteStore} (h : Alike first second) :
    Alike (succeeded first) (succeeded second) :=
  ⟨(isOk_succeeded first).trans (h.1.trans (isOk_succeeded second).symm), h.2⟩

theorem Matched.withQueue (h : Matched mem sql) (queue : KeyedMap QueueEntry.runId) :
    Matched { mem with queue := queue } { sql with queueEntries := queue } :=
  ⟨rfl, h.runs⟩

/-- A method of a lease holder, and a guarded statement that acts on the entry under the same
condition and with the same effect. -/
theorem alike_asHolder (h : Matched mem sql) {act : QueueEntry → KeyedMap QueueEntry.runId}
    {executed : ℕ × KeyedMap QueueEntry.runId}
    (hcount : executed.1 = 0 ↔ ∀ entry, mem.queue.get? r = some entry → held entry ≠ true)
    (hkept : executed.1 = 0 → executed.2 = sql.queueEntries)
    (hdone : ∀ entry, mem.queue.get? r = some entry → held entry = true → executed.2 = act entry) :
    Alike (mem.asHolder r held act) (sql.claimGuardOp r executed) := by
  unfold MemoryStore.asHolder SqliteStore.claimGuardOp
  cases hentry : mem.queue.get? r with
  | none =>
    have hzero : executed.1 = 0 := hcount.mpr (by simp [hentry])
    rw [if_pos hzero, hkept hzero]
    exact ⟨rfl, h⟩
  | some entry =>
    dsimp only
    split_ifs with hheld hzero hzero
    · rw [hkept hzero]
      exact ⟨rfl, h⟩
    · refine absurd (hcount.mpr fun other hother ↦ ?_) hzero
      obtain rfl := Option.some.inj (hentry.symm.trans hother)
      simpa using hheld
    · exact absurd (hcount.mp hzero entry hentry) (by simpa using hheld)
    · rw [← hdone entry hentry (by simpa using hheld)]
      exact ⟨rfl, h.withQueue _⟩

theorem alike_update (h : Matched mem sql) {set : QueueEntry → QueueEntry}
    {hset : ∀ row, (set row).runId = row.runId}
    (hkey : ∀ row, cond row = some true → row.runId = r)
    (hcond : ∀ entry, mem.queue.get? r = some entry →
      (cond entry = some true ↔ held entry = true)) :
    Alike (mem.asHolder r held fun entry ↦ mem.queue.put (set entry))
      (sql.claimGuardOp r (Sql.update sql.queueEntries cond set hset)) := by
  refine alike_asHolder h ?_ Sql.update_eq_self fun entry hentry hheld ↦ ?_
  · rw [← h.queue]
    refine (Sql.count_eq_zero_of_key hkey).trans (forall₂_congr fun entry hentry ↦ ?_)
    rw [Ne, hcond entry hentry]
  · have hselected := (hcond entry hentry).mpr hheld
    rw [h.queue] at hentry ⊢
    exact Sql.update_of_key hkey hentry hselected

theorem alike_ack (h : Matched mem sql) (token : ClaimToken) :
    Alike (mem.ack r token) (sql.ack r token) := by
  have hkey (row : QueueEntry) (hrow : Sql.and (SqliteStore.runIdIs r row)
      (SqliteStore.tokenIs token row) = some true) : row.runId = r := SqliteStore.runId_of_and hrow
  refine alike_asHolder h ?_ Sql.delete_eq_self fun entry hentry hheld ↦ ?_
  · rw [h.queue]
    refine (Sql.count_eq_zero_of_key hkey).trans (forall₂_congr fun entry hentry ↦ ?_)
    simp [show entry.runId = r from KeyedMap.key_of_get? hentry]
  · rw [h.queue] at hentry ⊢
    refine Sql.delete_of_key hkey fun row hrow ↦ ?_
    obtain rfl : entry = row := Option.some.inj (hentry.symm.trans hrow)
    have hid : entry.runId = r := KeyedMap.key_of_get? hentry
    simpa [hid] using hheld

theorem alike_enqueue (h : Matched mem sql) (entry : QueueEntry) :
    Alike (mem.enqueue entry) (sql.enqueue entry) := by
  unfold MemoryStore.enqueue SqliteStore.enqueue Sql.insert
  rw [← h.queue]
  cases hentry : mem.queue.get? entry.runId with
  | some _ => exact ⟨rfl, h⟩
  | none => exact ⟨rfl, h.withQueue _⟩

theorem alike_recoverExpiredLeases (h : Matched mem sql) (nowMs : ℤ) :
    Alike (mem.recoverExpiredLeases nowMs) (sql.recoverExpiredLeases nowMs) := by
  refine ⟨rfl, KeyedMap.ext_get? fun r ↦ ?_, h.runs⟩
  simp only [MemoryStore.recoverExpiredLeases, SqliteStore.recoverExpiredLeases,
    MemoryStore.get?_foldl_unleaseEntry, ← h.queue]
  rw [Sql.get?_update]
  cases hentry : mem.queue.get? r with
  | none => simp
  | some entry =>
    have hid : entry.runId = r := KeyedMap.key_of_get? hentry
    have hmem : r ∈ (mem.queue.values.filter (·.isExpired nowMs)).map QueueEntry.runId ↔
        entry.isExpired nowMs = true := by
      constructor
      · intro hr
        obtain ⟨other, hother, rfl⟩ := List.mem_map.mp hr
        obtain ⟨hother, hexpired⟩ := List.mem_filter.mp hother
        obtain rfl := Option.some.inj (hentry.symm.trans (KeyedMap.mem_values.mp hother))
        exact hexpired
      · intro hexpired
        refine List.mem_map.mpr ⟨entry, List.mem_filter.mpr ⟨?_, hexpired⟩, hid⟩
        rw [KeyedMap.mem_values]
        exact hid ▸ hentry
    have hcond : Sql.and (Sql.isNotNull entry.leaseUntilMs) (Sql.compares
        (fun expiry now ↦ decide (expiry ≤ now)) entry.leaseUntilMs (some nowMs)) = some true ↔
          entry.isExpired nowMs = true := by
      rw [QueueEntry.isExpired_iff]
      cases entry.leaseUntilMs <;> simp [Sql.isNotNull]
    simp only [hmem, hcond, Option.map_some]
    split_ifs <;> rfl

theorem alike_cancelRun (h : Matched mem sql) (nowMs : ℤ) :
    Alike (mem.cancelRun r nowMs) (sql.cancelRun r nowMs) := by
  unfold MemoryStore.cancelRun SqliteStore.cancelRun
  rw [← h.runs]
  cases hrun : mem.runs.get? r with
  | none => exact ⟨rfl, h⟩
  | some run =>
    have hid : run.id = r := KeyedMap.key_of_get? hrun
    dsimp only
    split_ifs
    · exact ⟨rfl, h⟩
    · refine ⟨rfl, ?_, fun id ↦ ?_⟩
      · rw [KeyedMap.erase_eq_filter, h.queue]
        simp [Sql.delete]
      · rw [KeyedMap.get?_put, Sql.get?_update, Option.map_map]
        have hstored := h.runs id
        split_ifs with hk
        · obtain ⟨row, hrow, -⟩ := Option.map_eq_some_iff.mp ((h.runs r).symm.trans hrun)
          have hrowId : row.id = r := KeyedMap.key_of_get? hrow
          rw [← hk, hid, hrow]
          simp [hrowId]
        · rw [hstored]
          cases hrow : sql.runs.get? id with
          | none => rfl
          | some row =>
            have hrowId : row.id ≠ r := by
              rw [show row.id = id from KeyedMap.key_of_get? hrow]
              exact fun heq ↦ hk (hid.trans heq.symm)
            simp [hrowId]

/-- The condition under which the in-memory store grants a claim. -/
def grants (token : ClaimToken) (nowMs : ℤ) (entry : QueueEntry) : Bool :=
  !(entry.isLeased nowMs && entry.token != token) &&
    !(entry.token.text.isEmpty && token.text.isEmpty && entry.isLeased nowMs)

theorem claim_eq_asHolder (token : ClaimToken) (nowMs leaseMs : ℤ) :
    mem.claim r token nowMs leaseMs = mem.asHolder r (grants token nowMs) fun entry ↦
      mem.queue.put (entry.leased token (i64Add nowMs leaseMs)) := by
  unfold MemoryStore.claim MemoryStore.asHolder grants
  cases mem.queue.get? r with
  | none => rfl
  | some entry =>
    dsimp only
    cases entry.isLeased nowMs <;> split_ifs <;> simp_all

/-- Where they decide alike on claims: one that is clear is granted by both or by none. -/
theorem selects_iff_grants {token : ClaimToken} {nowMs leaseMs : ℤ}
    (hentry : mem.queue.get? r = some entry) :
    (LeaseOp.claim r token nowMs leaseMs).Clear mem.queue ↔
      (Sql.and (SqliteStore.runIdIs r entry) (Sql.or (Sql.isNull entry.leaseUntilMs)
        (SqliteStore.tokenIs token entry)) = some true ↔ grants token nowMs entry = true) := by
  have hid : entry.runId = r := KeyedMap.key_of_get? hentry
  have hempty (t : ClaimToken) : t.text.isEmpty = true ↔ t = .empty := by
    obtain ⟨text⟩ := t
    simp [ClaimToken.empty]
  simp only [LeaseOp.Clear, hentry, Option.some.injEq, forall_eq', Sql.and_eq_true, Sql.or_eq_true,
    SqliteStore.runIdIs_eq_true, SqliteStore.tokenIs_eq_true, hid, true_and, grants,
    Bool.and_eq_true,
    Bool.not_eq_true', ← Bool.not_eq_true, hempty, bne_iff_ne]
  unfold QueueEntry.isExpired QueueEntry.isLeased
  cases entry.leaseUntilMs with
  | none => simp [Sql.isNull]
  | some expiry =>
    simp only [Sql.isNull, Option.isNone_some, decide_eq_true_eq]
    by_cases hleased : nowMs < expiry
    · have hexpired : ¬ expiry ≤ nowMs := not_le.mpr hleased
      simp only [hleased, hexpired]
      grind
    · have hexpired : expiry ≤ nowMs := not_lt.mp hleased
      simp only [hleased, hexpired]
      grind

theorem isOk_asHolder {act : QueueEntry → KeyedMap QueueEntry.runId}
    (hentry : mem.queue.get? r = some entry) : (mem.asHolder r held act).1.isOk = held entry := by
  unfold MemoryStore.asHolder
  rw [hentry]
  dsimp only
  cases held entry <;> rfl

theorem isOk_claim {token : ClaimToken} {nowMs leaseMs : ℤ}
    (hentry : sql.queueEntries.get? r = some entry) :
    (sql.claim r token nowMs leaseMs).1.isOk = true ↔ Sql.and (SqliteStore.runIdIs r entry)
      (Sql.or (Sql.isNull entry.leaseUntilMs) (SqliteStore.tokenIs token entry)) = some true := by
  have hcount : Sql.count sql.queueEntries (fun row ↦ Sql.and (SqliteStore.runIdIs r row)
      (Sql.or (Sql.isNull row.leaseUntilMs) (SqliteStore.tokenIs token row))) = 0 ↔ _ :=
    Sql.count_eq_zero_of_key fun _ ↦ SqliteStore.runId_of_and
  simp only [hentry, Option.some.injEq, forall_eq'] at hcount
  unfold SqliteStore.claim SqliteStore.claimGuardOp Sql.update
  split_ifs with hzero
  · exact iff_of_false Bool.false_ne_true (hcount.mp hzero)
  · exact iff_of_true rfl (not_not.mp (mt hcount.mpr hzero))

/-- A claim on which the stores agree is clear. -/
theorem clear_of_isOk_eq (h : Matched mem sql) {op : LeaseOp}
    (hok : (mem.perform op).1.isOk = (sql.perform op).1.isOk) : op.Clear mem.queue := by
  cases op with
  | claim r token nowMs leaseMs =>
    cases hentry : mem.queue.get? r with
    | none => simp [LeaseOp.Clear, hentry]
    | some entry =>
      have hmem : (mem.perform (.claim r token nowMs leaseMs)).1.isOk =
          grants token nowMs entry := by
        refine (isOk_succeeded _).trans ?_
        rw [claim_eq_asHolder]
        exact isOk_asHolder hentry
      have hsql : (sql.perform (.claim r token nowMs leaseMs)).1.isOk =
          (sql.claim r token nowMs leaseMs).1.isOk := isOk_succeeded _
      rw [selects_iff_grants hentry, ← isOk_claim (h.queue ▸ hentry), ← hsql, ← hok, hmem]
  | _ => trivial

/-- Both stores make the same of every call that is clear. -/
theorem alike_perform (h : Matched mem sql) {op : LeaseOp} (hclear : op.Clear mem.queue) :
    Alike (mem.perform op) (sql.perform op) := by
  cases op with
  | claim r token nowMs leaseMs =>
    refine alike_succeeded ?_
    rw [claim_eq_asHolder]
    exact alike_update h (fun _ ↦ SqliteStore.runId_of_and) fun entry hentry ↦
      (selects_iff_grants hentry).mp hclear
  | enqueue entry => exact alike_succeeded (alike_enqueue h entry)
  | ack r token => exact alike_succeeded (alike_ack h token)
  | release r token retryAtMs =>
    refine alike_succeeded (alike_update h (fun _ ↦ SqliteStore.runId_of_and) fun entry hentry ↦ ?_)
    simp [show entry.runId = r from KeyedMap.key_of_get? hentry]
  | failclaim r token =>
    refine alike_succeeded (alike_update h (fun _ ↦ SqliteStore.runId_of_and) fun entry hentry ↦ ?_)
    simp [show entry.runId = r from KeyedMap.key_of_get? hentry]
  | renewLease r token nowMs extendByMs =>
    refine alike_succeeded (alike_update h
      (fun row hrow ↦ SqliteStore.runId_of_and (Sql.and_eq_true.mp hrow).1) fun entry hentry ↦ ?_)
    have hid : entry.runId = r := KeyedMap.key_of_get? hentry
    unfold QueueEntry.isLeased
    cases entry.leaseUntilMs <;> simp [hid]
  | recoverExpiredLeases nowMs => exact alike_succeeded (alike_recoverExpiredLeases h nowMs)
  | cancelRun r nowMs => exact alike_cancelRun h nowMs

theorem limit_of_le {rows : List QueueEntry} {n : ℕ} (hn : rows.length ≤ n) (hsize : n < 2 ^ 64) :
    Sql.limit (i64OfU64 n) rows = rows := by
  unfold Sql.limit
  split_ifs with hneg
  · rfl
  · refine List.take_of_length_le (hn.trans ?_)
    unfold i64OfU64 at hneg ⊢
    rw [Int.bmod_def] at hneg ⊢
    split_ifs at hneg ⊢ <;> omega

theorem sameScan (h : Matched mem sql) (nowMs : ℤ) (limit : ℕ) : SameScan mem sql nowMs limit := by
  intro hlimit hsize order order'
  have hready (entry : QueueEntry) : decide (Sql.and
      (Sql.compares (fun due now ↦ decide (due ≤ now)) (some entry.dueAtMs) (some nowMs))
      (Sql.or (Sql.isNull entry.leaseUntilMs) (Sql.compares (fun expiry now ↦ decide (expiry ≤ now))
        entry.leaseUntilMs (some nowMs))) = some true) = entry.isReady nowMs := by
    unfold QueueEntry.isReady QueueEntry.isLeased
    cases entry.leaseUntilMs with
    | none => simp [Sql.isNull]
    | some expiry => simp [Sql.isNull, ← decide_not]
  have hfirst : (((order.arrange mem.queue.values).filter (·.isReady nowMs)).insertionSort
      (·.dueAtMs ≤ ·.dueAtMs)).Perm (mem.queue.values.filter (·.isReady nowMs)) :=
    (List.perm_insertionSort ..).trans ((order.perm _).filter _)
  have hsecond : ((order'.arrange (mem.queue.values.filter (·.isReady nowMs))).insertionSort
      (·.dueAtMs ≤ ·.dueAtMs)).Perm (mem.queue.values.filter (·.isReady nowMs)) :=
    (List.perm_insertionSort ..).trans (order'.perm _)
  refine ⟨_, _, congrArg Except.ok (List.take_of_length_le (hfirst.length_eq.trans_le hlimit)), ?_,
    hfirst.trans hsecond.symm, List.pairwise_insertionSort .., List.pairwise_insertionSort ..⟩
  unfold SqliteStore.scanReady Sql.select
  rw [← h.queue]
  simp only [hready]
  rw [limit_of_le (hsecond.length_eq.trans_le hlimit) hsize]

end Calls

/-! ### Sequences of calls -/

theorem agree_iff {mem : MemoryStore} {sql : SqliteStore} (h : Matched mem sql)
    (calls : List QueueCall) : Agree mem sql calls ↔ AllClear mem calls := by
  induction calls generalizing mem sql with
  | nil => rfl
  | cons call calls ih =>
    cases call with
    | scanReady nowMs limit => exact (and_iff_right (sameScan h nowMs limit)).trans (ih h)
    | change op =>
      constructor
      · rintro ⟨⟨hok, -⟩, hrest⟩
        have hclear := clear_of_isOk_eq h hok
        exact ⟨hclear, (ih (alike_perform h hclear).2).mp hrest⟩
      · rintro ⟨hclear, hrest⟩
        obtain ⟨hok, hmatched⟩ := alike_perform h hclear
        exact ⟨⟨hok, hmatched.queue⟩, (ih hmatched).mpr hrest⟩

/-- Two stores that start empty agree along a sequence of calls exactly if every claim of the
sequence is clear. -/
theorem queues_agree_iff (calls : List QueueCall) :
    Agree .new .new calls ↔ AllClear .new calls :=
  agree_iff ⟨rfl, fun id ↦ by simp [MemoryStore.new, SqliteStore.new]⟩ calls

/-- An entry is claimed for ten milliseconds, and claimed by another token after twenty; or it is
claimed twice with the empty token. -/
theorem backends_disagree :
    ¬ Agree .new .new [.change (.enqueue ⟨⟨"run_1"⟩, .empty, 0, none, none⟩),
      .change (.claim ⟨"run_1"⟩ ⟨"first"⟩ 0 10), .change (.claim ⟨"run_1"⟩ ⟨"second"⟩ 20 10)] ∧
    ¬ Agree .new .new [.change (.enqueue ⟨⟨"run_1"⟩, .empty, 0, none, none⟩),
      .change (.claim ⟨"run_1"⟩ .empty 0 10), .change (.claim ⟨"run_1"⟩ .empty 5 10)] := by
  constructor
  · rintro ⟨-, -, ⟨hok, -⟩, -⟩
    exact absurd hok (by decide)
  · rintro ⟨-, -, ⟨hok, -⟩, -⟩
    exact absurd hok (by decide)

end Runvane.Persistence
