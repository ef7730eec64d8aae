import Runvane.Persistence.Memory

/-!
# The scan for ready entries

A dispatcher asks the queue for a batch of entries and claims them one after the other. `Batch` says
what the scan owes it: as many entries as there are, up to the limit, each of another run, due and
not leased, from the soonest on, with none left behind that is due before one of the batch. The scan
of the in-memory store returns such a batch in whatever order its map yields the entries.

A claim changes the entry of its own run only. So the entries of a batch may be claimed in any
order, and each of the claims succeeds (`claimAll_ok`).
-/

set_option autoImplicit false

namespace Runvane.Persistence

open Domain Library

/-- The entry is due, and no lease of it ends later than now. -/
def Free (nowMs : ℤ) (entry : QueueEntry) : Prop :=
  entry.dueAtMs ≤ nowMs ∧ ∀ expiry ∈ entry.leaseUntilMs, expiry ≤ nowMs

instance (nowMs : ℤ) (entry : QueueEntry) : Decidable (Free nowMs entry) :=
  inferInstanceAs (Decidable (_ ∧ _))

/-- What a scan owes the dispatcher. -/
structure Batch (queue : KeyedMap QueueEntry.runId) (nowMs : ℤ) (limit : ℕ)
    (ready : List QueueEntry) : Prop where
  length : ready.length = min limit (queue.values.countP (Free nowMs ·))
  distinct : (ready.map QueueEntry.runId).Nodup
  stored : ∀ entry ∈ ready, queue.get? entry.runId = some entry
  free : ∀ entry ∈ ready, Free nowMs entry
  sorted : ready.Pairwise (·.dueAtMs ≤ ·.dueAtMs)
  soonest : ∀ entry ∈ queue.values, Free nowMs entry → entry ∉ ready →
    ∀ taken ∈ ready, taken.dueAtMs ≤ entry.dueAtMs

/-- The order of a scan: the entry that is due sooner comes first. -/
abbrev Sooner (a b : QueueEntry) : Prop := a.dueAtMs ≤ b.dueAtMs

instance : Std.Total Sooner := ⟨fun a b ↦ le_total a.dueAtMs b.dueAtMs⟩

instance : IsTrans QueueEntry Sooner := ⟨fun _ _ _ hab hbc ↦ hab.trans hbc⟩

namespace QueueEntry

theorem isLeased_eq_false_iff (entry : QueueEntry) (nowMs : ℤ) :
    entry.isLeased nowMs = false ↔ ∀ expiry ∈ entry.leaseUntilMs, expiry ≤ nowMs := by
  unfold isLeased
  cases entry.leaseUntilMs with
  | none => simp
  | some expiry => simp

theorem isReady_iff (entry : QueueEntry) (nowMs : ℤ) :
    entry.isReady nowMs = true ↔ Free nowMs entry := by
  simp [isReady, Free, isLeased_eq_false_iff]

end QueueEntry

namespace MemoryStore

/-- The free entries in the order in which the scan returns them. -/
def sortedReady (s : MemoryStore) (order : IterationOrder QueueEntry) (nowMs : ℤ) :
    List QueueEntry :=
  ((order.arrange s.queue.values).filter (·.isReady nowMs)).insertionSort Sooner

variable (s : MemoryStore) (order : IterationOrder QueueEntry) (nowMs : ℤ)

theorem perm_sortedReady :
    (s.sortedReady order nowMs).Perm (s.queue.values.filter (Free nowMs ·)) := by
  have hready : (fun entry ↦ QueueEntry.isReady entry nowMs) =
      fun entry ↦ decide (Free nowMs entry) := by
    funext entry
    rw [Bool.eq_iff_iff, entry.isReady_iff, decide_eq_true_iff]
  unfold sortedReady
  rw [hready]
  exact (List.perm_insertionSort _ _).trans ((order.perm _).filter _)

theorem mem_sortedReady {entry : QueueEntry} :
    entry ∈ s.sortedReady order nowMs ↔ entry ∈ s.queue.values ∧ Free nowMs entry := by
  rw [(s.perm_sortedReady order nowMs).mem_iff, List.mem_filter, decide_eq_true_iff]

theorem pairwise_sortedReady : (s.sortedReady order nowMs).Pairwise Sooner :=
  List.pairwise_insertionSort _ _

/-- The scan returns a batch, whatever the order of the map. -/
theorem batch_scanReady (limit : ℕ) :
    ∃ ready, s.scanReady order nowMs limit = .ok ready ∧ Batch s.queue nowMs limit ready := by
  have hmem {entry : QueueEntry} (h : entry ∈ (s.sortedReady order nowMs).take limit) :=
    (s.mem_sortedReady order nowMs).mp (List.mem_of_mem_take h)
  have hperm := s.perm_sortedReady order nowMs
  have hsorted := s.pairwise_sortedReady order nowMs
  refine ⟨(s.sortedReady order nowMs).take limit, rfl, ?_⟩
  exact
    { length := by
        rw [List.length_take, hperm.length_eq, List.countP_eq_length_filter]
      distinct := by
        have hall : ((s.sortedReady order nowMs).map QueueEntry.runId).Nodup :=
          (hperm.map QueueEntry.runId).nodup_iff.mpr
            (s.queue.nodup_keys.sublist (List.filter_sublist.map _))
        exact hall.sublist ((List.take_sublist _ _).map _)
      stored := fun entry h ↦ KeyedMap.mem_values.mp (hmem h).1
      free := fun entry h ↦ (hmem h).2
      sorted := hsorted.sublist (List.take_sublist _ _)
      soonest := fun entry hentry hfree hleft taken htaken ↦ by
        have hall := (s.mem_sortedReady order nowMs).mpr ⟨hentry, hfree⟩
        rw [← List.take_append_drop limit (s.sortedReady order nowMs)] at hall hsorted
        have hdrop := (List.mem_append.mp hall).resolve_left hleft
        exact (List.pairwise_append.mp hsorted).2.2 taken htaken entry hdrop }

/-! ### Claiming a batch -/

/-- A claim that a dispatcher makes. -/
structure ClaimRequest where
  runId : RunId
  token : ClaimToken
  leaseMs : ℤ

/-- Makes the claims one after the other, and collects the answers. -/
def claimAll (nowMs : ℤ) : List ClaimRequest → MemoryStore →
    List (Except StorageError Unit) × MemoryStore
  | [], s => ([], s)
  | request :: requests, s =>
    let answer := s.claim request.runId request.token nowMs request.leaseMs
    let rest := claimAll nowMs requests answer.2
    (answer.1 :: rest.1, rest.2)

variable {s nowMs}

/-- The claim of an entry that is not leased succeeds, and touches no other entry. -/
theorem claim_of_free {entry : QueueEntry} {runId : RunId} (token : ClaimToken) (leaseMs : ℤ)
    (hentry : s.queue.get? runId = some entry) (hfree : Free nowMs entry) :
    (s.claim runId token nowMs leaseMs).1 = .ok () ∧
      ∀ other, other ≠ runId →
        (s.claim runId token nowMs leaseMs).2.queue.get? other = s.queue.get? other := by
  have hleased := (entry.isLeased_eq_false_iff nowMs).mpr hfree.2
  have hkey : (entry.leased token (i64Add nowMs leaseMs)).runId = runId :=
    KeyedMap.key_of_get? (v := entry) hentry
  unfold claim
  simp only [hentry, hleased, Bool.false_and, Bool.and_false, Bool.false_eq_true, if_false,
    true_and]
  intro other hother
  rw [KeyedMap.get?_put, hkey, if_neg (Ne.symm hother)]

/-- Claims of free entries of different runs all succeed. -/
theorem claimAll_ok (requests : List ClaimRequest)
    (hdistinct : (requests.map ClaimRequest.runId).Nodup)
    (hfree : ∀ request ∈ requests, ∃ entry, s.queue.get? request.runId = some entry ∧
      Free nowMs entry) :
    (claimAll nowMs requests s).1 = List.replicate requests.length (.ok ()) := by
  induction requests generalizing s with
  | nil => rfl
  | cons request requests ih =>
    obtain ⟨entry, hentry, hentryFree⟩ := hfree request List.mem_cons_self
    obtain ⟨hok, hother⟩ := claim_of_free request.token request.leaseMs hentry hentryFree
    rw [List.map_cons, List.nodup_cons] at hdistinct
    -- the entries of the requests that are left are as they were
    have hrest := ih hdistinct.2 fun later hlater ↦ by
      rw [hother later.runId fun heq ↦ hdistinct.1 (heq ▸ List.mem_map_of_mem hlater)]
      exact hfree later (List.mem_cons_of_mem _ hlater)
    rw [claimAll, hok, hrest, List.length_cons, List.replicate_succ]

/-- The scan returns what it should, and whatever part of the batch is claimed, in whatever order
and under whatever tokens, every claim succeeds. -/
theorem scanned_claimable (s : MemoryStore) (order : IterationOrder QueueEntry) (nowMs : ℤ)
    (limit : ℕ) :
    ∃ ready, s.scanReady order nowMs limit = .ok ready ∧ Batch s.queue nowMs limit ready ∧
      ∀ requests : List ClaimRequest, (requests.map ClaimRequest.runId).Nodup →
        (∀ request ∈ requests, request.runId ∈ ready.map QueueEntry.runId) →
        (claimAll nowMs requests s).1 = List.replicate requests.length (.ok ()) := by
  obtain ⟨ready, hscan, hbatch⟩ := s.batch_scanReady order nowMs limit
  refine ⟨ready, hscan, hbatch, fun requests hdistinct hready ↦ ?_⟩
  refine claimAll_ok requests hdistinct fun request hrequest ↦ ?_
  obtain ⟨entry, hentry, hid⟩ := List.mem_map.mp (hready request hrequest)
  exact ⟨entry, hid ▸ hbatch.stored entry hentry, hbatch.free entry hentry⟩

end MemoryStore

end Runvane.Persistence
