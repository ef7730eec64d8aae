import Runvane.Events.Outbox

/-!
# One processor on the outbox

With a single processor every item is marked before the next snapshot is taken, so the calls that
the sink gets for an item are told by the item itself: as many failures as it has attempts, a
success at the end exactly if it is delivered, and no call before the time that the last failure
has set (`Told`). A step over a snapshot keeps this for all items at once (`kept_step`).
`outbox_discipline` says what follows for the calls: how many there are, how far apart, and that a
success or a dead letter ends them.
-/

set_option autoImplicit false

namespace Runvane.Events

open Library Persistence

/-! ### Runs with their calls of the sink -/

/-- A call of the sink: the delivery, the time of the step, and how it went. -/
structure SinkCall where
  id : String
  nowMs : ℤ
  delivered : Bool
  deriving DecidableEq, Repr

/-- An outbox with the calls of the sink so far, in their order. -/
structure TracedOutbox where
  world : OutboxWorld
  calls : List SinkCall

def TracedOutbox.callsFor (t : TracedOutbox) (id : String) : List SinkCall :=
  t.calls.filter (·.id = id)

def sinkCalls (nowMs : ℤ) : (call : OutboxCall) → call.Answer → List SinkCall
  | .deliver delivery, (.ok () : Except String Unit) => [⟨delivery.id, nowMs, true⟩]
  | .deliver delivery, (.error _ : Except String Unit) => [⟨delivery.id, nowMs, false⟩]
  | _, _ => []

/-- Serves a call of a step at the given time. -/
def OutboxEnv.traced (env : OutboxEnv) (nowMs : ℤ) :
    Server OutboxCall OutboxCall.Answer TracedOutbox :=
  fun call t ↦ ((env.serve call t.world).1,
    ⟨(env.serve call t.world).2, t.calls ++ sinkCalls nowMs call (env.serve call t.world).1⟩)

/-- What happens to an outbox with a single processor. -/
inductive OutboxOp
  | enqueue (delivery : Delivery) (maxAttempts : ℕ) (nowMs : ℤ)
  | step (nowMs : ℤ)

namespace OutboxOp

/-- The time at which it happens. -/
def nowMs : OutboxOp → ℤ
  | enqueue _ _ nowMs => nowMs
  | step nowMs => nowMs

/-- Who does it. -/
def party (baseBackoffMs : ℤ) : OutboxOp → OutboxParty
  | enqueue delivery maxAttempts nowMs => .caller (.enqueue delivery maxAttempts nowMs)
  | step nowMs => .processor baseBackoffMs nowMs

/-- What it does. -/
def perform (env : OutboxEnv) (baseBackoffMs : ℤ) (t : TracedOutbox) (op : OutboxOp) :
    TracedOutbox :=
  ((op.party baseBackoffMs).program.run (env.traced op.nowMs) t).2

/-- The number of attempts is a `u32`. -/
def Fits : OutboxOp → Prop
  | enqueue _ maxAttempts _ => maxAttempts < 2 ^ 32
  | step _ => True

/-- The limit that is set for an item. -/
def limitFor (id : String) : OutboxOp → Option ℕ
  | enqueue delivery maxAttempts _ => if delivery.id = id then some (max maxAttempts 1) else none
  | step _ => none

end OutboxOp

/-- The outbox after a sequence of operations. -/
def traceOf (env : OutboxEnv) (baseBackoffMs : ℤ) (ops : List OutboxOp) : TracedOutbox :=
  ops.foldl (OutboxOp.perform env baseBackoffMs) ⟨.new, []⟩

/-- The limit of an item: the one of the first enqueue with its id. -/
def limitOf (ops : List OutboxOp) (id : String) : Option ℕ :=
  ops.findSome? (OutboxOp.limitFor id)

/-! ### What an item tells of its calls -/

/-- The time between the failure with the given number, counted from 0, and the next call. -/
def pauseMs (base : ℤ) (k : ℕ) : ℤ := base * 2 ^ min k 10

/-- The addition of the pause to the time does not overflow. -/
def NoOverflow (base nowMs : ℤ) (k : ℕ) : Prop :=
  i64Min ≤ nowMs ∧ pauseMs base k ≤ i64Max ∧ nowMs + pauseMs base k ≤ i64Max

/-- Each call comes no earlier than the pause after the failure before it. -/
def Spaced (base : ℤ) (calls : List SinkCall) : Prop :=
  ∀ k call next, calls[k]? = some call → calls[k + 1]? = some next →
    NoOverflow base call.nowMs k → call.nowMs + pauseMs base k ≤ next.nowMs

/-- How many of the calls failed. -/
def failures (calls : List SinkCall) : ℕ := calls.countP (!·.delivered)

/-- The item tells of its calls: as many failures as it has attempts, and then a success if it is
delivered. -/
structure Told (base : ℤ) (limit : ℕ) (item : OutboxItem) (calls : List SinkCall) : Prop where
  delivery_id : item.delivery.id = item.id
  maxAttempts : item.maxAttempts = limit
  limit_lt : limit < 2 ^ 32
  course : ∃ failed, (∀ call ∈ failed, call.delivered = false) ∧ failed.length = item.attempts ∧
    match item.status with
    | .pending => calls = failed ∧ item.attempts < limit
    | .delivered => (∃ call, call.delivered = true ∧ calls = failed ++ [call]) ∧
        item.attempts < limit
    | .deadLetter => calls = failed ∧ item.attempts = limit
  spaced : Spaced base calls
  next : item.status = .pending → ∀ k call, calls[k]? = some call → k + 1 = calls.length →
    NoOverflow base call.nowMs k → call.nowMs + pauseMs base k ≤ item.nextAttemptAtMs

/-- Every item that was enqueued is there and tells of its calls; there are no others. -/
def TracedOutbox.Kept (t : TracedOutbox) (base : ℤ) (limits : String → Option ℕ) : Prop :=
  ∀ id, match limits id with
    | none => t.world.outbox.items.get? id = none ∧ t.callsFor id = []
    | some limit => ∃ item, t.world.outbox.items.get? id = some item ∧
        Told base limit item (t.callsFor id)

section Told

variable {base : ℤ} {limit : ℕ} {item : OutboxItem} {calls : List SinkCall}

/-- The calls for a pending item all failed. -/
theorem Told.of_pending (h : Told base limit item calls) (hpending : item.status = .pending) :
    (∀ call ∈ calls, call.delivered = false) ∧ calls.length = item.attempts ∧
      item.attempts < limit := by
  obtain ⟨failed, hfailed, hlength, hcourse⟩ := h.course
  rw [hpending] at hcourse
  obtain ⟨rfl, hlt⟩ := hcourse
  exact ⟨hfailed, hlength, hlt⟩

/-- A call at a time at which the item is ready keeps the calls apart. -/
theorem Told.spaced_append (h : Told base limit item calls) (hpending : item.status = .pending)
    {call : SinkCall} (hready : item.nextAttemptAtMs ≤ call.nowMs) :
    Spaced base (calls ++ [call]) := by
  intro k first second hfirst hsecond hfits
  have hlt : k + 1 < (calls ++ [call]).length := (List.getElem?_eq_some_iff.mp hsecond).1
  rw [List.length_append, List.length_singleton] at hlt
  have hold : calls[k]? = some first := by
    rwa [List.getElem?_append_left (by omega)] at hfirst
  by_cases hlast : k + 1 = calls.length
  · have hcall : second = call := by
      rw [List.getElem?_append_right (by omega), hlast, Nat.sub_self] at hsecond
      exact (Option.some.inj hsecond).symm
    rw [hcall]
    exact (h.next hpending k first hold hlast hfits).trans hready
  · rw [List.getElem?_append_left (by omega)] at hsecond
    exact h.spaced k first second hold hsecond hfits

/-- A dead letter is an item that has failed as often as it may. -/
theorem Told.counts (h : Told base limit item calls) :
    calls.length ≤ limit ∧ (item.status = .deadLetter ↔ failures calls = limit) := by
  obtain ⟨failed, hfailed, hlength, hcourse⟩ := h.course
  have hall : failures failed = failed.length := List.countP_eq_length.mpr (by simpa using hfailed)
  cases hstatus : item.status with
  | pending | deadLetter =>
    rw [hstatus] at hcourse
    obtain ⟨rfl, hattempts⟩ := hcourse
    simp only [reduceCtorEq, true_iff, false_iff]
    omega
  | delivered =>
    rw [hstatus] at hcourse
    obtain ⟨⟨call, hdelivered, rfl⟩, hattempts⟩ := hcourse
    have hfailures : failures (failed ++ [call]) = failures failed := by
      simp [failures, hdelivered]
    simp only [hfailures, List.length_append, List.length_singleton, reduceCtorEq, false_iff]
    omega

/-- A success is the last call. -/
theorem Told.delivered_last (h : Told base limit item calls) {k : ℕ} {call : SinkCall}
    (hcall : calls[k]? = some call) (hdelivered : call.delivered = true) :
    k + 1 = calls.length := by
  obtain ⟨failed, hfailed, -, hcourse⟩ := h.course
  have hnot : call ∉ failed := fun hmem ↦ by simp [hfailed call hmem] at hdelivered
  cases hstatus : item.status with
  | pending | deadLetter =>
    rw [hstatus] at hcourse
    exact absurd (hcourse.1 ▸ List.mem_of_getElem? hcall) hnot
  | delivered =>
    rw [hstatus] at hcourse
    obtain ⟨⟨last, -, rfl⟩, -⟩ := hcourse
    have hlt := (List.getElem?_eq_some_iff.mp hcall).1
    have hge : ¬ k < failed.length := fun hk ↦ by
      rw [List.getElem?_append_left hk] at hcall
      exact hnot (List.mem_of_getElem? hcall)
    rw [List.length_append, List.length_singleton] at hlt ⊢
    omega

/-- An item that was just enqueued. -/
theorem told_enqueued {delivery : Delivery} {maxAttempts : ℕ} (hfits : maxAttempts < 2 ^ 32)
    (nowMs : ℤ) :
    Told base (max maxAttempts 1)
      ⟨delivery.id, delivery, 0, max maxAttempts 1, nowMs, none, .pending⟩ [] where
  delivery_id := rfl
  maxAttempts := rfl
  limit_lt := by omega
  course := ⟨[], by simp, rfl, rfl, by dsimp only; omega⟩
  spaced := by simp [Spaced]
  next := by simp

variable {nowMs : ℤ}

/-- A success ends the calls. -/
theorem Told.succeed (h : Told base limit item calls) (hpending : item.status = .pending)
    (hready : item.nextAttemptAtMs ≤ nowMs) :
    Told base limit { item with status := .delivered } (calls ++ [⟨item.id, nowMs, true⟩]) where
  delivery_id := h.delivery_id
  maxAttempts := h.maxAttempts
  limit_lt := h.limit_lt
  course := by
    obtain ⟨hfailed, hlength, hlt⟩ := h.of_pending hpending
    exact ⟨calls, hfailed, hlength, ⟨_, rfl, rfl⟩, hlt⟩
  spaced := h.spaced_append hpending hready
  next := by simp

/-- Without overflow the time of the next call is the pause after the failure. -/
theorem NoOverflow.next_eq {k : ℕ} (h : NoOverflow base nowMs k) (hbase : 0 ≤ base) :
    i64Add nowMs (i64SaturatingMul base (2 ^ min k 10)) = nowMs + pauseMs base k := by
  obtain ⟨hnow, hpause, hsum⟩ := h
  have hpos : 0 ≤ pauseMs base k := mul_nonneg hbase (by positivity)
  have hmul : i64SaturatingMul base (2 ^ min k 10) = pauseMs base k := by
    unfold i64SaturatingMul
    change max i64Min (min i64Max (pauseMs base k)) = pauseMs base k
    unfold i64Min at hnow ⊢
    omega
  rw [hmul]
  exact i64Add_of_mem (by omega) hsum

/-- A failure is counted; it is the last one, or sets the time of the next call. -/
theorem Told.fail (hbase : 0 ≤ base) (h : Told base limit item calls)
    (hpending : item.status = .pending) (hready : item.nextAttemptAtMs ≤ nowMs) (error : String) :
    Told base limit
      (item.fail error nowMs (i64SaturatingMul base (2 ^ min item.attempts 10)))
      (calls ++ [⟨item.id, nowMs, false⟩]) := by
  obtain ⟨hfailed, hlength, hlt⟩ := h.of_pending hpending
  have hlimit := h.limit_lt
  have hsucc : u32Succ item.attempts = item.attempts + 1 := u32Succ_of_lt (by omega)
  have hfailed' : ∀ call ∈ calls ++ [⟨item.id, nowMs, false⟩], call.delivered = false :=
    List.forall_mem_append.mpr ⟨hfailed, by simp⟩
  have hlength' : (calls ++ [(⟨item.id, nowMs, false⟩ : SinkCall)]).length =
      item.attempts + 1 := by
    rw [List.length_append, hlength, List.length_singleton]
  have hspaced : Spaced base (calls ++ [⟨item.id, nowMs, false⟩]) :=
    h.spaced_append hpending hready
  unfold OutboxItem.fail
  rw [hsucc, h.maxAttempts]
  split_ifs with hexhausted
  · exact ⟨h.delivery_id, rfl, hlimit, ⟨_, hfailed', hlength', rfl, by dsimp only; omega⟩, hspaced,
      by simp⟩
  · refine ⟨h.delivery_id, rfl, hlimit, ⟨_, hfailed', hlength', ?_⟩, hspaced,
      fun _ k call hcall hk hfits ↦ ?_⟩
    · dsimp only
      rw [hpending]
      exact ⟨rfl, by omega⟩
    · obtain rfl : k = item.attempts := by omega
      have hnew : (⟨item.id, nowMs, false⟩ : SinkCall) = call := by
        rw [List.getElem?_append_right (by omega), hlength, Nat.sub_self] at hcall
        exact Option.some.inj hcall
      subst hnew
      exact (hfits.next_eq hbase).ge

/-- Once a call succeeded or the item is a dead letter, there are no more calls. -/
theorem Told.eq_of_isPrefix {item' : OutboxItem} {calls' : List SinkCall}
    (h : Told base limit item calls) (h' : Told base limit item' calls')
    (hwithin : calls <+: calls')
    (hended : (∃ call ∈ calls, call.delivered = true) ∨ item.status = .deadLetter) :
    calls' = calls := by
  refine (hwithin.eq_of_length_le ?_).symm
  rcases hended with ⟨call, hcall, hdelivered⟩ | hdead
  · obtain ⟨k, hk⟩ := List.getElem?_of_mem hcall
    obtain ⟨hlt, -⟩ := List.getElem?_eq_some_iff.mp hk
    have hk' : calls'[k]? = some call := by
      obtain ⟨rest, rfl⟩ := hwithin
      rw [List.getElem?_append_left hlt, hk]
    have hlast := h'.delivered_last hk' hdelivered
    omega
  · have hfailures := h.counts.2.mp hdead
    have hle : failures calls ≤ calls.length := List.countP_le_length
    have hlength := h'.counts.1
    omega

end Told

/-! ### Steps -/

namespace TracedOutbox

theorem callsFor_append (t : TracedOutbox) (world : OutboxWorld) (call : SinkCall) (id : String) :
    (TracedOutbox.mk world (t.calls ++ [call])).callsFor id =
      if call.id = id then t.callsFor id ++ [call] else t.callsFor id := by
  unfold callsFor
  rw [List.filter_append]
  split_ifs with hid
  · simp [hid]
  · simp [hid]

end TracedOutbox

/-- What is left of a snapshot in the course of a step: items that nobody has touched yet, and the
outbox tells of all calls so far. -/
structure Midway (base nowMs : ℤ) (limits : String → Option ℕ) (rest : List OutboxItem)
    (t : TracedOutbox) : Prop where
  current : ∀ item ∈ rest, t.world.outbox.items.get? item.id = some item ∧
    item.status = .pending ∧ item.nextAttemptAtMs ≤ nowMs
  nodup : (rest.map OutboxItem.id).Nodup
  kept : t.Kept base limits

section Step

variable {base nowMs : ℤ} {limits : String → Option ℕ} {t : TracedOutbox}

variable {item : OutboxItem}

theorem TracedOutbox.Kept.told (h : t.Kept base limits) {id : String}
    (hitem : t.world.outbox.items.get? id = some item) :
    ∃ limit, limits id = some limit ∧ Told base limit item (t.callsFor id) := by
  have hid := h id
  cases hlimit : limits id with
  | none =>
    rw [hlimit, hitem] at hid
    cases hid.1
  | some limit =>
    rw [hlimit] at hid
    obtain ⟨found, hfound, htold⟩ := hid
    obtain rfl : found = item := Option.some.inj (hfound.symm.trans hitem)
    exact ⟨limit, rfl, htold⟩

/-- An item of the snapshot is attempted: it is written back with its new state, and everything else
stays. -/
theorem Midway.attempt {item' : OutboxItem} {rest : List OutboxItem}
    (h : Midway base nowMs limits (item :: rest) t) {delivered : Bool} {world : OutboxWorld}
    (hworld : world.outbox.items = t.world.outbox.items.put item') (hid : item'.id = item.id)
    (htold : ∀ limit, Told base limit item (t.callsFor item.id) →
      Told base limit item' (t.callsFor item.id ++ [⟨item.id, nowMs, delivered⟩])) :
    Midway base nowMs limits rest ⟨world, t.calls ++ [⟨item.delivery.id, nowMs, delivered⟩]⟩ := by
  obtain ⟨hget, -, -⟩ := h.current item List.mem_cons_self
  obtain ⟨limit, hlimit, hitem⟩ := h.kept.told hget
  have hnodup := List.nodup_cons.mp h.nodup
  refine ⟨fun other hother ↦ ?_, hnodup.2, fun id ↦ ?_⟩
  · obtain ⟨hcurrent, hrest⟩ := h.current other (List.mem_cons_of_mem _ hother)
    have hne : item.id ≠ other.id := fun heq ↦
      hnodup.1 (List.mem_map.mpr ⟨other, hother, heq.symm⟩)
    refine ⟨?_, hrest⟩
    dsimp only
    rw [hworld, KeyedMap.get?_put, hid, if_neg hne, hcurrent]
  · rw [TracedOutbox.callsFor_append]
    dsimp only
    rw [hworld, KeyedMap.get?_put, hid, hitem.delivery_id]
    by_cases heq : item.id = id
    · subst heq
      rw [hlimit, if_pos rfl, if_pos rfl]
      exact ⟨item', rfl, htold limit hitem⟩
    · rw [if_neg heq, if_neg heq]
      exact h.kept id

/-- One item of the snapshot. -/
theorem wp_process (env : OutboxEnv) {p : OutboxProcessor} (hbase : 0 ≤ p.baseBackoffMs)
    {rest : List OutboxItem} (h : Midway p.baseBackoffMs nowMs limits (item :: rest) t) :
    (p.process nowMs item).wp (env.traced nowMs) (fun _ ↦ True)
      (fun _ t' ↦ Midway p.baseBackoffMs nowMs limits rest t') (fun _ _ ↦ True) t := by
  obtain ⟨hget, hpending, hready⟩ := h.current item List.mem_cons_self
  -- The program is one call of the sink, and then the mark for its answer.
  refine ⟨trivial, ?_⟩
  change CallProgram.wp (env.traced nowMs) _ _ _
    ((CallProgram.ret (env.sink t.world item.delivery)).bind _)
    ⟨{ t.world with attempted := item.delivery :: t.world.attempted },
      t.calls ++ sinkCalls nowMs (.deliver item.delivery) (env.sink t.world item.delivery)⟩
  cases hsink : env.sink t.world item.delivery with
  | ok value =>
    refine ⟨trivial, ?_⟩
    change Midway _ _ _ rest ⟨⟨(t.world.outbox.markSuccess item.id).2, _, _⟩,
      t.calls ++ [⟨item.delivery.id, nowMs, true⟩] ++ []⟩
    rw [List.append_nil]
    have hput : (t.world.outbox.markSuccess item.id).2.items =
        t.world.outbox.items.put { item with status := .delivered } := by
      simp only [WebhookOutbox.markSuccess, hget, if_pos hpending]
    exact h.attempt hput rfl fun limit htold ↦ htold.succeed hpending hready
  | error err =>
    refine ⟨trivial, ?_⟩
    change Midway _ _ _ rest ⟨⟨(t.world.outbox.markFailure item.id err nowMs
      (i64SaturatingMul p.baseBackoffMs (2 ^ min item.attempts 10))).2, _, _⟩,
      t.calls ++ [⟨item.delivery.id, nowMs, false⟩] ++ []⟩
    rw [List.append_nil]
    have hput : (t.world.outbox.markFailure item.id err nowMs
        (i64SaturatingMul p.baseBackoffMs (2 ^ min item.attempts 10))).2.items =
        t.world.outbox.items.put (item.fail err nowMs
          (i64SaturatingMul p.baseBackoffMs (2 ^ min item.attempts 10))) := by
      simp only [WebhookOutbox.markFailure, hget]
    exact h.attempt hput (item.id_fail ..) fun limit htold ↦
      htold.fail hbase hpending hready err

/-- The items of a snapshot are those that are pending and due. -/
theorem mem_readyItems {outbox : WebhookOutbox} {order : IterationOrder OutboxItem} :
    item ∈ outbox.readyItems order nowMs ↔
      outbox.items.get? item.id = some item ∧ item.status = .pending ∧
        item.nextAttemptAtMs ≤ nowMs := by
  rw [WebhookOutbox.readyItems, List.mem_insertionSort, List.mem_filter, (order.perm _).mem_iff,
    KeyedMap.mem_values, Bool.and_eq_true, decide_eq_true_iff, decide_eq_true_iff]

theorem nodup_readyItems (outbox : WebhookOutbox) (order : IterationOrder OutboxItem) :
    ((outbox.readyItems order nowMs).map OutboxItem.id).Nodup := by
  have hvalues : ((order.arrange outbox.items.values).map OutboxItem.id).Nodup :=
    ((order.perm _).map _).nodup_iff.mpr outbox.items.nodup_keys
  have hfiltered := hvalues.sublist ((List.filter_sublist (p := fun item : OutboxItem ↦
    item.status = .pending && item.nextAttemptAtMs ≤ nowMs)).map OutboxItem.id)
  exact ((List.perm_insertionSort _ _).map _).nodup_iff.mpr hfiltered

/-- A step of the processor: all items tell of their calls as before. -/
theorem kept_step (env : OutboxEnv) {p : OutboxProcessor} (hbase : 0 ≤ p.baseBackoffMs)
    (h : t.Kept p.baseBackoffMs limits) :
    (p.step nowMs).wp (env.traced nowMs) (fun _ ↦ True)
      (fun _ t' ↦ t'.Kept p.baseBackoffMs limits) (fun _ _ ↦ True) t := by
  have hstart : Midway p.baseBackoffMs nowMs limits
      (t.world.outbox.readyItems (env.order t.world) nowMs) ⟨t.world, t.calls ++ []⟩ := by
    rw [List.append_nil]
    exact ⟨fun item hitem ↦ mem_readyItems.mp hitem, nodup_readyItems _ _, h⟩
  have hloop := CallProgram.wp_foldlM (fun rest _ t ↦ Midway p.baseBackoffMs nowMs limits rest t)
    (fun _ _ _ _ hmid ↦ wp_process env hbase hmid) _ () _ hstart
  change True ∧ CallProgram.wp (env.traced nowMs) _ _ _
    ((t.world.outbox.readyItems (env.order t.world) nowMs).foldlM
      (fun _ item ↦ p.process nowMs item) () >>= fun _ ↦ pure _) ⟨t.world, t.calls ++ []⟩
  exact ⟨trivial, CallProgram.wp_seq hloop fun _ _ hend ↦ hend.kept⟩

theorem kept_enqueue (h : t.Kept base limits) {delivery : Delivery} {maxAttempts : ℕ}
    (hfits : maxAttempts < 2 ^ 32) (world : OutboxWorld)
    (hworld : world.outbox = t.world.outbox.enqueue delivery maxAttempts nowMs) :
    (TracedOutbox.mk world t.calls).Kept base fun id ↦
      (limits id).or (if delivery.id = id then some (max maxAttempts 1) else none) := by
  intro id
  have hid := h id
  have hget : world.outbox.items.get? id =
      (t.world.outbox.items.get? id).or (if delivery.id = id then
        some ⟨delivery.id, delivery, 0, max maxAttempts 1, nowMs, none, .pending⟩ else none) := by
    rw [hworld, WebhookOutbox.enqueue]
    by_cases heq : delivery.id = id
    · subst heq
      cases hold : t.world.outbox.items.get? delivery.id with
      | none => simp [KeyedMap.get?_put]
      | some item => simp [hold]
    · split_ifs
      · rw [Option.or_none]
      · rw [KeyedMap.get?_put, if_neg heq, Option.or_none]
  have hsame : (TracedOutbox.mk world t.calls).callsFor id = t.callsFor id := rfl
  dsimp only
  rw [hget, hsame]
  cases hlimit : limits id with
  | some limit =>
    rw [hlimit] at hid
    obtain ⟨item, hitem, htold⟩ := hid
    rw [hitem, Option.some_or, Option.some_or]
    exact ⟨item, rfl, htold⟩
  | none =>
    rw [hlimit] at hid
    obtain ⟨hnone, hcalls⟩ := hid
    rw [hnone, hcalls, Option.none_or, Option.none_or]
    split_ifs with heq
    · exact ⟨_, rfl, told_enqueued hfits nowMs⟩
    · exact ⟨rfl, rfl⟩

end Step

/-! ### Runs -/

/-- A program that cannot leave early ends in its postcondition. -/
theorem post_run {p : OutboxProg Unit} {serve : Server OutboxCall OutboxCall.Answer TracedOutbox}
    {post : TracedOutbox → Prop} {t : TracedOutbox}
    (h : p.wp serve (fun _ ↦ True) (fun _ t' ↦ post t') (fun _ _ ↦ True) t) :
    post (p.run serve t).2 := by
  cases hrun : p.run serve t with
  | mk result t' =>
    cases result with
    | error reason => exact reason.elim
    | ok value => exact CallProgram.post_of_run h hrun

section Runs

variable (env : OutboxEnv) (baseBackoffMs : ℤ)

theorem kept_perform {t : TracedOutbox} {limits : String → Option ℕ}
    (h : t.Kept (max baseBackoffMs 10) limits) {op : OutboxOp} (hfits : op.Fits) :
    (op.perform env baseBackoffMs t).Kept (max baseBackoffMs 10)
      fun id ↦ (limits id).or (op.limitFor id) := by
  cases op with
  | enqueue delivery maxAttempts nowMs =>
    have hkept := kept_enqueue h hfits
      { t.world with
        outbox := t.world.outbox.enqueue delivery maxAttempts nowMs
        enqueued := delivery.id :: t.world.enqueued } rfl
    rw [← t.calls.append_nil] at hkept
    exact hkept
  | step nowMs =>
    have hlimits : (fun id ↦ (limits id).or ((OutboxOp.step nowMs).limitFor id)) = limits := by
      funext id
      exact Option.or_none
    rw [hlimits]
    have hbase : 0 ≤ (OutboxProcessor.new baseBackoffMs).baseBackoffMs :=
      le_max_of_le_right (by decide)
    have hprogram : (OutboxParty.processor baseBackoffMs nowMs).program.wp (env.traced nowMs)
        (fun _ ↦ True) (fun _ t' ↦ t'.Kept (max baseBackoffMs 10) limits) (fun _ _ ↦ True) t :=
      CallProgram.wp_seq (kept_step env hbase h) fun _ _ hend ↦ hend
    exact post_run hprogram

theorem kept_foldl {t : TracedOutbox} {limits : String → Option ℕ}
    (h : t.Kept (max baseBackoffMs 10) limits) {ops : List OutboxOp} (hfits : ∀ op ∈ ops, op.Fits) :
    (ops.foldl (OutboxOp.perform env baseBackoffMs) t).Kept (max baseBackoffMs 10)
      fun id ↦ (limits id).or (limitOf ops id) := by
  induction ops generalizing t limits with
  | nil => simpa [limitOf] using h
  | cons op ops ih =>
    obtain ⟨hop, hops⟩ := List.forall_mem_cons.mp hfits
    have hrest := ih (kept_perform env baseBackoffMs h hop) hops
    have hlimits (id : String) : limitOf (op :: ops) id = (op.limitFor id).or (limitOf ops id) := by
      unfold limitOf
      rw [List.findSome?_cons]
      cases op.limitFor id <;> rfl
    simp only [hlimits, ← Option.or_assoc]
    exact hrest

theorem kept_traceOf {ops : List OutboxOp} (hfits : ∀ op ∈ ops, op.Fits) :
    (traceOf env baseBackoffMs ops).Kept (max baseBackoffMs 10) (limitOf ops) := by
  have hnew : (TracedOutbox.mk .new []).Kept (max baseBackoffMs 10) fun _ ↦ none :=
    fun id ↦ ⟨KeyedMap.get?_empty id, rfl⟩
  have hkept := kept_foldl env baseBackoffMs hnew hfits
  simp only [Option.none_or] at hkept
  exact hkept

/-- The calls of the sink stay on record. -/
theorem calls_prefix_run (nowMs : ℤ) (p : OutboxProg Unit) (t : TracedOutbox) :
    t.calls <+: (p.run (env.traced nowMs) t).2.calls := by
  induction p generalizing t with
  | ret value => exact List.prefix_rfl
  | abort reason => exact reason.elim
  | call i next ih =>
    have hfirst : t.calls <+: (env.traced nowMs i t).2.calls := List.prefix_append _ _
    exact hfirst.trans (ih _ _)

theorem callsFor_isPrefix (ops later : List OutboxOp) (id : String) :
    (traceOf env baseBackoffMs ops).callsFor id <+:
      (traceOf env baseBackoffMs (ops ++ later)).callsFor id := by
  refine List.IsPrefix.filter _ ?_
  unfold traceOf
  rw [List.foldl_append]
  generalize ops.foldl (OutboxOp.perform env baseBackoffMs) ⟨.new, []⟩ = t
  induction later generalizing t with
  | nil => exact List.prefix_rfl
  | cons op later ih => exact (calls_prefix_run env _ _ t).trans (ih _)

end Runs

/-- With one processor, however enqueues and steps follow each other and whatever the sink returns,
the calls for an item are at most as many as its limit. They are spaced by the doubling pause where
the time of the next attempt does not overflow. The item is a dead letter exactly if as many calls
failed as the limit says. Once a call succeeded or the item is a dead letter, there are no more. -/
theorem outbox_discipline (env : OutboxEnv) (baseBackoffMs : ℤ) (ops : List OutboxOp)
    (hfits : ∀ op ∈ ops, op.Fits) (id : String) (limit : ℕ) (hlimit : limitOf ops id = some limit) :
    ∃ item, (traceOf env baseBackoffMs ops).world.outbox.items.get? id = some item ∧
      ((traceOf env baseBackoffMs ops).callsFor id).length ≤ limit ∧
      Spaced (max baseBackoffMs 10) ((traceOf env baseBackoffMs ops).callsFor id) ∧
      (item.status = .deadLetter ↔
        failures ((traceOf env baseBackoffMs ops).callsFor id) = limit) ∧
      ((∃ call ∈ (traceOf env baseBackoffMs ops).callsFor id, call.delivered = true) ∨
          item.status = .deadLetter →
        ∀ later, (∀ op ∈ later, op.Fits) →
          (traceOf env baseBackoffMs (ops ++ later)).callsFor id =
            (traceOf env baseBackoffMs ops).callsFor id) := by
  have hkept := kept_traceOf env baseBackoffMs hfits id
  rw [hlimit] at hkept
  obtain ⟨item, hitem, htold⟩ := hkept
  refine ⟨item, hitem, htold.counts.1, htold.spaced, htold.counts.2,
    fun hended later hlater ↦ ?_⟩
  have hops : ∀ op ∈ ops ++ later, op.Fits := fun op hop ↦
    (List.mem_append.mp hop).elim (hfits op) (hlater op)
  have hkept' := kept_traceOf env baseBackoffMs hops id
  have hlimit' : limitOf (ops ++ later) id = some limit := by
    unfold limitOf at hlimit ⊢
    rw [List.findSome?_append, hlimit, Option.some_or]
  rw [hlimit'] at hkept'
  obtain ⟨item', -, htold'⟩ := hkept'
  exact htold.eq_of_isPrefix htold' (callsFor_isPrefix env baseBackoffMs ops later id) hended

/-- A sink that refuses everything. -/
def refusesAll : OutboxEnv where
  order _ := .stored
  sink _ _ := .error "503"

/-- A delivery with two attempts, and steps before and after its pause. -/
def sampleOps : List OutboxOp :=
  [.enqueue sampleDelivery 2 0, .step 0, .step 9, .step 10, .step 1000]

theorem outbox_discipline_refused :
    (traceOf refusesAll 0 sampleOps).callsFor "d" = [⟨"d", 0, false⟩, ⟨"d", 10, false⟩] ∧
    ∃ item, (traceOf refusesAll 0 sampleOps).world.outbox.items.get? "d" = some item ∧
      (item.status = .deadLetter ↔
        failures ((traceOf refusesAll 0 sampleOps).callsFor "d") = 2) := by
  have hfits : ∀ op ∈ sampleOps, op.Fits := by simp [sampleOps, OutboxOp.Fits]
  obtain ⟨item, hitem, -, -, hdead, -⟩ :=
    outbox_discipline refusesAll 0 sampleOps hfits "d" 2 (by decide)
  exact ⟨by decide, item, hitem, hdead⟩

end Runvane.Events
