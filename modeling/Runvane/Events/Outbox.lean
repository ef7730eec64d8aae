import Runvane.Events.Dispatch
import Runvane.Library.Interleaving
import Runvane.Persistence.Memory

/-!
# The webhook outbox

`events/outbox.rs`: deliveries wait in a map under their ids until they are delivered or have failed
too often. Any number of processors drain one outbox. A processor takes a snapshot of the items that
are ready, and then delivers and marks them one by one, so an item may have been marked by another
processor in the meantime. `markSuccess` looks at the status of the item again and `markFailure`
does not.

`outbox_accounted_iff` says what follows for the accounting: counters and final statuses are right
along a sequence of calls exactly if no failure that exhausts the attempts of its item finds it
concluded. `one_pending_each_iff` is about the other entrance: the deliveries of one event share
their id, and the outbox keeps the first of them only.
-/

set_option autoImplicit false

namespace Runvane.Events

open Domain Library Persistence

/-! ### Items -/

inductive OutboxStatus
  | pending
  | delivered
  | deadLetter
  deriving DecidableEq, Repr

/-- A queued webhook delivery with its retry state. -/
structure OutboxItem where
  id : String
  delivery : Delivery
  attempts : ℕ
  maxAttempts : ℕ
  nextAttemptAtMs : ℤ
  lastError : Option String
  status : OutboxStatus

structure OutboxStats where
  pending : ℕ
  delivered : ℕ
  deadLetter : ℕ
  deriving DecidableEq, Repr

/-- The outbox: the items, and two counters next to them. -/
structure WebhookOutbox where
  items : KeyedMap OutboxItem.id
  deliveredCount : ℕ
  deadLetterCount : ℕ

namespace OutboxItem

/-- A failed attempt on an item, and whether it was the last one. -/
def fail (item : OutboxItem) (error : String) (nowMs backoffMs : ℤ) : OutboxItem :=
  if item.maxAttempts ≤ u32Succ item.attempts then
    { item with
      attempts := u32Succ item.attempts
      lastError := some error
      status := .deadLetter }
  else
    { item with
      attempts := u32Succ item.attempts
      lastError := some error
      nextAttemptAtMs := i64Add nowMs backoffMs }

end OutboxItem

namespace WebhookOutbox

def new : WebhookOutbox := ⟨.empty, 0, 0⟩

/-- Enqueues a delivery, unless there is an item with its id. -/
def enqueue (outbox : WebhookOutbox) (delivery : Delivery) (maxAttempts : ℕ) (nowMs : ℤ) :
    WebhookOutbox :=
  if (outbox.items.get? delivery.id).isSome then outbox
  else
    { outbox with
      items := outbox.items.put
        { id := delivery.id
          delivery := delivery
          attempts := 0
          maxAttempts := max maxAttempts 1
          nextAttemptAtMs := nowMs
          lastError := none
          status := .pending } }

/-- The items that are ready for an attempt, the most overdue first. -/
def readyItems (outbox : WebhookOutbox) (order : IterationOrder OutboxItem) (nowMs : ℤ) :
    List OutboxItem :=
  ((order.arrange outbox.items.values).filter
    fun item ↦ item.status = .pending && item.nextAttemptAtMs ≤ nowMs).insertionSort
      fun a b ↦ toLex (a.nextAttemptAtMs, a.attempts) ≤ toLex (b.nextAttemptAtMs, b.attempts)

/-- Marks a pending item as delivered; returns whether it was one. -/
def markSuccess (outbox : WebhookOutbox) (id : String) : Bool × WebhookOutbox :=
  match outbox.items.get? id with
  | some item =>
    if item.status = .pending then
      (true,
        { outbox with
          items := outbox.items.put { item with status := .delivered }
          deliveredCount := outbox.deliveredCount + 1 })
    else (false, outbox)
  | none => (false, outbox)

/-- Records a failed attempt: the last one parks the item as a dead letter, an earlier one sets the
time of the next. -/
def markFailure (outbox : WebhookOutbox) (id error : String) (nowMs backoffMs : ℤ) :
    OutboxStatus × WebhookOutbox :=
  match outbox.items.get? id with
  | some item =>
    ((item.fail error nowMs backoffMs).status,
      { outbox with
        items := outbox.items.put (item.fail error nowMs backoffMs)
        deadLetterCount :=
          if item.maxAttempts ≤ u32Succ item.attempts then outbox.deadLetterCount + 1
          else outbox.deadLetterCount })
  | none => (.pending, outbox)

/-- How many items have the status. -/
def tally (outbox : WebhookOutbox) (status : OutboxStatus) : ℕ :=
  outbox.items.values.countP (·.status = status)

/-- The statistics: pending items are counted, the others are read off the counters. -/
def stats (outbox : WebhookOutbox) : OutboxStats :=
  ⟨outbox.tally .pending, outbox.deliveredCount, outbox.deadLetterCount⟩

end WebhookOutbox

/-! ### Processors -/

inductive OutboxCall
  | enqueue (delivery : Delivery) (maxAttempts : ℕ) (nowMs : ℤ)
  | readyItems (nowMs : ℤ)
  | deliver (delivery : Delivery)
  | markSuccess (id : String)
  | markFailure (id error : String) (nowMs backoffMs : ℤ)

def OutboxCall.Answer : OutboxCall → Type
  | .enqueue .. => Unit
  | .readyItems _ => List OutboxItem
  | .deliver _ => Except String Unit
  | .markSuccess _ => Bool
  | .markFailure .. => OutboxStatus

/-- The outbox, with the ids that were ever enqueued and the deliveries that were ever attempted. -/
structure OutboxWorld where
  outbox : WebhookOutbox
  enqueued : List String
  attempted : List Delivery

def OutboxWorld.new : OutboxWorld := ⟨.new, [], []⟩

/-- What is outside of the outbox: the order of its hash map, and the sink. -/
structure OutboxEnv where
  order : OutboxWorld → IterationOrder OutboxItem
  sink : OutboxWorld → Delivery → Except String Unit

namespace OutboxEnv

def serve (env : OutboxEnv) : Server OutboxCall OutboxCall.Answer OutboxWorld
  | .enqueue delivery maxAttempts nowMs, w =>
    ((),
      { w with
        outbox := w.outbox.enqueue delivery maxAttempts nowMs
        enqueued := delivery.id :: w.enqueued })
  | .readyItems nowMs, w => (w.outbox.readyItems (env.order w) nowMs, w)
  | .deliver delivery, w =>
    (env.sink w delivery, { w with attempted := delivery :: w.attempted })
  | .markSuccess id, w =>
    ((w.outbox.markSuccess id).1, { w with outbox := (w.outbox.markSuccess id).2 })
  | .markFailure id error nowMs backoffMs, w =>
    ((w.outbox.markFailure id error nowMs backoffMs).1,
      { w with outbox := (w.outbox.markFailure id error nowMs backoffMs).2 })

end OutboxEnv

/-- A program that works on an outbox; it never leaves early. -/
abbrev OutboxProg (α : Type) : Type := CallProgram OutboxCall OutboxCall.Answer Empty α

def OutboxCall.make (call : OutboxCall) : OutboxProg call.Answer := .request call

/-- The driver of deliveries, with the shortest time between two attempts. -/
structure OutboxProcessor where
  baseBackoffMs : ℤ

namespace OutboxProcessor

/-- A processor with the given shortest backoff, but no less than 10 ms. -/
def new (baseBackoffMs : ℤ) : OutboxProcessor := ⟨max baseBackoffMs 10⟩

/-- One item of the snapshot: an attempt, and the mark for how it went. -/
def process (p : OutboxProcessor) (now : ℤ) (item : OutboxItem) : OutboxProg Unit := do
  let result : Except String Unit ← (OutboxCall.deliver item.delivery).make
  match result with
  | .ok () =>
    let _ ← (OutboxCall.markSuccess item.id).make
    pure ()
  | .error err =>
    let backoff := i64SaturatingMul p.baseBackoffMs (2 ^ min item.attempts 10)
    let _ ← (OutboxCall.markFailure item.id err now backoff).make
    pure ()

/-- One step over the items that are ready at the given time; returns how many there were. -/
def step (p : OutboxProcessor) (now : ℤ) : OutboxProg ℕ := do
  let ready : List OutboxItem ← (OutboxCall.readyItems now).make
  ready.foldlM (fun _ item ↦ p.process now item) ()
  pure ready.length

end OutboxProcessor

/-- Who works on an outbox: a processor taking a step, or somebody who makes a single call. -/
inductive OutboxParty
  | processor (baseBackoffMs now : ℤ)
  | caller (call : OutboxCall)

def OutboxParty.program : OutboxParty → OutboxProg Unit
  | .processor baseBackoffMs now => do
    let _ ← (OutboxProcessor.new baseBackoffMs).step now
    pure ()
  | .caller call => do
    let _ ← call.make
    pure ()

/-! ### Accounting -/

/-- The counters are the numbers of items with their status, and the items of all statuses are the
distinct ids that were ever enqueued. -/
structure OutboxWorld.Balanced (w : OutboxWorld) : Prop where
  delivered : w.outbox.stats.delivered = w.outbox.tally .delivered
  deadLetter : w.outbox.stats.deadLetter = w.outbox.tally .deadLetter
  total : w.outbox.stats.pending + w.outbox.stats.delivered + w.outbox.stats.deadLetter =
    w.enqueued.dedup.length

def WebhookOutbox.KeepsConcluded (outbox outbox' : WebhookOutbox) : Prop :=
  ∀ id item, outbox.items.get? id = some item → item.status ≠ .pending →
    ∃ item', outbox'.items.get? id = some item' ∧ item'.status = item.status

/-- In a sequence of worlds the accounting is right throughout, and statuses are final. -/
def Accounted (worlds : List OutboxWorld) : Prop :=
  (∀ w ∈ worlds, w.Balanced) ∧ worlds.IsChain fun w w' ↦ w.outbox.KeepsConcluded w'.outbox

/-- A failure that exhausts the attempts of its item finds it pending. -/
def OutboxCall.Orderly (outbox : WebhookOutbox) : OutboxCall → Prop
  | .markFailure id _ _ _ => ∀ item, outbox.items.get? id = some item →
      item.maxAttempts ≤ u32Succ item.attempts → item.status = .pending
  | _ => True

def OutboxWorld.Filed (w : OutboxWorld) : Prop :=
  ∀ id, id ∈ w.enqueued ↔ (w.outbox.items.get? id).isSome

/-- The two counters are the numbers of items with their status. -/
def WebhookOutbox.Counted (outbox : WebhookOutbox) : Prop :=
  outbox.deliveredCount = outbox.tally .delivered ∧
    outbox.deadLetterCount = outbox.tally .deadLetter

/-- Every item has one of the three statuses. -/
theorem sum_countP_status (items : List OutboxItem) :
    items.countP (·.status = .pending) + items.countP (·.status = .delivered) +
      items.countP (·.status = .deadLetter) = items.length := by
  induction items with
  | nil => rfl
  | cons item items ih =>
    simp only [List.countP_cons, List.length_cons]
    cases hstatus : item.status <;> simp <;> omega

variable {w : OutboxWorld} {outbox : WebhookOutbox}

namespace OutboxWorld

theorem Filed.length_dedup (h : w.Filed) :
    w.enqueued.dedup.length = w.outbox.items.values.length := by
  have hperm : w.enqueued.dedup.Perm (w.outbox.items.values.map OutboxItem.id) := by
    refine (List.perm_ext_iff_of_nodup w.enqueued.nodup_dedup (KeyedMap.nodup_keys _)).mpr
      fun id ↦ ?_
    rw [List.mem_dedup, h id, Option.isSome_iff_exists, List.mem_map]
    constructor
    · rintro ⟨item, hitem⟩
      have hid : item.id = id := KeyedMap.key_of_get? hitem
      exact ⟨item, KeyedMap.mem_values.mpr (hid ▸ hitem), hid⟩
    · rintro ⟨item, hitem, rfl⟩
      exact ⟨item, KeyedMap.mem_values.mp hitem⟩
  rw [hperm.length_eq, List.length_map]

/-- Where there is an item for every id, the accounting is right if the two counters are. -/
theorem Filed.balanced_iff (h : w.Filed) : w.Balanced ↔ w.outbox.Counted := by
  constructor
  · exact fun hbalanced ↦ ⟨hbalanced.delivered, hbalanced.deadLetter⟩
  · rintro ⟨hdelivered, hdead⟩
    refine ⟨hdelivered, hdead, ?_⟩
    have hsum := sum_countP_status w.outbox.items.values
    simp only [WebhookOutbox.stats, hdelivered, hdead, h.length_dedup]
    exact hsum

end OutboxWorld

@[simp] theorem OutboxItem.id_fail (item : OutboxItem) (error : String) (nowMs backoffMs : ℤ) :
    (item.fail error nowMs backoffMs).id = item.id := by
  unfold OutboxItem.fail
  split_ifs <;> rfl

theorem OutboxItem.status_fail (item : OutboxItem) (error : String) (nowMs backoffMs : ℤ) :
    (item.fail error nowMs backoffMs).status =
      if item.maxAttempts ≤ u32Succ item.attempts then .deadLetter else item.status := by
  unfold OutboxItem.fail
  split_ifs <;> rfl

namespace WebhookOutbox

theorem keepsConcluded_refl (outbox : WebhookOutbox) : outbox.KeepsConcluded outbox :=
  fun _ item hitem _ ↦ ⟨item, hitem, rfl⟩

/-- Writing an item keeps what is concluded if it keeps the status of a concluded item with its id.
-/
theorem keepsConcluded_put (outbox : WebhookOutbox) (item : OutboxItem) (delivered dead : ℕ) :
    outbox.KeepsConcluded ⟨outbox.items.put item, delivered, dead⟩ ↔
      ∀ old, outbox.items.get? item.id = some old → old.status ≠ .pending →
        item.status = old.status := by
  constructor
  · intro h old hold hconcluded
    obtain ⟨item', hitem', hstatus⟩ := h item.id old hold hconcluded
    rw [KeyedMap.get?_put, if_pos rfl, Option.some.injEq] at hitem'
    rw [hitem', hstatus]
  · intro h id old hold hconcluded
    by_cases hid : item.id = id
    · subst hid
      refine ⟨item, ?_, h old hold hconcluded⟩
      rw [KeyedMap.get?_put, if_pos rfl]
    · refine ⟨old, ?_, rfl⟩
      rw [KeyedMap.get?_put, if_neg hid, hold]

theorem counted_enqueue (h : outbox.Counted) (delivery : Delivery) (maxAttempts : ℕ) (nowMs : ℤ) :
    (outbox.enqueue delivery maxAttempts nowMs).Counted ∧
      outbox.KeepsConcluded (outbox.enqueue delivery maxAttempts nowMs) := by
  unfold enqueue
  split_ifs with hsome
  · exact ⟨h, outbox.keepsConcluded_refl⟩
  · have hnone : outbox.items.get? delivery.id = none := by simpa using hsome
    refine ⟨?_, (keepsConcluded_put ..).mpr fun old hold ↦ ?_⟩
    · unfold Counted tally
      rw [KeyedMap.countP_put_of_none hnone, KeyedMap.countP_put_of_none hnone]
      simpa [Counted, tally] using h
    · rw [hnone] at hold
      cases hold

theorem counted_markSuccess (h : outbox.Counted) (id : String) :
    (outbox.markSuccess id).2.Counted ∧ outbox.KeepsConcluded (outbox.markSuccess id).2 := by
  unfold markSuccess
  cases hitem : outbox.items.get? id with
  | none => exact ⟨h, outbox.keepsConcluded_refl⟩
  | some item =>
    have hget : outbox.items.get? item.id = some item := by rwa [KeyedMap.key_of_get? hitem]
    dsimp only
    split_ifs with hpending
    · refine ⟨?_, (keepsConcluded_put ..).mpr fun old hold hconcluded ↦ ?_⟩
      · have hdelivered := KeyedMap.countP_put_of_some (v := { item with status := .delivered })
          hget (·.status = .delivered)
        have hdead := KeyedMap.countP_put_of_some (v := { item with status := .delivered })
          hget (·.status = .deadLetter)
        simp only [hpending] at hdelivered hdead
        obtain ⟨hd, hl⟩ := h
        unfold tally at hd hl
        constructor
        · simp_all [tally]
        · simp_all [tally]
      · obtain rfl := Option.some.inj (hget.symm.trans hold)
        exact absurd hpending hconcluded
    · exact ⟨h, outbox.keepsConcluded_refl⟩

/-- A failure keeps the accounting and the final statuses exactly if it does not conclude an item
that is concluded already. -/
theorem counted_markFailure_iff (h : outbox.Counted) (id error : String) (nowMs backoffMs : ℤ) :
    (outbox.markFailure id error nowMs backoffMs).2.Counted ∧
        outbox.KeepsConcluded (outbox.markFailure id error nowMs backoffMs).2 ↔
      (OutboxCall.markFailure id error nowMs backoffMs).Orderly outbox := by
  unfold markFailure OutboxCall.Orderly
  cases hitem : outbox.items.get? id with
  | none => simp [h, hitem, outbox.keepsConcluded_refl]
  | some item =>
    have hget : outbox.items.get? (item.fail error nowMs backoffMs).id = some item := by
      rwa [OutboxItem.id_fail, KeyedMap.key_of_get? hitem]
    have hdelivered := KeyedMap.countP_put_of_some hget (·.status = .delivered)
    have hdead := KeyedMap.countP_put_of_some hget (·.status = .deadLetter)
    obtain ⟨hd, hl⟩ := h
    unfold tally at hd hl
    simp only [keepsConcluded_put, hget, Option.some.injEq, forall_eq', Counted, tally]
    simp only [OutboxItem.status_fail] at hdelivered hdead ⊢
    by_cases hlast : item.maxAttempts ≤ u32Succ item.attempts
    · cases hstatus : item.status with
      | pending | delivered | deadLetter => simp_all
    · simp_all

end WebhookOutbox

theorem OutboxWorld.Filed.serve {env : OutboxEnv} (h : w.Filed) (call : OutboxCall) :
    (env.serve call w).2.Filed := by
  intro id
  cases call with
  | enqueue delivery maxAttempts nowMs =>
    simp only [OutboxEnv.serve, WebhookOutbox.enqueue, List.mem_cons]
    split_ifs with hsome
    · rw [h id]
      constructor
      · rintro (rfl | hid)
        · exact hsome
        · exact hid
      · exact .inr
    · rw [KeyedMap.get?_put, h id]
      by_cases hid : delivery.id = id
      · simp [hid]
      · simp [hid, Ne.symm hid]
  | readyItems nowMs => exact h id
  | deliver delivery => exact h id
  | markSuccess id' =>
    refine (h id).trans ?_
    simp only [OutboxEnv.serve, WebhookOutbox.markSuccess]
    cases hitem : w.outbox.items.get? id' with
    | none => rfl
    | some item =>
      dsimp only
      split_ifs
      · obtain rfl := KeyedMap.key_of_get? hitem
        have hkeys := KeyedMap.isSome_get?_put (v := { item with status := .delivered }) hitem id
        rw [hkeys]
      · rfl
  | markFailure id' error nowMs backoffMs =>
    refine (h id).trans ?_
    simp only [OutboxEnv.serve, WebhookOutbox.markFailure]
    cases hitem : w.outbox.items.get? id' with
    | none => rfl
    | some item =>
      have hget : w.outbox.items.get? (item.fail error nowMs backoffMs).id = some item := by
        rwa [OutboxItem.id_fail, KeyedMap.key_of_get? hitem]
      dsimp only
      rw [KeyedMap.isSome_get?_put hget]

/-- A call keeps the accounting and the final statuses exactly if it is orderly. -/
theorem balanced_serve_iff (env : OutboxEnv) (call : OutboxCall) (hw : w.Filed) (h : w.Balanced) :
    (env.serve call w).2.Balanced ∧ w.outbox.KeepsConcluded (env.serve call w).2.outbox ↔
      call.Orderly w.outbox := by
  have hcounted := hw.balanced_iff.mp h
  rw [(OutboxWorld.Filed.serve hw call).balanced_iff]
  cases call with
  | enqueue delivery maxAttempts nowMs =>
    exact iff_of_true (WebhookOutbox.counted_enqueue hcounted delivery maxAttempts nowMs) trivial
  | readyItems nowMs => exact iff_of_true ⟨hcounted, w.outbox.keepsConcluded_refl⟩ trivial
  | deliver delivery => exact iff_of_true ⟨hcounted, w.outbox.keepsConcluded_refl⟩ trivial
  | markSuccess id => exact iff_of_true (WebhookOutbox.counted_markSuccess hcounted id) trivial
  | markFailure id error nowMs backoffMs =>
    exact WebhookOutbox.counted_markFailure_iff hcounted id error nowMs backoffMs

/-- However parties take turns on an empty outbox: the counters are right at all times and concluded
items stay as they are, exactly if every failure that exhausts the attempts of its item finds it
pending. -/
theorem outbox_accounted_iff (env : OutboxEnv) (turns : List (Turn OutboxParty)) :
    Accounted (System.states env.serve OutboxParty.program ⟨.new, []⟩ turns) ↔
      System.Guarded env.serve OutboxParty.program (fun _ call w ↦ call.Orderly w.outbox)
        ⟨.new, []⟩ turns := by
  have hfiled : OutboxWorld.new.Filed := fun id ↦ by
    simp [OutboxWorld.new, WebhookOutbox.new]
  have hcounted : OutboxWorld.new.outbox.Counted := ⟨rfl, rfl⟩
  have hserve (call : OutboxCall) (w : OutboxWorld) (hw : w.Filed) : (env.serve call w).2.Filed :=
    hw.serve call
  exact System.states_iff_guarded hserve (fun w ↦ w.outbox.keepsConcluded_refl)
    (fun _ call _ hw h ↦ balanced_serve_iff env call hw h) hfiled (hfiled.balanced_iff.mpr hcounted)

def sampleDelivery : Delivery := ⟨"d", "http://hooks/a", [], "body"⟩

/-- A sink that accepts the first delivery and refuses all others. -/
def acceptsFirst : OutboxEnv where
  order _ := .stored
  sink w _ := if w.attempted.isEmpty then .ok () else .error "503"

/-- Two processors take their snapshots before either of them delivers. The first succeeds, the
second fails. -/
def sampleRace : List (Turn OutboxParty) :=
  [.start (.caller (.enqueue sampleDelivery 1 0)), .call 0, .start (.processor 100 5),
    .start (.processor 100 5), .call 1, .call 2, .call 1, .call 1, .call 2, .call 2]

theorem delivered_then_dead :
    ((System.states acceptsFirst.serve OutboxParty.program ⟨.new, []⟩ sampleRace).drop 8).map
        (fun w ↦ ((w.outbox.items.get? "d").map OutboxItem.status, w.outbox.stats)) =
      [(some .delivered, ⟨0, 1, 0⟩), (some .delivered, ⟨0, 1, 0⟩), (some .deadLetter, ⟨0, 1, 1⟩)] ∧
    ¬ Accounted (System.states acceptsFirst.serve OutboxParty.program ⟨.new, []⟩ sampleRace) := by
  refine ⟨by decide, fun haccounted ↦ ?_⟩
  have htotal : ¬ ∀ w ∈ System.states acceptsFirst.serve OutboxParty.program ⟨.new, []⟩ sampleRace,
      w.outbox.stats.pending + w.outbox.stats.delivered + w.outbox.stats.deadLetter =
        w.enqueued.dedup.length := by decide
  exact htotal fun w hw ↦ (haccounted.1 w hw).total

/-! ### The deliveries of one event -/

/-- Enqueues deliveries in order, each with its own limit of attempts and time. -/
def WebhookOutbox.enqueueAll (outbox : WebhookOutbox) (args : ℕ → ℕ × ℤ)
    (deliveries : List Delivery) : WebhookOutbox :=
  deliveries.zipIdx.foldl
    (fun outbox delivery ↦
      outbox.enqueue delivery.1 (args delivery.2).1 (args delivery.2).2) outbox

def WebhookOutbox.OnePendingEach (outbox : WebhookOutbox) (specs : List HookSpec) : Prop :=
  ((outbox.items.values.filter (·.status = .pending)).map
      fun item ↦ (some item.delivery.url, item.delivery.headers)).Perm
    (specs.map fun spec ↦ (spec.webhookUrl, spec.headers))

/-- Deliveries with an id that is there already change nothing. -/
theorem foldl_enqueue_of_isSome (args : ℕ → ℕ × ℤ) {id : String}
    (hid : (outbox.items.get? id).isSome) (deliveries : List (Delivery × ℕ))
    (h : ∀ delivery ∈ deliveries, delivery.1.id = id) :
    deliveries.foldl (fun outbox delivery ↦
      outbox.enqueue delivery.1 (args delivery.2).1 (args delivery.2).2) outbox = outbox := by
  induction deliveries with
  | nil => rfl
  | cons delivery deliveries ih =>
    obtain ⟨hfirst, hrest⟩ := List.forall_mem_cons.mp h
    rw [List.foldl_cons]
    have hsame : outbox.enqueue delivery.1 (args delivery.2).1 (args delivery.2).2 = outbox := by
      rw [WebhookOutbox.enqueue, hfirst, if_pos hid]
    rw [hsame]
    exact ih hrest

/-- Of deliveries that share their id, an empty outbox keeps the first. -/
theorem pending_enqueueAll {deliveries : List Delivery} {id : String} (args : ℕ → ℕ × ℤ)
    (h : ∀ delivery ∈ deliveries, delivery.id = id) :
    ((WebhookOutbox.new.enqueueAll args deliveries).items.values.filter
        (·.status = .pending)).map OutboxItem.delivery = deliveries.head?.toList := by
  cases deliveries with
  | nil => rfl
  | cons delivery deliveries =>
    obtain ⟨hfirst, hrest⟩ := List.forall_mem_cons.mp h
    have hmem : ∀ later ∈ deliveries.zipIdx 1, later.1.id = id := by
      intro later hlater
      exact hrest later.1 (List.fst_mem_of_mem_zipIdx hlater)
    unfold WebhookOutbox.enqueueAll
    rw [List.zipIdx_cons, List.foldl_cons, foldl_enqueue_of_isSome args ?_ _ hmem]
    · rfl
    · simp [WebhookOutbox.enqueue, WebhookOutbox.new, KeyedMap.get?_put, hfirst]

/-- Enqueuing the deliveries of an event leaves a pending item for each matched hook exactly if no
two hooks are matched. -/
theorem one_pending_each_iff (lib : EventLibrary) (d : WorkflowDef) (kind : EventKind)
    (ev : RunEventDoc) (args : ℕ → ℕ × ℤ) :
    (∃ deliveries, (buildDeliveries lib d kind ev).1 = some deliveries ∧
      (WebhookOutbox.new.enqueueAll args deliveries).OnePendingEach (matchHooks d kind).1) ↔
      (hooksFor d kind).countP (fun spec ↦ admits spec kind && spec.webhookUrl.isSome) ≤ 1 := by
  obtain ⟨deliveries, hbuilt, hid, hspecs⟩ := exists_buildDeliveries lib d kind ev
  have hlength : deliveries.length =
      (hooksFor d kind).countP fun spec ↦ admits spec kind && spec.webhookUrl.isSome := by
    have := congrArg List.length hspecs
    rwa [List.length_map, List.length_map, fst_matchHooks, ← List.countP_eq_length_filter] at this
  have hpending := congrArg (List.map fun delivery : Delivery ↦
    (some delivery.url, delivery.headers)) (pending_enqueueAll args hid)
  rw [List.map_map] at hpending
  have heach : (WebhookOutbox.new.enqueueAll args deliveries).OnePendingEach (matchHooks d kind).1 ↔
      (deliveries.head?.toList.map fun delivery ↦ (some delivery.url, delivery.headers)).Perm
        (deliveries.map fun delivery ↦ (some delivery.url, delivery.headers)) := by
    rw [WebhookOutbox.OnePendingEach, ← hspecs, ← hpending]
    rfl
  rw [← hlength]
  constructor
  · rintro ⟨deliveries', hbuilt', hone⟩
    obtain rfl : deliveries = deliveries' := Option.some.inj (hbuilt.symm.trans hbuilt')
    have hperm := (heach.mp hone).length_eq
    cases deliveries with
    | nil => exact Nat.zero_le 1
    | cons delivery deliveries =>
      rw [List.length_map, List.length_map] at hperm
      exact hperm.ge
  · intro hle
    refine ⟨deliveries, hbuilt, heach.mpr ?_⟩
    rcases deliveries with _ | ⟨delivery, _ | ⟨second, deliveries⟩⟩
    · rfl
    · exact .refl _
    · simp at hle

/-- A definition with two hooks for success. -/
def sampleHooked : WorkflowDef where
  tenant := "t"
  name := "flow"
  tasks := [{ name := "a", handler := ⟨"h"⟩ }]
  hooks :=
    { onSuccess :=
        [{ webhookUrl := some "http://hooks/a" }, { webhookUrl := some "http://hooks/b" }] }

def sampleEvent : RunEventDoc :=
  .fromRun { id := ⟨"r"⟩, tenant := "t", defName := "flow", status := .succeeded } .runSucceeded 0

theorem second_hook_dropped :
    validateDefinition (fun url ↦ .ok ⟨"http", some url⟩) sampleHooked = .ok () ∧
    (matchHooks sampleHooked .runSucceeded).1.map HookSpec.webhookUrl =
      [some "http://hooks/a", some "http://hooks/b"] ∧
    ((buildDeliveries plainLibrary sampleHooked .runSucceeded sampleEvent).1.map fun deliveries ↦
      (WebhookOutbox.new.enqueueAll (fun _ ↦ (3, 0)) deliveries).items.values.map
        fun item ↦ (item.status, item.delivery.url)) = some [(.pending, "http://hooks/a")] := by
  decide

end Runvane.Events
