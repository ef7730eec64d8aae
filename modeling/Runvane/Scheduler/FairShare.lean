import Runvane.Library.RoundRobin

/-!
# The fair-share dispatcher

`FairShareDispatcher` of `scheduler/throttle.rs`: a queue of items for each tenant, and the order in
which the tenants take turns. A tenant without items is in neither of the two. The loop of `pop`
goes over as many tenants as the order holds, but it returns with the first of them, since a tenant
of the order always has something queued.

The dispatcher refines the round-robin rotation (`Represents.perform`): whatever is called, it does
what the rotation does. So over every sequence of calls from a new dispatcher no item is lost or
doubled and each tenant's items keep their order (`lossless_run`), and between two turns of a tenant
all others that had something queued have theirs (`fair_turns`).
-/

set_option autoImplicit false

namespace Runvane.Scheduler

open Library

/-- Items of several tenants, to be dispatched in turns. -/
structure FairShareDispatcher (α : Type) where
  queues : Std.ExtTreeMap String (List α)
  tenantOrder : List String

variable {tenant : String}

namespace FairShareDispatcher

variable {α : Type}

def new : FairShareDispatcher α := ⟨∅, []⟩

def push (d : FairShareDispatcher α) (tenant : String) (item : α) : FairShareDispatcher α where
  queues := d.queues.insert tenant (d.queues.getD tenant [] ++ [item])
  tenantOrder := if d.queues.contains tenant then d.tenantOrder else d.tenantOrder ++ [tenant]

/-- The loop of `pop`, for the number of rounds that are left. -/
def popLoop : ℕ → FairShareDispatcher α → Option (String × α) × FairShareDispatcher α
  | 0, d => (none, d)
  | rounds + 1, d =>
    match d.tenantOrder with
    | [] => popLoop rounds d
    | tenant :: order =>
      match d.queues[tenant]? with
      | some (item :: q) =>
        -- the tenant goes to the back if it still has items
        if q.isEmpty then (some (tenant, item), ⟨d.queues.erase tenant, order⟩)
        else (some (tenant, item), ⟨d.queues.insert tenant q, order ++ [tenant]⟩)
      | some [] | none => popLoop rounds { d with tenantOrder := order }

/-- Pops the next item, with the tenants taking turns. -/
def pop (d : FairShareDispatcher α) : Option (String × α) × FairShareDispatcher α :=
  popLoop d.tenantOrder.length d

/-- The number of queued items. -/
def len (d : FairShareDispatcher α) : ℕ := (d.queues.toList.map fun entry ↦ entry.2.length).sum

def isEmpty (d : FairShareDispatcher α) : Bool := d.queues.isEmpty

inductive Call (α : Type)
  | push (tenant : String) (item : α)
  | pop

/-- Makes a call, and notes what happened. -/
def perform (d : FairShareDispatcher α) : Call α → RotationEvent String α × FairShareDispatcher α
  | .push tenant item => (.pushed tenant item, d.push tenant item)
  | .pop =>
    match d.pop with
    | (some (tenant, item), d') => (.popped tenant item, d')
    | (none, d') => (.idle, d')

/-- Makes calls one after the other. -/
def run : FairShareDispatcher α → List (Call α) →
    List (RotationEvent String α) × FairShareDispatcher α
  | d, [] => ([], d)
  | d, call :: calls =>
    let (event, d') := d.perform call
    let (events, d'') := run d' calls
    (event :: events, d'')

/-! ### The rotation behind the dispatcher -/

/-- The dispatcher holds what waits in the rotation, with no entry for an empty queue. -/
structure Represents (d : FairShareDispatcher α) (r : Rotation String α) : Prop where
  order : d.tenantOrder = r.turns
  queue : ∀ tenant, d.queues[tenant]? =
    if (r.waiting tenant).isEmpty then none else some (r.waiting tenant)

variable {d : FairShareDispatcher α} {r : Rotation String α}

theorem represents_new : Represents (new : FairShareDispatcher α) .empty where
  order := rfl
  queue tenant := by simp [new, Rotation.empty]

namespace Represents

variable (h : Represents d r)
include h

theorem getD_eq (tenant : String) : d.queues.getD tenant [] = r.waiting tenant := by
  rw [Std.ExtTreeMap.getD_eq_getD_getElem?, h.queue]
  split_ifs with hempty
  · exact (List.isEmpty_iff.mp hempty).symm
  · rfl

theorem contains_iff (tenant : String) : d.queues.contains tenant ↔ tenant ∈ r.turns := by
  rw [Std.ExtTreeMap.contains_eq_isSome_getElem?, h.queue, r.mem_turns]
  split_ifs with hempty
  · simpa using hempty
  · simpa using hempty

theorem push (tenant : String) (item : α) :
    Represents (d.push tenant item) (r.push tenant item) where
  order := by
    rw [FairShareDispatcher.push, h.order, Rotation.turns_push]
    exact if_congr (h.contains_iff tenant) rfl rfl
  queue other := by
    rw [FairShareDispatcher.push, Std.ExtTreeMap.getElem?_insert, h.getD_eq, Rotation.waiting_push]
    by_cases hother : tenant = other
    · subst hother
      simp
    · simp [hother, Function.update_of_ne (Ne.symm hother), h.queue other]

/-- A pop that finds nothing leaves the dispatcher as it is. -/
theorem pop_of_nil (hnone : r.turns = []) : d.pop = (none, d) := by
  rw [pop, h.order, hnone]
  rfl

/-- A pop gives the first item of the first tenant, in the first round of its loop. -/
theorem pop_of_cons {rest : List String} {item : α} {items : List α}
    (hfirst : r.turns = tenant :: rest) (hitems : r.waiting tenant = item :: items) :
    ∃ d', d.pop = (some (tenant, item), d') ∧ Represents d' (r.serve hfirst hitems) := by
  have horder : d.tenantOrder = tenant :: rest := h.order.trans hfirst
  have hqueue : d.queues[tenant]? = some (item :: items) := by
    rw [h.queue, hitems]
    rfl
  have hother (other : String) (hne : tenant ≠ other) :
      d.queues[other]? = if (Function.update r.waiting tenant items other).isEmpty then none
        else some (Function.update r.waiting tenant items other) := by
    rw [Function.update_of_ne (Ne.symm hne)]
    exact h.queue other
  unfold pop popLoop
  simp only [horder, List.length_cons, hqueue]
  split_ifs with hempty
  · refine ⟨_, rfl, ⟨?_, fun other ↦ ?_⟩⟩
    · simp [List.isEmpty_iff.mp hempty]
    · rw [Rotation.waiting_serve, Std.ExtTreeMap.getElem?_erase]
      by_cases hne : tenant = other
      · simp [hne, hempty]
      · simpa [hne] using hother other hne
  · refine ⟨_, rfl, ⟨?_, fun other ↦ ?_⟩⟩
    · simpa using hempty
    · rw [Rotation.waiting_serve, Std.ExtTreeMap.getElem?_insert]
      by_cases hne : tenant = other
      · simp [hne, hempty]
      · simpa [hne] using hother other hne

/-- Whatever is called, the dispatcher does what the rotation does. -/
theorem perform (call : Call α) :
    ∃ r', r.Step (d.perform call).1 r' ∧ Represents (d.perform call).2 r' := by
  cases call with
  | push tenant item => exact ⟨_, .push tenant item, h.push tenant item⟩
  | pop =>
    unfold FairShareDispatcher.perform
    cases hturns : r.turns with
    | nil =>
      rw [h.pop_of_nil hturns]
      exact ⟨r, .idle hturns, h⟩
    | cons tenant rest =>
      have hwaits := (r.mem_turns tenant).mp (by simp [hturns])
      obtain ⟨item, items, hitems⟩ := List.exists_cons_of_ne_nil hwaits
      obtain ⟨d', hpop, hd'⟩ := h.pop_of_cons hturns hitems
      rw [hpop]
      exact ⟨_, .pop hturns hitems, hd'⟩

/-- A pop that returns an item is a turn of the rotation. -/
theorem of_pop {item : α} {d' : FairShareDispatcher α} (hpop : d.pop = (some (tenant, item), d')) :
    ∃ (rest : List String) (items : List α) (hfirst : r.turns = tenant :: rest)
      (hitems : r.waiting tenant = item :: items), Represents d' (r.serve hfirst hitems) := by
  obtain ⟨r', hstep, hd'⟩ := h.perform .pop
  simp only [FairShareDispatcher.perform, hpop] at hstep hd'
  cases hstep with
  | pop hfirst hitems => exact ⟨_, _, hfirst, hitems, hd'⟩

omit h in
/-- The same over a sequence of calls. -/
theorem run (h : Represents d r) (calls : List (Call α)) :
    ∃ r', r.Steps (d.run calls).1 r' ∧ Represents (d.run calls).2 r' := by
  induction calls generalizing d r with
  | nil => exact ⟨r, .nil r, h⟩
  | cons call calls ih =>
    obtain ⟨r', hstep, hd'⟩ := h.perform call
    obtain ⟨r'', hsteps, hd''⟩ := ih hd'
    exact ⟨r'', .cons hstep hsteps, hd''⟩

theorem mem_queues_iff (tenant : String) : tenant ∈ d.queues ↔ tenant ∈ r.turns := by
  rw [← Std.ExtTreeMap.contains_iff_mem, h.contains_iff]

theorem getElem?_eq_some_iff {q : List α} :
    d.queues[tenant]? = some q ↔ r.waiting tenant = q ∧ q ≠ [] := by
  rw [h.queue]
  split_ifs with hempty
  · rw [List.isEmpty_iff.mp hempty]
    simp [eq_comm]
  · rw [List.isEmpty_iff] at hempty
    simp only [Option.some.injEq]
    exact ⟨fun hq ↦ ⟨hq, hq ▸ hempty⟩, fun hq ↦ hq.1⟩

/-- The items of the map are those that wait in the line. -/
theorem len_eq : d.len = r.size := by
  have hentries : d.queues.toList.map (fun entry ↦ entry.2.length) =
      d.queues.keys.map fun tenant ↦ (r.waiting tenant).length := by
    rw [← Std.ExtTreeMap.map_fst_toList_eq_keys, List.map_map]
    refine List.map_congr_left fun entry hentry ↦ ?_
    have hqueue := Std.ExtTreeMap.mem_toList_iff_getElem?_eq_some.mp hentry
    have hitems := h.getD_eq entry.1
    rw [Std.ExtTreeMap.getD_eq_getD_getElem?, hqueue] at hitems
    exact congrArg List.length hitems
  have hperm : d.queues.keys.Perm r.turns := by
    refine (List.perm_ext_iff_of_nodup Std.ExtTreeMap.nodup_keys r.nodup).mpr fun tenant ↦ ?_
    rw [Std.ExtTreeMap.mem_keys, h.mem_queues_iff]
  rw [len, hentries, (hperm.map _).sum_eq, Rotation.size]

theorem isEmpty_iff : d.isEmpty ↔ r.turns = [] := by
  rw [isEmpty, ← Std.ExtTreeMap.isEmpty_keys, List.isEmpty_iff, List.eq_nil_iff_forall_not_mem,
    List.eq_nil_iff_forall_not_mem]
  exact forall_congr' fun tenant ↦ by rw [Std.ExtTreeMap.mem_keys, h.mem_queues_iff]

theorem pop_eq_none_iff : d.pop.1 = none ↔ r.turns = [] := by
  constructor
  · intro hpop
    cases hturns : r.turns with
    | nil => rfl
    | cons tenant rest =>
      have hwaits := (r.mem_turns tenant).mp (by simp [hturns])
      obtain ⟨item, items, hitems⟩ := List.exists_cons_of_ne_nil hwaits
      obtain ⟨d', hpop', -⟩ := h.pop_of_cons hturns hitems
      rw [hpop'] at hpop
      cases hpop
  · intro hturns
    rw [h.pop_of_nil hturns]

end Represents

/-! ### Runs of the dispatcher -/

/-- What holds after calls on a new dispatcher. -/
structure Lossless (events : List (RotationEvent String α)) (d : FairShareDispatcher α) : Prop where
  nodup : d.tenantOrder.Nodup
  mem_order : ∀ tenant, tenant ∈ d.tenantOrder ↔ ∃ q, d.queues[tenant]? = some q ∧ q ≠ []
  nonempty : ∀ (tenant : String) (q : List α), d.queues[tenant]? = some q → q ≠ []
  len : d.len + (events.filterMap RotationEvent.served).length =
    events.countP RotationEvent.isPush
  pop_eq_none : d.pop.1 = none ↔ d.len = 0
  isEmpty : d.isEmpty ↔ d.len = 0
  order : ∀ tenant, events.filterMap (·.poppedFor tenant) <+: events.filterMap (·.pushedFor tenant)

/-- No sequence of calls loses an item, doubles one or changes the order of a tenant's items. -/
theorem lossless_run (calls : List (Call α)) :
    Lossless (run (new : FairShareDispatcher α) calls).1 (run new calls).2 := by
  obtain ⟨r, hsteps, h⟩ := represents_new.run calls
  have hlen := h.len_eq
  exact
    { nodup := h.order ▸ r.nodup
      mem_order := fun tenant ↦ by
        simp [h.order, r.mem_turns, h.getElem?_eq_some_iff]
      nonempty := fun tenant q hq ↦ (h.getElem?_eq_some_iff.mp hq).2
      len := by
        have hsize := hsteps.size
        have hempty : (Rotation.empty : Rotation String α).size = 0 := rfl
        omega
      pop_eq_none := by rw [h.pop_eq_none_iff, hlen, r.size_eq_zero_iff]
      isEmpty := by rw [h.isEmpty_iff, hlen, r.size_eq_zero_iff]
      order := fun tenant ↦ by
        have hconserves := hsteps.conserves tenant
        exact ⟨r.waiting tenant, hconserves.symm⟩ }

def Waits (d : FairShareDispatcher α) (tenant : String) : Prop :=
  ∃ q, d.queues[tenant]? = some q ∧ q ≠ []

/-- Between two pops that return a tenant, with none in between, every other tenant that had an item
queued at the first of them is popped at least once, and exactly once if the first tenant still had
something queued. -/
theorem fair_turns (before between : List (Call α)) {tenant other : String} {first last : α}
    {d' d'' : FairShareDispatcher α}
    (hfirst : (run new before).2.pop = (some (tenant, first), d'))
    (hserved : tenant ∉ (d'.run between).1.filterMap RotationEvent.served)
    (hlast : (d'.run between).2.pop = (some (tenant, last), d'')) (hother : other ≠ tenant)
    (hwaits : (run new before).2.Waits other) :
    1 ≤ ((d'.run between).1.filterMap RotationEvent.served).count other ∧
      (d'.Waits tenant →
        ((d'.run between).1.filterMap RotationEvent.served).count other = 1) := by
  obtain ⟨r, -, h⟩ := represents_new.run before
  obtain ⟨rest, items, hturns, hitems, h'⟩ := h.of_pop hfirst
  obtain ⟨r', hsteps, hend⟩ := h'.run between
  obtain ⟨rest', items', hturns', -, -⟩ := hend.of_pop hlast
  obtain ⟨q, hq, hne⟩ := hwaits
  have hwaiting : r.waiting other ≠ [] := (h.getElem?_eq_some_iff.mp hq).1 ▸ hne
  obtain ⟨honce, hexact⟩ := hsteps.served_between hturns hitems hserved (by rw [hturns']; rfl)
    hother hwaiting
  refine ⟨honce, fun hkept ↦ hexact ?_⟩
  obtain ⟨kept, hkept, hne⟩ := hkept
  have hqueue := (h'.getElem?_eq_some_iff.mp hkept).1
  rw [Rotation.waiting_serve, Function.update_self] at hqueue
  exact hqueue ▸ hne

/-- Two items of one tenant and one of another. -/
def sampleCalls : List (Call ℕ) := [.push "acme" 1, .push "acme" 2, .push "globex" 3]

theorem fair_turns_sample :
    1 ≤ (((run new sampleCalls).2.pop.2.run [.pop]).1.filterMap RotationEvent.served).count
        "globex" ∧
      ((run new sampleCalls).2.pop.2.Waits "acme" →
        (((run new sampleCalls).2.pop.2.run [.pop]).1.filterMap RotationEvent.served).count
          "globex" = 1) :=
  @fair_turns ℕ sampleCalls [.pop] "acme" "globex" 1 2 _ _ (Prod.ext (by decide +kernel) rfl)
    (by decide +kernel) (Prod.ext (by decide +kernel) rfl) (by decide)
    ⟨[3], by decide +kernel, by decide⟩

end FairShareDispatcher

end Runvane.Scheduler
