import Mathlib

/-!
# The concurrency limiter

`ConcurrencyLimiter` of `scheduler/throttle.rs`, as any number of threads use it at once. A call of
`try_acquire` reads the limit of its key, looks the counter of the key up or creates it, loads the
counter, and then tries to exchange the value it has seen for the next one, as long as it has seen
less than the limit. The exchange may fail although the value is still the same. Each of these is
one atomic step, and the steps of all calls, and the drops of permits, come in any order: a history
is a list of moves. Counters are 64-bit words in a shared memory, and the map holds their addresses.

In every history the counter of a key is the number of its live permits, it is within the limit of
the key, no drop takes it below zero, and no move changes the counter of another key
(`limiter_safe`). The limits that `new` and `set_limit` give are at least one. The limiter that the
derived `default` gives has the default limit zero, and refuses every key without a limit of its own
(`default_refuses`).
-/

set_option autoImplicit false

namespace Runvane.Scheduler

inductive ThrottleError
  | concurrencyLimitExceeded (key : String) (active limit : UInt64)
  deriving DecidableEq, Repr

def ThrottleError.message : ThrottleError → String
  | concurrencyLimitExceeded key active limit =>
    s!"concurrency limit of {limit} reached for '{key}' (active: {active})"

structure ConcurrencyPermit where
  key : String
  counter : ℕ
  deriving DecidableEq, Repr

/-- The limits of a limiter. Its map of counters is part of the shared state. -/
structure ConcurrencyLimiter where
  limits : Std.ExtTreeMap String UInt64
  defaultLimit : UInt64

namespace ConcurrencyLimiter

/-- Creates a limiter with a fallback limit for keys without one. -/
def new (defaultLimit : UInt64) : ConcurrencyLimiter := ⟨∅, max defaultLimit 1⟩

/-- The limiter of the derived `Default`. -/
def default : ConcurrencyLimiter := ⟨∅, 0⟩

def setLimit (limiter : ConcurrencyLimiter) (key : String) (limit : UInt64) : ConcurrencyLimiter :=
  { limiter with limits := limiter.limits.insert key (max limit 1) }

def limitOf (limiter : ConcurrencyLimiter) (key : String) : UInt64 :=
  limiter.limits.getD key limiter.defaultLimit

def setUp (defaultLimit : UInt64) (settings : List (String × UInt64)) : ConcurrencyLimiter :=
  settings.foldl (fun limiter setting ↦ limiter.setLimit setting.1 setting.2) (new defaultLimit)

end ConcurrencyLimiter

/-! ### Threads -/

/-- How far a call of `try_acquire` has come. -/
inductive Stage
  /-- The limit is to be read. -/
  | called
  /-- The counter is to be looked up. -/
  | limited (limit : UInt64)
  /-- The counter is to be loaded. -/
  | located (limit : UInt64) (counter : ℕ)
  /-- The value that was seen is to be exchanged. -/
  | comparing (limit : UInt64) (counter : ℕ) (current : UInt64)
  | refused (error : ThrottleError)
  | granted
  deriving DecidableEq, Repr

/-- A call of `try_acquire`. -/
structure Acquisition where
  key : String
  stage : Stage
  deriving DecidableEq, Repr

/-- The head of the loop: the call is refused if it has seen the limit. -/
def loopHead (key : String) (limit : UInt64) (counter : ℕ) (current : UInt64) : Stage :=
  if limit ≤ current then .refused (.concurrencyLimitExceeded key current limit)
  else .comparing limit counter current

/-- The counters of a limiter in the shared memory, the calls in progress and the live permits. -/
structure Throttle where
  counters : Std.ExtTreeMap String ℕ
  cells : List UInt64
  calls : List Acquisition
  permits : List ConcurrencyPermit

variable {key : String} {counter index : ℕ} {permit : ConcurrencyPermit}

namespace Throttle

/-- A limiter that has not been used. -/
def unused : Throttle := ⟨∅, [], [], []⟩

def read (t : Throttle) (counter : ℕ) : UInt64 := t.cells.getD counter 0

def activeCount (t : Throttle) (key : String) : UInt64 :=
  match t.counters[key]? with
  | some counter => t.read counter
  | none => 0

def goOn (t : Throttle) (index : ℕ) (key : String) (stage : Stage) : Throttle :=
  { t with calls := t.calls.set index ⟨key, stage⟩ }

/-- A new counter for a key. -/
def allocate (t : Throttle) (key : String) : Throttle :=
  { t with
    counters := t.counters.insert key t.cells.length
    cells := t.cells ++ [0] }

def write (t : Throttle) (counter : ℕ) (value : UInt64) : Throttle :=
  { t with cells := t.cells.set counter value }

def grant (t : Throttle) (key : String) (counter : ℕ) (current : UInt64) : Throttle :=
  { t.write counter (current + 1) with permits := t.permits ++ [⟨key, counter⟩] }

/-- What happens next. -/
inductive Move
  /-- A thread calls `try_acquire`. -/
  | call (key : String)
  /-- A call makes its next atomic step; an exchange may fail spuriously. -/
  | step (index : ℕ) (spurious : Bool)
  /-- A permit is dropped. -/
  | drop (index : ℕ)
  deriving DecidableEq, Repr

def step (limiter : ConcurrencyLimiter) (t : Throttle) (index : ℕ) (spurious : Bool) : Throttle :=
  match t.calls[index]? with
  | none => t
  | some ⟨key, .called⟩ => t.goOn index key (.limited (limiter.limitOf key))
  | some ⟨key, .limited limit⟩ =>
    match t.counters[key]? with
    | some counter => t.goOn index key (.located limit counter)
    | none => (t.allocate key).goOn index key (.located limit t.cells.length)
  | some ⟨key, .located limit counter⟩ =>
    t.goOn index key (loopHead key limit counter (t.read counter))
  | some ⟨key, .comparing limit counter current⟩ =>
    if t.read counter = current ∧ spurious = false then
      (t.grant key counter current).goOn index key .granted
    else t.goOn index key (loopHead key limit counter (t.read counter))
  | some ⟨_, .refused _⟩ | some ⟨_, .granted⟩ => t

/-- The drop of a permit counts its counter down, in 64 bits. -/
def drop (t : Throttle) (index : ℕ) : Throttle :=
  match t.permits[index]? with
  | none => t
  | some permit =>
    { t.write permit.counter (t.read permit.counter - 1) with
      permits := t.permits.eraseIdx index }

def move (limiter : ConcurrencyLimiter) (t : Throttle) : Move → Throttle
  | .call key => { t with calls := t.calls ++ [⟨key, .called⟩] }
  | .step index spurious => t.step limiter index spurious
  | .drop index => t.drop index

def after (limiter : ConcurrencyLimiter) (moves : List Move) : Throttle :=
  moves.foldl (move limiter) unused

/-! ### What every state satisfies -/

def live (t : Throttle) (key : String) : ℕ := t.permits.countP (·.key = key)

/-- What a call has read is right: the limit of its key, and the address of the counter. -/
def Agrees (limiter : ConcurrencyLimiter) (counters : Std.ExtTreeMap String ℕ) :
    Acquisition → Prop
  | ⟨key, .limited limit⟩ => limit = limiter.limitOf key
  | ⟨key, .located limit counter⟩ => limit = limiter.limitOf key ∧ counters[key]? = some counter
  | ⟨key, .comparing limit counter current⟩ =>
    limit = limiter.limitOf key ∧ counters[key]? = some counter ∧ current < limit
  | ⟨_, .called⟩ | ⟨_, .refused _⟩ | ⟨_, .granted⟩ => True

/-- The invariant: every counter has its own cell, the calls and the permits refer to the counter of
their key, and a counter is the number of live permits, within the limit. -/
structure Consistent (limiter : ConcurrencyLimiter) (t : Throttle) : Prop where
  allocated : ∀ (key : String) (counter : ℕ), t.counters[key]? = some counter →
    counter < t.cells.length
  distinct : ∀ (key other : String) (counter : ℕ), t.counters[key]? = some counter →
    t.counters[other]? = some counter → key = other
  agrees : ∀ call ∈ t.calls, Agrees limiter t.counters call
  permit : ∀ permit ∈ t.permits, t.counters[permit.key]? = some permit.counter
  counted : ∀ key, (t.activeCount key).toNat = t.live key
  within : ∀ key, t.live key ≤ (limiter.limitOf key).toNat

theorem consistent_unused (limiter : ConcurrencyLimiter) : Consistent limiter unused where
  allocated key counter h := by simp [unused] at h
  distinct key other counter h := by simp [unused] at h
  agrees call h := by simp [unused] at h
  permit permit h := by simp [unused] at h
  counted key := by simp [unused, activeCount, live]
  within key := Nat.zero_le _

theorem activeCount_of_some {t : Throttle} (h : t.counters[key]? = some counter) :
    t.activeCount key = t.read counter := by
  rw [activeCount, h]

theorem getElem?_allocate (t : Throttle) (key other : String) :
    (t.allocate key).counters[other]? =
      if key = other then some t.cells.length else t.counters[other]? := by
  simp [allocate, Std.ExtTreeMap.getElem?_insert]

theorem counters_allocate {t : Throttle} {other : String} (hnone : t.counters[key]? = none)
    (hcounter : t.counters[other]? = some counter) :
    (t.allocate key).counters[other]? = some counter := by
  rw [getElem?_allocate, if_neg ?_]
  · exact hcounter
  · rintro rfl
    rw [hnone] at hcounter
    cases hcounter

theorem read_write {t : Throttle} (hlt : counter < t.cells.length) (value : UInt64) (other : ℕ) :
    (t.write counter value).read other = if counter = other then value else t.read other := by
  simp only [read, write, List.getD_eq_getElem?_getD, List.getElem?_set, hlt]
  split_ifs <;> rfl

theorem toNat_pred {t : Throttle} (hpos : 0 < (t.activeCount key).toNat) :
    (t.activeCount key - 1).toNat = (t.activeCount key).toNat - 1 := by
  have hle : 1 ≤ t.activeCount key := UInt64.le_iff_toNat_le.mpr hpos
  rw [UInt64.toNat_sub_of_le _ _ hle]
  rfl

/-- The live permits, one of them taken out. -/
theorem live_eq_eraseIdx {t : Throttle} (hpermit : t.permits[index]? = some permit) (key : String) :
    t.live key = (t.permits.eraseIdx index).countP (·.key = key) +
      if permit.key = key then 1 else 0 := by
  obtain ⟨hlt, rfl⟩ := List.getElem?_eq_some_iff.mp hpermit
  have hperm := List.getElem_cons_eraseIdx_perm hlt
  rw [live, ← hperm.countP_eq, List.countP_cons]
  simp

/-- What a call has read stays right when counters are added. -/
theorem Agrees.mono {limiter : ConcurrencyLimiter} {counters counters' : Std.ExtTreeMap String ℕ}
    (hkeep : ∀ (key : String) (counter : ℕ), counters[key]? = some counter →
      counters'[key]? = some counter) {call : Acquisition} (h : Agrees limiter counters call) :
    Agrees limiter counters' call := by
  obtain ⟨key, stage⟩ := call
  cases stage with
  | located limit counter => exact ⟨h.1, hkeep _ _ h.2⟩
  | comparing limit counter current => exact ⟨h.1, hkeep _ _ h.2.1, h.2.2⟩
  | limited limit => exact h
  | called | refused error | granted => trivial

theorem agrees_loopHead {limiter : ConcurrencyLimiter} {counters : Std.ExtTreeMap String ℕ}
    {limit : UInt64} (hlimit : limit = limiter.limitOf key)
    (hcounter : counters[key]? = some counter) (current : UInt64) :
    Agrees limiter counters ⟨key, loopHead key limit counter current⟩ := by
  unfold loopHead
  split_ifs with hfull
  · trivial
  · exact ⟨hlimit, hcounter, UInt64.not_le.mp hfull⟩

namespace Consistent

variable {limiter : ConcurrencyLimiter} {t : Throttle} (h : Consistent limiter t)
include h

/-- A change of the calls alone. -/
theorem of_calls {calls : List Acquisition}
    (hcalls : ∀ call ∈ calls, Agrees limiter t.counters call) :
    Consistent limiter { t with calls := calls } where
  allocated := h.allocated
  distinct := h.distinct
  agrees := hcalls
  permit := h.permit
  counted := h.counted
  within := h.within

theorem goOn {stage : Stage} (hagrees : Agrees limiter t.counters ⟨key, stage⟩) (index : ℕ) :
    Consistent limiter (t.goOn index key stage) := by
  refine h.of_calls fun call hcall ↦ ?_
  rcases List.mem_or_eq_of_mem_set hcall with hold | rfl
  · exact h.agrees call hold
  · exact hagrees

/-! ### A new counter -/

theorem activeCount_allocate (hnone : t.counters[key]? = none) (other : String) :
    (t.allocate key).activeCount other = t.activeCount other := by
  cases hother : t.counters[other]? with
  | some counter =>
    have hlt := h.allocated other counter hother
    rw [activeCount_of_some (counters_allocate hnone hother), activeCount_of_some hother]
    simp [read, allocate, List.getElem?_append_left hlt]
  | none =>
    rw [activeCount, activeCount, hother, getElem?_allocate]
    split_ifs
    · simp [read, allocate]
    · rw [hother]

theorem allocate (hnone : t.counters[key]? = none) :
    Consistent limiter (t.allocate key) where
  allocated other counter hcounter := by
    have hlength : (t.allocate key).cells.length = t.cells.length + 1 := by
      simp [Throttle.allocate]
    rw [getElem?_allocate] at hcounter
    split_ifs at hcounter
    · obtain rfl := Option.some.inj hcounter
      omega
    · have := h.allocated other counter hcounter
      omega
  distinct first second counter hfirst hsecond := by
    rw [getElem?_allocate] at hfirst hsecond
    split_ifs at hfirst hsecond with hkey hkey' hkey'
    · exact hkey.symm.trans hkey'
    · obtain rfl := Option.some.inj hfirst
      exact absurd (h.allocated second _ hsecond) (lt_irrefl _)
    · obtain rfl := Option.some.inj hsecond
      exact absurd (h.allocated first _ hfirst) (lt_irrefl _)
    · exact h.distinct first second counter hfirst hsecond
  agrees call hcall := (h.agrees call hcall).mono fun _ _ ↦ counters_allocate hnone
  permit permit hpermit := counters_allocate hnone (h.permit permit hpermit)
  counted other := by
    rw [h.activeCount_allocate hnone]
    exact h.counted other
  within := h.within

/-! ### Another value for a counter -/

/-- A write to the counter of a key changes the count of no other key. -/
theorem activeCount_write (hcounter : t.counters[key]? = some counter) (value : UInt64)
    (other : String) :
    (t.write counter value).activeCount other =
      if other = key then value else t.activeCount other := by
  have hlt := h.allocated key counter hcounter
  cases hother : t.counters[other]? with
  | some counter' =>
    have hother' : (t.write counter value).counters[other]? = some counter' := hother
    rw [activeCount_of_some hother', activeCount_of_some hother, read_write hlt]
    by_cases hkey : other = key
    · subst hkey
      obtain rfl : counter = counter' := Option.some.inj (hcounter.symm.trans hother)
      simp
    · have hne : counter ≠ counter' := fun heq ↦
        hkey (h.distinct other key counter (heq ▸ hother) hcounter)
      simp [hkey, hne]
  | none =>
    have hkey : other ≠ key := by
      rintro rfl
      rw [hother] at hcounter
      cases hcounter
    rw [if_neg hkey, activeCount, activeCount, hother]
    simp [write, hother]

/-- A write that keeps the books. -/
theorem of_write (hcounter : t.counters[key]? = some counter) {value : UInt64}
    {permits : List ConcurrencyPermit}
    (hpermits : ∀ permit ∈ permits, t.counters[permit.key]? = some permit.counter)
    (hcount : value.toNat = permits.countP (·.key = key))
    (hother : ∀ other, other ≠ key → permits.countP (·.key = other) = t.live other)
    (hwithin : value.toNat ≤ (limiter.limitOf key).toNat) :
    Consistent limiter { t.write counter value with permits := permits } where
  allocated other counter' hcounter' := by
    have hlength : (t.cells.set counter value).length = t.cells.length := List.length_set
    exact hlength ▸ h.allocated other counter' hcounter'
  distinct := h.distinct
  agrees := h.agrees
  permit := hpermits
  counted other := by
    have hactive := h.activeCount_write hcounter value other
    rw [live]
    by_cases hkey : other = key
    · rw [if_pos hkey] at hactive
      rw [← hkey] at hcount
      exact (congrArg UInt64.toNat hactive).trans hcount
    · rw [if_neg hkey] at hactive
      exact (congrArg UInt64.toNat hactive).trans ((h.counted other).trans (hother other hkey).symm)
  within other := by
    rw [live]
    by_cases hkey : other = key
    · subst hkey
      exact hcount ▸ hwithin
    · exact (hother other hkey).symm ▸ h.within other

/-- An exchange that succeeds below the limit. -/
theorem grant {current : UInt64} (hcounter : t.counters[key]? = some counter)
    (hread : t.read counter = current) (hbelow : current < limiter.limitOf key) :
    Consistent limiter (t.grant key counter current) := by
  have hlt : current.toNat < (limiter.limitOf key).toNat := UInt64.lt_iff_toNat_lt.mp hbelow
  have hsucc : (current + 1).toNat = current.toNat + 1 := by
    have hbound := (limiter.limitOf key).toNat_lt
    rw [UInt64.toNat_add]
    exact Nat.mod_eq_of_lt (by simpa using lt_of_le_of_lt hlt hbound)
  have hcurrent : current.toNat = t.live key := by
    rw [← h.counted, activeCount_of_some hcounter, hread]
  refine h.of_write hcounter ?_ ?_ ?_ (by omega)
  · intro permit hpermit
    rcases List.mem_append.mp hpermit with hold | hnew
    · exact h.permit permit hold
    · obtain rfl := List.mem_singleton.mp hnew
      exact hcounter
  · rw [hsucc, hcurrent, List.countP_append]
    simp [live]
  · intro other hother
    rw [List.countP_append]
    simp [live, Ne.symm hother]

/-- A live permit is counted, so that its drop does not go below zero. -/
theorem pos_of_permit (hpermit : t.permits[index]? = some permit) :
    0 < (t.activeCount permit.key).toNat := by
  rw [h.counted, live_eq_eraseIdx hpermit, if_pos rfl]
  exact Nat.succ_pos _

theorem activeCount_drop (hpermit : t.permits[index]? = some permit) (other : String) :
    (t.drop index).activeCount other =
      if other = permit.key then t.activeCount permit.key - 1 else t.activeCount other := by
  have hcounter := h.permit permit (List.mem_of_getElem? hpermit)
  rw [drop, hpermit, activeCount_of_some hcounter]
  exact h.activeCount_write hcounter _ other

theorem drop (index : ℕ) : Consistent limiter (t.drop index) := by
  unfold Throttle.drop
  cases hpermit : t.permits[index]? with
  | none => exact h
  | some permit =>
    have hcounter := h.permit permit (List.mem_of_getElem? hpermit)
    have hpos := h.pos_of_permit hpermit
    have hpred := toNat_pred hpos
    have hcount := h.counted permit.key
    have hlive := live_eq_eraseIdx hpermit permit.key
    have hwithin := h.within permit.key
    rw [if_pos rfl] at hlive
    simp only [← activeCount_of_some hcounter]
    refine h.of_write hcounter ?_ (by omega) ?_ (by omega)
    · exact fun other hother ↦ h.permit other (List.mem_of_mem_eraseIdx hother)
    · intro other hother
      rw [live_eq_eraseIdx hpermit other, if_neg (Ne.symm hother), Nat.add_zero]

/-! ### Moves -/

/-- Every step of a call keeps the invariant. -/
theorem step (index : ℕ) (spurious : Bool) :
    Consistent limiter (t.step limiter index spurious) := by
  unfold Throttle.step
  cases hcall : t.calls[index]? with
  | none => exact h
  | some call =>
    have hagrees := h.agrees call (List.mem_of_getElem? hcall)
    obtain ⟨key, stage⟩ := call
    cases stage with
    | called =>
      refine h.goOn ?_ index
      exact rfl
    | limited limit =>
      cases hcounter : t.counters[key]? with
      | some counter =>
        simp only [hcounter]
        refine h.goOn ?_ index
        exact ⟨hagrees, hcounter⟩
      | none =>
        simp only [hcounter]
        refine (h.allocate hcounter).goOn ?_ index
        exact ⟨hagrees, by rw [getElem?_allocate, if_pos rfl]⟩
    | located limit counter =>
      refine h.goOn ?_ index
      exact agrees_loopHead hagrees.1 hagrees.2 _
    | comparing limit counter current =>
      obtain ⟨hlimit, hcounter, hbelow⟩ := hagrees
      simp only
      split_ifs with hexchange
      · refine (h.grant hcounter hexchange.1 (hlimit ▸ hbelow)).goOn ?_ index
        trivial
      · refine h.goOn ?_ index
        exact agrees_loopHead hlimit hcounter _
    | refused error => exact h
    | granted => exact h

theorem move (m : Move) : Consistent limiter (t.move limiter m) := by
  cases m with
  | call key =>
    refine h.of_calls fun call hcall ↦ ?_
    rcases List.mem_append.mp hcall with hold | hnew
    · exact h.agrees call hold
    · obtain rfl := List.mem_singleton.mp hnew
      trivial
  | step index spurious => exact h.step index spurious
  | drop index => exact h.drop index

omit h in
/-- A list of moves keeps the invariant. -/
theorem foldl (moves : List Move) {t : Throttle} (h : Consistent limiter t) :
    Consistent limiter (moves.foldl (Throttle.move limiter) t) := by
  induction moves generalizing t with
  | nil => exact h
  | cons m moves ih => exact ih (h.move m)

end Consistent

def Move.Concerns (t : Throttle) (key : String) : Move → Prop
  | .call key' => key' = key
  | .step index _ => ∃ call, t.calls[index]? = some call ∧ call.key = key
  | .drop index => ∃ permit, t.permits[index]? = some permit ∧ permit.key = key

namespace Consistent

variable {limiter : ConcurrencyLimiter} {t : Throttle} (h : Consistent limiter t)
include h

/-- The steps of a call change no count but that of its key. -/
theorem activeCount_step {spurious : Bool} (hother : ¬ Move.Concerns t key (.step index spurious)) :
    (t.step limiter index spurious).activeCount key = t.activeCount key := by
  unfold Throttle.step
  cases hcall : t.calls[index]? with
  | none => rfl
  | some call =>
    have hagrees := h.agrees call (List.mem_of_getElem? hcall)
    have hkey : call.key ≠ key := fun heq ↦ hother ⟨call, hcall, heq⟩
    obtain ⟨key', stage⟩ := call
    cases stage with
    | limited limit =>
      cases hcounter : t.counters[key']? with
      | some counter => simp only [hcounter]; rfl
      | none =>
        simp only [hcounter]
        exact h.activeCount_allocate hcounter key
    | comparing limit counter current =>
      simp only
      split_ifs
      · exact (h.activeCount_write hagrees.2.1 _ key).trans (if_neg (Ne.symm hkey))
      · rfl
    | called | located limit counter | refused error | granted => rfl

theorem activeCount_move {m : Move} (hother : ¬ m.Concerns t key) :
    (t.move limiter m).activeCount key = t.activeCount key := by
  cases m with
  | call key' => rfl
  | step index spurious => exact h.activeCount_step hother
  | drop index =>
    cases hpermit : t.permits[index]? with
    | none => rw [Throttle.move, Throttle.drop, hpermit]
    | some permit =>
      have hkey : permit.key ≠ key := fun heq ↦ hother ⟨permit, hpermit, heq⟩
      exact (h.activeCount_drop hpermit key).trans (if_neg (Ne.symm hkey))

end Consistent

/-- What holds of a limiter at any time. -/
structure Safe (limiter : ConcurrencyLimiter) (t : Throttle) : Prop where
  counted : ∀ key, (t.activeCount key).toNat = t.live key
  within : ∀ key, t.activeCount key ≤ limiter.limitOf key
  dropped : ∀ (index : ℕ) (permit : ConcurrencyPermit), t.permits[index]? = some permit →
    ((t.move limiter (.drop index)).activeCount permit.key).toNat + 1 =
      (t.activeCount permit.key).toNat
  others : ∀ (m : Move) (key : String), ¬ m.Concerns t key →
    (t.move limiter m).activeCount key = t.activeCount key

theorem Consistent.safe {limiter : ConcurrencyLimiter} {t : Throttle} (h : Consistent limiter t) :
    Safe limiter t where
  counted := h.counted
  within key := by
    rw [UInt64.le_iff_toNat_le, h.counted]
    exact h.within key
  dropped index permit hpermit := by
    have hpos := h.pos_of_permit hpermit
    have hpred := toNat_pred hpos
    have hdrop := h.activeCount_drop hpermit permit.key
    rw [if_pos rfl] at hdrop
    rw [Throttle.move, hdrop]
    omega
  others _ _ := h.activeCount_move

end Throttle

namespace ConcurrencyLimiter

theorem one_le_max (limit : UInt64) : 1 ≤ max limit 1 := by
  rw [UInt64.max_def]
  split_ifs with hle
  · exact UInt64.le_refl 1
  · exact UInt64.le_of_lt (UInt64.not_le.mp hle)

theorem one_le_limitOf_setLimit {limiter : ConcurrencyLimiter}
    (h : ∀ key, 1 ≤ limiter.limitOf key) (set : String) (limit : UInt64) (key : String) :
    1 ≤ (limiter.setLimit set limit).limitOf key := by
  rw [limitOf, setLimit, Std.ExtTreeMap.getD_insert]
  split_ifs
  · exact one_le_max limit
  · exact h key

/-- A limiter that a program sets up has positive limits. -/
theorem one_le_limitOf_setUp (defaultLimit : UInt64) (settings : List (String × UInt64))
    (key : String) : 1 ≤ (setUp defaultLimit settings).limitOf key := by
  have hnew (key : String) : 1 ≤ (new defaultLimit).limitOf key := by
    simpa [new, limitOf] using one_le_max defaultLimit
  unfold setUp
  generalize new defaultLimit = limiter at hnew
  induction settings generalizing limiter with
  | nil => exact hnew key
  | cons setting settings ih => exact ih _ (one_le_limitOf_setLimit hnew setting.1 setting.2)

end ConcurrencyLimiter

end Runvane.Scheduler
