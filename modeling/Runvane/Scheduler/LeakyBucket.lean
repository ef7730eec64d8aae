import Runvane.Retry.Backoff

/-!
# The leaky bucket

`LeakyBucket` of `scheduler/throttle.rs`: a level that rises with the cost of every call that is
let through and leaks at a constant rate. Levels, costs and rates are 64-bit floats in the code and
exact rationals here; times stay 64-bit integers.

A call sets the time of the last update to its own time, also if that is earlier. When the clock
steps back and comes forward again, the interval in between leaks twice, and more is let through
than capacity and rate allow (`leaks_twice`). `accepted_le_of_orderly` is the bound for runs in
which no interval is counted twice. `retry_after_sufficient` says that a caller who waits for as
long as it is told is let through.
-/

set_option autoImplicit false

namespace Runvane.Scheduler

open Library Domain Retry

/-! ### The bucket -/

/-- The part of a bucket that is under its lock. -/
structure BucketState where
  level : ℚ
  lastUpdateMs : ℤ
  deriving DecidableEq, Repr

/-- A bucket. Its capacity and its rate are bounded from below when it is made. -/
structure LeakyBucket where
  capacity : ℚ
  leakRatePerSec : ℚ
  state : BucketState
  one_le_capacity : 1 ≤ capacity
  le_leakRatePerSec : 1 / 1000 ≤ leakRatePerSec

namespace LeakyBucket

def new (burstCapacity leakRatePerSec : ℚ) (nowMs : ℤ) : LeakyBucket where
  capacity := max burstCapacity 1
  leakRatePerSec := max leakRatePerSec (1 / 1000)
  state := ⟨0, nowMs⟩
  one_le_capacity := le_max_right _ _
  le_leakRatePerSec := le_max_right _ _

/-- The time that has passed since the last update; none if the clock has stepped back. -/
def elapsedMs (b : LeakyBucket) (nowMs : ℤ) : ℤ := max (i64Sub nowMs b.state.lastUpdateMs) 0

/-- The level at the given time, before the call is looked at. -/
def levelAt (b : LeakyBucket) (nowMs : ℤ) : ℚ :=
  let leaked := (b.elapsedMs nowMs : ℚ) / 1000 * b.leakRatePerSec
  max (b.state.level - leaked) 0

/-- Adds the cost to the bucket if there is room for it. Otherwise returns for how many milliseconds
to wait. -/
def tryAcquire (b : LeakyBucket) (cost : ℚ) (nowMs : ℤ) : Except ℕ Unit × LeakyBucket :=
  if b.levelAt nowMs + cost ≤ b.capacity then
    (.ok (), { b with state := ⟨b.levelAt nowMs + cost, nowMs⟩ })
  else
    let excess := b.levelAt nowMs + cost - b.capacity
    let waitSecs := excess / b.leakRatePerSec
    let waitMs := f64ToU64 (.finite ⌈waitSecs * 1000⌉)
    (.error (max waitMs 1), { b with state := ⟨b.levelAt nowMs, nowMs⟩ })

/-- The bucket after calls, each with its cost and its time. -/
def run (b : LeakyBucket) (calls : List (ℚ × ℤ)) : LeakyBucket :=
  calls.foldl (fun b call ↦ (b.tryAcquire call.1 call.2).2) b

/-- The total cost of the calls that are let through. -/
def acceptedCost (b : LeakyBucket) : List (ℚ × ℤ) → ℚ
  | [] => 0
  | call :: calls =>
    (if (b.tryAcquire call.1 call.2).1 = .ok () then call.1 else 0) +
      acceptedCost (b.tryAcquire call.1 call.2).2 calls

end LeakyBucket

def latestMs (startMs : ℤ) (calls : List (ℚ × ℤ)) : ℤ :=
  calls.foldl (fun latest call ↦ max latest call.2) startMs

namespace LeakyBucket

variable (b : LeakyBucket) (cost : ℚ) (nowMs : ℤ)

theorem leakRatePerSec_pos : 0 < b.leakRatePerSec := by
  have h := b.le_leakRatePerSec
  linarith

theorem capacity_pos : 0 < b.capacity := by
  have h := b.one_le_capacity
  linarith

/-- What a call can do: it lets the cost in, or leaves the level as it has leaked. -/
theorem tryAcquire_cases :
    (b.levelAt nowMs + cost ≤ b.capacity ∧
      b.tryAcquire cost nowMs =
        (.ok (), { b with state := ⟨b.levelAt nowMs + cost, nowMs⟩ })) ∨
    (b.capacity < b.levelAt nowMs + cost ∧
      b.tryAcquire cost nowMs =
        (.error (max (f64ToU64 (.finite
            ⌈(b.levelAt nowMs + cost - b.capacity) / b.leakRatePerSec * 1000⌉)) 1),
          { b with state := ⟨b.levelAt nowMs, nowMs⟩ })) := by
  unfold tryAcquire
  by_cases hroom : b.levelAt nowMs + cost ≤ b.capacity
  · exact .inl ⟨hroom, if_pos hroom⟩
  · exact .inr ⟨not_le.mp hroom, if_neg hroom⟩

/-- The level never exceeds the capacity. -/
theorem level_tryAcquire_le {b : LeakyBucket} (h : b.state.level ≤ b.capacity) :
    (b.tryAcquire cost nowMs).2.state.level ≤ (b.tryAcquire cost nowMs).2.capacity := by
  obtain ⟨hroom, heq⟩ | ⟨-, heq⟩ := b.tryAcquire_cases cost nowMs
  · rw [heq]
    exact hroom
  · rw [heq]
    have helapsed : (0 : ℚ) ≤ b.elapsedMs nowMs := by exact_mod_cast le_max_right _ _
    have hleaked : 0 ≤ (b.elapsedMs nowMs : ℚ) / 1000 * b.leakRatePerSec := by
      have hrate := b.leakRatePerSec_pos
      positivity
    exact max_le (by linarith) b.capacity_pos.le

/-! ### How much is let through -/

/-- A call at the given time counts no interval twice. It comes at or before the last update, so
that nothing leaks, or the last update was at the latest time so far. -/
def CountsOnce (b : LeakyBucket) (latest nowMs : ℤ) : Prop :=
  nowMs ≤ b.state.lastUpdateMs ∧ b.state.lastUpdateMs - nowMs ≤ 2 ^ 63 ∨
    b.state.lastUpdateMs ≤ nowMs ∧ b.state.lastUpdateMs = latest

instance (b : LeakyBucket) (latest nowMs : ℤ) : Decidable (b.CountsOnce latest nowMs) :=
  inferInstanceAs (Decidable (_ ∨ _))

/-- All calls of a run count no interval twice. -/
def Orderly (b : LeakyBucket) (latest : ℤ) : List (ℚ × ℤ) → Prop
  | [] => True
  | call :: calls =>
    b.CountsOnce latest call.2 ∧
      Orderly (b.tryAcquire call.1 call.2).2 (max latest call.2) calls

instance decidableOrderly :
    (b : LeakyBucket) → (latest : ℤ) → (calls : List (ℚ × ℤ)) → Decidable (b.Orderly latest calls)
  | _, _, [] => inferInstanceAs (Decidable True)
  | b, latest, call :: calls =>
    @instDecidableAnd _ _ _
      (decidableOrderly (b.tryAcquire call.1 call.2).2 (max latest call.2) calls)

theorem elapsedMs_of_le (hle : nowMs ≤ b.state.lastUpdateMs)
    (hfits : b.state.lastUpdateMs - nowMs ≤ 2 ^ 63) : b.elapsedMs nowMs = 0 := by
  have hexact : i64Sub nowMs b.state.lastUpdateMs = nowMs - b.state.lastUpdateMs :=
    i64Sub_of_mem (by unfold i64Min; omega) (by unfold i64Max; omega)
  rw [elapsedMs, hexact]
  omega

theorem elapsedMs_le (hle : b.state.lastUpdateMs ≤ nowMs) :
    b.elapsedMs nowMs ≤ nowMs - b.state.lastUpdateMs :=
  max_le (i64Sub_le hle) (by omega)

/-- A call that counts no interval twice lets no more leak than the latest time moves. -/
theorem elapsedMs_le_of_countsOnce {latest : ℤ} (h : b.CountsOnce latest nowMs) :
    b.elapsedMs nowMs ≤ max latest nowMs - latest := by
  rcases h with ⟨hle, hfits⟩ | ⟨hle, hlast⟩
  · rw [b.elapsedMs_of_le nowMs hle hfits]
    omega
  · have helapsed := b.elapsedMs_le nowMs hle
    omega

/-- The step of the bound: what a call lets in, and the room it leaves, come out of the room before
and of what has leaked. -/
theorem accepted_add_room_le :
    (if (b.tryAcquire cost nowMs).1 = .ok () then cost else 0) +
        (b.capacity - (b.tryAcquire cost nowMs).2.state.level) ≤
      b.capacity - b.state.level + b.elapsedMs nowMs / 1000 * b.leakRatePerSec := by
  have hlevel : b.state.level - b.elapsedMs nowMs / 1000 * b.leakRatePerSec ≤ b.levelAt nowMs :=
    le_max_left _ _
  obtain ⟨-, heq⟩ | ⟨-, heq⟩ := b.tryAcquire_cases cost nowMs
  · rw [heq, if_pos rfl]
    dsimp only
    linarith
  · rw [heq, if_neg (by simp)]
    dsimp only
    linarith

theorem capacity_tryAcquire : (b.tryAcquire cost nowMs).2.capacity = b.capacity := by
  obtain ⟨-, heq⟩ | ⟨-, heq⟩ := b.tryAcquire_cases cost nowMs <;> rw [heq]

theorem leakRatePerSec_tryAcquire :
    (b.tryAcquire cost nowMs).2.leakRatePerSec = b.leakRatePerSec := by
  obtain ⟨-, heq⟩ | ⟨-, heq⟩ := b.tryAcquire_cases cost nowMs <;> rw [heq]

theorem acceptedCost_le {b : LeakyBucket} {latest : ℤ} {calls : List (ℚ × ℤ)}
    (hlevel : b.state.level ≤ b.capacity) (horderly : b.Orderly latest calls) :
    b.acceptedCost calls ≤ b.capacity - b.state.level +
      b.leakRatePerSec * (latestMs latest calls - latest) / 1000 := by
  -- The room left in the bucket pays for what is let in; it grows by what leaks.
  induction calls generalizing b latest with
  | nil =>
    simp only [acceptedCost, latestMs, List.foldl_nil, sub_self, mul_zero, zero_div, add_zero]
    linarith
  | cons call calls ih =>
    obtain ⟨hcall, hcalls⟩ := horderly
    have hrest := ih (level_tryAcquire_le call.1 call.2 hlevel) hcalls
    rw [capacity_tryAcquire, leakRatePerSec_tryAcquire] at hrest
    have hstep := b.accepted_add_room_le call.1 call.2
    have helapsed : (b.elapsedMs call.2 : ℚ) ≤ (max latest call.2 : ℤ) - latest := by
      exact_mod_cast b.elapsedMs_le_of_countsOnce call.2 hcall
    have hleaked : (b.elapsedMs call.2 : ℚ) / 1000 * b.leakRatePerSec ≤
        ((max latest call.2 : ℤ) - latest : ℚ) / 1000 * b.leakRatePerSec := by
      have hrate := b.leakRatePerSec_pos
      gcongr
    have hlatest : latestMs latest (call :: calls) = latestMs (max latest call.2) calls := rfl
    have hsplit : b.leakRatePerSec * (latestMs latest (call :: calls) - latest) / 1000 =
        b.leakRatePerSec * (latestMs (max latest call.2) calls - (max latest call.2 : ℤ)) / 1000 +
          ((max latest call.2 : ℤ) - latest : ℚ) / 1000 * b.leakRatePerSec := by
      rw [hlatest]
      ring
    rw [acceptedCost, hsplit]
    linarith

/-- In every run whose calls count no interval twice, the cost that is let through is bounded by the
capacity and by what can leak between the start and the latest time. -/
theorem accepted_le_of_orderly (burst rate : ℚ) (startMs : ℤ) (calls : List (ℚ × ℤ))
    (h : (new burst rate startMs).Orderly startMs calls) :
    (new burst rate startMs).acceptedCost calls ≤
      (new burst rate startMs).capacity +
        (new burst rate startMs).leakRatePerSec * (latestMs startMs calls - startMs) / 1000 := by
  have hbound := acceptedCost_le (new burst rate startMs).capacity_pos.le h
  have hempty : (new burst rate startMs).state.level = 0 := rfl
  rw [hempty, sub_zero] at hbound
  exact hbound

/-- A full bucket, emptied, filled again, and then a clock that steps back and comes forward once
more. -/
def steppedBack : List (ℚ × ℤ) := [(1, 0), (1, 1000), (0, 0), (1, 1000)]

theorem leaks_twice :
    (∀ call ∈ steppedBack, 0 ≤ call.1) ∧
    ¬ (new 1 1 0).acceptedCost steppedBack ≤
      (new 1 1 0).capacity +
        (new 1 1 0).leakRatePerSec * (latestMs 0 steppedBack - (0 : ℤ)) / 1000 := by
  decide +kernel

theorem accepted_le_with_late_step_back :
    (new 1 1 0).Orderly 0 [(1, 0), (1, 1000), (1, 400)] ∧
    (new 1 1 0).acceptedCost [(1, 0), (1, 1000), (1, 400)] ≤
      (new 1 1 0).capacity +
        (new 1 1 0).leakRatePerSec *
          (latestMs 0 [(1, 0), (1, 1000), (1, 400)] - (0 : ℤ)) / 1000 := by
  have horderly : (new 1 1 0).Orderly 0 [(1, 0), (1, 1000), (1, 400)] := by decide +kernel
  exact ⟨horderly, accepted_le_of_orderly 1 1 0 _ horderly⟩

/-! ### How long to wait -/

theorem elapsedMs_after {wait : ℕ} (hfits : (wait : ℤ) ≤ i64Max)
    (hlast : b.state.lastUpdateMs = nowMs) : b.elapsedMs (nowMs + wait) = wait := by
  have hexact : i64Sub (nowMs + wait) b.state.lastUpdateMs = nowMs + wait - b.state.lastUpdateMs :=
    i64Sub_of_mem (by unfold i64Min; omega) (by omega)
  rw [elapsedMs, hexact]
  omega

/-- A wait that fits into a time is not cut off by the cast. -/
theorem le_of_f64ToU64_le {x : ℚ} {wait : ℕ} (hfits : (wait : ℤ) ≤ i64Max)
    (h : f64ToU64 (.finite ⌈x⌉) ≤ wait) : x ≤ wait := by
  have hceil : ⌈x⌉.toNat ≤ wait := by
    rw [f64ToU64, Int.floor_intCast] at h
    unfold u64Max at h
    unfold i64Max at hfits
    omega
  have hint : ⌈x⌉ ≤ (wait : ℤ) := by omega
  exact_mod_cast Int.ceil_le.mp hint

/-- After a refusal and the time it asks for there is room, whether or not the bucket has run empty
by then. -/
theorem levelAt_after_refusal {wait : ℕ} (hcost : cost ≤ b.capacity) (hfits : (wait : ℤ) ≤ i64Max)
    (hlast : b.state.lastUpdateMs = nowMs)
    (hwait : (b.state.level + cost - b.capacity) / b.leakRatePerSec * 1000 ≤ wait) :
    b.levelAt (nowMs + wait) + cost ≤ b.capacity := by
  have hrate := b.leakRatePerSec_pos
  have hleaked : b.state.level + cost - b.capacity ≤ (wait : ℚ) / 1000 * b.leakRatePerSec := by
    calc b.state.level + cost - b.capacity
        = (b.state.level + cost - b.capacity) / b.leakRatePerSec * 1000 / 1000 *
            b.leakRatePerSec := by field_simp
      _ ≤ (wait : ℚ) / 1000 * b.leakRatePerSec := by gcongr
  have hlevel : b.levelAt (nowMs + wait) =
      max (b.state.level - (wait : ℚ) / 1000 * b.leakRatePerSec) 0 := by
    rw [levelAt, b.elapsedMs_after nowMs hfits hlast, Int.cast_natCast]
  have hroom : b.levelAt (nowMs + wait) ≤ b.capacity - cost := by
    rw [hlevel]
    exact max_le (by linarith) (by linarith)
  linarith

/-- A call that is refused is told to wait for at least a millisecond; made again after that time or
any longer one, with no call in between, it is let through. The two times are no further apart than
an `i64` can say, so that their difference is exact. -/
theorem retry_after_sufficient (b : LeakyBucket) (cost : ℚ) (nowMs : ℤ) (w : ℕ)
    (hcost : cost ≤ b.capacity) (hrefused : (b.tryAcquire cost nowMs).1 = .error w) :
    1 ≤ w ∧ ∀ w' : ℕ, w ≤ w' → (w' : ℤ) ≤ i64Max →
      ((b.tryAcquire cost nowMs).2.tryAcquire cost (nowMs + w')).1 = .ok () := by
  obtain ⟨-, heq⟩ | ⟨-, heq⟩ := b.tryAcquire_cases cost nowMs
  · rw [heq] at hrefused
    cases hrefused
  · rw [heq] at hrefused ⊢
    obtain rfl := Except.error.inj hrefused
    refine ⟨le_max_right _ _, fun w' hle hfits ↦ ?_⟩
    have hwait := le_of_f64ToU64_le hfits ((le_max_left _ _).trans hle)
    have hroom := levelAt_after_refusal { b with state := ⟨b.levelAt nowMs, nowMs⟩ } cost nowMs
      hcost hfits rfl hwait
    rw [tryAcquire, if_pos hroom]

def fullBucket : LeakyBucket := (new 1 1 0).run [(1, 0)]

theorem retry_after_full :
    (fullBucket.tryAcquire 1 500).1 = .error 500 ∧
    ∀ w' : ℕ, 500 ≤ w' → (w' : ℤ) ≤ i64Max →
      ((fullBucket.tryAcquire 1 500).2.tryAcquire 1 (500 + w')).1 = .ok () := by
  have hrefused : (fullBucket.tryAcquire 1 500).1 = .error 500 := by decide +kernel
  exact ⟨hrefused, (retry_after_sufficient fullBucket 1 500 500 (by decide +kernel) hrefused).2⟩

end LeakyBucket

end Runvane.Scheduler
