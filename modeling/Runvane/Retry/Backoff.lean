import Runvane.Library.MachineInt
import Runvane.Domain.Workflow

/-!
# Backoff arithmetic

`retry/backoff.rs`: the delay before the next attempt of a failed run. Two parts of it lie outside
the repository and are parameters (`Numerics`): the rounding of float operations, and the seeded
generator that jitter is drawn from, of which only the range of a draw is used.

`u64::clamp` panics when its bounds are out of order, which is `none` here. An accepted policy has
them in order, so it always gets a delay (`exists_nextAttemptAtMs`).
-/

set_option autoImplicit false

namespace Runvane.Retry

open Library Domain

/-- What delays are computed with: float operations on 64-bit floats, and a seeded generator whose
`index`-th draw from `0..=hi` depends on the seed alone. -/
structure Numerics where
  ofU64 : ℕ → F64
  sub : F64 → F64 → F64
  mul : F64 → F64 → F64
  powf : F64 → F64 → F64
  draw : (seed index hi : ℕ) → ℕ
  draw_le : ∀ seed index hi, draw seed index hi ≤ hi

/-- The greatest 64-bit unsigned integer. -/
def u64Max : ℕ := 2 ^ 64 - 1

/-- The saturating cast of a float to a 64-bit unsigned integer. -/
def f64ToU64 : F64 → ℕ
  | .nan => 0
  | .inf negative => if negative then 0 else u64Max
  | .finite value => min u64Max ⌊value⌋.toNat

/-- The comparison `x >= 0.0` of a finite float. -/
def nonnegFinite (x : F64) : Bool := x.isFinite && F64.le (.finite 0) x

/-- `u64::clamp`, which panics on bounds that are out of order. -/
def u64Clamp (value low high : ℕ) : Option ℕ :=
  if low ≤ high then some (max low (min high value)) else none

/-- A backoff generator bound to one policy, with its seeded random source. -/
structure Backoff where
  policy : RetryPolicy
  seed : ℕ
  drawn : ℕ := 0

namespace Backoff

variable (num : Numerics)

/-- The delay for `attemptIndex` before jitter. -/
def rawDelay (b : Backoff) (attemptIndex : ℕ) : Option ℕ :=
  let base := b.policy.baseDelayMs
  let ceiling := min b.policy.maxDelayMs maxBackoffMs
  let growth := b.policy.multiplier
  let raw :=
    match b.policy.backoff with
    | .fixed => base
    | .linear =>
      if growth.le (.finite 1) then base
      else
        let step := num.mul (num.mul (num.ofU64 base) (num.sub growth (.finite 1)))
          (num.ofU64 attemptIndex)
        if nonnegFinite step then min u64Max (base + f64ToU64 step) else ceiling
    | .exponential =>
      if growth.le (.finite 1) then base
      else
        let val := num.mul (num.ofU64 base) (num.powf growth (num.ofU64 attemptIndex))
        if nonnegFinite val then min (f64ToU64 val) ceiling else ceiling
  u64Clamp raw base ceiling

/-- The jittered delay for `attemptIndex`. -/
def next (b : Backoff) (attemptIndex : ℕ) : Option ℕ :=
  (rawDelay num b attemptIndex).map fun raw ↦
    match b.policy.jitter with
    | .none => raw
    | .full => num.draw b.seed b.drawn (max raw 1)
    | .equal => raw / 2 + num.draw b.seed b.drawn (max (raw / 2) 1)

end Backoff

/-- Whether another attempt is permitted after `attempts` ones. -/
def shouldRetry (policy : RetryPolicy) (attempts : ℕ) (failureRetryable : Bool) : Bool :=
  policy.allowsAttempt attempts && (!policy.retryableOnly || failureRetryable)

/-- The next dispatch time for a failed attempt, `some none` when retries are exhausted, and `none`
when the computation panics. -/
def nextAttemptAtMs (num : Numerics) (policy : RetryPolicy) (attempts : ℕ) (failureRetryable : Bool)
    (nowMs : ℤ) (seed : ℕ) : Option (Option ℤ) :=
  if shouldRetry policy attempts failureRetryable then
    match Backoff.next num ⟨policy, seed, 0⟩ (attempts - 1) with
    | some delay => some (some (i64SaturatingAdd nowMs (i64OfU64 delay)))
    | none => none
  else some none

/-- An accepted policy always gets its answer: the bounds of the clamp are in order. -/
theorem exists_nextAttemptAtMs (num : Numerics) {policy : RetryPolicy}
    (hpolicy : policy.validate = .ok ()) (attempts : ℕ) (failureRetryable : Bool) (nowMs : ℤ)
    (seed : ℕ) : ∃ answer, nextAttemptAtMs num policy attempts failureRetryable nowMs seed =
      some answer := by
  obtain ⟨_, _, hmax, hceiling⟩ := RetryPolicy.bounds_of_validate hpolicy
  have hbounds : policy.baseDelayMs ≤ min policy.maxDelayMs maxBackoffMs := by omega
  unfold nextAttemptAtMs
  split_ifs with hretry
  · simp [Backoff.next, Backoff.rawDelay, u64Clamp, hbounds]
  · exact ⟨none, rfl⟩

end Runvane.Retry
