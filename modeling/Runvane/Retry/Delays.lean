import Runvane.Retry.Backoff

/-!
# Bounds and shape of the delays

What an accepted policy promises of its delays. `backoff_bounds` holds whatever the float operations
and the generator return: the clamp at the end of `raw_delay` and the range of the draws are enough.
`rawDelay_monotone` reads the float operations as exact (`Numerics.Exact`). The saturations on the
way are then invisible, and the delay is a curve over the rationals, rounded down and clamped once
(`rawDelay_eq_curve`).
-/

set_option autoImplicit false

namespace Runvane.Retry

open Library Domain

/-! ### Bounds -/

/-- Where a jittered delay lies, given the delay before jitter. -/
def InSpread (jitter : JitterKind) (raw delay : ℕ) : Prop :=
  match jitter with
  | .none => delay = raw
  | .full => delay ≤ raw
  | .equal => raw / 2 ≤ delay ∧ delay ≤ raw

theorem InSpread.delay_le {jitter : JitterKind} {raw delay : ℕ} (h : InSpread jitter raw delay) :
    delay ≤ raw := by
  cases jitter with
  | none => exact Eq.le h
  | full => exact h
  | equal => exact h.2

namespace Backoff

theorem exists_rawDelay (num : Numerics) (b : Backoff) (hpolicy : b.policy.validate = .ok ())
    (attemptIndex : ℕ) :
    ∃ raw, rawDelay num b attemptIndex = some raw ∧
      b.policy.baseDelayMs ≤ raw ∧ raw ≤ b.policy.maxDelayMs := by
  obtain ⟨-, -, hmax, hceiling⟩ := RetryPolicy.bounds_of_validate hpolicy
  have hbounds : b.policy.baseDelayMs ≤ min b.policy.maxDelayMs maxBackoffMs := by omega
  refine ⟨_, if_pos hbounds, le_max_left _ _, ?_⟩
  exact max_le hmax ((min_le_left _ _).trans (min_le_left _ _))

theorem exists_next {num : Numerics} {b : Backoff} (hpolicy : b.policy.validate = .ok ())
    {attemptIndex raw : ℕ} (hraw : rawDelay num b attemptIndex = some raw)
    (hbase : b.policy.baseDelayMs ≤ raw) :
    ∃ delay, next num b attemptIndex = some delay ∧ InSpread b.policy.jitter raw delay := by
  obtain ⟨-, hpos, -, -⟩ := RetryPolicy.bounds_of_validate hpolicy
  rw [next, hraw, Option.map_some]
  refine ⟨_, rfl, ?_⟩
  cases b.policy.jitter with
  | none => exact rfl
  | full =>
    have hdraw := num.draw_le b.seed b.drawn (max raw 1)
    have hone : max raw 1 = raw := by omega
    exact hdraw.trans_eq hone
  | equal =>
    -- A delay of one millisecond is split into no half and a draw of at most one.
    have hdraw := num.draw_le b.seed b.drawn (max (raw / 2) 1)
    dsimp only [InSpread]
    omega

end Backoff

/-- A delay of an accepted policy is far from the ends of the range of times. -/
theorem i64SaturatingAdd_delay {nowMs : ℤ} {delay maxDelayMs : ℕ} (hnow : nowMs ≤ i64Max)
    (hle : delay ≤ maxDelayMs) (hmax : maxDelayMs ≤ maxBackoffMs) :
    nowMs ≤ i64SaturatingAdd nowMs (i64OfU64 delay) ∧
      i64SaturatingAdd nowMs (i64OfU64 delay) ≤ i64SaturatingAdd nowMs maxDelayMs := by
  have hcast : i64OfU64 delay = delay := by
    unfold maxBackoffMs at hmax
    exact Int.bmod_eq_of_le (by omega) (by omega)
  rw [hcast]
  unfold i64SaturatingAdd
  omega

/-- For an accepted policy, whatever floats and draws come to: the delay before jitter is computed
and lies between the bounds of the policy, jitter leaves it within its spread, and the next attempt
is scheduled exactly if another is permitted, no earlier than now and no later than the greatest
delay from now. -/
theorem backoff_bounds (num : Numerics) (policy : RetryPolicy) (hpolicy : policy.validate = .ok ())
    (seed drawn attemptIndex attempts : ℕ) (retryable : Bool) (nowMs : ℤ)
    (hnow : i64Min ≤ nowMs ∧ nowMs ≤ i64Max) :
    (∃ raw delay, Backoff.rawDelay num ⟨policy, seed, drawn⟩ attemptIndex = some raw ∧
      policy.baseDelayMs ≤ raw ∧ raw ≤ policy.maxDelayMs ∧
      Backoff.next num ⟨policy, seed, drawn⟩ attemptIndex = some delay ∧
      InSpread policy.jitter raw delay) ∧
    (nextAttemptAtMs num policy attempts retryable nowMs seed = some none ↔
      policy.maxAttempts ≤ attempts ∨ policy.retryableOnly = true ∧ retryable = false) ∧
    (¬ (policy.maxAttempts ≤ attempts ∨ policy.retryableOnly = true ∧ retryable = false) →
      ∃ t, nextAttemptAtMs num policy attempts retryable nowMs seed = some (some t) ∧
        nowMs ≤ t ∧ t ≤ max nowMs (i64SaturatingAdd nowMs policy.maxDelayMs)) := by
  have hcomputed (drawn index : ℕ) : ∃ raw delay,
      Backoff.rawDelay num ⟨policy, seed, drawn⟩ index = some raw ∧
      policy.baseDelayMs ≤ raw ∧ raw ≤ policy.maxDelayMs ∧
      Backoff.next num ⟨policy, seed, drawn⟩ index = some delay ∧
      InSpread policy.jitter raw delay := by
    obtain ⟨raw, hraw, hlow, hhigh⟩ :=
      Backoff.exists_rawDelay num ⟨policy, seed, drawn⟩ hpolicy index
    obtain ⟨delay, hdelay, hspread⟩ := Backoff.exists_next hpolicy hraw hlow
    exact ⟨raw, delay, hraw, hlow, hhigh, hdelay, hspread⟩
  have hpermits : shouldRetry policy attempts retryable = true ↔
      ¬ (policy.maxAttempts ≤ attempts ∨ policy.retryableOnly = true ∧ retryable = false) := by
    unfold shouldRetry RetryPolicy.allowsAttempt
    cases policy.retryableOnly <;> cases retryable <;> simp
  obtain ⟨raw, delay, hraw, -, hhigh, hdelay, hspread⟩ := hcomputed 0 (attempts - 1)
  obtain ⟨-, -, -, hceiling⟩ := RetryPolicy.bounds_of_validate hpolicy
  have hanswer : nextAttemptAtMs num policy attempts retryable nowMs seed =
      if shouldRetry policy attempts retryable then
        some (some (i64SaturatingAdd nowMs (i64OfU64 delay)))
      else some none := by
    rw [nextAttemptAtMs, hdelay]
  refine ⟨hcomputed drawn attemptIndex, ?_, fun hnot ↦ ?_⟩
  · rw [hanswer, ← not_iff_not, ← hpermits]
    split_ifs with hretry
    · simp [hretry]
    · simp [hretry]
  · obtain ⟨hafter, hbefore⟩ :=
      i64SaturatingAdd_delay hnow.2 (hspread.delay_le.trans hhigh) hceiling
    rw [hanswer, if_pos (hpermits.mpr hnot)]
    exact ⟨_, rfl, hafter, hbefore.trans (le_max_right _ _)⟩

/-- An operation on rationals, as an operation on floats. -/
def onFinite (op : ℚ → ℚ → ℚ) : F64 → F64 → F64
  | .finite x, .finite y => .finite (op x y)
  | _, _ => .nan

/-- Exact operations, and a generator that always returns the greatest number it may. -/
def exactNumerics : Numerics where
  ofU64 n := .finite n
  sub := onFinite (· - ·)
  mul := onFinite (· * ·)
  powf := onFinite fun x y ↦ x ^ ⌊y⌋.toNat
  draw _ _ hi := hi
  draw_le _ _ _ := le_rfl

theorem backoff_bounds_default :
    ({} : RetryPolicy).validate = .ok () ∧
    ∃ t, nextAttemptAtMs exactNumerics {} 1 false 0 7 = some (some t) ∧
      0 ≤ t ∧ t ≤ max 0 (i64SaturatingAdd 0 60000) := by
  have hpolicy : ({} : RetryPolicy).validate = .ok () := by decide
  have hbounds := backoff_bounds exactNumerics {} hpolicy 7 0 0 1 false 0 (by decide)
  exact ⟨hpolicy, hbounds.2.2 (by decide)⟩

/-! ### Shape -/

/-- The float operations are exact on rationals. -/
structure Numerics.Exact (num : Numerics) : Prop where
  ofU64 : ∀ n, num.ofU64 n = .finite n
  sub : ∀ x y, num.sub (.finite x) (.finite y) = .finite (x - y)
  mul : ∀ x y, num.mul (.finite x) (.finite y) = .finite (x * y)
  powf : ∀ x (n : ℕ), num.powf (.finite x) (.finite n) = .finite (x ^ n)

theorem exact_exactNumerics : exactNumerics.Exact where
  ofU64 _ := rfl
  sub _ _ := rfl
  mul _ _ := rfl
  powf x n := by simp [exactNumerics, onFinite]

/-- The curve of a policy with the given multiplier, before rounding. -/
def delayCurve (policy : RetryPolicy) (growth : ℚ) (attemptIndex : ℕ) : ℚ :=
  match policy.backoff with
  | .fixed => policy.baseDelayMs
  | .linear => policy.baseDelayMs + policy.baseDelayMs * (growth - 1) * attemptIndex
  | .exponential => policy.baseDelayMs * growth ^ attemptIndex

theorem le_finite (x y : ℚ) : (F64.finite x).le (.finite y) = decide (x ≤ y) := by
  have hiff : x < y ∨ x = y ↔ x ≤ y := le_iff_lt_or_eq.symm
  rw [Bool.eq_iff_iff]
  simp [F64.le, F64.lt, hiff]

/-- The multiplier of an accepted policy is a rational of at least 1. -/
theorem exists_growth {policy : RetryPolicy} (hpolicy : policy.validate = .ok ()) :
    ∃ growth : ℚ, policy.multiplier = .finite growth ∧ 1 ≤ growth := by
  unfold RetryPolicy.validate at hpolicy
  split_ifs at hpolicy with _ _ _ _ hmultiplier
  cases hgrowth : policy.multiplier with
  | nan | inf negative => simp [hgrowth, F64.isFinite] at hmultiplier
  | finite growth =>
    refine ⟨growth, rfl, ?_⟩
    simpa [hgrowth, F64.isFinite, F64.lt] using hmultiplier

theorem nonnegFinite_finite {x : ℚ} (h : 0 ≤ x) : nonnegFinite (.finite x) = true := by
  simp [nonnegFinite, F64.isFinite, le_finite, h]

/-- With exact floats the delay before jitter is the curve, rounded down and clamped. -/
theorem rawDelay_eq_curve {num : Numerics} (hexact : num.Exact) {b : Backoff}
    (hpolicy : b.policy.validate = .ok ()) {growth : ℚ}
    (hgrowth : b.policy.multiplier = .finite growth) (hone : 1 ≤ growth) (attemptIndex : ℕ) :
    b.rawDelay num attemptIndex = some (max b.policy.baseDelayMs
      (min b.policy.maxDelayMs ⌊delayCurve b.policy growth attemptIndex⌋.toNat)) := by
  obtain ⟨-, -, hmax, hceiling⟩ := RetryPolicy.bounds_of_validate hpolicy
  have hceil : min b.policy.maxDelayMs maxBackoffMs = b.policy.maxDelayMs := min_eq_left hceiling
  have hroom : b.policy.maxDelayMs ≤ u64Max := hceiling.trans (by decide)
  unfold Backoff.rawDelay
  simp only [hceil, hgrowth, le_finite, u64Clamp, if_pos hmax, hexact.ofU64, hexact.sub,
    hexact.mul, hexact.powf]
  congr 2
  unfold delayCurve
  cases b.policy.backoff with
  | fixed => simp
  | linear =>
    by_cases hflat : growth ≤ 1
    · obtain rfl : growth = 1 := le_antisymm hflat hone
      simp
    · have hstep : 0 ≤ (b.policy.baseDelayMs : ℚ) * (growth - 1) * attemptIndex := by
        have hsub : 0 ≤ growth - 1 := by linarith
        positivity
      have hfloor := Int.floor_nonneg.mpr hstep
      simp only [hflat, decide_false, Bool.false_eq_true, if_false, nonnegFinite_finite hstep,
        if_true, f64ToU64, Int.floor_natCast_add]
      omega
  | exponential =>
    by_cases hflat : growth ≤ 1
    · obtain rfl : growth = 1 := le_antisymm hflat hone
      simp
    · have hval : 0 ≤ (b.policy.baseDelayMs : ℚ) * growth ^ attemptIndex := by positivity
      simp only [hflat, decide_false, Bool.false_eq_true, if_false, nonnegFinite_finite hval,
        if_true, f64ToU64]
      omega

theorem delayCurve_mono (policy : RetryPolicy) {growth : ℚ} (hone : 1 ≤ growth) {i j : ℕ}
    (hij : i ≤ j) : delayCurve policy growth i ≤ delayCurve policy growth j := by
  have hcast : (i : ℚ) ≤ j := by exact_mod_cast hij
  have hsub : 0 ≤ growth - 1 := by linarith
  unfold delayCurve
  cases policy.backoff with
  | fixed => exact le_rfl
  | linear =>
    dsimp only
    gcongr
  | exponential =>
    dsimp only
    gcongr

theorem delayCurve_zero (policy : RetryPolicy) (growth : ℚ) :
    delayCurve policy growth 0 = policy.baseDelayMs := by
  unfold delayCurve
  cases policy.backoff with
  | fixed => rfl
  | linear => simp
  | exponential => simp

/-- A curve that at least doubles its base, or adds it, gains a millisecond with every attempt. -/
theorem le_delayCurve {policy : RetryPolicy} (hcurved : policy.backoff ≠ .fixed)
    (hbase : 0 < policy.baseDelayMs) {growth : ℚ} (htwo : 2 ≤ growth) (i : ℕ) :
    (i : ℚ) ≤ delayCurve policy growth i := by
  have hcast : (1 : ℚ) ≤ policy.baseDelayMs := by exact_mod_cast hbase
  unfold delayCurve
  cases hkind : policy.backoff with
  | fixed => exact absurd hkind hcurved
  | linear =>
    calc (i : ℚ) = 1 * (2 - 1) * i := by ring
      _ ≤ policy.baseDelayMs * (growth - 1) * i := by gcongr
      _ ≤ policy.baseDelayMs + policy.baseDelayMs * (growth - 1) * i := by linarith
  | exponential =>
    calc (i : ℚ) ≤ 2 ^ i := by exact_mod_cast Nat.lt_two_pow_self.le
      _ ≤ growth ^ i := by gcongr
      _ ≤ policy.baseDelayMs * growth ^ i := le_mul_of_one_le_left (by positivity) hcast

/-- With exact floats, the delays of an accepted policy start at its base and never decrease. A
linear or exponential curve with a multiplier of at least 2 is at the greatest delay from index
86,400,000 on. -/
theorem rawDelay_monotone (num : Numerics) (hexact : num.Exact) (b : Backoff)
    (hpolicy : b.policy.validate = .ok ()) :
    (∀ i j, i ≤ j → ∃ first second, b.rawDelay num i = some first ∧
      b.rawDelay num j = some second ∧ first ≤ second) ∧
    b.rawDelay num 0 = some b.policy.baseDelayMs ∧
    (b.policy.backoff ≠ .fixed → (F64.finite 2).le b.policy.multiplier →
      ∀ i, 86400000 ≤ i → b.rawDelay num i = some b.policy.maxDelayMs) := by
  obtain ⟨-, hbase, hmax, hceiling⟩ := RetryPolicy.bounds_of_validate hpolicy
  obtain ⟨growth, hgrowth, hone⟩ := exists_growth hpolicy
  have hcurve := rawDelay_eq_curve hexact hpolicy hgrowth hone
  refine ⟨fun i j hij ↦ ⟨_, _, hcurve i, hcurve j, ?_⟩, ?_, fun hcurved htwo i hi ↦ ?_⟩
  · have hfloor := Int.floor_mono (delayCurve_mono b.policy hone hij)
    omega
  · rw [hcurve, delayCurve_zero, Int.floor_natCast, Int.toNat_natCast]
    congr 1
    omega
  · rw [hgrowth, le_finite, decide_eq_true_iff] at htwo
    have hfloor : (i : ℤ) ≤ ⌊delayCurve b.policy growth i⌋ :=
      Int.le_floor.mpr (by exact_mod_cast le_delayCurve hcurved hbase htwo i)
    unfold maxBackoffMs at hceiling
    rw [hcurve]
    congr 1
    omega

theorem rawDelay_monotone_default :
    ({} : RetryPolicy).validate = .ok () ∧
    ∀ i, 86400000 ≤ i → Backoff.rawDelay exactNumerics ⟨{}, 7, 0⟩ i = some 60000 := by
  have hpolicy : ({} : RetryPolicy).validate = .ok () := by decide
  obtain ⟨-, -, hsaturated⟩ :=
    rawDelay_monotone exactNumerics exact_exactNumerics ⟨{}, 7, 0⟩ hpolicy
  exact ⟨hpolicy, hsaturated (by decide) (by decide)⟩

end Runvane.Retry
