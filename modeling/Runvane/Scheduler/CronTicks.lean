import Runvane.Library.Gregorian
import Runvane.Scheduler.Cron

/-!
# Ticks of a cron schedule

`CronSchedule::next_tick_ms` of `scheduler/cron.rs` goes to the start of the next minute and tries
one minute after the other, for 2,628,000 of them. Instants are those of chrono's `DateTime<Utc>`,
counted in nanoseconds from the epoch, with the range chrono can represent as a parameter: a time
out of the range has no instant, and an addition that leaves the range panics. The fields of an
instant are the ones of the Gregorian calendar.

Within the range nothing panics, and the result is the least of the minute starts that the schedule
admits (`nextTickMs_isLeast`), before the epoch as well as after it.
-/

set_option autoImplicit false

namespace Runvane.Scheduler.Cron

open Library Library.Gregorian

/-! ### Instants -/

/-- The first and the last instant of a `DateTime<Utc>`, in nanoseconds since the epoch. -/
structure InstantRange where
  first : ℤ
  last : ℤ

/-- Whether an instant can be represented. -/
def InstantRange.Holds (range : InstantRange) (instant : ℤ) : Prop :=
  range.first ≤ instant ∧ instant ≤ range.last

instance (range : InstantRange) (instant : ℤ) : Decidable (range.Holds instant) :=
  inferInstanceAs (Decidable (range.first ≤ instant ∧ instant ≤ range.last))

/-- Between two instants all can be represented. -/
theorem InstantRange.Holds.between {range : InstantRange} {a b instant : ℤ} (ha : range.Holds a)
    (hb : range.Holds b) (hle : a ≤ instant) (hle' : instant ≤ b) : range.Holds instant :=
  ⟨ha.1.trans hle, hle'.trans hb.2⟩

inductive Panic
  | dateTimeOverflow
  deriving DecidableEq, Repr

/-- `Utc.timestamp_millis_opt`. -/
def timestampMillisOpt (range : InstantRange) (millis : ℤ) : Option ℤ :=
  if range.Holds (millis * 1000000) then some (millis * 1000000) else none

/-- `DateTime + TimeDelta`. -/
def addDelta (range : InstantRange) (instant delta : ℤ) : Except Panic ℤ :=
  if range.Holds (instant + delta) then .ok (instant + delta) else .error .dateTimeOverflow

section Fields

variable (instant : ℤ)

def second : ℤ := instant / 1000000000 % 60

def nanosecond : ℤ := instant % 1000000000

def minute : ℕ := (instant / 60000000000 % 60).toNat

def hour : ℕ := (instant / 3600000000000 % 24).toNat

/-- Days since the epoch. -/
def dayNumber : ℤ := instant / 86400000000000

def month : ℕ := (ofDayNumber (dayNumber instant)).2.1

def day : ℕ := (ofDayNumber (dayNumber instant)).2.2

/-- The epoch was on a Thursday. -/
def numDaysFromSunday : ℕ := ((dayNumber instant + 4) % 7).toNat

end Fields

/-! ### The search -/

/-- Whether the given instant satisfies all 5 schedule fields. -/
def CronSchedule.matchesUtc (s : CronSchedule) (instant : ℤ) : Bool :=
  s.minutes.contains (minute instant) && s.hours.contains (hour instant) &&
    s.daysOfMonth.contains (day instant) && s.months.contains (month instant) &&
    s.daysOfWeek.contains (numDaysFromSunday instant)

/-- Scans minute by minute. -/
def CronSchedule.scan (s : CronSchedule) (range : InstantRange) :
    ℕ → ℤ → Except Panic (Option ℤ)
  | 0, _ => .ok none
  | minutes + 1, instant =>
    if s.matchesUtc instant then .ok (some (instant / 1000000))
    else do
      let next ← addDelta range instant 60000000000
      s.scan range minutes next

/-- The next tick in epoch milliseconds strictly after `after`. -/
def CronSchedule.nextTickMs (s : CronSchedule) (range : InstantRange) (after : ℤ) :
    Except Panic (Option ℤ) :=
  match timestampMillisOpt range after with
  | none => .ok none
  | some instant => do
    let later ← addDelta range instant 60000000000
    let whole ← addDelta range later (-(second instant * 1000000000))
    let start ← addDelta range whole (-nanosecond instant)
    s.scan range 2628000 start

/-! ### Minute starts -/

/-- The start of the `k`-th minute after a time, in milliseconds. -/
def minuteStart (after : ℤ) (k : ℕ) : ℤ := (after / 60000 + k) * 60000

/-- The schedule admits a time in milliseconds: minute, hour, day and month of its date and its day
of the week, from Sunday, are all in the fields. -/
def CronSchedule.Admits (s : CronSchedule) (t : ℤ) : Prop :=
  (t / 60000 % 60).toNat ∈ s.minutes.allowed ∧ (t / 3600000 % 24).toNat ∈ s.hours.allowed ∧
    (∃ year month day, IsDate (t / 86400000) year month day ∧ day ∈ s.daysOfMonth.allowed ∧
      month ∈ s.months.allowed) ∧
    ((t / 86400000 + 4) % 7).toNat ∈ s.daysOfWeek.allowed

/-- The times the search is for: of the 2,628,000 minute starts that follow, those the schedule
admits. -/
def CronSchedule.ticks (s : CronSchedule) (after : ℤ) : Set ℤ :=
  {t | 60000 ∣ t ∧ after < t ∧ t ≤ minuteStart after 2628000 ∧ s.Admits t}

section Ticks

variable {s : CronSchedule} {range : InstantRange} {after : ℤ}

/-- The code's test is whether the schedule admits the time. -/
theorem CronSchedule.matchesUtc_iff (s : CronSchedule) (t : ℤ) :
    s.matchesUtc (t * 1000000) = true ↔ s.Admits t := by
  have hminute : minute (t * 1000000) = (t / 60000 % 60).toNat := by
    unfold minute
    omega
  have hhour : hour (t * 1000000) = (t / 3600000 % 24).toNat := by
    unfold hour
    omega
  have hnumber : dayNumber (t * 1000000) = t / 86400000 := by
    unfold dayNumber
    omega
  have hdate : (∃ year month day, IsDate (t / 86400000) year month day ∧
      day ∈ s.daysOfMonth.allowed ∧ month ∈ s.months.allowed) ↔
      day (t * 1000000) ∈ s.daysOfMonth.allowed ∧ month (t * 1000000) ∈ s.months.allowed := by
    unfold day month
    rw [hnumber]
    constructor
    · rintro ⟨year, month, day, hdate, hday, hmonth⟩
      rw [isDate_iff.mp hdate]
      exact ⟨hday, hmonth⟩
    · rintro ⟨hday, hmonth⟩
      exact ⟨_, _, _, isDate_iff.mpr rfl, hday, hmonth⟩
  unfold CronSchedule.matchesUtc CronSchedule.Admits
  rw [hdate, hminute, hhour, numDaysFromSunday, hnumber]
  simp only [Bool.and_eq_true, CronField.contains_iff, and_assoc]

/-- The ticks by the number of their minute. -/
theorem CronSchedule.mem_ticks {t : ℤ} :
    t ∈ s.ticks after ↔ ∃ k : ℕ, 1 ≤ k ∧ k ≤ 2628000 ∧ t = minuteStart after k ∧ s.Admits t := by
  unfold CronSchedule.ticks minuteStart
  constructor
  · rintro ⟨⟨q, rfl⟩, hafter, hlast, hadmits⟩
    refine ⟨(q - after / 60000).toNat, ?_, ?_, ?_, hadmits⟩ <;> omega
  · rintro ⟨k, hpos, hle, rfl, hadmits⟩
    refine ⟨⟨after / 60000 + k, Int.mul_comm _ _⟩, ?_, ?_, hadmits⟩ <;> omega

/-- The scan of the minutes from the `k`-th on finds the first that is admitted, or none. -/
theorem CronSchedule.scan_eq (s : CronSchedule) (n k : ℕ)
    (hrange : ∀ j, k ≤ j → j ≤ k + n → range.Holds (minuteStart after j * 1000000)) :
    (∃ j, k ≤ j ∧ j < k + n ∧ s.Admits (minuteStart after j) ∧
        (∀ i, k ≤ i → i < j → ¬ s.Admits (minuteStart after i)) ∧
        s.scan range n (minuteStart after k * 1000000) = .ok (some (minuteStart after j))) ∨
      (∀ j, k ≤ j → j < k + n → ¬ s.Admits (minuteStart after j)) ∧
        s.scan range n (minuteStart after k * 1000000) = .ok none := by
  induction n generalizing k with
  | zero =>
    refine .inr ⟨fun j hle hlt ↦ ?_, rfl⟩
    omega
  | succ n ih =>
    unfold CronSchedule.scan
    by_cases hadmits : s.Admits (minuteStart after k)
    · rw [if_pos ((s.matchesUtc_iff _).mpr hadmits)]
      refine .inl ⟨k, le_rfl, by omega, hadmits, fun i hle hlt ↦ ?_, ?_⟩
      · omega
      · rw [Int.mul_ediv_cancel _ (by norm_num)]
    · rw [if_neg fun hmatches ↦ hadmits ((s.matchesUtc_iff _).mp hmatches)]
      have hnext : minuteStart after k * 1000000 + 60000000000 =
          minuteStart after (k + 1) * 1000000 := by
        unfold minuteStart
        push_cast
        ring
      have hadd : addDelta range (minuteStart after k * 1000000) 60000000000 =
          .ok (minuteStart after (k + 1) * 1000000) := by
        unfold addDelta
        rw [hnext, if_pos (hrange (k + 1) (by omega) (by omega))]
      have hstep : (do
          let next ← addDelta range (minuteStart after k * 1000000) 60000000000
          s.scan range n next) = s.scan range n (minuteStart after (k + 1) * 1000000) := by
        rw [hadd]
        rfl
      rw [hstep]
      rcases ih (k + 1) fun j hle hlt ↦ hrange j (by omega) (by omega) with
        ⟨j, hle, hlt, hj, hfirst, hscan⟩ | ⟨hnone, hscan⟩
      · refine .inl ⟨j, by omega, by omega, hj, fun i hi hij ↦ ?_, hscan⟩
        rcases Nat.eq_or_lt_of_le hi with rfl | hi
        · exact hadmits
        · exact hfirst i hi hij
      · refine .inr ⟨fun j hj hlt ↦ ?_, hscan⟩
        rcases Nat.eq_or_lt_of_le hj with rfl | hj
        · exact hadmits
        · exact hnone j hj (by omega)

/-- The search starts at the next minute. -/
theorem CronSchedule.nextTickMs_eq (s : CronSchedule) (hafter : range.Holds (after * 1000000))
    (hminutes : ∀ k : ℕ, 1 ≤ k → k ≤ 2628001 → range.Holds (minuteStart after k * 1000000)) :
    s.nextTickMs range after = s.scan range 2628000 (minuteStart after 1 * 1000000) := by
  have hlater : range.Holds (after * 1000000 + 60000000000) := by
    refine hafter.between (hminutes 2 (by norm_num) (by norm_num)) ?_ ?_
    · omega
    · unfold minuteStart
      omega
  have hwhole : range.Holds
      (after * 1000000 + 60000000000 + -(second (after * 1000000) * 1000000000)) := by
    refine hafter.between hlater ?_ ?_ <;>
    · unfold second
      omega
  have hstart : after * 1000000 + 60000000000 + -(second (after * 1000000) * 1000000000) +
      -nanosecond (after * 1000000) = minuteStart after 1 * 1000000 := by
    unfold second nanosecond minuteStart
    omega
  unfold CronSchedule.nextTickMs timestampMillisOpt
  rw [if_pos hafter]
  simp only [addDelta, if_pos hlater, bind, Except.bind, if_pos hwhole, hstart,
    if_pos (hminutes 1 le_rfl (by norm_num))]

/-- Where the time and the following minutes can be represented, the next tick is the least minute
start that the schedule admits, and there is none exactly if it admits none. -/
theorem CronSchedule.nextTickMs_isLeast (s : CronSchedule) (range : InstantRange) (after : ℤ)
    (hafter : range.Holds (after * 1000000))
    (hminutes : ∀ k : ℕ, 1 ≤ k → k ≤ 2628001 → range.Holds (minuteStart after k * 1000000)) :
    (∀ t, s.nextTickMs range after = .ok (some t) ↔ IsLeast (s.ticks after) t) ∧
      (s.nextTickMs range after = .ok none ↔ s.ticks after = ∅) := by
  rw [s.nextTickMs_eq hafter hminutes]
  rcases s.scan_eq 2628000 1 fun j hle hlt ↦ hminutes j hle (by omega) with
    ⟨j, hpos, hlt, hadmits, hfirst, hscan⟩ | ⟨hnone, hscan⟩
  · have hleast : IsLeast (s.ticks after) (minuteStart after j) := by
      refine ⟨mem_ticks.mpr ⟨j, hpos, by omega, rfl, hadmits⟩, fun t ht ↦ ?_⟩
      obtain ⟨k, hk, -, rfl, hkadmits⟩ := mem_ticks.mp ht
      have hle : j ≤ k := Nat.le_of_not_lt fun hkj ↦ hfirst k hk hkj hkadmits
      unfold minuteStart
      omega
    rw [hscan]
    constructor
    · intro t
      rw [Except.ok.injEq, Option.some.injEq]
      constructor
      · rintro rfl
        exact hleast
      · exact hleast.unique
    · simp only [Except.ok.injEq, reduceCtorEq, false_iff]
      exact Set.nonempty_iff_ne_empty.mp ⟨_, hleast.1⟩
  · have hempty : s.ticks after = ∅ := by
      refine Set.eq_empty_of_forall_notMem fun t ht ↦ ?_
      obtain ⟨k, hk, hle, rfl, hadmits⟩ := mem_ticks.mp ht
      exact hnone k hk (by omega) hadmits
    rw [hscan, hempty]
    simp [IsLeast]

/-- A range that is wider than chrono's. -/
def wideRange : InstantRange := ⟨-10 ^ 30, 10 ^ 30⟩

/-- Every quarter of an hour, from 2026-09-06 12:05:30 on. -/
theorem nextTickMs_quarterHours : ∃ s, CronSchedule.parse "*/15 * * * *" = .ok s ∧
    IsLeast (s.ticks 1788696330000) 1788696900000 := by
  obtain ⟨s, hs⟩ := exists_of_isOk (x := CronSchedule.parse "*/15 * * * *") (by decide)
  have hticks := s.nextTickMs_isLeast wideRange 1788696330000 (by decide) fun k _ hk ↦ by
    unfold wideRange minuteStart InstantRange.Holds
    constructor <;> norm_num <;> omega
  have hnext : (CronSchedule.parse "*/15 * * * *").toOption.map
      (fun s ↦ s.nextTickMs wideRange 1788696330000) = some (.ok (some 1788696900000)) := by
    decide
  rw [hs] at hnext
  exact ⟨s, hs, (hticks.1 _).mp (Option.some.inj hnext)⟩

end Ticks

end Runvane.Scheduler.Cron
