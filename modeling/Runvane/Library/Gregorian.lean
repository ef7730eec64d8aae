import Mathlib

/-!
# The Gregorian calendar

Dates of the proleptic Gregorian calendar and the number of days from the first of January 1970. A
day number is the start of its year, the months before and the days before (`IsDate`); the year
starts are those of years with 365 or 366 days (`yearStart_succ`). `ofDayNumber` finds the date of a
day: the year from the mean length of a year, which is at most one off (`yearOf_spec`), and the
month by counting off the lengths of months (`countOff_eq`). Every day has exactly one date
(`isDate_iff`).
-/

set_option autoImplicit false

namespace Runvane.Library.Gregorian

/-! ### Years -/

/-- Leap years: every fourth, of the full centuries every fourth. -/
def isLeap (year : ℤ) : Bool := year % 4 = 0 ∧ (year % 100 ≠ 0 ∨ year % 400 = 0)

/-- The number of the first day of a year. Year 0 begins 719528 days before 1970. -/
def yearStart (year : ℤ) : ℤ :=
  365 * year + (year + 3) / 4 - (year + 99) / 100 + (year + 399) / 400 - 719528

variable (year : ℤ) {lengths : List ℕ}

theorem yearStart_succ :
    yearStart (year + 1) = yearStart year + if isLeap year then 366 else 365 := by
  -- each of the three quotients grows in the years that its divisor divides
  have hfour : (year + 1 + 3) / 4 = (year + 3) / 4 + if year % 4 = 0 then 1 else 0 := by
    split_ifs <;> omega
  have hcentury : (year + 1 + 99) / 100 = (year + 99) / 100 + if year % 100 = 0 then 1 else 0 := by
    split_ifs <;> omega
  have hcycle : (year + 1 + 399) / 400 = (year + 399) / 400 + if year % 400 = 0 then 1 else 0 := by
    split_ifs <;> omega
  have hleap : isLeap year = true ↔ year % 4 = 0 ∧ (year % 100 ≠ 0 ∨ year % 400 = 0) := by
    simp [isLeap]
  unfold yearStart
  rw [hfour, hcentury, hcycle]
  simp only [hleap]
  split_ifs <;> omega

example : yearStart 1970 = 0 := by decide

theorem yearStart_mono {a b : ℤ} (h : a ≤ b) : yearStart a ≤ yearStart b := by
  unfold yearStart
  omega

/-- The year of a day: the one the mean length of a year gives, or a neighbour. -/
def yearOf (day : ℤ) : ℤ :=
  let guess := 400 * (day + 719528) / 146097
  if day < yearStart guess then guess - 1
  else if yearStart (guess + 1) ≤ day then guess + 1
  else guess

theorem yearOf_spec (day : ℤ) :
    yearStart (yearOf day) ≤ day ∧ day < yearStart (yearOf day + 1) := by
  unfold yearOf
  simp only
  split_ifs with hbefore hafter
  · refine ⟨?_, by simpa using hbefore⟩
    unfold yearStart at *
    omega
  · refine ⟨hafter, ?_⟩
    unfold yearStart at *
    omega
  · exact ⟨Int.not_lt.mp hbefore, Int.not_le.mp hafter⟩

/-- The year of a day is the only one the day is in. -/
theorem yearOf_eq {day year : ℤ} (hstart : yearStart year ≤ day)
    (hend : day < yearStart (year + 1)) : yearOf day = year := by
  obtain ⟨hstart', hend'⟩ := yearOf_spec day
  rcases Int.lt_trichotomy (yearOf day) year with hlt | heq | hgt
  · have hmono := yearStart_mono (Int.add_one_le_of_lt hlt)
    omega
  · exact heq
  · have hmono := yearStart_mono (Int.add_one_le_of_lt hgt)
    omega

/-! ### Months -/

def monthLengths (year : ℤ) : List ℕ :=
  [31, if isLeap year then 29 else 28, 31, 30, 31, 30, 31, 31, 30, 31, 30, 31]

theorem sum_monthLengths : (monthLengths year).sum = if isLeap year then 366 else 365 := by
  unfold monthLengths
  split_ifs <;> rfl

/-- The months of a year make up its length. -/
theorem yearStart_succ_sum :
    yearStart (year + 1) = yearStart year + ((monthLengths year).sum : ℕ) := by
  rw [yearStart_succ, sum_monthLengths]
  split_ifs <;> rfl

/-- Counts off periods from an offset: the index of the one it falls in, and the offset there. -/
def countOff : List ℕ → ℕ → ℕ × ℕ
  | [], offset => (0, offset)
  | length :: rest, offset =>
    if offset < length then (0, offset)
    else
      let (index, left) := countOff rest (offset - length)
      (index + 1, left)

/-- Where an offset falls. -/
theorem countOff_eq {offset index left length : ℕ} (hlength : lengths[index]? = some length)
    (hleft : left < length) (hoffset : (lengths.take index).sum + left = offset) :
    countOff lengths offset = (index, left) := by
  induction lengths generalizing offset index with
  | nil => cases hlength
  | cons first rest ih =>
    unfold countOff
    cases index with
    | zero =>
      obtain rfl := Option.some.inj hlength
      obtain rfl : left = offset := by simpa using hoffset
      rw [if_pos hleft]
    | succ index =>
      rw [List.take_succ_cons, List.sum_cons] at hoffset
      have hrest := @ih (offset - first) index (by simpa using hlength) (by omega)
      rw [if_neg (by omega), hrest]

/-- An offset in a period is within all periods. -/
theorem sum_take_add_lt {index left length : ℕ} (hlength : lengths[index]? = some length)
    (hleft : left < length) : (lengths.take index).sum + left < lengths.sum := by
  obtain ⟨hindex, rfl⟩ := List.getElem?_eq_some_iff.mp hlength
  have hsplit := List.sum_take_add_sum_drop lengths index
  rw [List.drop_eq_getElem_cons hindex, List.sum_cons] at hsplit
  omega

/-- An offset within all periods falls in one. -/
theorem exists_period {offset : ℕ} (h : offset < lengths.sum) :
    ∃ index left length, lengths[index]? = some length ∧ left < length ∧
      (lengths.take index).sum + left = offset := by
  induction lengths generalizing offset with
  | nil => simp at h
  | cons first rest ih =>
    by_cases hfirst : offset < first
    · exact ⟨0, offset, first, rfl, hfirst, by simp⟩
    · rw [List.sum_cons] at h
      obtain ⟨index, left, length, hlength, hleft, hoffset⟩ := @ih (offset - first) (by omega)
      refine ⟨index + 1, left, length, by simpa using hlength, hleft, ?_⟩
      rw [List.take_succ_cons, List.sum_cons]
      omega

/-! ### Dates -/

/-- The date with the year, month and day of month is the one of a day number. -/
structure IsDate (number year : ℤ) (month day : ℕ) : Prop where
  month_pos : 1 ≤ month
  day_pos : 1 ≤ day
  day_le : ∃ length, (monthLengths year)[month - 1]? = some length ∧ day ≤ length
  number_eq : number =
    yearStart year + (((monthLengths year).take (month - 1)).sum : ℕ) + ((day - 1 : ℕ) : ℤ)

def ofDayNumber (number : ℤ) : ℤ × ℕ × ℕ :=
  let year := yearOf number
  let (month, day) := countOff (monthLengths year) (number - yearStart year).toNat
  (year, month + 1, day + 1)

/-- Every day number has one date. -/
theorem isDate_iff {number year : ℤ} {month day : ℕ} :
    IsDate number year month day ↔ ofDayNumber number = (year, month, day) := by
  constructor
  · rintro ⟨hmonth, hday, ⟨length, hlength, hle⟩, hnumber⟩
    have hlt := sum_take_add_lt hlength (Nat.sub_one_lt_of_le hday hle)
    have hyear : yearOf number = year := by
      refine yearOf_eq (by omega) ?_
      rw [yearStart_succ_sum]
      omega
    have hoffset : ((monthLengths year).take (month - 1)).sum + (day - 1) =
        (number - yearStart year).toNat := by omega
    have hcount := countOff_eq hlength (Nat.sub_one_lt_of_le hday hle) hoffset
    unfold ofDayNumber
    simp only [hyear, hcount, Nat.sub_add_cancel hmonth, Nat.sub_add_cancel hday]
  · intro h
    obtain ⟨hstart, hend⟩ := yearOf_spec number
    rw [yearStart_succ_sum] at hend
    have hwithin : (number - yearStart (yearOf number)).toNat <
        (monthLengths (yearOf number)).sum := by
      omega
    obtain ⟨index, left, length, hlength, hleft, hoffset⟩ := exists_period hwithin
    have hcount := countOff_eq hlength hleft hoffset
    unfold ofDayNumber at h
    simp only [hcount, Prod.mk.injEq] at h
    obtain ⟨rfl, rfl, rfl⟩ := h
    refine ⟨Nat.succ_pos _, Nat.succ_pos _, ⟨length, by simpa using hlength, hleft⟩, ?_⟩
    simp only [Nat.add_sub_cancel]
    omega

end Runvane.Library.Gregorian
