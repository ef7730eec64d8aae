import Mathlib.Data.Int.Interval
import Mathlib.Tactic.Common

/-!
# Fixed-width arithmetic on integers

Times are 64-bit signed and counters 32-bit unsigned in the code, and a release build wraps. Both
are modelled by the unbounded integers with the wrap written where the code adds: `i64Add` and
`u32Succ`. In range the wrap is invisible (`i64Add_of_mem`, `i64Sub_of_mem`, `u32Succ_of_lt`).
`i64SaturatingAdd` is the addition that stops at the ends of the range.
-/

set_option autoImplicit false

namespace Runvane.Library

/-- The least 64-bit signed integer. -/
def i64Min : ℤ := -2 ^ 63

/-- The greatest 64-bit signed integer. -/
def i64Max : ℤ := 2 ^ 63 - 1

/-- Addition of 64-bit signed integers, wrapping around. -/
def i64Add (a b : ℤ) : ℤ := Int.bmod (a + b) (2 ^ 64)

/-- Subtraction of 64-bit signed integers, wrapping around. -/
def i64Sub (a b : ℤ) : ℤ := Int.bmod (a - b) (2 ^ 64)

/-- Addition of 64-bit signed integers that stops at the ends of the range. -/
def i64SaturatingAdd (a b : ℤ) : ℤ := max i64Min (min i64Max (a + b))

/-- Subtraction of 64-bit signed integers that stops at the ends of the range. -/
def i64SaturatingSub (a b : ℤ) : ℤ := max i64Min (min i64Max (a - b))

/-- Multiplication of 64-bit signed integers that stops at the ends of the range. -/
def i64SaturatingMul (a b : ℤ) : ℤ := max i64Min (min i64Max (a * b))

/-- A 64-bit unsigned integer read as a signed one. -/
def i64OfU64 (n : ℕ) : ℤ := Int.bmod n (2 ^ 64)

/-- A 64-bit signed integer read as an unsigned one. -/
def u64OfI64 (n : ℤ) : ℕ := (n % 2 ^ 64).toNat

/-- The next 32-bit counter value, wrapping around. -/
def u32Succ (n : ℕ) : ℕ := (n + 1) % 2 ^ 32

/-- The next 64-bit counter value, wrapping around. -/
def u64Succ (n : ℕ) : ℕ := (n + 1) % 2 ^ 64

theorem i64Add_of_mem {a b : ℤ} (hlow : i64Min ≤ a + b) (hhigh : a + b ≤ i64Max) :
    i64Add a b = a + b := by
  unfold i64Add
  unfold i64Min at hlow
  unfold i64Max at hhigh
  exact Int.bmod_eq_of_le (by omega) (by omega)

/-- Adding a positive number gives a greater one exactly if the sum fits. -/
theorem lt_i64Add_iff {a b : ℤ} (ha : 0 ≤ a) (hb : 0 < b) (hamax : a ≤ i64Max)
    (hbmax : b ≤ i64Max) :
    a < i64Add a b ↔ a + b ≤ i64Max := by
  unfold i64Max at hamax hbmax
  constructor
  · intro hlt
    by_contra hover
    -- The sum wraps around to a negative number.
    have hwrap : i64Add a b = a + b - 2 ^ 64 := by
      unfold i64Max at hover
      unfold i64Add
      rw [Int.bmod_def]
      push_cast
      split_ifs <;> omega
    omega
  · intro hfits
    rw [i64Add_of_mem (by unfold i64Min; omega) hfits]
    omega

theorem i64Sub_of_mem {a b : ℤ} (hlow : i64Min ≤ a - b) (hhigh : a - b ≤ i64Max) :
    i64Sub a b = a - b := by
  unfold i64Sub
  unfold i64Min at hlow
  unfold i64Max at hhigh
  exact Int.bmod_eq_of_le (by omega) (by omega)

/-- A difference that does not fit is too small, never too large, if it is not negative. -/
theorem i64Sub_le {a b : ℤ} (h : b ≤ a) : i64Sub a b ≤ a - b := by
  unfold i64Sub
  rw [Int.bmod_def]
  push_cast
  split_ifs <;> omega

theorem u32Succ_of_lt {n : ℕ} (h : n + 1 < 2 ^ 32) : u32Succ n = n + 1 := Nat.mod_eq_of_lt h

/-- The counter changes even where it wraps around. -/
theorem u32Succ_ne (n : ℕ) : u32Succ n ≠ n := by
  unfold u32Succ
  omega

end Runvane.Library
