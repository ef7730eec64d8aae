import Runvane.Engine.Expr
import Runvane.Library.Results
import Runvane.Library.SortedSearch

/-!
# Cron expressions

`scheduler/cron.rs`: the parser for the five fields of a cron expression (`CronSchedule.parse`). A
field is a list of parts, each a wildcard, a step, a range or a number (`parsePart`), and what
remains of it is the sorted list of the values it allows (`CronField`), in which a value is looked
up by binary search. Numbers are read as `u32::from_str` reads them, with a sign in front if it is a
plus (`parseU32`).

What a part is read as is said once, without the errors (`PartReads`, `parsePart_eq_ok_iff`).
-/

set_option autoImplicit false

namespace Runvane.Scheduler.Cron

open Engine (trim isWhitespace)
open Library

/-! ### Numbers -/

/-- Why a text is no unsigned number, as `std::num::IntErrorKind` has it. -/
inductive IntErrorKind
  | empty
  | invalidDigit
  | posOverflow
  deriving DecidableEq, Repr

/-- The message of a `ParseIntError`. -/
def IntErrorKind.text : IntErrorKind → String
  | .empty => "cannot parse integer from empty string"
  | .invalidDigit => "invalid digit found in string"
  | .posOverflow => "number too large to fit in target type"

/-- Reads on after the digits that make up `value`. -/
def parseDigits : ℕ → List Char → Except IntErrorKind ℕ
  | value, [] => .ok value
  | value, c :: rest =>
    if c.isDigit then
      if value * 10 + (c.toNat - 48) < 2 ^ 32 then parseDigits (value * 10 + (c.toNat - 48)) rest
      else .error .posOverflow
    else .error .invalidDigit

/-- `str::parse::<u32>`. A sign alone is no number, and a minus is no digit. -/
def parseU32 : List Char → Except IntErrorKind ℕ
  | [] => .error .empty
  | c :: rest =>
    if rest = [] ∧ (c = '+' ∨ c = '-') then .error .invalidDigit
    else if c = '+' then parseDigits 0 rest
    else parseDigits 0 (c :: rest)

/-! ### Fields -/

/-- Errors encountered when parsing cron schedules. -/
inductive CronError
  | invalidFieldCount (found : ℕ)
  | valueOutOfRange (field : String) (value min max : ℤ)
  | malformedField (field reason : String)
  deriving DecidableEq, Repr

/-- The values from `first` to `last`, both included. -/
def inclusive (first last : ℕ) : List ℕ := List.range' first (last + 1 - first)

/-- The values from `value` on in steps, up to `max` and to the end of the 32-bit range. -/
def stepLoop (max step : ℕ) : ℕ → ℕ → List ℕ
  | 0, _ => []
  | fuel + 1, value =>
    if value ≤ max then
      value :: if value + step < 2 ^ 32 then stepLoop max step fuel (value + step) else []
    else []

section Parts

variable (field : String) (min max : ℕ)

def checkRange (value : ℕ) : Except CronError Unit :=
  if value < min ∨ max < value then .error (.valueOutOfRange field value min max) else .ok ()

/-- Reads a number, or says what it was to be. -/
def parseNumber (what : String) (text : List Char) : Except CronError ℕ :=
  (parseU32 text).mapError fun e ↦ .malformedField field s!"invalid {what}: {e.text}"

/-- The part after `*/`. Every step adds one at least, so there are no more values than in the range
of the field. -/
def parseStep (text : List Char) : Except CronError (List ℕ) := do
  let step ← parseNumber field "step" text
  if step = 0 then .error (.malformedField field "step must be greater than 0")
  else .ok (stepLoop max step (max + 1 - min) min)

/-- A part with a hyphen. What follows a second hyphen is not looked at. -/
def parseRange (part : List Char) : Except CronError (List ℕ) :=
  match part.splitOn '-' with
  | start :: stop :: _ => do
    let first ← parseNumber field "range start" start
    let last ← parseNumber field "range end" stop
    checkRange field min max first
    checkRange field min max last
    if last < first then
      .error (.malformedField field s!"range start {first} exceeds end {last}")
    else .ok (inclusive first last)
  | _ => .error (.malformedField field "missing range upper bound")

def parseValue (part : List Char) : Except CronError (List ℕ) := do
  let value ← parseNumber field "integer" part
  checkRange field min max value
  .ok [value]

/-- A part without white space around it. -/
def parseTrimmed (part : List Char) : Except CronError (List ℕ) :=
  if part = [] then .error (.malformedField field "empty sub-expression in list")
  else if part = ['*'] then .ok (inclusive min max)
  else
    match part with
    | '*' :: '/' :: step => parseStep field min max step
    | part => if '-' ∈ part then parseRange field min max part else parseValue field min max part

def parsePart (text : List Char) : Except CronError (List ℕ) :=
  parseTrimmed field min max (trim text)

end Parts

/-- A parsed set of allowed values for a single cron field, in order and without repetitions. -/
structure CronField where
  allowed : List ℕ
  sorted : allowed.Pairwise (· < ·)
  deriving DecidableEq

namespace CronField

def contains (f : CronField) (value : ℕ) : Bool := (binarySearch f.allowed value).isSome

def parse (expr field : String) (min max : ℕ) : Except CronError CronField := do
  let values ← (expr.toList.splitOn ',').mapM (parsePart field min max)
  pure ⟨sortDedup values.flatten, pairwise_lt_sortDedup values.flatten⟩

theorem contains_iff (f : CronField) (value : ℕ) : f.contains value = true ↔ value ∈ f.allowed :=
  isSome_binarySearch (f.sorted.imp le_of_lt) value

end CronField

/-! ### Schedules -/

structure CronSchedule where
  raw : String
  minutes : CronField
  hours : CronField
  daysOfMonth : CronField
  months : CronField
  daysOfWeek : CronField

/-- `str::split_whitespace`. -/
def splitWhitespace (chars : List Char) : List (List Char) :=
  (chars.splitOnP isWhitespace).filter (· ≠ [])

def CronSchedule.parse (expr : String) : Except CronError CronSchedule :=
  match splitWhitespace expr.toList with
  | [minute, hour, day, month, weekday] => do
    let minutes ← CronField.parse (String.ofList minute) "minute" 0 59
    let hours ← CronField.parse (String.ofList hour) "hour" 0 23
    let daysOfMonth ← CronField.parse (String.ofList day) "day_of_month" 1 31
    let months ← CronField.parse (String.ofList month) "month" 1 12
    let daysOfWeek ← CronField.parse (String.ofList weekday) "day_of_week" 0 6
    pure ⟨String.ofList (trim expr.toList), minutes, hours, daysOfMonth, months, daysOfWeek⟩
  | fields => .error (.invalidFieldCount fields.length)

/-! ### What a number is read as -/

section Numbers

variable {text digits : List Char} {n : ℕ}

/-- A decimal number: digits, and at least one. -/
def IsNumber (digits : List Char) : Prop := digits ≠ [] ∧ ∀ c ∈ digits, c.isDigit = true

/-- The value of digits that follow those of `value`. -/
def decimalFrom (value : ℕ) (digits : List Char) : ℕ :=
  digits.foldl (fun value c ↦ value * 10 + (c.toNat - 48)) value

/-- The value of a decimal number. -/
def decimal (digits : List Char) : ℕ := decimalFrom 0 digits

/-- A number with or without a plus in front, and its value. -/
def ReadsAs (text : List Char) (n : ℕ) : Prop :=
  ∃ digits, (text = digits ∨ text = '+' :: digits) ∧ IsNumber digits ∧ decimal digits = n

theorem le_decimalFrom (value : ℕ) (digits : List Char) : value ≤ decimalFrom value digits := by
  induction digits generalizing value with
  | nil => exact le_rfl
  | cons c rest ih =>
    refine le_trans ?_ (ih (value * 10 + (c.toNat - 48)))
    omega

theorem parseDigits_eq_ok_iff {value : ℕ} (hvalue : value < 2 ^ 32) :
    parseDigits value digits = .ok n ↔
      (∀ c ∈ digits, c.isDigit = true) ∧ decimalFrom value digits = n ∧ n < 2 ^ 32 := by
  induction digits generalizing value with
  | nil =>
    simp only [parseDigits, Except.ok.injEq, List.not_mem_nil, false_implies, implies_true,
      true_and]
    constructor
    · rintro rfl
      exact ⟨rfl, hvalue⟩
    · exact fun h ↦ h.1
  | cons c rest ih =>
    unfold parseDigits
    have hstep : decimalFrom value (c :: rest) =
        decimalFrom (value * 10 + (c.toNat - 48)) rest := rfl
    rw [hstep, List.forall_mem_cons]
    by_cases hdigit : c.isDigit = true
    · rw [if_pos hdigit]
      by_cases hfits : value * 10 + (c.toNat - 48) < 2 ^ 32
      · rw [if_pos hfits, ih hfits]
        simp only [hdigit, true_and]
      · rw [if_neg hfits]
        have hle := le_decimalFrom (value * 10 + (c.toNat - 48)) rest
        constructor
        · intro h
          cases h
        · rintro ⟨-, rfl, hlt⟩
          exact absurd (lt_of_le_of_lt hle hlt) hfits
    · rw [if_neg hdigit]
      simp [hdigit]

/-- What `u32::from_str` takes. -/
theorem parseU32_eq_ok_iff : parseU32 text = .ok n ↔ ReadsAs text n ∧ n < 2 ^ 32 := by
  have hzero : (0 : ℕ) < 2 ^ 32 := by norm_num
  cases text with
  | nil =>
    constructor
    · intro h
      cases h
    · rintro ⟨⟨digits, hnil | hnil, hnumber, -⟩, -⟩
      · exact absurd hnil.symm hnumber.1
      · cases hnil
  | cons c rest =>
    simp only [parseU32]
    by_cases hsign : rest = [] ∧ (c = '+' ∨ c = '-')
    · rw [if_pos hsign]
      obtain ⟨rfl, hc⟩ := hsign
      constructor
      · intro h
        cases h
      · rintro ⟨⟨digits, rfl | hplus, hnumber, -⟩, -⟩
        · have hdigit := hnumber.2 c List.mem_cons_self
          rcases hc with rfl | rfl <;> exact absurd hdigit (by decide)
        · exact absurd (List.cons.inj hplus).2.symm hnumber.1
    · rw [if_neg hsign]
      by_cases hplus : c = '+'
      · subst hplus
        have hrest : rest ≠ [] := fun hrest ↦ hsign ⟨hrest, .inl rfl⟩
        rw [if_pos rfl, parseDigits_eq_ok_iff hzero]
        constructor
        · rintro ⟨hdigits, hvalue, hlt⟩
          exact ⟨⟨rest, .inr rfl, ⟨hrest, hdigits⟩, hvalue⟩, hlt⟩
        · rintro ⟨⟨digits, rfl | hcons, hnumber, hvalue⟩, hlt⟩
          · exact absurd (hnumber.2 '+' List.mem_cons_self) (by decide)
          · obtain rfl := (List.cons.inj hcons).2
            exact ⟨hnumber.2, hvalue, hlt⟩
      · rw [if_neg hplus, parseDigits_eq_ok_iff hzero]
        constructor
        · rintro ⟨hdigits, hvalue, hlt⟩
          exact ⟨⟨c :: rest, .inl rfl, ⟨List.cons_ne_nil _ _, hdigits⟩, hvalue⟩, hlt⟩
        · rintro ⟨⟨digits, rfl | hcons, hnumber, hvalue⟩, hlt⟩
          · exact ⟨hnumber.2, hvalue, hlt⟩
          · exact absurd (List.cons.inj hcons).1 hplus

theorem IsNumber.readsAs (h : IsNumber digits) : ReadsAs digits (decimal digits) :=
  ⟨digits, .inl rfl, h, rfl⟩

/-- The characters a number is made of. -/
theorem ReadsAs.isDigit_or (h : ReadsAs text n) {c : Char} (hc : c ∈ text) :
    c.isDigit = true ∨ c = '+' := by
  obtain ⟨digits, rfl | rfl, hnumber, -⟩ := h
  · exact .inl (hnumber.2 c hc)
  · rcases List.mem_cons.mp hc with rfl | hc
    · exact .inr rfl
    · exact .inl (hnumber.2 c hc)

/-- A character that is neither a digit nor a plus is in no number. -/
theorem ReadsAs.not_mem (h : ReadsAs text n) {c : Char} (hdigit : c.isDigit = false)
    (hplus : c ≠ '+') : c ∉ text := by
  intro hc
  rcases h.isDigit_or hc with hc | hc
  · rw [hdigit] at hc
    cases hc
  · exact hplus hc

/-- A number does not begin with a star. -/
theorem ReadsAs.exists_cons (h : ReadsAs text n) : ∃ c rest, text = c :: rest ∧ c ≠ '*' := by
  cases text with
  | nil =>
    obtain ⟨digits, hnil | hnil, hnumber, -⟩ := h
    · exact absurd hnil.symm hnumber.1
    · cases hnil
  | cons c rest =>
    refine ⟨c, rest, rfl, ?_⟩
    rintro rfl
    exact absurd List.mem_cons_self (h.not_mem (by decide) (by decide))

end Numbers

/-! ### What a part is read as -/

section Reading

variable {field : String} {min max : ℕ} {part : List Char} {values : List ℕ}

/-- The parts that are taken, and the values they stand for. -/
inductive PartReads (min max : ℕ) : List Char → List ℕ → Prop
  | every : PartReads min max ['*'] (inclusive min max)
  | step {text : List Char} {step : ℕ} (hread : ReadsAs text step) (hfits : step < 2 ^ 32)
      (hpos : 1 ≤ step) :
      PartReads min max ('*' :: '/' :: text) (stepLoop max step (max + 1 - min) min)
  | range {part start stop : List Char} {more : List (List Char)} {first last : ℕ}
      (hsplit : part.splitOn '-' = start :: stop :: more) (hfirst : ReadsAs start first)
      (hlast : ReadsAs stop last) (hmin : min ≤ first) (hle : first ≤ last) (hmax : last ≤ max) :
      PartReads min max part (inclusive first last)
  | value {text : List Char} {value : ℕ} (hread : ReadsAs text value) (hmin : min ≤ value)
      (hmax : value ≤ max) : PartReads min max text [value]

theorem parseNumber_eq_ok_iff {what : String} {text : List Char} {n : ℕ} :
    parseNumber field what text = .ok n ↔ ReadsAs text n ∧ n < 2 ^ 32 := by
  rw [← parseU32_eq_ok_iff]
  unfold parseNumber
  constructor
  · exact mapError_eq_ok
  · intro h
    rw [h]
    rfl

theorem checkRange_eq_ok_iff {value : ℕ} {done : Unit} :
    checkRange field min max value = .ok done ↔ min ≤ value ∧ value ≤ max := by
  unfold checkRange
  split_ifs with hout
  · simp only [false_iff]
    omega
  · simp only [true_iff]
    omega

theorem parseStep_eq_ok_iff {text : List Char} :
    parseStep field min max text = .ok values ↔ ∃ step, ReadsAs text step ∧ step < 2 ^ 32 ∧
      1 ≤ step ∧ stepLoop max step (max + 1 - min) min = values := by
  unfold parseStep
  simp only [bind_ok_iff, parseNumber_eq_ok_iff, and_assoc]
  refine exists_congr fun step ↦ and_congr_right fun _ ↦ and_congr_right fun _ ↦ ?_
  by_cases hzero : step = 0
  · simp [hzero]
  · rw [if_neg hzero, Except.ok.injEq]
    exact (and_iff_right (Nat.one_le_iff_ne_zero.mpr hzero)).symm

theorem parseRange_eq_ok_iff (field : String) (hfits : max < 2 ^ 32) :
    parseRange field min max part = .ok values ↔ ∃ start stop more first last,
      part.splitOn '-' = start :: stop :: more ∧ ReadsAs start first ∧ ReadsAs stop last ∧
      min ≤ first ∧ first ≤ last ∧ last ≤ max ∧ inclusive first last = values := by
  unfold parseRange
  split
  · next start stop more hsplit =>
    simp only [bind_ok_iff, parseNumber_eq_ok_iff, checkRange_eq_ok_iff, exists_const]
    constructor
    · rintro ⟨first, ⟨hfirst, -⟩, last, ⟨hlast, -⟩, ⟨hmin, -⟩, ⟨-, hmax⟩, h⟩
      split_ifs at h with hlt
      exact ⟨start, stop, more, first, last, hsplit, hfirst, hlast, hmin, Nat.le_of_not_lt hlt,
        hmax, Except.ok.inj h⟩
    · rintro ⟨start', stop', more', first, last, heq, hfirst, hlast, hmin, hle, hmax, hvalues⟩
      obtain ⟨rfl, hrest⟩ := List.cons.inj (hsplit.symm.trans heq)
      obtain ⟨rfl, -⟩ := List.cons.inj hrest
      refine ⟨first, ⟨hfirst, by omega⟩, last, ⟨hlast, by omega⟩, ⟨hmin, by omega⟩,
        ⟨by omega, hmax⟩, ?_⟩
      rw [if_neg (Nat.not_lt_of_le hle), hvalues]
  · next hshort =>
    simp only [reduceCtorEq, false_iff]
    rintro ⟨start, stop, more, -, -, hsplit, -⟩
    exact hshort start stop more hsplit

theorem parseValue_eq_ok_iff (field : String) (hfits : max < 2 ^ 32) :
    parseValue field min max part = .ok values ↔
      ∃ value, ReadsAs part value ∧ min ≤ value ∧ value ≤ max ∧ [value] = values := by
  unfold parseValue
  simp only [bind_ok_iff, parseNumber_eq_ok_iff, checkRange_eq_ok_iff, Except.ok.injEq]
  refine exists_congr fun value ↦ ?_
  constructor
  · rintro ⟨⟨hread, -⟩, -, ⟨hmin, hmax⟩, hvalues⟩
    exact ⟨hread, hmin, hmax, hvalues⟩
  · rintro ⟨hread, hmin, hmax, hvalues⟩
    exact ⟨⟨hread, by omega⟩, (), ⟨hmin, hmax⟩, hvalues⟩

/-- A text with a hyphen begins with its first piece. -/
theorem eq_append_of_splitOn {text start stop : List Char} {more : List (List Char)}
    (h : text.splitOn '-' = start :: stop :: more) : ∃ rest, text = start ++ '-' :: rest := by
  have htext := @List.intercalate_splitOn _ text _ _ '-'
  rw [h] at htext
  exact ⟨['-'].intercalate (stop :: more), by rw [← htext]; simp [List.intercalate]⟩

/-- A part that does not begin with a star is a range or a single number. -/
theorem parseTrimmed_cons {c : Char} (hc : c ≠ '*') (rest : List Char) :
    parseTrimmed field min max (c :: rest) =
      if '-' ∈ c :: rest then parseRange field min max (c :: rest)
      else parseValue field min max (c :: rest) := by
  unfold parseTrimmed
  rw [if_neg (List.cons_ne_nil _ _), if_neg fun h ↦ hc (List.cons.inj h).1]
  split
  · next hstar => exact absurd (List.cons.inj hstar).1 hc
  · rfl

/-- The parts that `parseTrimmed` takes. -/
theorem parseTrimmed_eq_ok_iff (hfits : max < 2 ^ 32) :
    parseTrimmed field min max part = .ok values ↔ PartReads min max part values := by
  constructor
  · intro h
    unfold parseTrimmed at h
    split_ifs at h with hnil hevery
    · obtain rfl := Except.ok.inj h
      exact hevery ▸ .every
    · split at h
      · obtain ⟨step, hread, hfits, hpos, rfl⟩ := parseStep_eq_ok_iff.mp h
        exact .step hread hfits hpos
      · split_ifs at h with hhyphen
        · obtain ⟨start, stop, more, first, last, hsplit, hfirst, hlast, hmin, hle, hmax, rfl⟩ :=
            (parseRange_eq_ok_iff field hfits).mp h
          exact .range hsplit hfirst hlast hmin hle hmax
        · obtain ⟨value, hread, hmin, hmax, rfl⟩ := (parseValue_eq_ok_iff field hfits).mp h
          exact .value hread hmin hmax
  · intro h
    cases h with
    | every => rfl
    | step hread hstep hpos =>
      exact parseStep_eq_ok_iff.mpr ⟨_, hread, hstep, hpos, rfl⟩
    | @range part start stop more first last hsplit hfirst hlast hmin hle hmax =>
      obtain ⟨rest, rfl⟩ := eq_append_of_splitOn hsplit
      have hrange := (parseRange_eq_ok_iff field hfits).mpr
        ⟨start, stop, more, first, last, hsplit, hfirst, hlast, hmin, hle, hmax, rfl⟩
      obtain ⟨c, start, rfl, hc⟩ := hfirst.exists_cons
      rw [List.cons_append] at hrange ⊢
      rw [parseTrimmed_cons hc, if_pos (by simp)]
      exact hrange
    | @value text value hread hmin hmax =>
      have hvalue := (parseValue_eq_ok_iff field hfits).mpr
        ⟨value, hread, hmin, hmax, rfl⟩
      obtain ⟨c, rest, rfl, hc⟩ := hread.exists_cons
      rw [parseTrimmed_cons hc, if_neg (hread.not_mem (by decide) (by decide))]
      exact hvalue

end Reading

end Runvane.Scheduler.Cron
