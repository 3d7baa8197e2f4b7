import Mathlib.Tactic.IntervalCases
import LibSigma.Library.Gregorian
import LibSigma.Library.Strtod

/-!
# Civil time in seconds

`days_from_civil`, `civil_ok`, `to_epoch` and `event_time_from_civil` of `event_time.c`.  Signed
integers are exact, unsigned ones have 32 bits.

## The formula

`days_from_civil` moves the year to begin in March, cuts time into eras of 400 years and counts days
inside an era with unsigned arithmetic.  The first step of the proof takes the eras and the widths
away: in range, the number is a polynomial expression with three floor divisions of the year and one
of the month (`daysFromCivil_eq`).  From then on the argument is about integers.

## The calendar

`LibSigma.Library.Gregorian` is the calendar: leap years, lengths of months, the day after a date,
the order of dates.  It does not number days.  What makes a numbering right is then a short list: a
fixed day has a fixed number, the day after has the next number, and later dates have larger ones.
The first two determine it for all dates by induction in both directions, years before 1970 and
negative years included.

## Seconds

Seconds may carry a fraction, and come from `strtod`, which also reads infinities and NaNs; so a
time is a `CDouble`, whose arithmetic is exact.  `civil_ok` compares the seconds in a way that lets
neither through.  The offset is taken off in minutes, after the checks, so a time of the 1st of
January 1970 may still be negative.

* `daysFromCivil_eq`: the formula without eras.
* `civilNumber_next`: the day after has the next number, by cases on where the month ends.
* `days_from_civil_gregorian`: **the formula numbers the days of the calendar.**
-/

namespace LibSigma

open Library

/-- `days_from_civil`. -/
def daysFromCivil (y m d : ℤ) : ℤ :=
  let y := y - if m ≤ 2 then 1 else 0
  let era := (if 0 ≤ y then y else y - 399).tdiv 400
  let yoe := (y - era * 400) % 2 ^ 32
  let doy := ((153 * (if 2 < m then m - 3 else m + 9) + 2).tdiv 5 + d - 1) % 2 ^ 32
  let doe := (yoe * 365 + yoe / 4 - yoe / 100 + doy) % 2 ^ 32
  era * 146097 + doe.bmod (2 ^ 32) - 719468

/-- `civil_ok`. -/
def civilOk (Y Mo D h mi : ℤ) (se : CDouble) : Bool :=
  decide (1970 ≤ Y) && decide (Y ≤ 2100) && decide (1 ≤ Mo) && decide (Mo ≤ 12) &&
    decide (1 ≤ D) && decide (D ≤ 31) && decide (0 ≤ h) && decide (h ≤ 23) && decide (0 ≤ mi) &&
    decide (mi ≤ 59) && se.geNum 0 && se.ltNum 61

/-- `to_epoch`. -/
def toEpoch (Y Mo D h mi : ℤ) (se : CDouble) (offMin : ℤ) : CDouble :=
  (se.addNum (daysFromCivil Y Mo D * 86400 + h * 3600 + mi * 60)).addNum (-(offMin * 60))

/-- `event_time_from_civil`. -/
def eventTimeFromCivil (Y Mo D h mi : ℤ) (se : CDouble) (offMin : ℤ) : Option CDouble :=
  if civilOk Y Mo D h mi se then some (toEpoch Y Mo D h mi se offMin) else none

/-! ## The number of a day -/

/-- The era of a year rounds down. -/
theorem era_eq (y : ℤ) : (if 0 ≤ y then y else y - 399).tdiv 400 = y / 400 := by
  split_ifs with h
  · exact Int.tdiv_eq_ediv_of_nonneg h
  · have hsign : Int.sign 400 = 1 := rfl
    rw [Int.tdiv_eq_ediv, hsign]
    omega

/-- The days of the years before one, and leap days with them, when a year begins in March. -/
def daysOfYears (y : ℤ) : ℤ := 365 * y + y / 4 - y / 100 + y / 400

/-- The days of the months before one, when a year begins in March. -/
def daysOfMonths (m : ℤ) : ℤ := (153 * (if 2 < m then m - 3 else m + 9) + 2) / 5

/-- The days of the years before one, counted by eras. -/
theorem daysOfYears_era (y : ℤ) :
    y / 400 * 146097 + (y % 400 * 365 + y % 400 / 4 - y % 400 / 100) = daysOfYears y := by
  rw [daysOfYears]
  omega

/-- The formula without eras. -/
theorem daysFromCivil_eq {y m d : ℤ} (hm : 1 ≤ m) (hm' : m ≤ 12) (hd : 1 ≤ d) (hd' : d ≤ 31) :
    daysFromCivil y m d =
      daysOfYears (y - if m ≤ 2 then 1 else 0) + daysOfMonths m + d - 719469 := by
  have hmonth : 0 ≤ (if 2 < m then m - 3 else m + 9) ∧ (if 2 < m then m - 3 else m + 9) ≤ 11 := by
    split_ifs <;> omega
  rw [daysFromCivil, daysOfMonths]
  generalize (y - if m ≤ 2 then 1 else 0) = y at *
  generalize (if 2 < m then m - 3 else m + 9) = k at *
  rw [era_eq, Int.tdiv_eq_ediv_of_nonneg (by omega)]
  have hyoe : (y - y / 400 * 400) % 2 ^ 32 = y % 400 := by omega
  have hdoy : ((153 * k + 2) / 5 + d - 1) % 2 ^ 32 = (153 * k + 2) / 5 + d - 1 := by omega
  rw [hyoe, hdoy]
  have hdoe : (y % 400 * 365 + y % 400 / 4 - y % 400 / 100 + ((153 * k + 2) / 5 + d - 1)) % 2 ^ 32 =
      y % 400 * 365 + y % 400 / 4 - y % 400 / 100 + ((153 * k + 2) / 5 + d - 1) := by omega
  rw [hdoe, Int.bmod_eq_of_le (by omega) (by omega), ← daysOfYears_era]
  ring

/-- A year that begins in March is longer by one if it ends with a leap day. -/
theorem daysOfYears_eq (y : ℤ) :
    daysOfYears y = daysOfYears (y - 1) + 365 + if IsLeapYear y then 1 else 0 := by
  unfold daysOfYears IsLeapYear
  split_ifs <;> omega

/-- The table of months has the lengths of the calendar, February being the last. -/
theorem daysOfMonths_succ (y : ℤ) {m : ℕ} (hm : 1 ≤ m) (hm' : m < 12) (hfeb : m ≠ 2) :
    daysOfMonths ((m : ℤ) + 1) = daysOfMonths m + monthLength y m := by
  interval_cases m
  case «2» => exact absurd rfl hfeb
  all_goals rfl

/-- The number of a date. -/
def civilNumber (a : CivilDate) : ℤ := daysFromCivil a.year a.month a.day

theorem civilNumber_eq (a : CivilDate) :
    civilNumber a =
      daysOfYears (a.year - if a.month ≤ 2 then 1 else 0) + daysOfMonths a.month + a.day - 719469 := by
  have hmonth := a.month_pos
  have hmonth' := a.month_le
  have hday := a.day_pos
  have hday' := a.day_le.trans (monthLength_le _ _)
  rw [civilNumber, daysFromCivil_eq (by omega) (by omega) (by omega) (by omega)]
  norm_cast

/-- The day after has the next number. -/
theorem civilNumber_next (a : CivilDate) : civilNumber a.next = civilNumber a + 1 := by
  have hpos := a.month_pos
  rw [civilNumber_eq, civilNumber_eq]
  rcases CivilDate.next_cases a with
    ⟨hy, hm, hd⟩ | ⟨hday, hlast, hy, hm, hd⟩ | ⟨hday, hlast, hy, hm, hd⟩
  · rw [hy, hm, hd]
    push_cast
    ring
  · rw [hy, hm, hd, hday]
    by_cases hfeb : a.month = 2
    · -- March begins a year, after a February that may have a leap day.
      have hyears := daysOfYears_eq a.year
      have hmarch : daysOfMonths 3 = 0 := rfl
      have hfebruary : daysOfMonths 2 = 337 := rfl
      rw [hfeb]
      simp only [monthLength]
      split_ifs at * <;> norm_num <;> omega
    · have hsame : a.month + 1 ≤ 2 ↔ a.month ≤ 2 := by omega
      rw [if_congr hsame rfl rfl, Nat.cast_succ, daysOfMonths_succ a.year hpos hlast hfeb]
      push_cast
      ring
  · -- New Year's Day.
    have hlength : (monthLength a.year 12 : ℤ) = 31 := rfl
    have hmonths : daysOfMonths 1 = daysOfMonths 12 + 31 := rfl
    rw [hy, hm, hd, hday, hlast]
    simp
    omega

/-- **The formula numbers the days of the calendar**: the first of January 1970 is day 0, the day
after a date has the next number, and a later date has a larger one. -/
theorem days_from_civil_gregorian :
    civilNumber CivilDate.epoch = 0 ∧ (∀ a : CivilDate, civilNumber a.next = civilNumber a + 1) ∧
      StrictMono civilNumber :=
  ⟨rfl, civilNumber_next, CivilDate.strictMono_of_next civilNumber_next⟩

end LibSigma
