import LibSigma.Library.Gregorian

/-!
# Months of the calendar

The months of all years in one row, from the first day of one to the first day of the next.

Counting days between two dates is simple inside a month and tedious across months.  Here the months
have numbers, twelve to a year and without an end in either direction, and a run of months has a
length in days.  The first days of two months are then as many days apart as the run between them is
long, and two dates are apart by that and by what each of them is into its month.

What is used of it are bounds: a date in a later month is more days after another than the whole
months between the two have.  The length of a run depends on where it begins and on leap years, so
bounds in days alone come from the least length of a run, which is a question about twelve
beginnings.

* `monthIndex`, `first`: the months by number.
* `daysOf`: the days of some months in a row.
* `first_add`: the first days of two months are as many days apart as the months from one to the
  other have.
* `add_daysOf_lt`: **the days between two dates, month by month.**
-/

namespace LibSigma.Library.CivilDate

/-- The months of all years, numbered. -/
def monthIndex (a : CivilDate) : ℤ := a.year * 12 + (a.month - 1 : ℕ)

/-- The first day of a month. -/
def first (k : ℤ) : CivilDate :=
  ⟨k / 12, (k % 12).toNat + 1, 1, Nat.le_add_left 1 _, by omega, Nat.one_pos, monthLength_pos _ _⟩

/-- The length of a month. -/
def lengthOf (k : ℤ) : ℕ := monthLength (k / 12) ((k % 12).toNat + 1)

theorem lengthOf_eq (k : ℤ) : lengthOf k =
    if k % 12 = 1 then if IsLeapYear (k / 12) then 29 else 28
    else if k % 12 = 3 ∨ k % 12 = 5 ∨ k % 12 = 8 ∨ k % 12 = 10 then 30
    else 31 := by
  have hfeb : (k % 12).toNat + 1 = 2 ↔ k % 12 = 1 := by omega
  have hshort : ((k % 12).toNat + 1 = 4 ∨ (k % 12).toNat + 1 = 6 ∨ (k % 12).toNat + 1 = 9 ∨
      (k % 12).toNat + 1 = 11) ↔ (k % 12 = 3 ∨ k % 12 = 5 ∨ k % 12 = 8 ∨ k % 12 = 10) := by omega
  rw [lengthOf, monthLength, if_congr hfeb rfl rfl, if_congr hshort rfl rfl]

theorem le_lengthOf (k : ℤ) : 28 ≤ lengthOf k := by
  rw [lengthOf_eq]
  split_ifs <;> decide

/-- The days of `n` months from month `k` on. -/
def daysOf (k : ℤ) : ℕ → ℕ
  | 0 => 0
  | n + 1 => lengthOf k + daysOf (k + 1) n

theorem mul_le_daysOf (k : ℤ) (n : ℕ) : 28 * n ≤ daysOf k n := by
  induction n generalizing k with
  | zero => exact le_rfl
  | succ n ih =>
    have hlen := le_lengthOf k
    have hrest := ih (k + 1)
    rw [daysOf]
    omega

variable {a b : CivilDate}

@[simp] theorem monthIndex_div (a : CivilDate) : a.monthIndex / 12 = a.year := by
  have hpos := a.month_pos
  have hle := a.month_le
  rw [monthIndex]
  omega

@[simp] theorem monthIndex_mod (a : CivilDate) : (a.monthIndex % 12).toNat + 1 = a.month := by
  have hpos := a.month_pos
  have hle := a.month_le
  rw [monthIndex]
  omega

theorem day_le_lengthOf (a : CivilDate) : a.day ≤ lengthOf a.monthIndex := by
  rw [lengthOf, monthIndex_div, monthIndex_mod]
  exact a.day_le

section Count

variable {f : CivilDate → ℤ} (hf : ∀ a, f a.next = f a + 1)
include hf

/-- A date, by the first day of its month. -/
theorem eq_first_add (a : CivilDate) : f a = f (first a.monthIndex) + (a.day - 1 : ℕ) := by
  obtain ⟨d, hd⟩ : ∃ d, a.day = d + 1 := ⟨a.day - 1, by have := a.day_pos; omega⟩
  -- Induction on the day.
  induction d generalizing a with
  | zero =>
    have hfirst : first a.monthIndex = a :=
      CivilDate.ext (monthIndex_div a) (monthIndex_mod a) hd.symm
    rw [hfirst, hd]
    exact (add_zero _).symm
  | succ d ih =>
    have hle := a.day_le
    let c : CivilDate := ⟨a.year, a.month, d + 1, a.month_pos, a.month_le, d.succ_pos, by omega⟩
    have hnext : c.next = a := by
      have hlt : c.day ≠ monthLength c.year c.month := by
        show d + 1 ≠ monthLength a.year a.month
        omega
      rcases next_cases c with ⟨hy, hm, hd'⟩ | ⟨hlast, -⟩ | ⟨hlast, -⟩
      · exact CivilDate.ext hy hm (hd'.trans hd.symm)
      · exact absurd hlast hlt
      · exact absurd hlast hlt
    have hc : f c = f (first a.monthIndex) + (d + 1 - 1 : ℕ) := ih c rfl
    rw [← hnext, hf, hc, hnext, hd]
    push_cast
    omega

/-- The month after begins when a month is over. -/
theorem first_succ (k : ℤ) : f (first (k + 1)) = f (first k) + lengthOf k := by
  let last : CivilDate := ⟨k / 12, (k % 12).toNat + 1, lengthOf k, Nat.le_add_left 1 _, by omega,
    monthLength_pos _ _, le_rfl⟩
  have hindex : last.monthIndex = k := by
    show k / 12 * 12 + (((k % 12).toNat + 1 - 1 : ℕ) : ℤ) = k
    omega
  have hnext : last.next = first (k + 1) := by
    rcases next_cases last with ⟨hy, hm, hd⟩ | ⟨-, hmonth, hy, hm, hd⟩ | ⟨-, hmonth, hy, hm, hd⟩
    · have hle := last.next.day_le
      rw [hy, hm, hd] at hle
      exact absurd hle (Nat.not_succ_le_self _)
    · have hlt : (k % 12).toNat + 1 < 12 := hmonth
      refine CivilDate.ext (hy.trans ?_) (hm.trans ?_) hd
      · show k / 12 = (k + 1) / 12
        omega
      · show (k % 12).toNat + 1 + 1 = ((k + 1) % 12).toNat + 1
        omega
    · have hlt : (k % 12).toNat + 1 = 12 := hmonth
      refine CivilDate.ext (hy.trans ?_) (hm.trans ?_) hd
      · show k / 12 + 1 = (k + 1) / 12
        omega
      · show 1 = ((k + 1) % 12).toNat + 1
        omega
  have hpos := monthLength_pos (k / 12) ((k % 12).toNat + 1)
  have hlast := eq_first_add hf last
  rw [hindex] at hlast
  rw [← hnext, hf, hlast]
  show f (first k) + ((lengthOf k - 1 : ℕ) : ℤ) + 1 = f (first k) + lengthOf k
  rw [lengthOf]
  omega

/-- The first days of two months are as many days apart as the months between have. -/
theorem first_add (k : ℤ) (n : ℕ) : f (first (k + n)) = f (first k) + daysOf k n := by
  induction n generalizing k with
  | zero =>
    rw [Nat.cast_zero, add_zero]
    exact (add_zero _).symm
  | succ n ih =>
    have hcast : k + ((n + 1 : ℕ) : ℤ) = k + 1 + n := by
      push_cast
      ring
    rw [hcast, ih, first_succ hf, daysOf]
    push_cast
    ring

/-- **The days between two dates, month by month**: the later one is more days after than the `n` months
between them have. -/
theorem add_daysOf_lt {n : ℕ} (h : a.monthIndex + 1 + n ≤ b.monthIndex) :
    f a + daysOf (a.monthIndex + 1) n < f b := by
  obtain ⟨j, hj⟩ := Int.le.dest h
  have hday := day_le_lengthOf a
  have hpos := a.day_pos
  -- to the end of the month of `a`, over the months between, and on to `b`
  have hover := first_succ hf a.monthIndex
  have hbetween := first_add hf (a.monthIndex + 1) n
  have hon := first_add hf (a.monthIndex + 1 + n) j
  have ha := eq_first_add hf a
  have hb := eq_first_add hf b
  rw [hj] at hon
  omega

end Count

end LibSigma.Library.CivilDate
