import Mathlib.Data.Int.ConditionallyCompleteOrder
import Mathlib.Data.Prod.Lex
import Mathlib.Order.SuccPred.Archimedean
import Mathlib.Tactic.Ring

/-!
# The Gregorian calendar

The dates of the proleptic Gregorian calendar, for all years: months and leap years by cases, and
the day after a date.

A date carries the proofs that it exists, so there is no 30th of February to exclude.  The day after
is defined by the calendar's own three cases: inside a month, at its end, at the end of a year.  No
date is numbered here.  A numbering is what programs compute, and is to be compared with the
calendar and not built into it.

What a numbering has to do is to grow by one from a date to the next.  From that everything else
follows, since every date is reached from every earlier one day by day (`exists_next_iterate`): the
numbering is strictly increasing, and the difference of two numbers is how many days there are in
between.  Years before the first and before the introduction of the calendar are dates like the
others.

* `CivilDate`: a date that exists.
* `next_le_iff`: there is no date between a date and the next.
* `exists_next_iterate`: a later date is reached day by day.
* `strictMono_of_next`: **what grows by one from a date to the next is strictly increasing.**
* `daysAfter_iff`: and it tells how many days there are between two dates.
-/

namespace LibSigma.Library

/-- The leap years. -/
def IsLeapYear (y : ℤ) : Prop := y % 4 = 0 ∧ (y % 100 ≠ 0 ∨ y % 400 = 0)

instance (y : ℤ) : Decidable (IsLeapYear y) := inferInstanceAs (Decidable (_ ∧ _))

/-- The number of days of a month. -/
def monthLength (y : ℤ) (m : ℕ) : ℕ :=
  if m = 2 then if IsLeapYear y then 29 else 28
  else if m = 4 ∨ m = 6 ∨ m = 9 ∨ m = 11 then 30
  else 31

theorem monthLength_pos (y : ℤ) (m : ℕ) : 1 ≤ monthLength y m := by
  unfold monthLength
  split_ifs <;> decide

theorem monthLength_le (y : ℤ) (m : ℕ) : monthLength y m ≤ 31 := by
  unfold monthLength
  split_ifs <;> decide

/-- A date that exists. -/
@[ext]
structure CivilDate where
  year : ℤ
  month : ℕ
  day : ℕ
  month_pos : 1 ≤ month
  month_le : month ≤ 12
  day_pos : 1 ≤ day
  day_le : day ≤ monthLength year month
  deriving DecidableEq

namespace CivilDate

/-- The day after. -/
def next (a : CivilDate) : CivilDate :=
  if hday : a.day < monthLength a.year a.month then
    ⟨a.year, a.month, a.day + 1, a.month_pos, a.month_le, a.day.succ_pos, hday⟩
  else if hmonth : a.month < 12 then
    ⟨a.year, a.month + 1, 1, a.month.succ_pos, hmonth, le_rfl, monthLength_pos _ _⟩
  else ⟨a.year + 1, 1, 1, le_rfl, by decide, le_rfl, monthLength_pos _ _⟩

/-- The first of January 1970. -/
def epoch : CivilDate := ⟨1970, 1, 1, by decide, by decide, by decide, by decide⟩

/-! ## Calendar order -/

/-- Dates are compared by year, then by month, then by day. -/
def key (a : CivilDate) : ℤ ×ₗ ℕ ×ₗ ℕ := toLex (a.year, toLex (a.month, a.day))

theorem key_injective : Function.Injective key := by
  intro a b h
  have hpair := toLex_inj.mp h
  have hrest := toLex_inj.mp (Prod.ext_iff.mp hpair).2
  exact CivilDate.ext (Prod.ext_iff.mp hpair).1 (Prod.ext_iff.mp hrest).1 (Prod.ext_iff.mp hrest).2

instance : LinearOrder CivilDate := LinearOrder.lift' key key_injective

variable {a b : CivilDate}

theorem lt_iff : a < b ↔
    a.year < b.year ∨ a.year = b.year ∧ (a.month < b.month ∨ a.month = b.month ∧ a.day < b.day) := by
  show key a < key b ↔ _
  simp only [key, Prod.Lex.toLex_lt_toLex]

theorem le_iff : a ≤ b ↔
    a.year < b.year ∨ a.year = b.year ∧ (a.month < b.month ∨ a.month = b.month ∧ a.day ≤ b.day) := by
  show key a ≤ key b ↔ _
  simp only [key, Prod.Lex.toLex_le_toLex]

/-- A date is followed by the next of its month, of its year or of all. -/
theorem next_cases (a : CivilDate) :
    (a.next.year = a.year ∧ a.next.month = a.month ∧ a.next.day = a.day + 1) ∨
    (a.day = monthLength a.year a.month ∧ a.month < 12 ∧
      a.next.year = a.year ∧ a.next.month = a.month + 1 ∧ a.next.day = 1) ∨
    (a.day = monthLength a.year a.month ∧ a.month = 12 ∧
      a.next.year = a.year + 1 ∧ a.next.month = 1 ∧ a.next.day = 1) := by
  have hle := a.day_le
  have hmonth_le := a.month_le
  rw [next]
  split_ifs with hday hmonth
  · exact Or.inl ⟨rfl, rfl, rfl⟩
  · exact Or.inr (Or.inl ⟨by omega, hmonth, rfl, rfl, rfl⟩)
  · exact Or.inr (Or.inr ⟨by omega, by omega, rfl, rfl, rfl⟩)

/-- There is no date between a date and the next. -/
theorem next_le_iff : a.next ≤ b ↔ a < b := by
  have hlen : a.year = b.year → a.month = b.month →
      monthLength a.year a.month = monthLength b.year b.month := by
    intro hyear hmonth
    rw [hyear, hmonth]
  have hb := b.day_le
  have hpos := b.day_pos
  have hmonth := b.month_pos
  have hmonth_le := b.month_le
  rw [le_iff, lt_iff]
  rcases next_cases a with ⟨hy, hm, hd⟩ | ⟨hday, -, hy, hm, hd⟩ | ⟨hday, hlast, hy, hm, hd⟩
  · rw [hy, hm, hd]
    omega
  · rw [hy, hm, hd]
    omega
  · rw [hy, hm, hd]
    omega

instance : SuccOrder CivilDate := SuccOrder.ofSuccLeIff next next_le_iff

theorem lt_next (a : CivilDate) : a < a.next := next_le_iff.mp le_rfl

/-! ## Day by day -/

/-- The position of a date if every month had 31 days. -/
def rank (a : CivilDate) : ℤ := (a.year * 12 + a.month) * 31 + a.day

theorem rank_lt_rank (h : a < b) : a.rank < b.rank := by
  have ha := a.day_le.trans (monthLength_le _ _)
  have hmonth := a.month_le
  have hpos := b.month_pos
  have hday := b.day_pos
  rw [rank, rank]
  rw [lt_iff] at h
  omega

/-- A later date is reached day by day. -/
theorem exists_next_iterate {a b : CivilDate} (h : a ≤ b) : ∃ n, next^[n] a = b := by
  -- Induction on how far the ranks are apart.
  obtain ⟨k, hk⟩ : ∃ k : ℕ, (b.rank - a.rank).toNat ≤ k := ⟨_, le_rfl⟩
  induction k generalizing a with
  | zero =>
    rcases h.eq_or_lt with heq | hlt
    · exact ⟨0, heq⟩
    · have hrank := rank_lt_rank hlt
      omega
  | succ k ih =>
    rcases h.eq_or_lt with heq | hlt
    · exact ⟨0, heq⟩
    · have hrank := rank_lt_rank a.lt_next
      have hrank' := rank_lt_rank hlt
      obtain ⟨n, hn⟩ := ih (next_le_iff.mpr hlt) (by omega)
      exact ⟨n + 1, hn⟩

instance : IsSuccArchimedean CivilDate := ⟨exists_next_iterate⟩

section Count

variable {f : CivilDate → ℤ} (hf : ∀ a, f a.next = f a + 1)
include hf

/-- **What grows by one from a date to the next is strictly increasing.** -/
theorem strictMono_of_next : StrictMono f := by
  refine strictMono_of_lt_succ fun a _ => ?_
  show f a < f a.next
  rw [hf]
  exact lt_add_one _

theorem iterate_of_next (a : CivilDate) (n : ℕ) : f (next^[n] a) = f a + n := by
  induction n with
  | zero => exact (add_zero _).symm
  | succ n ih =>
    rw [Function.iterate_succ_apply', hf, ih]
    push_cast
    ring

end Count

/-- A date is a number of days after another, or before it for a negative number. -/
def DaysAfter (a : CivilDate) (n : ℤ) (b : CivilDate) : Prop :=
  next^[n.toNat] a = next^[(-n).toNat] b

/-- What grows by one from a date to the next tells how many days there are between two. -/
theorem daysAfter_iff {f : CivilDate → ℤ} (hf : ∀ a, f a.next = f a + 1) {a b : CivilDate} {n : ℤ} :
    DaysAfter a n b ↔ n = f b - f a := by
  have hinj := (strictMono_of_next hf).injective
  rw [DaysAfter, ← hinj.eq_iff, iterate_of_next hf, iterate_of_next hf]
  omega

end CivilDate

end LibSigma.Library
