import Mathlib.Data.Nat.Digits.Defs
import Mathlib.Order.Lattice
import Mathlib.Tactic.Ring

/-!
# Saturation

Numbers that are clamped to a range, and decimal numbers read digit by digit by a loop that stops
once the range is passed.

Clamping forgets how far a number is beyond the range and nothing else.  A comparison with a point
strictly inside does not notice, in any of the directions; at the two ends it does, where a number
beyond the end compares as equal to it.

A loop that reads digits can stop when its number has passed a bound, because more digits only make
it larger.  The number itself is `readDecimal`, which continues from what was read so far, so that
the invariant of such a loop can speak of the digits that are left.

* `lt_clamp_iff`, `clamp_lt_iff`, `clamp_eq_iff`: **comparing with a point strictly inside the range
  does not see the clamp.**
* `readDecimal`: the accumulation of a digit loop, `readDecimal_zero`: it is the number the digits
  write, `le_readDecimal`: it only grows, so what has passed a bound stays above it.
-/

namespace LibSigma.Library

section Clamp

variable {α : Type} [LinearOrder α] {lo hi a x : α}

/-- The nearest point of the range. -/
def clamp (lo hi a : α) : α := max lo (min hi a)

theorem clamp_of_mem (hlo : lo ≤ a) (hhi : a ≤ hi) : clamp lo hi a = a := by
  rw [clamp, min_eq_right hhi, max_eq_right hlo]

theorem clamp_of_le (hrange : lo ≤ hi) (h : a ≤ lo) : clamp lo hi a = lo := by
  rw [clamp, min_eq_right (h.trans hrange), max_eq_left h]

theorem clamp_of_ge (hrange : lo ≤ hi) (h : hi ≤ a) : clamp lo hi a = hi := by
  rw [clamp, min_eq_left h, max_eq_right hrange]

theorem lt_clamp_iff (hlo : lo ≤ x) (hhi : x < hi) : x < clamp lo hi a ↔ x < a := by
  rw [clamp, lt_max_iff, lt_min_iff, and_iff_right hhi, or_iff_right hlo.not_gt]

theorem clamp_lt_iff (hlo : lo < x) (hhi : x ≤ hi) : clamp lo hi a < x ↔ a < x := by
  rw [clamp, max_lt_iff, min_lt_iff, and_iff_right hlo, or_iff_right hhi.not_gt]

theorem clamp_eq_iff (hlo : lo < x) (hhi : x < hi) : clamp lo hi a = x ↔ a = x := by
  rw [eq_iff_le_not_lt, eq_iff_le_not_lt, clamp_lt_iff hlo hhi.le, ← not_lt, ← not_lt,
    lt_clamp_iff hlo.le hhi]

end Clamp

/-! ## Decimal numbers -/

/-- The digits `ds` behind a number already read. -/
def readDecimal (n : ℕ) (ds : List ℕ) : ℕ := ds.foldl (fun n d => n * 10 + d) n

@[simp] theorem readDecimal_nil (n : ℕ) : readDecimal n [] = n := rfl

@[simp] theorem readDecimal_cons (n d : ℕ) (ds : List ℕ) :
    readDecimal n (d :: ds) = readDecimal (n * 10 + d) ds := rfl

/-- **What is read is what the digits write.** -/
theorem readDecimal_eq (n : ℕ) (ds : List ℕ) :
    readDecimal n ds = Nat.ofDigits 10 (ds.reverse ++ [n]) := by
  induction ds generalizing n with
  | nil => simp
  | cons d ds ih =>
    rw [readDecimal_cons, ih, List.reverse_cons, List.append_assoc, Nat.ofDigits_append,
      Nat.ofDigits_append]
    simp only [List.cons_append, List.nil_append, Nat.ofDigits_cons, Nat.ofDigits_nil]
    ring

@[simp] theorem readDecimal_zero (ds : List ℕ) : readDecimal 0 ds = Nat.ofDigits 10 ds.reverse := by
  rw [readDecimal_eq, Nat.ofDigits_append]
  simp

/-- Reading on never makes a number smaller. -/
theorem le_readDecimal (n : ℕ) (ds : List ℕ) : n ≤ readDecimal n ds := by
  induction ds generalizing n with
  | nil => exact le_rfl
  | cons d ds ih =>
    rw [readDecimal_cons]
    exact le_trans (by omega) (ih (n * 10 + d))

end LibSigma.Library
