import Mathlib.Algebra.BigOperators.Group.List.Basic
import LibSigma.Corr.Rule
import LibSigma.Library.Rounding

/-!
# The numbers of the engine

The engine computes with C doubles.  A double that is finite is a rational number, so the numbers of
the model are rationals and what the format does to them is a function, `Doubles.round`: an
operation of the source is the exact operation, then one rounding.  `Doubles` is such a function
together with `strtod`, the only way a double comes into the engine from a string.

## What is assumed of the rounding

Nothing of how far a number is moved.  Rounding keeps the order, leaves small integers alone, does
not lose a number above the smallest positive double, and does nothing the second time.  Two
instances matter:

* `Doubles.binary64`: rounding to nearest, ties to even, in the format of a C double.  What fails
  because of rounding fails here.
* `Doubles.exact`: no rounding.  Results that speak of exact numbers are read here.

What holds of every `Doubles` holds of both.

## What is rounded, and what is not

The aggregates are: a sum term by term in the order of the loops (`Doubles.sum`), a quotient once, a
mean and a variance as the two passes of the source compute them.  So is the length of a bucket and
the number of buckets up to a time.  An integer constant of a rule is converted and rounded.

Timestamps are not.  The window of an event begins at `ts - timespan_s` and a re-fire deadline is
`ts + timespan_s`, and both are taken exactly: the operands of one subtraction or addition each,
whose rounding moves the border of a window by less than a microsecond at the times that occur.

There is no infinity and no NaN: sums stay in the range of the format, and the source does not
contract a product and a sum into one operation.
-/

namespace LibSigma

open Library

/-- What the engine's doubles are: the number a string starts with, if it starts with a finite one,
and the rounding of an operation. -/
structure Doubles where
  strtod : CStr → Option ℚ
  round : ℚ → ℚ
  round_mono : Monotone round
  round_natCast : ∀ n : ℕ, n < 2 ^ 53 → round n = n
  round_pos : ∀ q : ℚ, 1 / 2 ^ 1074 ≤ q → 0 < round q
  round_round : ∀ q, round (round q) = round q

namespace Doubles

/-- Exact numbers. -/
def exact (strtod : CStr → Option ℚ) : Doubles where
  strtod := strtod
  round := id
  round_mono := monotone_id
  round_natCast _ _ := rfl
  round_pos _ h := lt_of_lt_of_le (by positivity) h
  round_round _ := rfl

/-- The doubles of C. -/
def binary64 (strtod : CStr → Option ℚ) : Doubles where
  strtod s := (strtod s).map (roundTo 52 1074)
  round := roundTo 52 1074
  round_mono := roundTo_mono 52 1074
  round_natCast _ hn := roundTo_natCast hn
  round_pos q h := by
    have hleast : roundTo 52 1074 (1 / 2 ^ 1074) = 1 / 2 ^ 1074 := by
      have hgrid := roundTo_of_grid (p := 52) (s := 1074) (m := 1) (by norm_num) 0
      rw [Nat.cast_one, pow_zero, one_mul] at hgrid
      exact hgrid
    calc (0 : ℚ) < 1 / 2 ^ 1074 := by positivity
      _ = roundTo 52 1074 (1 / 2 ^ 1074) := hleast.symm
      _ ≤ roundTo 52 1074 q := roundTo_mono 52 1074 h
  round_round := roundTo_roundTo

/-- The doubles of C, where no string starts with a number. -/
def bare : Doubles := binary64 fun _ => none

@[simp] theorem exact_round (strtod : CStr → Option ℚ) (q : ℚ) : (exact strtod).round q = q := rfl

@[simp] theorem exact_strtod (strtod : CStr → Option ℚ) : (exact strtod).strtod = strtod := rfl

variable (fp : Doubles)

@[simp] theorem round_zero : fp.round 0 = 0 := by
  have h := fp.round_natCast 0 (by norm_num)
  rwa [Nat.cast_zero] at h

/-! ## Sums -/

/-- The loop `for (…) sum += x`, from `s`. -/
def sum (s : ℚ) (xs : List ℚ) : ℚ := xs.foldl (fun s x => fp.round (s + x)) s

@[simp] theorem sum_nil (s : ℚ) : fp.sum s [] = s := rfl

@[simp] theorem sum_cons (s x : ℚ) (xs : List ℚ) :
    fp.sum s (x :: xs) = fp.sum (fp.round (s + x)) xs := rfl

@[simp] theorem sum_append (s : ℚ) (xs ys : List ℚ) :
    fp.sum s (xs ++ ys) = fp.sum (fp.sum s xs) ys := List.foldl_append

@[simp] theorem exact_sum (strtod : CStr → Option ℚ) (s : ℚ) (xs : List ℚ) :
    (exact strtod).sum s xs = s + xs.sum := by
  induction xs generalizing s with
  | nil => simp
  | cons x xs ih => rw [sum_cons, ih, exact_round, List.sum_cons, add_assoc]

variable {fp} in
/-- A sum of doubles from a double is a double. -/
theorem round_sum {s : ℚ} (hs : fp.round s = s) (xs : List ℚ) :
    fp.round (fp.sum s xs) = fp.sum s xs := by
  induction xs generalizing s with
  | nil => exact hs
  | cons x xs ih => exact ih (fp.round_round _)

/-- Zeros in a sum count for nothing. -/
theorem sum_filter_ne_zero {s : ℚ} (hs : fp.round s = s) (xs : List ℚ) :
    fp.sum s (xs.filter (· ≠ 0)) = fp.sum s xs := by
  induction xs generalizing s with
  | nil => rfl
  | cons x xs ih =>
    by_cases hx : x = 0
    · rw [List.filter_cons_of_neg (by simp [hx]), sum_cons, hx, add_zero, hs, ih hs]
    · rw [List.filter_cons_of_pos (by simp [hx]), sum_cons, sum_cons, ih (fp.round_round _)]

/-- A sum of numbers of at least one is at least their number. -/
theorem length_le_sum {xs : List ℚ} (hxs : ∀ x ∈ xs, 1 ≤ x) {n : ℕ} {s : ℚ} (hs : n ≤ s)
    (hlen : n + xs.length < 2 ^ 53) : ((n + xs.length : ℕ) : ℚ) ≤ fp.sum s xs := by
  induction xs generalizing n s with
  | nil => exact hs
  | cons x xs ih =>
    rw [List.length_cons] at hlen ⊢
    have hle : ((n + 1 : ℕ) : ℚ) ≤ fp.round (s + x) := by
      rw [← fp.round_natCast (n + 1) (by omega)]
      refine fp.round_mono ?_
      push_cast
      exact add_le_add hs (hxs x List.mem_cons_self)
    have hrest := ih (fun y hy => hxs y (List.mem_cons_of_mem x hy)) hle (by omega)
    rwa [show n + 1 + xs.length = n + (xs.length + 1) by omega] at hrest

/-- No addition of the loop rounds. -/
def Adds (fp : Doubles) : ℚ → List ℚ → Prop
  | _, [] => True
  | s, x :: xs => fp.round (s + x) = s + x ∧ Adds fp (s + x) xs

variable {fp} in
/-- A sum in which nothing rounds is the sum. -/
theorem Adds.sum_eq {s : ℚ} {xs : List ℚ} (h : fp.Adds s xs) : fp.sum s xs = s + xs.sum := by
  induction xs generalizing s with
  | nil => simp
  | cons x xs ih => rw [sum_cons, h.1, ih h.2, List.sum_cons, add_assoc]

/-! ## Means and variances -/

/-- The mean, as a sum and a quotient. -/
def mean (xs : List ℚ) : ℚ := fp.round (fp.sum 0 xs / xs.length)

/-- The square of a distance from the mean. -/
def deviation (m x : ℚ) : ℚ := fp.round (fp.round (x - m) * fp.round (x - m))

/-- The population variance, as a sum and a quotient. -/
def variance (xs : List ℚ) : ℚ :=
  fp.round (fp.sum 0 (xs.map (fp.deviation (fp.mean xs))) / xs.length)

/-- Numbers of at least one have a mean of at least one. -/
theorem one_le_mean {xs : List ℚ} (hxs : ∀ x ∈ xs, 1 ≤ x) (hne : xs ≠ [])
    (hlen : xs.length < 2 ^ 53) : 1 ≤ fp.mean xs := by
  have hsum := fp.length_le_sum hxs (n := 0) (s := 0) (by simp) (by omega)
  rw [Nat.zero_add] at hsum
  have hpos : (0 : ℚ) < xs.length := by exact_mod_cast List.length_pos_iff.mpr hne
  have hone := fp.round_natCast 1 (by norm_num)
  rw [Nat.cast_one] at hone
  rw [mean, ← hone]
  exact fp.round_mono ((one_le_div hpos).mpr hsum)

end Doubles

end LibSigma
