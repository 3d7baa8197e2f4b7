import Mathlib.Algebra.Order.Floor.Ring
import Mathlib.Algebra.Order.Floor.Semiring
import Mathlib.Data.Nat.Log
import Mathlib.Data.Rat.Floor
import Mathlib.Tactic.Linarith
import Mathlib.Tactic.Positivity
import Mathlib.Tactic.Ring

/-!
# Rounding to a floating-point format

A binary format has numbers `m * 2 ^ k / 2 ^ s` with an `m` of at most `p + 1` bits: `p` and `s` are
all that the format is here.  There is no largest number and no infinity, so a result is rounded and
never overflows; who cares about the largest number of a format asks for a bound of their own.

A number is rounded in two steps.  Its magnitude, counted in the smallest numbers `1 / 2 ^ s` of the
format, has a size, and the size says how many of its last bits are too many (`spare`): none for a
number of the smallest sizes, where the format is as fine as it gets, and otherwise all but `p + 1`.
What is left of those bits is then rounded to an integer, ties to even (`roundEven`).

Nothing below looks at the distance between a number and its rounding.  What a program that computes
with rounded numbers needs to reason about is coarser:

* `roundTo_mono`: rounding keeps the order, so comparisons may only collapse, never turn around.
* `roundTo_of_grid`: a number of the format is left alone, in particular every small integer
  (`roundTo_natCast`).
* `roundTo_roundTo`: **a rounded number is a number of the format.**

The order is kept inside one size because `roundEven` keeps it, and from one size to the next
because the power of two between them belongs to both.
-/

namespace LibSigma.Library

/-! ## The nearest integer -/

/-- The nearest integer, the even one of two. -/
def roundEven (q : ℚ) : ℤ :=
  if q - ⌊q⌋ < 1 / 2 then ⌊q⌋ else if 1 / 2 < q - ⌊q⌋ then ⌊q⌋ + 1 else ⌊q⌋ + ⌊q⌋ % 2

@[simp] theorem roundEven_intCast (n : ℤ) : roundEven n = n := by
  simp [roundEven]

theorem floor_le_roundEven (q : ℚ) : ⌊q⌋ ≤ roundEven q := by
  unfold roundEven
  split_ifs <;> omega

theorem roundEven_le_floor_succ (q : ℚ) : roundEven q ≤ ⌊q⌋ + 1 := by
  unfold roundEven
  split_ifs <;> omega

theorem roundEven_mono {q q' : ℚ} (hle : q ≤ q') : roundEven q ≤ roundEven q' := by
  rcases (Int.floor_mono hle).lt_or_eq with hlt | heq
  · calc roundEven q ≤ ⌊q⌋ + 1 := roundEven_le_floor_succ q
      _ ≤ ⌊q'⌋ := hlt
      _ ≤ roundEven q' := floor_le_roundEven q'
  · -- with one floor the fractional parts are in order
    have hfract : q - ⌊q⌋ ≤ q' - ⌊q'⌋ := by rw [heq]; exact sub_le_sub_right hle _
    unfold roundEven
    rw [heq] at hfract ⊢
    split_ifs <;> first | omega | linarith

/-! ## Magnitudes -/

/-- How many of the last bits of `a` a format of `p + 1` bits has no room for. -/
def spare (p : ℕ) (a : ℚ) : ℕ := Nat.log2 ⌊a⌋₊ - p

/-- A magnitude in a format of `p + 1` bits, in units of its smallest numbers. -/
def roundBits (p : ℕ) (a : ℚ) : ℚ := roundEven (a / 2 ^ spare p a) * 2 ^ spare p a

section Bits

variable {p : ℕ} {a a' : ℚ}

theorem spare_mono (h : a ≤ a') : spare p a ≤ spare p a' := by
  unfold spare
  rw [Nat.log2_eq_log_two, Nat.log2_eq_log_two]
  exact Nat.sub_le_sub_right (Nat.log_mono_right (Nat.floor_mono h)) p

theorem lt_two_pow_spare (p : ℕ) (a : ℚ) : a < 2 ^ (p + 1 + spare p a) := by
  have hfloor : a < (⌊a⌋₊ : ℚ) + 1 := Nat.lt_floor_add_one a
  have hlog : ⌊a⌋₊ + 1 ≤ 2 ^ (Nat.log2 ⌊a⌋₊ + 1) := Nat.lt_log2_self
  have hpow : 2 ^ (Nat.log2 ⌊a⌋₊ + 1) ≤ 2 ^ (p + 1 + spare p a) :=
    Nat.pow_le_pow_right (by decide) (by unfold spare; omega)
  exact hfloor.trans_le (by exact_mod_cast hlog.trans hpow)

theorem two_pow_spare_le (h : 0 < spare p a) : (2 : ℚ) ^ (p + spare p a) ≤ a := by
  have hne : ⌊a⌋₊ ≠ 0 := by
    intro hzero
    rw [spare, hzero] at h
    simp at h
  have hlog : 2 ^ (p + spare p a) ≤ ⌊a⌋₊ := by
    have hexp : p + spare p a = Nat.log2 ⌊a⌋₊ := by
      unfold spare at h ⊢
      omega
    rw [hexp]
    exact Nat.log2_self_le hne
  have hcast : ((2 ^ (p + spare p a) : ℕ) : ℚ) ≤ a :=
    (Nat.le_floor_iff' (by positivity)).mp hlog
  exact_mod_cast hcast

theorem roundBits_nonneg (h : 0 ≤ a) : 0 ≤ roundBits p a := by
  have hround : (0 : ℤ) ≤ roundEven (a / 2 ^ spare p a) := by
    rw [← roundEven_intCast 0]
    exact roundEven_mono (by push_cast; positivity)
  unfold roundBits
  exact mul_nonneg (by exact_mod_cast hround) (by positivity)

/-- A rounded magnitude is at most the power of two above it. -/
theorem roundBits_le (p : ℕ) (a : ℚ) : roundBits p a ≤ 2 ^ (p + 1 + spare p a) := by
  have hlt : a / 2 ^ spare p a ≤ ((2 ^ (p + 1) : ℤ) : ℚ) := by
    rw [div_le_iff₀ (by positivity)]
    push_cast
    rw [← pow_add]
    exact (lt_two_pow_spare p a).le
  have hround : roundEven (a / 2 ^ spare p a) ≤ 2 ^ (p + 1) := by
    rw [← roundEven_intCast (2 ^ (p + 1))]
    exact roundEven_mono hlt
  unfold roundBits
  rw [pow_add 2 (p + 1)]
  exact mul_le_mul_of_nonneg_right (by exact_mod_cast hround) (by positivity)

/-- A rounded magnitude is at least the power of two below it. -/
theorem le_roundBits (h : 0 < spare p a) : 2 ^ (p + spare p a) ≤ roundBits p a := by
  have hle : ((2 ^ p : ℤ) : ℚ) ≤ a / 2 ^ spare p a := by
    rw [le_div_iff₀ (by positivity)]
    push_cast
    rw [← pow_add]
    exact two_pow_spare_le h
  have hround : (2 ^ p : ℤ) ≤ roundEven (a / 2 ^ spare p a) := by
    rw [← roundEven_intCast (2 ^ p)]
    exact roundEven_mono hle
  unfold roundBits
  rw [pow_add 2 p]
  exact mul_le_mul_of_nonneg_right (by exact_mod_cast hround) (by positivity)

theorem roundBits_mono (p : ℕ) : Monotone (roundBits p) := by
  intro a a' hle
  rcases (spare_mono (p := p) hle).lt_or_eq with hlt | heq
  · -- the power of two between the sizes
    calc roundBits p a ≤ 2 ^ (p + 1 + spare p a) := roundBits_le p a
      _ ≤ 2 ^ (p + spare p a') := pow_le_pow_right₀ (by norm_num) (by omega)
      _ ≤ roundBits p a' := le_roundBits (Nat.zero_lt_of_lt hlt)
  · unfold roundBits
    rw [heq]
    have hround := roundEven_mono (div_le_div_of_nonneg_right hle
      (show (0 : ℚ) ≤ 2 ^ spare p a' by positivity))
    exact mul_le_mul_of_nonneg_right (by exact_mod_cast hround) (by positivity)

/-- A number of at most `p + 1` bits, shifted, is left alone. -/
theorem roundBits_of_bits {m : ℕ} (hm : m < 2 ^ (p + 1)) (k : ℕ) :
    roundBits p (m * 2 ^ k) = m * 2 ^ k := by
  have hfloor : ⌊(m * 2 ^ k : ℚ)⌋₊ = m * 2 ^ k := by
    rw [show (m * 2 ^ k : ℚ) = ((m * 2 ^ k : ℕ) : ℚ) by push_cast; rfl, Nat.floor_natCast]
  have hspare : spare p (m * 2 ^ k : ℚ) ≤ k := by
    rw [spare, hfloor]
    rcases Nat.eq_zero_or_pos m with rfl | hpos
    · simp
    · have hlt : m * 2 ^ k < 2 ^ (p + 1 + k) := by
        rw [pow_add]
        exact Nat.mul_lt_mul_of_pos_right hm (by positivity)
      have hlog := (Nat.log2_lt (by positivity)).mpr hlt
      omega
  have hint : (m * 2 ^ k : ℚ) / 2 ^ spare p (m * 2 ^ k : ℚ) =
      ((m * 2 ^ (k - spare p (m * 2 ^ k : ℚ)) : ℤ) : ℚ) := by
    rw [div_eq_iff (by positivity)]
    push_cast
    rw [mul_assoc, ← pow_add, Nat.sub_add_cancel hspare]
  rw [roundBits, hint, roundEven_intCast, ← hint, div_mul_cancel₀ _ (by positivity)]

/-- A rounded magnitude has at most `p + 1` bits. -/
theorem roundBits_eq_bits (h : 0 ≤ a) : ∃ m k : ℕ, m < 2 ^ (p + 1) ∧ roundBits p a = m * 2 ^ k := by
  have hround : (0 : ℤ) ≤ roundEven (a / 2 ^ spare p a) := by
    rw [← roundEven_intCast 0]
    exact roundEven_mono (by push_cast; positivity)
  obtain ⟨m, hm⟩ := Int.eq_ofNat_of_zero_le hround
  have hbits : roundBits p a = m * 2 ^ spare p a := by
    rw [roundBits, hm]
    push_cast
    rfl
  have hle : m ≤ 2 ^ (p + 1) := by
    have hle := roundBits_le p a
    rw [hbits, pow_add 2 (p + 1)] at hle
    exact_mod_cast le_of_mul_le_mul_right hle (by positivity)
  rcases hle.lt_or_eq with hlt | heq
  · exact ⟨m, spare p a, hlt, hbits⟩
  · refine ⟨2 ^ p, spare p a + 1, Nat.pow_lt_pow_right (by decide) (Nat.lt_succ_self p), ?_⟩
    rw [hbits, heq]
    push_cast
    ring

end Bits

/-! ## Numbers -/

/-- A number in the format of `p + 1` bits whose smallest number is `1 / 2 ^ s`. -/
def roundTo (p s : ℕ) (q : ℚ) : ℚ :=
  if 0 ≤ q then roundBits p (q * 2 ^ s) / 2 ^ s else -(roundBits p (-q * 2 ^ s) / 2 ^ s)

section Numbers

variable {p s : ℕ} {q : ℚ}

theorem roundTo_nonneg (h : 0 ≤ q) : 0 ≤ roundTo p s q := by
  rw [roundTo, if_pos h]
  exact div_nonneg (roundBits_nonneg (by positivity)) (by positivity)

theorem roundTo_nonpos (h : q ≤ 0) : roundTo p s q ≤ 0 := by
  rcases h.lt_or_eq with hlt | rfl
  · rw [roundTo, if_neg hlt.not_ge, neg_nonpos]
    exact div_nonneg (roundBits_nonneg (mul_nonneg (neg_nonneg.mpr h) (by positivity)))
      (by positivity)
  · rw [roundTo, if_pos le_rfl, zero_mul]
    have hzero : roundBits p ((0 : ℕ) * 2 ^ 0) = (0 : ℕ) * 2 ^ 0 :=
      roundBits_of_bits (by positivity) 0
    rw [Nat.cast_zero, zero_mul] at hzero
    rw [hzero, zero_div]

/-- **Rounding keeps the order.** -/
theorem roundTo_mono (p s : ℕ) : Monotone (roundTo p s) := by
  intro q q' hle
  by_cases hq : 0 ≤ q
  · rw [roundTo, roundTo, if_pos hq, if_pos (hq.trans hle)]
    exact div_le_div_of_nonneg_right
      (roundBits_mono p (mul_le_mul_of_nonneg_right hle (by positivity))) (by positivity)
  · rw [not_le] at hq
    by_cases hq' : 0 ≤ q'
    · exact (roundTo_nonpos hq.le).trans (roundTo_nonneg hq')
    · rw [roundTo, roundTo, if_neg hq.not_ge, if_neg hq', neg_le_neg_iff]
      exact div_le_div_of_nonneg_right (roundBits_mono p
        (mul_le_mul_of_nonneg_right (neg_le_neg hle) (by positivity))) (by positivity)

/-- A number of the format is left alone. -/
theorem roundTo_of_grid {m : ℕ} (hm : m < 2 ^ (p + 1)) (k : ℕ) :
    roundTo p s (m * 2 ^ k / 2 ^ s) = m * 2 ^ k / 2 ^ s := by
  rw [roundTo, if_pos (by positivity), div_mul_cancel₀ _ (by positivity), roundBits_of_bits hm]

theorem roundTo_natCast {n : ℕ} (hn : n < 2 ^ (p + 1)) : roundTo p s n = n := by
  have hgrid : (n : ℚ) = n * 2 ^ s / 2 ^ s := (mul_div_cancel_right₀ _ (by positivity)).symm
  rw [hgrid]
  exact roundTo_of_grid hn s

@[simp] theorem roundTo_neg (q : ℚ) : roundTo p s (-q) = -roundTo p s q := by
  rcases lt_trichotomy q 0 with hlt | rfl | hlt
  · rw [roundTo, roundTo, if_pos (neg_nonneg.mpr hlt.le), if_neg hlt.not_ge, neg_neg]
  · have hzero : roundTo p s ((0 : ℕ) : ℚ) = (0 : ℕ) := roundTo_natCast (by positivity)
    rw [Nat.cast_zero] at hzero
    rw [neg_zero, hzero, neg_zero]
  · rw [roundTo, roundTo, if_neg (not_le.mpr (neg_lt_zero.mpr hlt)), if_pos hlt.le, neg_neg]

/-- **A rounded number is a number of the format.** -/
@[simp] theorem roundTo_roundTo (q : ℚ) : roundTo p s (roundTo p s q) = roundTo p s q := by
  have hgrid : ∀ {q : ℚ}, 0 ≤ q → roundTo p s (roundTo p s q) = roundTo p s q := by
    intro q hq
    obtain ⟨m, k, hm, hbits⟩ := roundBits_eq_bits (p := p) (mul_nonneg hq (pow_nonneg zero_le_two s))
    have hround : roundTo p s q = m * 2 ^ k / 2 ^ s := by rw [roundTo, if_pos hq, hbits]
    rw [hround, roundTo_of_grid hm]
  rcases le_total 0 q with hq | hq
  · exact hgrid hq
  · have hneg := hgrid (neg_nonneg.mpr hq)
    rwa [roundTo_neg, roundTo_neg, neg_inj] at hneg

end Numbers

end LibSigma.Library
