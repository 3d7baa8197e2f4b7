import Mathlib.Algebra.Group.Nat.Defs
import Mathlib.Data.Nat.Bitwise
import Mathlib.Logic.Function.Iterate
import LibSigma.Library.Codec

/-!
# Cyclic redundancy checks, bit by bit

A reflected cyclic redundancy check shifts its register right and adds the polynomial when a one
falls out.  Over the natural numbers the register can hold the whole message at once: the check of a
byte string is one long shift of the number the bytes write.

## Why natural numbers

A register of fixed width reads a message byte by byte, and what it holds in between is a mixture of
the message and of the polynomial.  In a register without a width the message stands above the part
that is being worked on, untouched, and reading is nothing but shifting.  Linearity is then one
statement about one function (`shiftOut_xor`), and a run over a message is an iterate of it.  The
polynomial is a parameter, and so is the width; all that is asked is that the top bit of the
polynomial is where the width says.

## Bursts

An error is a pattern of flipped bits, and by linearity the check of a message with an error differs
from that of the message by the check of the error.  A pattern inside the width of the polynomial is
a nonzero number of that many bits, times a power of two.  Shifting halves an even number and cannot
bring a nonzero register to zero, because the polynomial puts a one at the top whenever it is added.

* `shiftOut_xor`, `shiftOut_two_mul`: a shift is linear, and an even register just halves.
* `foldl_crcOctet`: reading bytes one at a time is the long shift.
* `foldl_crcOctet_ne_zero`: **a pattern of bits that lie within the width of the polynomial never
  reads to zero.**
-/

namespace LibSigma.Library

/-- One shift of the register. -/
def shiftOut (poly n : ℕ) : ℕ := if n.testBit 0 then n / 2 ^^^ poly else n / 2

section Shift

variable {poly w : ℕ}

theorem shiftOut_eq (n : ℕ) : shiftOut poly n = n / 2 ^^^ if n.testBit 0 then poly else 0 := by
  unfold shiftOut
  split
  · rfl
  · rw [Nat.xor_zero]

/-- **A shift is linear.** -/
@[simp] theorem shiftOut_xor (a b : ℕ) :
    shiftOut poly (a ^^^ b) = shiftOut poly a ^^^ shiftOut poly b := by
  have hhalf : (a ^^^ b) / 2 = a / 2 ^^^ b / 2 := by
    refine Nat.eq_of_testBit_eq fun i => ?_
    rw [Nat.testBit_xor, Nat.testBit_div_two, Nat.testBit_div_two, Nat.testBit_div_two,
      Nat.testBit_xor]
  have hpoly : (if (a ^^^ b).testBit 0 then poly else 0) =
      (if a.testBit 0 then poly else 0) ^^^ if b.testBit 0 then poly else 0 := by
    rw [Nat.testBit_xor]
    cases a.testBit 0 <;> cases b.testBit 0 <;> simp
  rw [shiftOut_eq, shiftOut_eq, shiftOut_eq, hhalf, hpoly]
  simp only [Nat.xor_assoc, Nat.xor_left_comm]

@[simp] theorem iterate_shiftOut_xor (k a b : ℕ) :
    (shiftOut poly)^[k] (a ^^^ b) = (shiftOut poly)^[k] a ^^^ (shiftOut poly)^[k] b := by
  induction k generalizing a b with
  | zero => rfl
  | succ k ih => rw [Function.iterate_succ_apply, shiftOut_xor, ih]; rfl

/-- An even register halves. -/
@[simp] theorem shiftOut_two_mul (n : ℕ) : shiftOut poly (2 * n) = n := by
  have heven : ¬ (2 * n).testBit 0 = true := by simp
  rw [shiftOut, if_neg heven, Nat.mul_div_cancel_left n (by decide)]

@[simp] theorem iterate_shiftOut_two_pow_mul (k n : ℕ) : (shiftOut poly)^[k] (2 ^ k * n) = n := by
  induction k with
  | zero => simp
  | succ k ih => rw [Function.iterate_succ_apply, pow_succ', mul_assoc, shiftOut_two_mul, ih]

theorem shiftOut_lt (hpoly : poly < 2 ^ w) {n : ℕ} (hn : n < 2 ^ w) : shiftOut poly n < 2 ^ w := by
  have hhalf : n / 2 < 2 ^ w := lt_of_le_of_lt (Nat.div_le_self n 2) hn
  unfold shiftOut
  split
  · exact Nat.xor_lt_two_pow hhalf hpoly
  · exact hhalf

/-- The top bit of the polynomial keeps a register from running empty. -/
theorem shiftOut_ne_zero (htop : poly.testBit (w - 1) = true) {n : ℕ} (hn : n < 2 ^ w)
    (hne : n ≠ 0) : shiftOut poly n ≠ 0 := by
  unfold shiftOut
  split
  · intro hzero
    have hclear : (n / 2).testBit (w - 1) = false := by
      rw [Nat.testBit_div_two]
      exact Nat.testBit_lt_two_pow (lt_of_lt_of_le hn (Nat.pow_le_pow_right (by decide) (by omega)))
    have hbit := congrArg (Nat.testBit · (w - 1)) hzero
    rw [Nat.testBit_xor, hclear, htop] at hbit
    simp at hbit
  · rename_i heven
    rw [Nat.testBit_zero, decide_eq_true_eq] at heven
    omega

/-- **A pattern within the width of the polynomial never shifts to zero**, wherever it lies. -/
theorem iterate_shiftOut_ne_zero (hpoly : poly < 2 ^ w) (htop : poly.testBit (w - 1) = true)
    {v p n : ℕ} (hv : v < 2 ^ w) (hne : v ≠ 0) (hp : p ≤ n) :
    (shiftOut poly)^[n] (2 ^ p * v) ≠ 0 := by
  have hstay : ∀ k v, v < 2 ^ w → v ≠ 0 → (shiftOut poly)^[k] v ≠ 0 := by
    intro k
    induction k with
    | zero => exact fun v _ hne => hne
    | succ k ih =>
      intro v hv hne
      rw [Function.iterate_succ_apply]
      exact ih _ (shiftOut_lt hpoly hv) (shiftOut_ne_zero htop hv hne)
  obtain ⟨k, rfl⟩ := Nat.exists_eq_add_of_le hp
  rw [Nat.add_comm, Function.iterate_add_apply, iterate_shiftOut_two_pow_mul]
  exact hstay k v hv hne

end Shift

/-! ## Byte strings -/

/-- One byte: it enters at the low end, and eight bits fall out. -/
def crcOctet (poly n : ℕ) (b : UInt8) : ℕ := (shiftOut poly)^[8] (n ^^^ b.toNat)

/-- Bit `p` of a byte string, the bytes in order and the least significant bit of each first. -/
def bitAt (bs : List UInt8) (p : ℕ) : Bool := (bs.getD (p / 8) 0).toNat.testBit (p % 8)

theorem leToNat_cons_xor (b : UInt8) (bs : List UInt8) :
    leToNat (b :: bs) = b.toNat ^^^ 2 ^ 8 * leToNat bs := by
  have hb : b.toNat < 2 ^ 8 := b.toNat_lt
  have hbase : 256 = 2 ^ 8 := rfl
  rw [leToNat, hbase, Nat.add_comm, Nat.two_pow_add_eq_or_of_lt hb]
  refine Nat.eq_of_testBit_eq fun i => ?_
  rw [Nat.testBit_or, Nat.testBit_xor, Nat.testBit_two_pow_mul]
  by_cases hi : 8 ≤ i
  · have hlow : b.toNat.testBit i = false :=
      Nat.testBit_lt_two_pow (lt_of_lt_of_le hb (Nat.pow_le_pow_right (by decide) hi))
    rw [hlow, Bool.or_false, Bool.false_xor]
  · simp [hi]

/-- **Reading bytes one at a time** is one long shift of the number they write. -/
theorem foldl_crcOctet (poly n : ℕ) (bs : List UInt8) :
    bs.foldl (crcOctet poly) n = (shiftOut poly)^[8 * bs.length] (n ^^^ leToNat bs) := by
  induction bs generalizing n with
  | nil => simp [leToNat]
  | cons b bs ih =>
    have hlen : 8 * (b :: bs).length = 8 * bs.length + 8 := by
      rw [List.length_cons]
      omega
    rw [List.foldl_cons, ih, hlen, Function.iterate_add_apply, leToNat_cons_xor, ← Nat.xor_assoc,
      iterate_shiftOut_xor 8, iterate_shiftOut_two_pow_mul]
    rfl

theorem testBit_leToNat (bs : List UInt8) (p : ℕ) : (leToNat bs).testBit p = bitAt bs p := by
  induction bs generalizing p with
  | nil => simp [leToNat, bitAt]
  | cons b bs ih =>
    rw [leToNat_cons_xor, Nat.testBit_xor, Nat.testBit_two_pow_mul]
    unfold bitAt
    by_cases hp : 8 ≤ p
    · obtain ⟨q, rfl⟩ := Nat.exists_eq_add_of_le hp
      have hlow : b.toNat.testBit (8 + q) = false :=
        Nat.testBit_lt_two_pow (lt_of_lt_of_le b.toNat_lt (Nat.pow_le_pow_right (by decide) hp))
      have hdiv : (8 + q) / 8 = q / 8 + 1 := by omega
      have hmod : (8 + q) % 8 = q % 8 := by omega
      rw [hlow, Bool.false_xor, decide_eq_true hp, Bool.true_and, Nat.add_sub_cancel_left, ih, hdiv,
        hmod, List.getD_cons_succ, bitAt]
    · have hdiv : p / 8 = 0 := by omega
      have hmod : p % 8 = p := by omega
      rw [decide_eq_false hp, Bool.false_and, Bool.xor_false, hdiv, hmod, List.getD_cons_zero]

theorem leToNat_zipWith_xor {bs es : List UInt8} (h : es.length = bs.length) :
    leToNat (List.zipWith (· ^^^ ·) bs es) = leToNat bs ^^^ leToNat es := by
  induction bs generalizing es with
  | nil =>
    obtain rfl := List.length_eq_zero_iff.mp h
    rfl
  | cons b bs ih =>
    cases es with
    | nil => exact absurd h nofun
    | cons e es =>
      have hmul : 2 ^ 8 * (leToNat bs ^^^ leToNat es) = 2 ^ 8 * leToNat bs ^^^ 2 ^ 8 * leToNat es := by
        refine Nat.eq_of_testBit_eq fun i => ?_
        simp only [Nat.testBit_two_pow_mul, Nat.testBit_xor]
        cases decide (8 ≤ i) <;> simp
      rw [List.zipWith_cons_cons, leToNat_cons_xor, leToNat_cons_xor, leToNat_cons_xor,
        ih (by simpa using h), UInt8.toNat_xor, hmul]
      simp only [Nat.xor_assoc, Nat.xor_left_comm]

/-- Set bits that lie within `w` positions. -/
def Burst (w : ℕ) (bs : List UInt8) : Prop :=
  ∃ p, ∀ q, bitAt bs q = true → p ≤ q ∧ q < p + w

/-- A burst is a short number at its first position. -/
theorem Burst.exists_short {w : ℕ} {bs : List UInt8} (h : Burst w bs) :
    ∃ p v, leToNat bs = 2 ^ p * v ∧ v < 2 ^ w := by
  obtain ⟨p, hp⟩ := h
  have hclear : ∀ q, ¬ (p ≤ q ∧ q < p + w) → (leToNat bs).testBit q = false := by
    intro q hq
    rw [testBit_leToNat, ← Bool.not_eq_true]
    exact fun hbit => hq (hp q hbit)
  refine ⟨p, leToNat bs >>> p, ?_, ?_⟩
  · refine Nat.eq_of_testBit_eq fun q => ?_
    rw [Nat.testBit_two_pow_mul, Nat.testBit_shiftRight]
    by_cases hq : p ≤ q
    · rw [decide_eq_true hq, Bool.true_and, Nat.add_sub_cancel' hq]
    · rw [decide_eq_false hq, Bool.false_and, hclear q fun hin => hq hin.1]
  · refine Nat.lt_pow_two_of_testBit _ fun q hq => ?_
    rw [Nat.testBit_shiftRight]
    exact hclear _ (by omega)

/-- **Bursts are seen.**  Reading a burst no longer than the polynomial's width into an empty
register never leaves it empty. -/
theorem foldl_crcOctet_ne_zero {poly w : ℕ} (hpoly : poly < 2 ^ w)
    (htop : poly.testBit (w - 1) = true) {es : List UInt8} (hburst : Burst w es) {q : ℕ}
    (hset : bitAt es q = true) : es.foldl (crcOctet poly) 0 ≠ 0 := by
  obtain ⟨p, v, heq, hv⟩ := hburst.exists_short
  have hbit : (2 ^ p * v).testBit q = true := by rw [← heq, testBit_leToNat, hset]
  have hne : v ≠ 0 := by
    rintro rfl
    simp at hbit
  have hp : p ≤ q := by
    by_contra hlt
    rw [Nat.testBit_two_pow_mul, decide_eq_false hlt] at hbit
    exact absurd hbit (by simp)
  have hq : q < 8 * es.length := by
    by_contra hge
    have hout : es.length ≤ q / 8 := by omega
    rw [bitAt, List.getD_eq_default _ _ hout] at hset
    simp at hset
  rw [foldl_crcOctet, Nat.zero_xor, heq]
  exact iterate_shiftOut_ne_zero hpoly htop hv hne (by omega)

end LibSigma.Library
