import Mathlib.Order.Bounds.Basic

/-!
# Searching from left to right

A search for the first position with a property may work block by block: test all positions of a
block at once, collect the candidates in a bit mask, and visit the set bits from the lowest up.

The result of a search is an optional position, and `Leftmost` says what it has to be: a position
with the property and none before it, or nothing when no position has it.  There is exactly one such
result, so two searches that are both leftmost are equal, however they go about it.

A block either settles the search or lets it go on.  That is a result with one more case than the
search has: go on, answer with a position, answer with nothing because no later position is
possible.  `BlockAnswer` says what each of them promises about the positions so far, and a loop over
the blocks needs to know no more.

Candidates of a block come in a mask, and the loop over them takes the lowest set bit and clears it.
The lemmas on masks say which bit that is and that the others stay.

* `Leftmost P r`: `r` is the answer of a left-to-right search; there is exactly one.
* `maskOf`: the mask of a list of tests.
* `getLsbD_clearLow`: `mask & (mask - 1)` clears the lowest set bit and no other.
* `BlockAnswer P n r`: what the search of a block must deliver: nothing when no position below `n`
  has the property, or else the answer to the whole search.
-/

namespace LibSigma.Library

/-! ## The answer -/

/-- The first position with the property, or nothing when there is none. -/
def Leftmost (P : ℕ → Prop) : Option ℕ → Prop
  | some p => P p ∧ ∀ q < p, ¬ P q
  | none => ∀ q, ¬ P q

section Answer

variable {P : ℕ → Prop} {r r' : Option ℕ}

theorem Leftmost.unique (h : Leftmost P r) (h' : Leftmost P r') : r = r' := by
  match r, r' with
  | none, none => rfl
  | none, some p => exact absurd h'.1 (h p)
  | some p, none => exact absurd h.1 (h' p)
  | some p, some p' =>
    rcases Nat.lt_trichotomy p p' with hlt | heq | hgt
    · exact absurd h.1 (h'.2 p hlt)
    · rw [heq]
    · exact absurd h'.1 (h.2 p' hgt)

theorem Leftmost.eq_some_iff (h : Leftmost P r) {p : ℕ} : r = some p ↔ IsLeast {q | P q} p := by
  constructor
  · rintro rfl
    exact ⟨h.1, fun q hq => Nat.le_of_not_lt fun hlt => h.2 q hlt hq⟩
  · rintro ⟨hp, hleast⟩
    exact h.unique (show Leftmost P (some p) from
      ⟨hp, fun q hlt hq => Nat.not_le_of_lt hlt (hleast hq)⟩)

theorem Leftmost.eq_none_iff (h : Leftmost P r) : r = none ↔ ¬ ∃ p, P p := by
  constructor
  · rintro rfl ⟨p, hp⟩
    exact h p hp
  · intro hnone
    exact h.unique (show Leftmost P none from fun q hq => hnone ⟨q, hq⟩)

/-- A search that starts at `i` when nothing before `i` has the property. -/
theorem Leftmost.shift {i : ℕ} (h : Leftmost (fun q => P (i + q)) r) (hbefore : ∀ q < i, ¬ P q) :
    Leftmost P (r.map (i + ·)) := by
  cases r with
  | none =>
    intro q hq
    by_cases hlt : q < i
    · exact hbefore q hlt hq
    · obtain ⟨k, rfl⟩ := Nat.exists_eq_add_of_le (Nat.le_of_not_lt hlt)
      exact h k hq
  | some p =>
    refine ⟨h.1, fun q hlt hq => ?_⟩
    by_cases hqi : q < i
    · exact hbefore q hqi hq
    · obtain ⟨k, rfl⟩ := Nat.exists_eq_add_of_le (Nat.le_of_not_lt hqi)
      exact h.2 k (Nat.lt_of_add_lt_add_left hlt) hq

/-- Searching the positions below `n`, outside of which the property never holds. -/
theorem leftmost_find? {n : ℕ} {p : ℕ → Bool} (hp : ∀ q < n, (p q = true ↔ P q))
    (hn : ∀ q, P q → q < n) : Leftmost P ((List.range n).find? p) := by
  cases hfind : (List.range n).find? p with
  | none =>
    intro q hq
    have hlt := hn q hq
    exact List.find?_eq_none.mp hfind q (List.mem_range.mpr hlt) ((hp q hlt).mpr hq)
  | some k =>
    rw [List.find?_range_eq_some] at hfind
    obtain ⟨hpk, hk, hbefore⟩ := hfind
    have hkn := List.mem_range.mp hk
    refine ⟨(hp k hkn).mp hpk, fun q hlt hq => ?_⟩
    have hfalse := hbefore q hlt
    rw [(hp q (hlt.trans hkn)).mpr hq] at hfalse
    exact absurd hfalse (by simp)

/-- What the search of the positions up to `n` delivers: `none` to go on with the next block, or
the answer. -/
def BlockAnswer (P : ℕ → Prop) (n : ℕ) : Option (Option ℕ) → Prop
  | none => ∀ q < n, ¬ P q
  | some r => Leftmost P r

end Answer

/-! ## Masks -/

section Mask

variable {w : ℕ}

/-- The mask whose bit `i` is test `i` of the list. -/
def maskOf (w : ℕ) : List Bool → BitVec w
  | [] => 0
  | b :: bs => (maskOf w bs <<< 1) ||| BitVec.ofNat w b.toNat

theorem getLsbD_maskOf (bs : List Bool) (i : ℕ) :
    (maskOf w bs).getLsbD i = (decide (i < w) && bs.getD i false) := by
  induction bs generalizing i with
  | nil => simp [maskOf]
  | cons b bs ih =>
    rw [maskOf, BitVec.getLsbD_or, BitVec.getLsbD_shiftLeft, ih, BitVec.getLsbD_ofNat]
    cases i with
    | zero => cases b <;> simp
    | succ i =>
      have hbit : b.toNat.testBit (i + 1) = false := by
        cases b <;> simp [Nat.testBit_succ]
      by_cases hi : i + 1 < w
      · simp [hbit, hi, Nat.lt_of_succ_lt hi]
      · simp [hi]

/-- `mask & (mask - 1)`. -/
def clearLow (mask : BitVec w) : BitVec w := mask &&& (mask - 1)

theorem testBit_and_pred {m c : ℕ} (hc : m.testBit c = true)
    (hlow : ∀ i < c, m.testBit i = false) (i : ℕ) :
    (m &&& (m - 1)).testBit i = (m.testBit i && decide (i ≠ c)) := by
  have hrem : m % 2 ^ (c + 1) = 2 ^ c := by
    refine Nat.eq_of_testBit_eq fun j => ?_
    rw [Nat.testBit_mod_two_pow, Nat.testBit_two_pow]
    rcases Nat.lt_trichotomy j c with hlt | rfl | hgt
    · simp [hlow j hlt, Nat.ne_of_gt hlt]
    · simp [hc]
    · simp [Nat.not_lt_of_le (Nat.succ_le_of_lt hgt), Nat.ne_of_lt hgt]
  obtain ⟨k, rfl⟩ : ∃ k, m = 2 ^ (c + 1) * k + 2 ^ c :=
    ⟨m / 2 ^ (c + 1), by rw [← hrem, Nat.div_add_mod]⟩
  have hpos : 0 < 2 ^ c := Nat.two_pow_pos c
  have hlt : 2 ^ c < 2 ^ (c + 1) := Nat.pow_lt_pow_succ (by decide)
  have hpred : 2 ^ (c + 1) * k + 2 ^ c - 1 = 2 ^ (c + 1) * k + (2 ^ c - 1) := by omega
  rw [Nat.testBit_and, hpred, Nat.testBit_two_pow_mul_add _ hlt,
    Nat.testBit_two_pow_mul_add _ ((Nat.sub_le _ _).trans_lt hlt)]
  split
  · rw [Nat.testBit_two_pow, Nat.testBit_two_pow_sub_one]
    by_cases hic : i = c
    · simp [hic]
    · simp [Ne.symm hic]
  · have hic : i ≠ c := by omega
    simp [hic]

/-- **The lowest set bit is cleared, and no other.** -/
theorem getLsbD_clearLow {mask : BitVec w} (h : mask ≠ 0) (i : ℕ) :
    (clearLow mask).getLsbD i = (mask.getLsbD i && decide (i ≠ mask.ctz.toNat)) := by
  have hpos : 0 < mask.toNat := Nat.pos_of_ne_zero fun hzero => h (BitVec.eq_of_toNat_eq hzero)
  have hpred : (mask - 1).toNat = mask.toNat - 1 := by
    have hlt := mask.isLt
    have hone : (1 : BitVec w).toNat = 1 := by
      simp [Nat.mod_eq_of_lt (show 1 < 2 ^ w by omega)]
    have hle : (1 : BitVec w) ≤ mask := by
      rw [BitVec.le_def, hone]
      exact hpos
    rw [BitVec.toNat_sub_of_le hle, hone]
  change (mask &&& (mask - 1)).toNat.testBit i = (mask.toNat.testBit i && _)
  rw [BitVec.toNat_and, hpred]
  exact testBit_and_pred (BitVec.getLsbD_true_ctz_of_ne_zero h)
    (fun j hj => BitVec.getLsbD_false_of_lt_ctz hj) i

/-- Clearing the lowest bit makes a mask smaller. -/
theorem toNat_clearLow_lt {mask : BitVec w} (h : mask ≠ 0) :
    (clearLow mask).toNat < mask.toNat := by
  have hle : (clearLow mask).toNat ≤ mask.toNat := by
    rw [clearLow, BitVec.toNat_and]
    exact Nat.and_le_left
  refine hle.lt_of_ne fun heq => ?_
  have hbit := getLsbD_clearLow h mask.ctz.toNat
  rw [BitVec.eq_of_toNat_eq heq, BitVec.getLsbD_true_ctz_of_ne_zero h] at hbit
  simp at hbit

end Mask

end LibSigma.Library
