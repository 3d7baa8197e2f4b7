import Mathlib.Data.List.Basic
import Mathlib.Data.Nat.ModEq

/-!
# A table indexed modulo its size

Keys are written one after the other to a table of `n` slots, each to the slot of its residue, over
what was there.  The table is never cleared: a slot is current if it holds the key asked for.

Two keys share a slot when they are a multiple of `n` apart.  If keys never decrease, what a slot
holds is the largest key of its residue that was written, and a key that is less than `n` below the
last one cannot have been overwritten: the next key of its residue is still to come.  So for the
last `n` keys the slot tells whether the key was written, and for older ones it may not.

What else is stored in a slot is stored with its key, so it is enough to speak of keys.

* `lastIn_concat`: one more key.
* `lastIn_eq_some_iff`: **among the last `n` keys the table holds exactly those that were written**,
  if the keys never decrease.
-/

namespace LibSigma.Library

variable {n : ℕ} {es : List ℕ}

/-- The key that the slot of `e` holds. -/
def lastIn (n : ℕ) (es : List ℕ) (e : ℕ) : Option ℕ :=
  (es.filter fun e' => e' % n == e % n).getLast?

/-- A key is written to its slot, and to no other. -/
theorem lastIn_concat (n : ℕ) (es : List ℕ) (e₀ e : ℕ) :
    lastIn n (es ++ [e₀]) e = if e₀ % n = e % n then some e₀ else lastIn n es e := by
  rw [lastIn, lastIn, List.filter_append]
  by_cases hslot : e₀ % n = e % n
  · have hnew : [e₀].filter (fun e' => e' % n == e % n) = [e₀] := by simp [hslot]
    rw [if_pos hslot, hnew, List.getLast?_concat]
  · have hnew : [e₀].filter (fun e' => e' % n == e % n) = [] := by simp [hslot]
    rw [if_neg hslot, hnew, List.append_nil]

/-- Two keys of one slot less than `n` apart are the same. -/
theorem eq_of_slot_eq {e e' : ℕ} (hslot : e' % n = e % n) (hle : e ≤ e') (hlt : e' < e + n) :
    e' = e := by
  have hdvd : n ∣ e' - e := (Nat.modEq_iff_dvd' hle).mp hslot.symm
  have hzero := Nat.eq_zero_of_dvd_of_lt hdvd (by omega)
  omega

/-- **Among the last `n` keys the table holds those that were written.** -/
theorem lastIn_eq_some_iff (hsorted : es.Pairwise (· ≤ ·)) {e : ℕ} (hlast : ∀ e' ∈ es, e' < e + n) :
    lastIn n es e = some e ↔ e ∈ es := by
  constructor
  · intro h
    exact List.mem_of_mem_filter (List.mem_of_getLast? h)
  · intro he
    have hmem : e ∈ es.filter fun e' => e' % n == e % n :=
      List.mem_filter.mpr ⟨he, beq_iff_eq.mpr rfl⟩
    obtain ⟨ys, m, hsplit⟩ := List.eq_nil_or_concat' _ |>.resolve_left (List.ne_nil_of_mem hmem)
    have hm : m ∈ es.filter fun e' => e' % n == e % n := by
      rw [hsplit]
      exact List.mem_append_right _ List.mem_cons_self
    obtain ⟨hmes, hslot⟩ := List.mem_filter.mp hm
    -- the last key of the slot is not before `e`
    have hle : e ≤ m := by
      have hsub := hsorted.sublist (List.filter_sublist (p := fun e' => e' % n == e % n))
      rw [hsplit] at hsub hmem
      rcases List.mem_append.mp hmem with hys | hlast
      · exact (List.pairwise_append.mp hsub).2.2 e hys m List.mem_cons_self
      · exact (List.mem_singleton.mp hlast).le
    rw [lastIn, hsplit, List.getLast?_concat, eq_of_slot_eq (beq_iff_eq.mp hslot) hle (hlast m hmes)]

end LibSigma.Library
