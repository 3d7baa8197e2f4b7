import Mathlib.Data.List.Dedup
import LibSigma.Library.Ring

/-!
# Recency

Keys are observed one after the other, each with some data.  A set with room for the `m` keys that
were observed last holds the end of their list.

`recency` is the abstract account: of all observations that were ever made, the last one of each
key, in the order in which these were made.  It has no bound and forgets nothing.  A bounded set
holds the last `m` of that list.  What it has lost cannot come back to matter: when a key that was
lost is observed again it goes to the end as a new one does, and the end of the full list is what
the set holds then (`rtake_filter_concat`).

Forgetting old observations is another operation, by time and not by room.  Observations of which
the oldest are forgotten first leave a list of the same keys that are still to be seen, so the two
kinds of forgetting may be mixed.

* `recency_concat`: one more observation.
* `recency_filter`: forgetting the oldest observations first makes no difference.
* `rtake_filter_concat`: **a bounded set need not know what it has lost.**
-/

namespace LibSigma.Library

variable {κ τ : Type} [DecidableEq κ]

/-- The last observation of each key, in order. -/
def recency : List (κ × τ) → List (κ × τ)
  | [] => []
  | e :: es => if e.1 ∈ es.map Prod.fst then recency es else e :: recency es

theorem recency_sublist (es : List (κ × τ)) : (recency es).Sublist es := by
  induction es with
  | nil => exact .slnil
  | cons e es ih =>
    rw [recency]
    split
    · exact ih.cons _
    · exact ih.cons_cons _

/-- The keys come without repetitions. -/
@[simp] theorem map_fst_recency (es : List (κ × τ)) :
    (recency es).map Prod.fst = (es.map Prod.fst).dedup := by
  induction es with
  | nil => rfl
  | cons e es ih =>
    rw [recency, List.map_cons]
    split
    · rename_i hmem
      rw [List.dedup_cons_of_mem hmem, ih]
    · rename_i hmem
      rw [List.dedup_cons_of_notMem hmem, List.map_cons, ih]

theorem nodup_recency (es : List (κ × τ)) : ((recency es).map Prod.fst).Nodup :=
  map_fst_recency es ▸ List.nodup_dedup _

/-- **One more observation**: its key goes to the end. -/
@[simp] theorem recency_concat (es : List (κ × τ)) (e : κ × τ) :
    recency (es ++ [e]) = (recency es).filter (fun x => x.1 ≠ e.1) ++ [e] := by
  induction es with
  | nil => rfl
  | cons x es ih =>
    have hiff : x.1 ∈ (es ++ [e]).map Prod.fst ↔ x.1 ∈ es.map Prod.fst ∨ x.1 = e.1 := by
      rw [List.map_append, List.mem_append, List.map_singleton, List.mem_singleton]
    rw [List.cons_append, recency, ih, recency]
    by_cases hmem : x.1 ∈ es.map Prod.fst
    · rw [if_pos (hiff.mpr (Or.inl hmem)), if_pos hmem]
    · rw [if_neg hmem]
      by_cases hkey : x.1 = e.1
      · rw [if_pos (hiff.mpr (Or.inr hkey)), List.filter_cons_of_neg (by simpa using hkey)]
      · rw [if_neg fun hin => (hiff.mp hin).elim hmem hkey,
          List.filter_cons_of_pos (by simpa using hkey), List.cons_append]

/-- **Forgetting the oldest observations first** makes no difference. -/
theorem recency_filter {p : κ × τ → Bool} {es : List (κ × τ)}
    (h : es.Pairwise fun x y => p x = true → p y = true) :
    (recency es).filter p = recency (es.filter p) := by
  induction es with
  | nil => rfl
  | cons e es ih =>
    rw [List.pairwise_cons] at h
    by_cases hp : p e = true
    · have hall : ∀ x ∈ e :: es, p x = true := by
        intro x hx
        rcases List.mem_cons.mp hx with rfl | hx
        · exact hp
        · exact h.1 x hx hp
      rw [List.filter_eq_self.mpr hall,
        List.filter_eq_self.mpr fun x hx => hall x ((recency_sublist _).subset hx)]
    · rw [List.filter_cons_of_neg hp, ← ih h.2, recency]
      split
      · rfl
      · rw [List.filter_cons_of_neg hp]

/-! ## Bounded sets -/

/-- The end of a list whose last part has the length asked for, or is all there is. -/
theorem rtake_append {α : Type} {xs ys : List α} {m : ℕ} (h : ys.length = m ∨ xs = [] ∧ ys.length ≤ m) :
    (xs ++ ys).rtake m = ys := by
  rw [List.rtake, List.length_append]
  rcases h with rfl | ⟨rfl, hle⟩
  · rw [Nat.add_sub_cancel, List.drop_left]
  · rw [List.length_nil, Nat.zero_add, Nat.sub_eq_zero_of_le hle, List.nil_append, List.drop_zero]

/-- What comes before the end of a list is all that does not fit. -/
theorem exists_rtake_append {α : Type} (xs : List α) (m : ℕ) :
    ∃ ys, xs = ys ++ xs.rtake m ∧ ((xs.rtake m).length = m ∨ ys = [] ∧ (xs.rtake m).length ≤ m) := by
  refine ⟨xs.take (xs.length - m), (List.take_append_drop _ _).symm, ?_⟩
  rw [length_rtake]
  rcases Nat.le_total m xs.length with hle | hle
  · exact Or.inl (Nat.min_eq_left hle)
  · refine Or.inr ⟨?_, Nat.min_le_left _ _⟩
    rw [Nat.sub_eq_zero_of_le hle, List.take_zero]

/-- A key of a list without repetitions is in one entry. -/
theorem length_filter_key {xs : List (κ × τ)} (hnodup : (xs.map Prod.fst).Nodup) {k : κ}
    (hk : k ∈ xs.map Prod.fst) : (xs.filter fun x => x.1 ≠ k).length + 1 = xs.length := by
  induction xs with
  | nil => exact absurd hk List.not_mem_nil
  | cons x xs ih =>
    rw [List.map_cons, List.nodup_cons] at hnodup
    by_cases hx : x.1 = k
    · have hself : xs.filter (fun x => x.1 ≠ k) = xs := by
        refine List.filter_eq_self.mpr fun y hy => decide_eq_true fun heq => hnodup.1 ?_
        rw [hx, ← heq]
        exact List.mem_map_of_mem hy
      rw [List.filter_cons_of_neg (by simpa using hx), hself, List.length_cons]
    · have hmem : k ∈ xs.map Prod.fst := by
        rw [List.map_cons, List.mem_cons] at hk
        exact hk.resolve_left fun heq => hx heq.symm
      rw [List.filter_cons_of_pos (by simpa using hx), List.length_cons, List.length_cons,
        ih hnodup.2 hmem]

/-- **A bounded set need not know what it has lost**: the key observed goes to its end, in the place
of its oldest key if there is no room for it. -/
theorem rtake_filter_concat {xs : List (κ × τ)} (hnodup : (xs.map Prod.fst).Nodup) {m : ℕ}
    (hm : 0 < m) (e : κ × τ) :
    ((xs.filter fun x => x.1 ≠ e.1) ++ [e]).rtake m =
      if e.1 ∈ (xs.rtake m).map Prod.fst then ((xs.rtake m).filter fun x => x.1 ≠ e.1) ++ [e]
      else (if m ≤ (xs.rtake m).length then (xs.rtake m).tail else xs.rtake m) ++ [e] := by
  obtain ⟨ys, hxs, hfull⟩ := exists_rtake_append xs m
  generalize xs.rtake m = zs at *
  subst hxs
  rw [List.map_append, List.nodup_append] at hnodup
  split
  · rename_i hmem
    have hlen := length_filter_key hnodup.2.1 hmem
    have hys : ys.filter (fun x => x.1 ≠ e.1) = ys := by
      refine List.filter_eq_self.mpr fun y hy => decide_eq_true fun heq => ?_
      exact hnodup.2.2 _ (List.mem_map_of_mem hy) _ hmem heq
    rw [List.filter_append, hys, List.append_assoc, rtake_append]
    rw [List.length_append, List.length_singleton, hlen]
    exact hfull
  · rename_i hmem
    have hzs : zs.filter (fun x => x.1 ≠ e.1) = zs := by
      refine List.filter_eq_self.mpr fun y hy => decide_eq_true fun heq => hmem ?_
      exact heq ▸ List.mem_map_of_mem hy
    have hkept : (ys.filter (fun x => x.1 ≠ e.1) ++ zs).rtake m = zs := by
      refine rtake_append (hfull.imp_right fun hand => ⟨?_, hand.2⟩)
      rw [hand.1]
      rfl
    have hle : zs.length ≤ m := hfull.elim le_of_eq And.right
    rw [List.filter_append, hzs, rtake_concat hm, hkept, pushCap]
    by_cases heq : zs.length = m
    · rw [if_pos heq, if_pos heq.ge]
    · rw [if_neg heq, if_neg fun hge => heq (le_antisymm hle hge)]

end LibSigma.Library
