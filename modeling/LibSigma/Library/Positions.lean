import Mathlib.Algebra.Order.Group.Nat
import Mathlib.Data.List.Count

/-!
# Positions in lists

Elements are named by their positions, and then some elements are dropped.

What a position says after that depends on what was dropped before it.  If nothing was, it names the
same element.  If something was, whatever moved into its place is named now, which is another
element and may by chance be an equal one.  `Stays` is that the position holds after dropping what
it held before, and `stays_iff` takes it apart into these two cases.

The second section is about lists whose elements are converted one by one, where the conversion of
the list fails if that of an element does.  There nothing is dropped, and positions stay what they
are.

* `stays_iff`: **an element that is kept keeps its position exactly when nothing before it is
  dropped**, or what moves into its place is the same.
* `getElem?_of_mapM`: the positions of a list whose elements are all converted.
-/

namespace LibSigma.Library

/-! ## Positions after dropping -/

section Positions

variable {α : Type} {p : α → Bool} {xs : List α} {x : α} {n s s' : ℕ}

variable (p xs) in
/-- Position `n` of the elements kept is position `s` of all. -/
structure ComesFrom (n s : ℕ) : Prop where
  kept : ∃ x, xs[s]? = some x ∧ p x = true
  before : (xs.take s).countP p = n

/-- An element that is kept comes from somewhere. -/
theorem exists_comesFrom (h : (xs.filter p)[n]? = some x) :
    ∃ s, ComesFrom p xs n s ∧ xs[s]? = some x := by
  induction xs generalizing n with
  | nil => cases h
  | cons y ys ih =>
    by_cases hy : p y = true
    · rw [List.filter_cons_of_pos hy] at h
      cases n with
      | zero =>
        have hxy : y = x := Option.some.inj h
        exact ⟨0, ⟨⟨y, rfl, hy⟩, rfl⟩, congrArg some hxy⟩
      | succ n =>
        obtain ⟨s, ⟨hkept, hbefore⟩, hs⟩ := ih h
        refine ⟨s + 1, ⟨hkept, ?_⟩, hs⟩
        rw [List.take_succ_cons, List.countP_cons_of_pos hy, hbefore]
    · rw [List.filter_cons_of_neg hy] at h
      obtain ⟨s, ⟨hkept, hbefore⟩, hs⟩ := ih h
      refine ⟨s + 1, ⟨hkept, ?_⟩, hs⟩
      rw [List.take_succ_cons, List.countP_cons_of_neg hy, hbefore]

/-- Nothing moves to the right. -/
theorem ComesFrom.le (h : ComesFrom p xs n s) : n ≤ s := by
  have hcount := (List.countP_le_length (p := p) (l := xs.take s)).trans (List.length_take_le s xs)
  exact h.before ▸ hcount

/-- What is kept after a kept element counts it. -/
theorem ComesFrom.count_lt (h : ComesFrom p xs n s) (hlt : s < s') :
    n < (xs.take s').countP p := by
  obtain ⟨x, hx, hp⟩ := h.kept
  have htake : xs.take (s + 1) = xs.take s ++ [x] := by rw [List.take_add_one, hx]; rfl
  have hsub : (xs.take (s + 1)).Sublist (xs.take s') := List.take_sublist_take_left hlt
  have hcount := hsub.countP_le (p := p)
  rw [htake, List.countP_append, h.before, List.countP_cons_of_pos hp] at hcount
  exact Nat.lt_of_succ_le hcount

theorem ComesFrom.unique (h : ComesFrom p xs n s) (h' : ComesFrom p xs n s') : s = s' := by
  rcases lt_trichotomy s s' with hlt | heq | hgt
  · exact absurd (h.count_lt hlt) (by rw [h'.before]; exact lt_irrefl n)
  · exact heq
  · exact absurd (h'.count_lt hgt) (by rw [h.before]; exact lt_irrefl n)

/-- A position stays where it is exactly when everything up to it is kept. -/
theorem comesFrom_self_iff : ComesFrom p xs n n ↔ ∀ i ≤ n, ∃ x, xs[i]? = some x ∧ p x = true := by
  constructor
  · intro h i hi
    obtain ⟨x, hx, hp⟩ := h.kept
    have hlt : n < xs.length := (List.getElem?_eq_some_iff.mp hx).1
    rcases hi.lt_or_eq with hlt' | rfl
    · have hlen : (xs.take n).length = n := List.length_take_of_le hlt.le
      have hall := List.countP_eq_length.mp (h.before.trans hlen.symm)
      have hget : (xs.take n)[i]? = some xs[i] := by
        rw [List.getElem?_take_of_lt hlt', List.getElem?_eq_getElem]
      exact ⟨xs[i], List.getElem?_eq_getElem _, hall _ (List.mem_of_getElem? hget)⟩
    · exact ⟨x, hx, hp⟩
  · intro h
    refine ⟨h n le_rfl, ?_⟩
    obtain ⟨x, hx, -⟩ := h n le_rfl
    have hlt : n < xs.length := (List.getElem?_eq_some_iff.mp hx).1
    have hlen : (xs.take n).length = n := List.length_take_of_le hlt.le
    refine (List.countP_eq_length.mpr fun y hy => ?_).trans hlen
    obtain ⟨i, hi⟩ := List.getElem?_of_mem hy
    have hin : i < n := by
      have := (List.getElem?_eq_some_iff.mp hi).1
      omega
    rw [List.getElem?_take_of_lt hin] at hi
    obtain ⟨z, hz, hp⟩ := h i hin.le
    cases hz.symm.trans hi
    exact hp

variable (p xs n) in
/-- Position `n` of the elements kept holds what it holds of all: everything up to it is kept, or
what moves into its place is the same again. -/
def Stays : Prop :=
  (∀ i ≤ n, ∃ x, xs[i]? = some x ∧ p x = true) ∨
    ∃ s, n < s ∧ ComesFrom p xs n s ∧ xs[s]? = xs[n]?

/-- **A kept position stays exactly when** it holds what it held. -/
theorem stays_iff (hlt : n < (xs.filter p).length) : Stays p xs n ↔ (xs.filter p)[n]? = xs[n]? := by
  obtain ⟨s, hs, hx⟩ := exists_comesFrom (List.getElem?_eq_getElem hlt)
  rw [List.getElem?_eq_getElem hlt, ← hx, Stays, ← comesFrom_self_iff]
  constructor
  · rintro (hself | ⟨s', -, hs', heq⟩)
    · rw [hself.unique hs]
    · rw [hs.unique hs', heq]
  · intro heq
    rcases hs.le.lt_or_eq with hlt' | rfl
    · exact Or.inr ⟨s, hlt', hs, heq⟩
    · exact Or.inl hs

end Positions

/-! ## Positions in converted lists -/

section Converted

variable {α β : Type} {f : α → Option β} {xs : List α} {ys : List β}

/-- What is at a position is what was there, converted. -/
theorem getElem?_of_mapM (h : xs.mapM f = some ys) (n : ℕ) : ys[n]? = xs[n]?.bind f := by
  induction xs generalizing ys n with
  | nil =>
    have hys : ys = [] := (Option.some.inj h).symm
    rw [hys, List.getElem?_nil, List.getElem?_nil, Option.bind_none]
  | cons x xs ih =>
    rw [List.mapM_cons] at h
    obtain ⟨y, hy, h⟩ := Option.bind_eq_some_iff.mp h
    obtain ⟨zs, hzs, h⟩ := Option.bind_eq_some_iff.mp h
    have hys : ys = y :: zs := (Option.some.inj h).symm
    rw [hys]
    cases n with
    | zero => exact hy.symm
    | succ n => exact ih hzs n

theorem length_of_mapM (h : xs.mapM f = some ys) : ys.length = xs.length := by
  induction xs generalizing ys with
  | nil =>
    have hys : ys = [] := (Option.some.inj h).symm
    rw [hys]
    rfl
  | cons x xs ih =>
    rw [List.mapM_cons] at h
    obtain ⟨y, -, h⟩ := Option.bind_eq_some_iff.mp h
    obtain ⟨zs, hzs, h⟩ := Option.bind_eq_some_iff.mp h
    have hys : ys = y :: zs := (Option.some.inj h).symm
    rw [hys, List.length_cons, List.length_cons, ih hzs]

/-- A converted element was there before. -/
theorem exists_of_mem_mapM (h : xs.mapM f = some ys) {y : β} (hy : y ∈ ys) :
    ∃ x ∈ xs, f x = some y := by
  obtain ⟨n, hn⟩ := List.getElem?_of_mem hy
  rw [getElem?_of_mapM h] at hn
  obtain ⟨x, hx, hf⟩ := Option.bind_eq_some_iff.mp hn
  exact ⟨x, List.mem_of_getElem? hx, hf⟩

end Converted

end LibSigma.Library
