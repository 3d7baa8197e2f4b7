import Mathlib.Data.List.TakeWhile

/-!
# Pieces between separators

A text is cut at a separator, one piece after the other, and empty pieces do not count.

Programs cut a text by walking through it: skip separators, note where a piece begins, go on to the
next separator.  `pieces` is the list of what is found, and the two step lemmas say what skipping
and noting do to it, so a loop is related to the list by induction on the text that is left.

The other lemmas are for the way back.  Whoever writes pieces with separators in between, or one
piece per line, gets back what was written, as long as no piece holds a separator or is empty.

* `pieces`: the pieces of a text.
* `pieces_skip`, `pieces_next`: **cutting one piece after the other** gives them all.
* `pieces_lines`, `pieces_intercalate`: **what was put together is cut apart.**
-/

namespace LibSigma.Library

variable {α : Type} [DecidableEq α] {sep : α}

/-- The pieces of a list between separators that are not empty. -/
def pieces (sep : α) (xs : List α) : List (List α) := (xs.splitOn sep).filter fun p => p ≠ []

@[simp] theorem pieces_nil : pieces sep [] = [] := by
  rw [pieces, List.splitOn_nil]
  rfl

@[simp] theorem pieces_append_cons (xs ys : List α) :
    pieces sep (xs ++ sep :: ys) = pieces sep xs ++ pieces sep ys := by
  rw [pieces, List.splitOn_append_cons_self, List.filter_append]
  rfl

/-- A text without a separator is one piece. -/
theorem pieces_of_not_mem {xs : List α} (h : sep ∉ xs) (hne : xs ≠ []) : pieces sep xs = [xs] := by
  rw [pieces, List.splitOn_eq_singleton h]
  exact List.filter_eq_self.mpr fun p hp => decide_eq_true (List.mem_singleton.mp hp ▸ hne)

/-- A separator at the start cuts nothing off. -/
theorem pieces_cons_self (xs : List α) : pieces sep (sep :: xs) = pieces sep xs :=
  (pieces_append_cons [] xs).trans (by rw [pieces_nil, List.nil_append])

/-- Separators at the start are skipped. -/
@[simp] theorem pieces_skip (xs : List α) : pieces sep (xs.dropWhile fun x => x = sep) = pieces sep xs := by
  induction xs with
  | nil => rfl
  | cons x xs ih =>
    by_cases hx : x = sep
    · subst hx
      rw [List.dropWhile_cons, if_pos (by simp), ih, pieces_cons_self]
    · rw [List.dropWhile_cons, if_neg (by simpa using hx)]

variable (sep) in
/-- The text up to the first separator, and what comes after it. -/
theorem takeWhile_ne_append (xs : List α) :
    xs = (xs.takeWhile fun x => x ≠ sep) ∧ sep ∉ xs ∨
      xs = (xs.takeWhile fun x => x ≠ sep) ++ sep :: (xs.dropWhile fun x => x ≠ sep).drop 1 := by
  have hall := List.takeWhile_append_dropWhile (p := fun x => decide (x ≠ sep)) (l := xs)
  cases hrest : xs.dropWhile fun x => x ≠ sep with
  | nil =>
    rw [hrest, List.append_nil] at hall
    refine .inl ⟨hall.symm, fun hmem => ?_⟩
    have hne := List.dropWhile_eq_nil_iff.mp hrest sep hmem
    simp at hne
  | cons y ys =>
    have hy : y = sep := by
      have hhead := List.head?_dropWhile_not (fun x => decide (x ≠ sep)) xs
      rw [hrest] at hhead
      simpa using hhead
    rw [hrest, hy] at hall
    exact .inr hall.symm

/-- **The next piece** is the text up to the first separator. -/
theorem pieces_next {x : α} {xs : List α} (hx : x ≠ sep) :
    pieces sep (x :: xs) = ((x :: xs).takeWhile fun x => x ≠ sep) ::
      pieces sep (((x :: xs).dropWhile fun x => x ≠ sep).drop 1) := by
  have hne : ((x :: xs).takeWhile fun x => x ≠ sep) ≠ [] := by
    rw [List.takeWhile_cons, if_pos (by simpa using hx)]
    exact List.cons_ne_nil _ _
  have hnot : sep ∉ (x :: xs).takeWhile fun x => x ≠ sep := fun hmem => by
    simpa using List.mem_takeWhile_imp hmem
  rcases takeWhile_ne_append sep (x :: xs) with ⟨hall, hmem⟩ | hall
  · have hrest : (x :: xs).dropWhile (fun x => decide (x ≠ sep)) = [] := by
      refine List.dropWhile_eq_nil_iff.mpr fun y hy => decide_eq_true fun heq => hmem (heq ▸ hy)
    rw [hrest, ← hall, pieces_of_not_mem hmem (List.cons_ne_nil _ _)]
    rfl
  · refine (congrArg (pieces sep) hall).trans ?_
    rw [pieces_append_cons, pieces_of_not_mem hnot hne]
    rfl

/-- **Lines that were written one after the other.** -/
theorem pieces_lines {ls : List (List α)} (h : ∀ l ∈ ls, sep ∉ l ∧ l ≠ []) :
    pieces sep (ls.flatMap fun l => l ++ [sep]) = ls := by
  induction ls with
  | nil => rfl
  | cons l ls ih =>
    obtain ⟨hnot, hne⟩ := h l List.mem_cons_self
    rw [List.flatMap_cons, List.append_assoc, List.singleton_append, pieces_append_cons,
      pieces_of_not_mem hnot hne, ih fun l' hl' => h l' (List.mem_cons_of_mem _ hl')]
    rfl

omit [DecidableEq α] in
/-- What is in pieces that were put together is in one of them, or separates them. -/
theorem mem_intercalate {ls : List (List α)} {x : α} (h : x ∈ [sep].intercalate ls) :
    x = sep ∨ ∃ l ∈ ls, x ∈ l := by
  induction ls with
  | nil => cases h
  | cons l ls ih =>
    cases ls with
    | nil =>
      rw [List.intercalate_singleton] at h
      exact .inr ⟨l, List.mem_cons_self, h⟩
    | cons l' ls =>
      rw [List.intercalate_cons_cons, List.mem_append, List.mem_append] at h
      rcases h with (h | h) | h
      · exact .inr ⟨l, List.mem_cons_self, h⟩
      · exact .inl (List.mem_singleton.mp h)
      · obtain hsep | ⟨m, hm, hx⟩ := ih h
        · exact .inl hsep
        · exact .inr ⟨m, List.mem_cons_of_mem _ hm, hx⟩

/-- **Pieces with a separator between them.** -/
theorem pieces_intercalate {ls : List (List α)} (h : ∀ l ∈ ls, sep ∉ l ∧ l ≠ []) :
    pieces sep ([sep].intercalate ls) = ls := by
  cases ls with
  | nil => rfl
  | cons l ls =>
    rw [pieces, List.splitOn_intercalate sep (fun l' hl' => (h l' hl').1) (List.cons_ne_nil _ _)]
    exact List.filter_eq_self.mpr fun l' hl' => decide_eq_true (h l' hl').2

end LibSigma.Library
