import Mathlib.Data.List.Rotate
import LibSigma.Library.StableSort

/-!
# Bounded queues in order of a key

A queue of bounded size: its elements in the order of their arrival, the oldest of which, the first
to arrive of the least, makes room for a new one.  A list holds a queue when it is in order of the
key and has the elements of each key in the order of their arrival.

## Abstract and concrete

The queue is a list in order of arrival, and nothing about the key is visible in it.  A program
keeps the same elements sorted, because it wants the least first and cheap.  `SortedAs` ties the
two, and each operation of the program is shown to keep the tie.  It determines the sorted list
(`SortedAs.unique`), so an operation that does anything else to the sorted list does not implement
the queue, and the failure can be shown by one input.

## The full queue

A queue that is full loses its oldest element to a new one.  A program may take another way here:
put the last element of its list into the place of the head, and leave the rest as it is.  This
keeps the elements and, in general, loses the order; `cons_dropLast_iff` says when it does not.

* `SortedAs.insertLast_iff`, `SortedAs.filter`, `SortedAs.tail`: inserting behind the elements of a
  key, removing by a test and dropping the head keep a list in step with its queue.
* `SortedAs.unique`: no other list holds the queue.
* `perm_set_dropLast`: the last element in the place of another removes that one.
* `cons_dropLast_iff`: the last element in the place of the head gives the same list only if all
  behind the head are one.
-/

namespace LibSigma.Library

variable {α κ : Type} [LinearOrder κ] (key : α → κ)

/-- The queue without its oldest element. -/
def dropOldest (arrived : List α) : List α :=
  arrived.eraseP fun a => arrived.all fun b => key a ≤ key b

/-- The queue with a new element; a full one loses its oldest. -/
def enqueue (cap : ℕ) (a : α) (arrived : List α) : List α :=
  (if cap ≤ arrived.length then dropOldest key arrived else arrived) ++ [a]

/-- The list holds the queue in order of the key, and in order of arrival where the keys are equal. -/
structure SortedAs (l arrived : List α) : Prop where
  inOrder : InOrder key l
  arrival : ∀ k, keyed key k l = keyed key k arrived

variable {key}

namespace SortedAs

variable {l l' arrived : List α}

theorem nil : SortedAs key [] [] := ⟨List.Pairwise.nil, fun _ => rfl⟩

/-- The queue determines the list. -/
theorem unique (h : SortedAs key l arrived) (h' : SortedAs key l' arrived) : l = l' :=
  eq_of_inOrder h.inOrder h'.inOrder fun k => (h.arrival k).trans (h'.arrival k).symm

theorem length_eq (h : SortedAs key l arrived) : l.length = arrived.length := by
  rw [eq_sortBy h.inOrder h.arrival]
  exact List.length_mergeSort _

/-- A new element goes behind the others of its key, and the rest stays as it is. -/
theorem insertLast_iff (a : α) :
    SortedAs key (insertLast key a l) (arrived ++ [a]) ↔ SortedAs key l arrived := by
  constructor
  · intro h
    have hsub : l.Sublist (insertLast key a l) := by
      conv_lhs => rw [← List.rdropWhile_append_rtakeWhile (p := fun b => key a < key b) (l := l)]
      exact (List.sublist_append_left _ [a]).append_right _
    refine ⟨h.inOrder.sublist hsub, fun k => ?_⟩
    have hk := h.arrival k
    rw [keyed_insertLast, keyed_append] at hk
    exact List.append_cancel_right hk
  · intro h
    refine ⟨inOrder_insertLast h.inOrder a, fun k => ?_⟩
    rw [keyed_insertLast, h.arrival, keyed_append]

/-- The elements that are removed are removed from both. -/
theorem filter (h : SortedAs key l arrived) (p : α → Bool) :
    SortedAs key (l.filter p) (arrived.filter p) := by
  refine ⟨h.inOrder.filter p, fun k => ?_⟩
  have hcomm : ∀ xs : List α, keyed key k (xs.filter p) = (keyed key k xs).filter p := by
    intro xs
    rw [keyed, keyed, List.filter_comm]
  rw [hcomm, hcomm, h.arrival]

/-- The head is the oldest. -/
theorem tail {a : α} (h : SortedAs key (a :: l) arrived) :
    SortedAs key l (dropOldest key arrived) := by
  have hmem : ∀ b, b ∈ arrived ↔ b ∈ a :: l := fun b =>
    ⟨mem_of_keyed_eq fun k => (h.arrival k).symm, mem_of_keyed_eq h.arrival⟩
  have hleast : ∀ b ∈ arrived, key a ≤ key b := by
    intro b hb
    rcases List.mem_cons.mp ((hmem b).mp hb) with rfl | hb
    · exact le_rfl
    · exact (List.pairwise_cons.mp h.inOrder).1 b hb
  have ha : a ∈ arrived := (hmem a).mpr List.mem_cons_self
  obtain ⟨m, xs, ys, hxs, hm, harrived, hdrop⟩ := List.exists_of_eraseP
    (p := fun a => arrived.all fun b => decide (key a ≤ key b)) ha
    (List.all_eq_true.mpr fun b hb => decide_eq_true (hleast b hb))
  have hkey : key a = key m := by
    have hm' := of_decide_eq_true (List.all_eq_true.mp hm a ha)
    exact (hleast m (harrived ▸ List.mem_append_right _ List.mem_cons_self)).antisymm hm'
  have hbefore : keyed key (key a) xs = [] := by
    refine keyed_eq_nil fun b hb hba => hxs b hb ?_
    exact List.all_eq_true.mpr fun c hc => decide_eq_true (hba ▸ hleast c hc)
  refine ⟨h.inOrder.of_cons, fun k => ?_⟩
  have hk := h.arrival k
  rw [harrived, keyed_append, keyed_cons, keyed_cons] at hk
  rw [dropOldest, hdrop, keyed_append]
  by_cases hka : key a = k
  · rw [if_pos hka, if_pos (hkey ▸ hka), ← hka, hbefore] at hk
    rw [← hka, hbefore]
    exact (List.cons.inj hk).2
  · rwa [if_neg hka, if_neg (hkey ▸ hka)] at hk

end SortedAs

/-- The last element in front is the list turned by one. -/
theorem cons_dropLast_iff {l : List α} (hne : l ≠ []) :
    l.getLast hne :: l.dropLast = l ↔ ∀ a ∈ l, ∀ b ∈ l, a = b := by
  have : Nonempty α := ⟨l.getLast hne⟩
  constructor
  · intro h
    have hrotate : l.rotate 1 = l := by
      conv_lhs => rw [← h]
      rw [List.rotate_cons_succ, List.rotate_zero, List.dropLast_append_getLast]
    obtain ⟨c, hc⟩ := List.rotate_one_eq_self_iff_eq_replicate.mp hrotate
    intro a ha b hb
    rw [hc] at ha hb
    rw [List.eq_of_mem_replicate ha, List.eq_of_mem_replicate hb]
  · intro h
    have hall : ∀ a ∈ l, a = l.getLast hne := fun a ha => h a ha _ (List.getLast_mem hne)
    have hinit : l.dropLast = List.replicate l.dropLast.length (l.getLast hne) :=
      List.eq_replicate_of_mem fun a ha => hall a (List.dropLast_subset l ha)
    have hlen : l.dropLast.length + 1 = l.length := by
      rw [List.length_dropLast, Nat.sub_add_cancel (List.length_pos_of_ne_nil hne)]
    rw [hinit, ← List.replicate_succ, hlen]
    exact (List.eq_replicate_of_mem hall).symm

section Swap

open scoped List

/-- Putting the last element in the place of another removes that one. -/
theorem perm_set_dropLast {l : List α} (hne : l ≠ []) {i : ℕ} (hi : i < l.length) :
    (l[i] :: (l.set i (l.getLast hne)).dropLast).Perm l := by
  generalize hlast : l.getLast hne = c
  obtain ⟨init, rfl⟩ : ∃ init, l = init ++ [c] :=
    ⟨l.dropLast, by rw [← hlast, List.dropLast_append_getLast]⟩
  rw [List.length_append, List.length_singleton] at hi
  by_cases hlt : i < init.length
  · obtain ⟨xs, ys, hinit, hxs⟩ : ∃ xs ys, init = xs ++ init[i] :: ys ∧ xs.length = i :=
      ⟨init.take i, init.drop (i + 1),
        by rw [List.cons_getElem_drop_succ, List.take_append_drop], List.length_take_of_le hlt.le⟩
    rw [List.set_append_left _ _ hlt, List.dropLast_concat, List.getElem_append_left hlt]
    generalize init[i] = x at *
    subst hinit hxs
    rw [List.set_append_right _ _ le_rfl, Nat.sub_self, List.set_cons_zero]
    calc x :: (xs ++ c :: ys)
      _ ~ xs ++ x :: c :: ys := List.perm_middle.symm
      _ ~ xs ++ x :: (ys ++ [c]) := ((List.perm_append_singleton c ys).symm.cons x).append_left xs
      _ = xs ++ x :: ys ++ [c] := by rw [List.append_assoc, List.cons_append]
  · obtain rfl : i = init.length := by omega
    rw [List.set_append_right _ _ le_rfl, Nat.sub_self, List.set_cons_zero, List.dropLast_concat,
      List.getElem_concat_length rfl]
    exact (List.perm_append_singleton c init).symm

end Swap

end LibSigma.Library
