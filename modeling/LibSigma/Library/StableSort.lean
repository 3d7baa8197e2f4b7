import Mathlib.Data.List.DropRight
import Mathlib.Order.Lattice

/-!
# Stable sorting

Lists in order of a key, where elements of one key keep the order in which they came.

A stable sort is usually specified as a sorted permutation that keeps the order of equal elements,
and permutations are unpleasant to calculate with.  Here a list is given by two things: it is in
order of the key, and for each key the list of its elements is a given one.  The two determine it
(`eq_of_inOrder`), so to show that two programs end with the same list it is enough to look at the
elements of one key.  Insertion, removal by a test and sorting each have an obvious effect on those.

* `eq_of_inOrder`: **the order and the elements of each key, in their order, determine a list.**
* `keyed_sortBy`, `inOrder_sortBy`: sorting by a key is stable.
* `keyed_insertLast`, `inOrder_insertLast`: so is inserting an element behind the others of its key.
-/

namespace LibSigma.Library

variable {α κ : Type} [LinearOrder κ] (key : α → κ)

/-- The elements come in order of their keys. -/
def InOrder (l : List α) : Prop := l.Pairwise fun a b => key a ≤ key b

/-- The elements of key `k`. -/
def keyed (k : κ) (l : List α) : List α := l.filter fun a => decide (key a = k)

/-- The stable sort. -/
def sortBy (l : List α) : List α := l.mergeSort fun a b => decide (key a ≤ key b)

/-- `a` behind the last element that is not above it. -/
def insertLast (a : α) (l : List α) : List α :=
  l.rdropWhile (fun b => key a < key b) ++ [a] ++ l.rtakeWhile fun b => key a < key b

variable {key}

@[simp] theorem keyed_nil (k : κ) : keyed key k [] = [] := rfl

@[simp] theorem keyed_append (k : κ) (l l' : List α) :
    keyed key k (l ++ l') = keyed key k l ++ keyed key k l' := List.filter_append ..

@[simp] theorem keyed_cons (k : κ) (a : α) (l : List α) :
    keyed key k (a :: l) = if key a = k then a :: keyed key k l else keyed key k l := by
  simp [keyed, List.filter_cons]

theorem mem_keyed {k : κ} {a : α} {l : List α} : a ∈ keyed key k l ↔ a ∈ l ∧ key a = k := by
  simp [keyed]

/-- Elements that all have other keys. -/
theorem keyed_eq_nil {k : κ} {l : List α} (h : ∀ a ∈ l, key a ≠ k) : keyed key k l = [] :=
  List.filter_eq_nil_iff.mpr fun a ha => by simpa using h a ha

/-- Lists with the same elements of each key have the same elements. -/
theorem mem_of_keyed_eq {l l' : List α} (h : ∀ k, keyed key k l = keyed key k l') {a : α}
    (ha : a ∈ l) : a ∈ l' :=
  (mem_keyed.mp (h (key a) ▸ mem_keyed.mpr ⟨ha, rfl⟩)).1

/-- **The order and the elements of each key determine a list.**  The heads have the least key, and
the first of them is the head of that key. -/
theorem eq_of_inOrder {l l' : List α} (hl : InOrder key l) (hl' : InOrder key l')
    (h : ∀ k, keyed key k l = keyed key k l') : l = l' := by
  induction l generalizing l' with
  | nil =>
    refine (List.eq_nil_iff_forall_not_mem.mpr fun a ha => ?_).symm
    exact List.not_mem_nil (mem_of_keyed_eq (fun k => (h k).symm) ha)
  | cons a l ih =>
    cases l' with
    | nil => exact absurd (mem_of_keyed_eq h List.mem_cons_self) List.not_mem_nil
    | cons b l' =>
      have hab : key a ≤ key b := by
        rcases List.mem_cons.mp (mem_of_keyed_eq (fun k => (h k).symm) List.mem_cons_self) with
          heq | hmem
        · rw [heq]
        · exact (List.pairwise_cons.mp hl).1 b hmem
      have hba : key b ≤ key a := by
        rcases List.mem_cons.mp (mem_of_keyed_eq h List.mem_cons_self) with heq | hmem
        · rw [heq]
        · exact (List.pairwise_cons.mp hl').1 a hmem
      have hkey := hba.antisymm hab
      have hhead : a = b := by
        have hk := h (key a)
        rw [keyed_cons, keyed_cons, if_pos rfl, if_pos hkey] at hk
        exact (List.cons.inj hk).1
      subst hhead
      refine congrArg (a :: ·) (ih hl.of_cons hl'.of_cons fun k => ?_)
      have hk := h k
      rw [keyed_cons, keyed_cons] at hk
      split at hk
      · exact (List.cons.inj hk).2
      · exact hk

section Parts

variable {β : Type} {key' : β → κ} {parts : α → List β}

/-- The parts of an element have its key. -/
theorem keyed_flatMap (h : ∀ a, ∀ b ∈ parts a, key' b = key a) (k : κ) (l : List α) :
    keyed key' k (l.flatMap parts) = (keyed key k l).flatMap parts := by
  induction l with
  | nil => rfl
  | cons a l ih =>
    rw [List.flatMap_cons, keyed_append, ih, keyed_cons]
    split
    · rename_i hk
      rw [List.flatMap_cons, keyed, List.filter_eq_self.mpr fun b hb => decide_eq_true (h a b hb ▸ hk)]
    · rename_i hk
      rw [keyed_eq_nil fun b hb => h a b hb ▸ hk, List.nil_append]

theorem inOrder_flatMap (h : ∀ a, ∀ b ∈ parts a, key' b = key a) {l : List α}
    (hl : InOrder key l) : InOrder key' (l.flatMap parts) := by
  refine List.pairwise_flatMap.mpr ⟨fun a _ => ?_, hl.imp fun hab b hb c hc => ?_⟩
  · exact List.pairwise_of_forall_mem_list fun b hb c hc => (h a b hb).trans (h a c hc).symm |>.le
  · rw [h _ b hb, h _ c hc]
    exact hab

end Parts

/-! ## Sorting -/

theorem inOrder_sortBy (l : List α) : InOrder key (sortBy key l) := by
  have h : (sortBy key l).Pairwise fun a b => decide (key a ≤ key b) = true := by
    refine List.pairwise_mergeSort (fun a b c hab hbc => ?_) (fun a b => ?_) l
    · simp only [decide_eq_true_eq] at hab hbc ⊢
      exact hab.trans hbc
    · simpa using le_total (key a) (key b)
  exact h.imp fun hab => of_decide_eq_true hab

/-- The elements of one key keep their order: they are a sorted sublist. -/
@[simp] theorem keyed_sortBy (k : κ) (l : List α) : keyed key k (sortBy key l) = keyed key k l := by
  have hperm : (sortBy key l).Perm l := List.mergeSort_perm _ _
  have hsorted : (keyed key k l).Pairwise fun a b => decide (key a ≤ key b) = true := by
    refine List.pairwise_of_forall_mem_list fun a ha b hb => ?_
    rw [(mem_keyed.mp ha).2, (mem_keyed.mp hb).2]
    exact decide_eq_true le_rfl
  have hsub : (keyed key k l).Sublist (sortBy key l) := by
    refine List.sublist_mergeSort (fun a b c hab hbc => ?_) (fun a b => ?_) hsorted
      List.filter_sublist
    · simp only [decide_eq_true_eq] at hab hbc ⊢
      exact hab.trans hbc
    · simpa using le_total (key a) (key b)
  have hkeyed : (keyed key k l).Sublist (keyed key k (sortBy key l)) := by
    have hself : keyed key k (keyed key k l) = keyed key k l :=
      List.filter_eq_self.mpr fun a ha => decide_eq_true (mem_keyed.mp ha).2
    rw [← hself]
    exact hsub.filter _
  exact (hkeyed.eq_of_length (hperm.filter _).length_eq.symm).symm

/-- A list in order with the elements of each key in their order is the stable sort. -/
theorem eq_sortBy {l l' : List α} (hl' : InOrder key l') (h : ∀ k, keyed key k l' = keyed key k l) :
    l' = sortBy key l :=
  eq_of_inOrder hl' (inOrder_sortBy l) fun k => (h k).trans (keyed_sortBy k l).symm

theorem sortBy_of_inOrder {l : List α} (h : InOrder key l) : sortBy key l = l :=
  (eq_sortBy h fun _ => rfl).symm

/-- Sorting what is sorted by the key of its image. -/
theorem map_sortBy {β : Type} (f : β → α) (l : List β) :
    (sortBy (fun b => key (f b)) l).map f = sortBy key (l.map f) :=
  List.map_mergeSort fun _ _ _ _ => rfl

/-! ## Inserting -/

/-- The element goes behind the others of its key. -/
@[simp] theorem keyed_insertLast (k : κ) (a : α) (l : List α) :
    keyed key k (insertLast key a l) = keyed key k l ++ keyed key k [a] := by
  have hsplit : keyed key k l = keyed key k (l.rdropWhile fun b => key a < key b) ++
      keyed key k (l.rtakeWhile fun b => key a < key b) := by
    rw [← keyed_append, List.rdropWhile_append_rtakeWhile]
  rw [insertLast, keyed_append, keyed_append, hsplit]
  by_cases hk : key a = k
  · have hnil : keyed key k (l.rtakeWhile fun b => key a < key b) = [] := by
      refine keyed_eq_nil fun b hb => ?_
      have hlt : key a < key b := by simpa using List.mem_rtakeWhile_imp hb
      exact hk ▸ hlt.ne'
    rw [hnil, List.append_nil, List.append_nil]
  · have hnil : keyed key k [a] = [] := keyed_eq_nil fun b hb => by
      rwa [List.mem_singleton.mp hb]
    rw [hnil, List.append_nil, List.append_nil]

@[simp] theorem length_insertLast (a : α) (l : List α) : (insertLast key a l).length = l.length + 1 := by
  have hlen := congrArg List.length (List.rdropWhile_append_rtakeWhile
    (p := fun b => decide (key a < key b)) (l := l))
  rw [List.length_append] at hlen
  rw [insertLast, List.length_append, List.length_append, List.length_singleton]
  omega

theorem inOrder_insertLast {l : List α} (h : InOrder key l) (a : α) :
    InOrder key (insertLast key a l) := by
  have hsplit : InOrder key ((l.rdropWhile fun b => key a < key b) ++
      l.rtakeWhile fun b => key a < key b) := by
    rwa [List.rdropWhile_append_rtakeWhile]
  obtain ⟨hdrop, htake, hboth⟩ := List.pairwise_append.mp hsplit
  -- what is left of the insertion ends with an element that is not above it
  have hle : ∀ b ∈ l.rdropWhile (fun b => key a < key b), key b ≤ key a := by
    intro b hb
    have hne := List.ne_nil_of_mem hb
    have hlast : ¬ key a < key ((l.rdropWhile fun b => key a < key b).getLast hne) := by
      simpa using List.rdropWhile_last_not (fun b => decide (key a < key b)) l hne
    rcases List.mem_iff_append.mp hb with ⟨xs, ys, heq⟩
    refine le_trans ?_ (not_lt.mp hlast)
    rcases List.eq_nil_or_concat ys with rfl | ⟨zs, z, rfl⟩
    · simp only [heq, List.getLast_append_singleton, le_refl]
    · simp only [heq, List.concat_eq_append, ← List.cons_append, ← List.append_assoc,
        List.getLast_append_singleton]
      rw [heq] at hdrop
      exact (List.pairwise_cons.mp (List.pairwise_append.mp hdrop).2.1).1 z (by simp)
  refine List.pairwise_append.mpr ⟨List.pairwise_append.mpr ⟨hdrop, List.pairwise_singleton _ _,
    fun b hb c hc => ?_⟩, htake, fun b hb c hc => ?_⟩
  · rw [List.mem_singleton.mp hc]
    exact hle b hb
  · rcases List.mem_append.mp hb with hb | hb
    · exact hboth b hb c hc
    · have hlt : key a < key c := by simpa using List.mem_rtakeWhile_imp hc
      rw [List.mem_singleton.mp hb]
      exact hlt.le

end LibSigma.Library
