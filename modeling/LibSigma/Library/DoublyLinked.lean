import Mathlib.Data.List.Basic
import Mathlib.Data.List.Nodup
import Mathlib.Logic.Function.Basic

/-!
# Doubly linked lists

A list threaded through its nodes: each has a link to the next one and one to the previous one.

The links are functions from nodes, with `none` at the ends.  `Links.Holds` relates them to a list
without duplicates, by the neighbours of each position: whoever comes after `a` in the list is what
the link of `a` says, and the same backwards.  Nodes that are not in the list may have any links.
That is as it is in a program, where a node that was taken out keeps what it pointed to until it is
freed.

The operations are those of a list in order of use: a node is taken out from anywhere, and a node is
put at the end.  Moving a node to the end is one after the other.  Each is a handful of assignments
with a case for a missing neighbour, and the lemma says what list is held after it, so a user never
looks at the links again.  `Links.Holds.walk` is for the loops that follow them.

* `Links.Holds`: the links hold a list of nodes.
* `Links.Holds.unlink`, `Links.Holds.pushMru`: taking a node out of the list, and putting one at its
  end.
* `Links.Holds.walk`: following the links from the first node.
-/

namespace LibSigma.Library

/-- The links of a list of nodes. -/
structure Links (ι : Type) where
  head : Option ι
  tail : Option ι
  next : ι → Option ι
  prev : ι → Option ι

namespace Links

variable {ι : Type}

/-- No nodes. -/
def empty : Links ι := ⟨none, none, fun _ => none, fun _ => none⟩

/-- The links hold a list: its ends, and the neighbours of each of its nodes. -/
structure Holds (l : Links ι) (xs : List ι) : Prop where
  nodup : xs.Nodup
  head : l.head = xs.head?
  tail : l.tail = xs.getLast?
  next : ∀ ys e zs, xs = ys ++ e :: zs → l.next e = zs.head?
  prev : ∀ ys e zs, xs = ys ++ e :: zs → l.prev e = ys.getLast?

theorem holds_empty : (empty : Links ι).Holds [] where
  nodup := .nil
  head := rfl
  tail := rfl
  next _ _ _ h := absurd h (by simp)
  prev _ _ _ h := absurd h (by simp)

/-- A member of two lists, one behind the other, is in one of them. -/
theorem append_eq_split {as bs ys zs : List ι} {x : ι} (h : as ++ bs = ys ++ x :: zs) :
    (∃ cs, as = ys ++ x :: cs ∧ zs = cs ++ bs) ∨ ∃ cs, ys = as ++ cs ∧ bs = cs ++ x :: zs := by
  rcases List.append_eq_append_iff.mp h with ⟨cs, hys, hbs⟩ | ⟨cs, has, hcs⟩
  · exact Or.inr ⟨cs, hys, hbs⟩
  · cases cs with
    | nil => exact Or.inr ⟨[], by rw [has, List.append_nil, List.append_nil], hcs.symm⟩
    | cons c cs =>
      obtain ⟨rfl, rfl⟩ := List.cons_eq_cons.mp hcs
      exact Or.inl ⟨cs, has, rfl⟩

/-- A node with another one behind it is not the last. -/
theorem getLast?_ne_of_nodup {ys cs : List ι} {x c : ι} (h : (ys ++ x :: c :: cs).Nodup) :
    (ys ++ x :: c :: cs).getLast? ≠ some x := by
  intro hlast
  rw [List.getLast?_append_of_ne_nil _ (by simp), List.getLast?_cons_cons] at hlast
  exact (List.nodup_cons.mp (List.nodup_append.mp h).2.1).1 (List.mem_of_getLast? hlast)

theorem singleton_eq_split {cs zs : List ι} {e x : ι} (h : [e] = cs ++ x :: zs) :
    cs = [] ∧ x = e ∧ zs = [] := by
  cases cs with
  | nil =>
    obtain ⟨rfl, rfl⟩ := List.cons_eq_cons.mp h
    exact ⟨rfl, rfl, rfl⟩
  | cons c cs =>
    have hlen := congrArg List.length h
    simp at hlen

variable [DecidableEq ι]

/-- A node is taken out: its neighbours, or the ends, are linked past it. -/
def unlink (l : Links ι) (e : ι) : Links ι :=
  let l₁ := match l.prev e with
    | some p => { l with next := Function.update l.next p (l.next e) }
    | none => { l with head := l.next e }
  let l₂ := match l.next e with
    | some n => { l₁ with prev := Function.update l₁.prev n (l.prev e) }
    | none => { l₁ with tail := l.prev e }
  { l₂ with next := Function.update l₂.next e none, prev := Function.update l₂.prev e none }

/-- A node is put at the end. -/
def pushMru (l : Links ι) (e : ι) : Links ι :=
  let l := { l with prev := Function.update l.prev e l.tail, next := Function.update l.next e none }
  let l := match l.tail with
    | some t => { l with next := Function.update l.next t (some e) }
    | none => { l with head := some e }
  { l with tail := some e }

/-! ## Taking a node out -/

section Unlink

variable (l : Links ι) (e x : ι)

theorem unlink_next : (l.unlink e).next x =
    if x = e then none else if l.prev e = some x then l.next e else l.next x := by
  unfold unlink
  cases hprev : l.prev e <;> cases hnext : l.next e <;>
    simp [Function.update_apply, eq_comm (a := x)]

theorem unlink_prev : (l.unlink e).prev x =
    if x = e then none else if l.next e = some x then l.prev e else l.prev x := by
  unfold unlink
  cases hprev : l.prev e <;> cases hnext : l.next e <;>
    simp [Function.update_apply, eq_comm (a := x)]

theorem unlink_head : (l.unlink e).head = if l.prev e = none then l.next e else l.head := by
  unfold unlink
  cases hprev : l.prev e <;> cases hnext : l.next e <;> rfl

theorem unlink_tail : (l.unlink e).tail = if l.next e = none then l.prev e else l.tail := by
  unfold unlink
  cases hprev : l.prev e <;> cases hnext : l.next e <;> rfl

end Unlink

/-- **A node is taken out** of the list. -/
theorem Holds.unlink {l : Links ι} {as bs : List ι} {e : ι} (h : l.Holds (as ++ e :: bs)) :
    (l.unlink e).Holds (as ++ bs) := by
  have hprev := h.prev as e bs rfl
  have hnext := h.next as e bs rfl
  have hnodup := h.nodup
  rw [List.nodup_middle, List.nodup_cons] at hnodup
  obtain ⟨hfresh, hnodup⟩ := hnodup
  have hapart := (List.nodup_append.mp hnodup).2.2
  have hne : ∀ {ys x zs}, as ++ bs = ys ++ x :: zs → x ≠ e := fun hsplit heq => hfresh (by
    rw [hsplit, ← heq]
    exact List.mem_append_right _ List.mem_cons_self)
  refine ⟨hnodup, ?_, ?_, fun ys x zs hsplit => ?_, fun ys x zs hsplit => ?_⟩
  · rw [unlink_head, hprev, hnext, h.head]
    cases as with
    | nil => rfl
    | cons a as => simp
  · rw [unlink_tail, hprev, hnext, h.tail]
    cases bs with
    | nil => simp
    | cons b bs => simp
  · rw [unlink_next, if_neg (hne hsplit), hprev, hnext]
    rcases append_eq_split hsplit with ⟨cs, rfl, rfl⟩ | ⟨cs, rfl, rfl⟩
    · cases cs with
      | nil => simp
      | cons c cs =>
        rw [if_neg (getLast?_ne_of_nodup (List.nodup_append.mp hnodup).1)]
        exact h.next ys x (c :: cs ++ e :: bs) (by simp)
    · have hlast : as.getLast? ≠ some x := fun hlast =>
        hapart x (List.mem_of_getLast? hlast) x (by simp) rfl
      rw [if_neg hlast]
      exact h.next (as ++ e :: cs) x zs (by simp)
  · rw [unlink_prev, if_neg (hne hsplit), hprev, hnext]
    rcases append_eq_split hsplit with ⟨cs, rfl, rfl⟩ | ⟨cs, rfl, rfl⟩
    · have hhead : bs.head? ≠ some x := fun hhead =>
        hapart x (by simp) x (List.mem_of_head? hhead) rfl
      rw [if_neg hhead]
      exact h.prev ys x (cs ++ e :: bs) (by simp)
    · cases cs with
      | nil => simp
      | cons c cs =>
        have hhead : (c :: cs ++ x :: zs).head? ≠ some x := fun hhead => by
          have hnodup' := (List.nodup_append.mp hnodup).2.1
          rw [List.cons_append, List.head?_cons, Option.some.injEq] at hhead
          rw [List.cons_append, hhead, List.nodup_cons] at hnodup'
          exact hnodup'.1 (by simp)
        rw [if_neg hhead, h.prev (as ++ e :: c :: cs) x zs (by simp)]
        simp

/-! ## Putting a node at the end -/

section Push

variable (l : Links ι) (e x : ι)

theorem pushMru_next : (l.pushMru e).next x =
    if l.tail = some x then some e else if x = e then none else l.next x := by
  unfold pushMru
  cases htail : l.tail <;> simp [Function.update_apply, eq_comm (a := x)]

theorem pushMru_prev : (l.pushMru e).prev x = if x = e then l.tail else l.prev x := by
  unfold pushMru
  cases htail : l.tail <;> simp [Function.update_apply]

theorem pushMru_head : (l.pushMru e).head = if l.tail = none then some e else l.head := by
  unfold pushMru
  cases htail : l.tail <;> rfl

end Push

/-- **A new node is put at the end** of the list. -/
theorem Holds.pushMru {l : Links ι} {xs : List ι} {e : ι} (h : l.Holds xs) (he : e ∉ xs) :
    (l.pushMru e).Holds (xs ++ [e]) := by
  have hnodup : (xs ++ [e]).Nodup := List.nodup_append.mpr
    ⟨h.nodup, List.nodup_singleton e, fun a ha b hb heq => he (by
      rwa [← List.mem_singleton.mp hb, ← heq])⟩
  refine ⟨hnodup, ?_, ?_, fun ys x zs hsplit => ?_, fun ys x zs hsplit => ?_⟩
  · rw [pushMru_head, h.tail, h.head]
    cases xs with
    | nil => rfl
    | cons x xs => simp
  · simp [Links.pushMru]
  · rw [pushMru_next, h.tail]
    rcases append_eq_split hsplit with ⟨cs, rfl, rfl⟩ | ⟨cs, rfl, hcs⟩
    · have hne : x ≠ e := fun heq => he (by simp [heq])
      cases cs with
      | nil => simp
      | cons c cs =>
        rw [if_neg (getLast?_ne_of_nodup h.nodup), if_neg hne, h.next ys x (c :: cs) rfl]
        simp
    · obtain ⟨rfl, rfl, rfl⟩ := singleton_eq_split hcs
      rw [if_neg fun hlast => he (List.mem_of_getLast? hlast), if_pos rfl]
      rfl
  · rw [pushMru_prev, h.tail]
    rcases append_eq_split hsplit with ⟨cs, rfl, rfl⟩ | ⟨cs, rfl, hcs⟩
    · have hne : x ≠ e := fun heq => he (by simp [heq])
      rw [if_neg hne]
      exact h.prev ys x cs rfl
    · obtain ⟨rfl, rfl, rfl⟩ := singleton_eq_split hcs
      rw [if_pos rfl, List.append_nil]

/-! ## Walks -/

/-- The nodes from `e` on, in at most as many steps. -/
def walk (l : Links ι) : ℕ → Option ι → List ι
  | 0, _ => []
  | _ + 1, none => []
  | steps + 1, some e => e :: l.walk steps (l.next e)

omit [DecidableEq ι] in
/-- **Following the links** from the first node finds the list. -/
theorem Holds.walk {l : Links ι} {xs : List ι} (h : l.Holds xs) : l.walk xs.length l.head = xs := by
  have hfrom : ∀ ys zs, xs = ys ++ zs → l.walk zs.length zs.head? = zs := by
    intro ys zs
    induction zs generalizing ys with
    | nil => exact fun _ => rfl
    | cons z zs ih =>
      intro hsplit
      rw [List.length_cons, List.head?_cons, Links.walk, h.next ys z zs hsplit,
        ih (ys ++ [z]) (by rw [hsplit, List.append_assoc, List.singleton_append])]
  rw [h.head]
  exact hfrom [] xs rfl

end Links

end LibSigma.Library
