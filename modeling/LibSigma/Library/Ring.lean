import Mathlib.Data.List.Basic
import Mathlib.Data.List.DropRight
import Mathlib.Data.Nat.ModEq
import Mathlib.Logic.Function.Basic

/-!
# Ring buffers

A queue in an array of fixed capacity: pushing onto a full one overwrites the oldest entry.  The
indices carry their bounds; the arrays they index are functions, so that arrays in lockstep share
one set of indices.

## Indices and arrays apart

A program may keep several arrays with one head and one length: a time, a value, a rule for each
entry.  So the indices are a structure of their own, with the proofs that the head is inside and
that there are no more entries than slots, and a read takes an array as an argument.  Pushing is two
things, a slot to write and new indices, and the lemmas on reads say what both together do to the
entries.

## Queues

What a ring holds is a list, oldest first, and the operations on it are `pushCap` and dropping from
the front.  Several facts are about those lists alone.  In particular a push may come before or
after dropping the entries that have expired, if these are in front: the list is the same after
both, although a full ring overwrites in one order and not in the other.

* `RingIdx.read_push`, `RingIdx.read_popWhile`: what the operations do to the entries.
* `dropWhile_pushCap`: **dropping expired entries first makes no difference to a push.**
* `filter_rtake`: the last entries of a list whose expired entries come first.
-/

namespace LibSigma.Library

/-- The live slots of a ring: `len` of them from `head`, out of `cap`. -/
structure RingIdx where
  cap : ℕ
  head : ℕ
  len : ℕ
  head_lt : head < cap
  len_le : len ≤ cap

namespace RingIdx

variable {α : Type} (r : RingIdx)

/-- The empty ring. -/
def empty (cap : ℕ) (h : 0 < cap) : RingIdx := ⟨cap, 0, 0, h, Nat.zero_le cap⟩

theorem cap_pos : 0 < r.cap := Nat.lt_of_le_of_lt (Nat.zero_le _) r.head_lt

/-- The slot of the `i`-th oldest entry. -/
def slot (i : ℕ) : ℕ := (r.head + i) % r.cap

/-- The entries, oldest first. -/
def read (f : ℕ → α) : List α := (List.range r.len).map fun i => f (r.slot i)

/-- The slot a push writes. -/
def pushSlot : ℕ := if r.len = r.cap then r.head else r.slot r.len

/-- The indices after a push. -/
def push : RingIdx :=
  if h : r.len = r.cap then
    ⟨r.cap, (r.head + 1) % r.cap, r.len, Nat.mod_lt _ r.cap_pos, r.len_le⟩
  else ⟨r.cap, r.head, r.len + 1, r.head_lt, by have := r.len_le; omega⟩

/-- The indices after the oldest entry is dropped. -/
def pop : RingIdx :=
  ⟨r.cap, (r.head + 1) % r.cap, r.len - 1, Nat.mod_lt _ r.cap_pos, by have := r.len_le; omega⟩

/-- Dropping the oldest entry as long as it satisfies `p`, at most `n` times. -/
def popWhileAux (f : ℕ → α) (p : α → Bool) : ℕ → RingIdx → RingIdx
  | 0, r => r
  | n + 1, r => if 0 < r.len ∧ p (f r.head) = true then popWhileAux f p n r.pop else r

/-- Dropping the oldest entry as long as it satisfies `p`. -/
def popWhile (f : ℕ → α) (p : α → Bool) : RingIdx := popWhileAux f p r.len r

@[simp] theorem read_empty (cap : ℕ) (h : 0 < cap) (f : ℕ → α) : (empty cap h).read f = [] := rfl

@[simp] theorem length_read (f : ℕ → α) : (r.read f).length = r.len := by
  simp [read]

@[simp] theorem slot_zero : r.slot 0 = r.head := Nat.mod_eq_of_lt r.head_lt

/-- Different entries have different slots. -/
theorem slot_inj {i j : ℕ} (hi : i < r.cap) (hj : j < r.cap) (h : r.slot i = r.slot j) : i = j := by
  have hij : i % r.cap = j % r.cap := Nat.ModEq.add_left_cancel' r.head h
  rw [Nat.mod_eq_of_lt hi, Nat.mod_eq_of_lt hj] at hij
  exact hij

/-- Moving the head on by one shifts the slots by one. -/
theorem slot_succ (i : ℕ) : ((r.head + 1) % r.cap + i) % r.cap = r.slot (i + 1) := by
  rw [slot, Nat.mod_add_mod, Nat.add_right_comm, Nat.add_assoc]

@[simp] theorem cap_push : r.push.cap = r.cap := by
  unfold push
  split <;> rfl

@[simp] theorem cap_pop : r.pop.cap = r.cap := rfl

/-- The entries after a push: the oldest one is lost if the ring is full. -/
theorem read_push (f : ℕ → α) (x : α) :
    r.push.read (Function.update f r.pushSlot x) =
      (if r.len = r.cap then (r.read f).tail else r.read f) ++ [x] := by
  by_cases hfull : r.len = r.cap
  · have hpush : r.push =
        ⟨r.cap, (r.head + 1) % r.cap, r.len, Nat.mod_lt _ r.cap_pos, r.len_le⟩ := dif_pos hfull
    have hpos := r.cap_pos
    obtain ⟨n, hn⟩ : ∃ n, r.len = n + 1 := ⟨r.len - 1, by omega⟩
    have hlast : r.slot (n + 1) = r.head := by
      rw [← hn, hfull, slot, Nat.add_mod_right, Nat.mod_eq_of_lt r.head_lt]
    have hold : (r.read f).tail = (List.range n).map fun i => f (r.slot (i + 1)) := by
      rw [read, hn, List.range_succ_eq_map, List.map_cons, List.tail_cons, List.map_map]
      rfl
    have hnew : ∀ g : ℕ → α, r.push.read g = (List.range (n + 1)).map fun i => g (r.slot (i + 1)) := by
      intro g
      rw [hpush, read]
      simp only [slot, slot_succ, hn]
    rw [if_pos hfull, hold, hnew, pushSlot, if_pos hfull, List.range_succ, List.map_append,
      List.map_singleton]
    congr 1
    · refine List.map_congr_left fun i hi => ?_
      have hlt := List.mem_range.mp hi
      refine Function.update_of_ne (fun heq => ?_) x f
      rw [← r.slot_zero] at heq
      exact absurd (r.slot_inj (by omega) (by omega) heq) (by omega)
    · rw [hlast, Function.update_self]
  · have hpush : r.push =
        ⟨r.cap, r.head, r.len + 1, r.head_lt, by have := r.len_le; omega⟩ := dif_neg hfull
    have hle := r.len_le
    have hnew : ∀ g : ℕ → α, r.push.read g = (List.range (r.len + 1)).map fun i => g (r.slot i) := by
      intro g
      rw [hpush]
      rfl
    rw [if_neg hfull, hnew, pushSlot, if_neg hfull, List.range_succ, List.map_append,
      List.map_singleton]
    congr 1
    · refine List.map_congr_left fun i hi => ?_
      have hlt := List.mem_range.mp hi
      refine Function.update_of_ne (fun heq => ?_) x f
      exact absurd (r.slot_inj (by omega) (by omega) heq) (by omega)
    · rw [Function.update_self]

/-- The entries after the oldest one is dropped. -/
theorem read_pop (f : ℕ → α) : r.pop.read f = (r.read f).tail := by
  rw [read, read, pop]
  simp only [slot, slot_succ]
  cases r.len with
  | zero => rfl
  | succ n =>
    rw [List.range_succ_eq_map, List.map_cons, List.tail_cons, List.map_map, Nat.add_sub_cancel]
    rfl

/-- A ring that is not empty starts at its head. -/
theorem read_eq_cons (f : ℕ → α) (h : 0 < r.len) : r.read f = f r.head :: (r.read f).tail := by
  rw [read]
  obtain ⟨n, hn⟩ : ∃ n, r.len = n + 1 := ⟨r.len - 1, by omega⟩
  rw [hn, List.range_succ_eq_map, List.map_cons, List.tail_cons, r.slot_zero]

theorem read_popWhileAux (f : ℕ → α) (p : α → Bool) {n : ℕ} {r : RingIdx} (h : r.len ≤ n) :
    (popWhileAux f p n r).read f = (r.read f).dropWhile p := by
  induction n generalizing r with
  | zero =>
    have hlen : (r.read f).length = 0 := by rw [length_read]; omega
    rw [popWhileAux, List.length_eq_zero_iff.mp hlen]
    rfl
  | succ n ih =>
    rw [popWhileAux]
    by_cases hlen : 0 < r.len
    · rw [r.read_eq_cons f hlen, List.dropWhile_cons]
      by_cases hp : p (f r.head) = true
      · have hpop : r.pop.len ≤ n := Nat.sub_le_of_le_add h
        rw [if_pos ⟨hlen, hp⟩, if_pos hp, ih hpop, read_pop]
      · rw [if_neg (fun h => hp h.2), if_neg hp, ← r.read_eq_cons f hlen]
    · have hnil : (r.read f).length = 0 := by rw [length_read]; omega
      rw [if_neg (fun h => hlen h.1), List.length_eq_zero_iff.mp hnil]
      rfl

/-- **The entries after the expired ones are dropped.** -/
@[simp] theorem read_popWhile (f : ℕ → α) (p : α → Bool) :
    (r.popWhile f p).read f = (r.read f).dropWhile p :=
  read_popWhileAux f p le_rfl

/-- What is dropped depends on the indices only through the entries, so arrays in lockstep lose
the same ones. -/
theorem read_popWhile_pair {β : Type} (f : ℕ → α) (g : ℕ → β) (p : α → Bool) :
    (r.popWhile f p).read (fun i => (f i, g i)) =
      (r.read fun i => (f i, g i)).dropWhile fun e => p e.1 := by
  have haux : ∀ (n : ℕ) (r : RingIdx), popWhileAux f p n r =
      popWhileAux (fun i => (f i, g i)) (fun e => p e.1) n r := by
    intro n
    induction n with
    | zero => exact fun r => rfl
    | succ n ih =>
      intro r
      rw [popWhileAux, popWhileAux, ih]
  rw [popWhile, haux]
  exact read_popWhileAux _ _ le_rfl

@[simp] theorem cap_popWhile (f : ℕ → α) (p : α → Bool) : (r.popWhile f p).cap = r.cap := by
  have haux : ∀ (n : ℕ) (r : RingIdx), (popWhileAux f p n r).cap = r.cap := by
    intro n
    induction n with
    | zero => exact fun r => rfl
    | succ n ih =>
      intro r
      rw [popWhileAux]
      split
      · rw [ih, cap_pop]
      · rfl
  exact haux r.len r

end RingIdx

/-! ## Queues of bounded length -/

variable {α : Type}

/-- A push onto a queue of at most `cap` entries. -/
def pushCap (cap : ℕ) (xs : List α) (x : α) : List α :=
  (if xs.length = cap then xs.tail else xs) ++ [x]

/-- A ring behaves as a queue of bounded length. -/
theorem RingIdx.read_push_eq_pushCap (r : RingIdx) (f : ℕ → α) (x : α) :
    r.push.read (Function.update f r.pushSlot x) = pushCap r.cap (r.read f) x := by
  rw [r.read_push, pushCap, r.length_read]

/-- Dropping the expired entries of a list twice is dropping them once. -/
theorem dropWhile_dropWhile_of_imp {p q : α → Bool} (h : ∀ x, p x = true → q x = true)
    (xs : List α) : (xs.dropWhile p).dropWhile q = xs.dropWhile q := by
  induction xs with
  | nil => rfl
  | cons x xs ih =>
    by_cases hx : p x = true
    · rw [List.dropWhile_cons_of_pos hx, List.dropWhile_cons_of_pos (h x hx), ih]
    · rw [List.dropWhile_cons_of_neg hx]

/-- Dropping expired entries from the front loses none that has not expired. -/
theorem countP_dropWhile (p : α → Bool) (xs : List α) :
    ((xs.dropWhile p).countP fun x => !p x) = xs.countP fun x => !p x := by
  induction xs with
  | nil => rfl
  | cons x xs ih =>
    by_cases hx : p x = true
    · rw [List.dropWhile_cons_of_pos hx, ih, List.countP_cons_of_neg (by simp [hx])]
    · rw [List.dropWhile_cons_of_neg hx]

/-- **Dropping expired entries before a push makes no difference after it.** -/
theorem dropWhile_pushCap {cap : ℕ} {p : α → Bool} {xs : List α} {x : α}
    (hlen : xs.length ≤ cap) :
    (pushCap cap xs x).dropWhile p = (pushCap cap (xs.dropWhile p) x).dropWhile p := by
  have hdrop : ∀ ys : List α, (ys ++ [x]).dropWhile p = (ys.dropWhile p ++ [x]).dropWhile p := by
    intro ys
    induction ys with
    | nil => rfl
    | cons y ys ih =>
      by_cases hy : p y = true
      · rw [List.cons_append, List.dropWhile_cons_of_pos hy, List.dropWhile_cons_of_pos hy, ih]
      · rw [List.dropWhile_cons_of_neg hy]
  cases xs with
  | nil => rfl
  | cons y ys =>
    by_cases hy : p y = true
    · have hshort : ((y :: ys).dropWhile p).length ≠ cap := by
        have hle := (List.dropWhile_sublist (l := ys) p).length_le
        rw [List.dropWhile_cons_of_pos hy]
        rw [List.length_cons] at hlen
        omega
      rw [pushCap, pushCap, if_neg hshort]
      split
      · rw [List.tail_cons, hdrop ys, List.dropWhile_cons_of_pos hy]
      · rw [hdrop]
    · rw [List.dropWhile_cons_of_neg hy]

/-- The last `cap` entries, after one more. -/
theorem rtake_concat {cap : ℕ} (hcap : 0 < cap) (xs : List α) (x : α) :
    (xs ++ [x]).rtake cap = pushCap cap (xs.rtake cap) x := by
  obtain ⟨n, rfl⟩ : ∃ n, cap = n + 1 := ⟨cap - 1, by omega⟩
  rw [List.rtake_concat_succ, pushCap, List.rtake, List.rtake]
  congr 1
  split
  · rename_i hfull
    rw [List.length_drop] at hfull
    rw [List.tail_drop]
    congr 1
    omega
  · rename_i hfull
    rw [List.length_drop] at hfull
    congr 1
    omega

theorem length_rtake (xs : List α) (n : ℕ) : (xs.rtake n).length = min n xs.length := by
  rw [List.rtake, List.length_drop]
  omega

/-- Where the entries from some point on satisfy `q`, the others are dropped from the front. -/
theorem dropWhile_eq_filter {q : α → Bool} {xs : List α}
    (h : xs.Pairwise fun x y => q x = true → q y = true) :
    xs.dropWhile (fun x => !q x) = xs.filter q := by
  induction xs with
  | nil => rfl
  | cons x xs ih =>
    rw [List.pairwise_cons] at h
    by_cases hx : q x = true
    · have hall : ∀ y ∈ x :: xs, q y = true := by
        intro y hy
        rcases List.mem_cons.mp hy with rfl | hy
        · exact hx
        · exact h.1 y hy hx
      rw [List.filter_eq_self.mpr hall, List.dropWhile_cons_of_neg (by simp [hx])]
    · rw [List.dropWhile_cons_of_pos (by simpa using hx), List.filter_cons_of_neg hx, ih h.2]

/-- The last entries of those that satisfy `q` from some point on. -/
theorem filter_rtake {q : α → Bool} {xs : List α}
    (h : xs.Pairwise fun x y => q x = true → q y = true) (n : ℕ) :
    (xs.rtake n).filter q = (xs.filter q).rtake n := by
  induction xs using List.reverseRecOn generalizing n with
  | nil => simp
  | append_singleton xs x ih =>
    rw [List.pairwise_append] at h
    cases n with
    | zero => simp
    | succ n =>
      rw [List.rtake_concat_succ, List.filter_append, List.filter_append]
      by_cases hx : q x = true
      · rw [List.filter_cons_of_pos hx, List.filter_nil, List.rtake_concat_succ, ih h.1]
      · have hnone : ∀ y ∈ xs, ¬ q y = true := fun y hy hq =>
          hx (h.2.2 y hy x List.mem_cons_self hq)
        have hnone' : ∀ y ∈ xs.rtake n, ¬ q y = true := fun y hy =>
          hnone y (List.mem_of_mem_drop hy)
        rw [List.filter_eq_nil_iff.mpr hnone, List.filter_eq_nil_iff.mpr hnone',
          List.filter_cons_of_neg hx, List.filter_nil, List.append_nil, List.rtake_nil]

end LibSigma.Library
