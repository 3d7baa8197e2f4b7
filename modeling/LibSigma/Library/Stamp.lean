import Mathlib.Data.List.Basic

/-!
# Generation stamps

A scratch array that must be empty at the start of every run need not be cleared: give every run a
new generation number and count an entry as set only when it carries the current one.  The numbers
are 32-bit, so the array is cleared once in 2^32 runs, when the counter wraps.

The invariant is that no stamp is ahead of the counter.  With it the next number is on no entry,
unless it has wrapped; and where it wraps the array is cleared.  The number 0 is for entries that
were never set, so the counter skips it.  Without the skip a cleared array would read as set for one
run.

Nothing here depends on what an entry stands for or on who sets it.  A user shows that entries are
only ever set to the current number, and gets that every run starts with nothing marked.

* `nextGen`, `nextCells`: the counter and the array at the start of a run.
* `Bounded`: no stamp is ahead of the counter.  It holds initially, and every operation keeps it.
* `notMarked_next`: after `nextGen` nothing is marked, whatever happened before, wrap included.
-/

namespace LibSigma.Library

/-- The next generation; 0 means "never", so a wrap goes to 1. -/
def nextGen (gen : UInt32) : UInt32 := if gen + 1 = 0 then 1 else gen + 1

/-- The stamps at the start of the next run: cleared exactly when the counter wraps. -/
def nextCells (gen : UInt32) (cells : List UInt32) : List UInt32 :=
  if gen + 1 = 0 then List.replicate cells.length 0 else cells

/-- Entry `i` carries the current stamp. -/
def Marked (gen : UInt32) (cells : List UInt32) (i : ℕ) : Prop := cells[i]? = some gen

instance (gen : UInt32) (cells : List UInt32) (i : ℕ) : Decidable (Marked gen cells i) :=
  inferInstanceAs (Decidable (_ = _))

/-- No stamp is ahead of the counter. -/
def Bounded (gen : UInt32) (cells : List UInt32) : Prop := ∀ c ∈ cells, c ≤ gen

@[simp] theorem length_nextCells (gen : UInt32) (cells : List UInt32) :
    (nextCells gen cells).length = cells.length := by
  unfold nextCells
  split <;> simp

theorem bounded_replicate_zero (gen : UInt32) (n : ℕ) : Bounded gen (List.replicate n 0) := by
  intro c hc
  rw [(List.mem_replicate.mp hc).2]
  exact UInt32.le_iff_toNat_le.mpr (Nat.zero_le _)

/-- Away from the wrap the counter grows. -/
theorem lt_nextGen {gen : UInt32} (h : gen + 1 ≠ 0) : gen < nextGen gen := by
  rw [nextGen, if_neg h]
  have hgen := gen.toNat_lt
  have hne : gen.toNat ≠ 2 ^ 32 - 1 := by
    intro heq
    apply h
    apply UInt32.toNat_inj.mp
    rw [UInt32.toNat_add, heq]
    rfl
  rw [UInt32.lt_iff_toNat_lt, UInt32.toNat_add]
  simp only [UInt32.reduceToNat]
  omega

theorem nextGen_ne_zero (gen : UInt32) : nextGen gen ≠ 0 := by
  unfold nextGen
  split
  · decide
  · assumption

theorem Bounded.next {gen : UInt32} {cells : List UInt32} (h : Bounded gen cells) :
    Bounded (nextGen gen) (nextCells gen cells) := by
  by_cases hwrap : gen + 1 = 0
  · rw [nextCells, if_pos hwrap]
    exact bounded_replicate_zero _ _
  · rw [nextCells, if_neg hwrap]
    exact fun c hc => UInt32.le_trans (h c hc) (UInt32.le_of_lt (lt_nextGen hwrap))

/-- **A new run starts with nothing marked.**  This is where the wrap matters: the stamps of
2^32 runs ago would otherwise read as current. -/
theorem notMarked_next {gen : UInt32} {cells : List UInt32} (h : Bounded gen cells) (i : ℕ) :
    ¬ Marked (nextGen gen) (nextCells gen cells) i := by
  intro hmark
  have hmem := List.mem_of_getElem? hmark
  by_cases hwrap : gen + 1 = 0
  · rw [nextCells, if_pos hwrap] at hmem
    exact nextGen_ne_zero gen (List.mem_replicate.mp hmem).2
  · rw [nextCells, if_neg hwrap] at hmem
    exact UInt32.not_le.mpr (lt_nextGen hwrap) (h _ hmem)

/-- Stamping an entry keeps the stamps bounded. -/
theorem Bounded.set {gen : UInt32} {cells : List UInt32} (h : Bounded gen cells) (i : ℕ) :
    Bounded gen (cells.set i gen) := by
  intro c hc
  rcases List.mem_or_eq_of_mem_set hc with hc | rfl
  · exact h c hc
  · exact UInt32.le_refl _

/-- Stamping marks that entry and no other. -/
theorem marked_set {gen : UInt32} {cells : List UInt32} {i : ℕ} (hi : i < cells.length) (j : ℕ) :
    Marked gen (cells.set i gen) j ↔ j = i ∨ Marked gen cells j := by
  unfold Marked
  by_cases hij : i = j
  · subst hij
    simp [hi]
  · rw [List.getElem?_set_ne hij]
    simp [Ne.symm hij]

end LibSigma.Library
