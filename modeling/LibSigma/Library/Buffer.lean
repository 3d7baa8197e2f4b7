import Mathlib.Data.List.Basic
import Mathlib.Data.List.Pairwise

/-!
# Byte buffers written by sections

A serializer allocates a zeroed buffer and copies each section to its offset; a loader reads the
sections back.  `slice` is the read, `poke` the copy and `pokes` a sequence of copies.

All three are total.  A read past the end is shorter than asked for, and a copy past the end makes
the buffer longer.  That a section fits is a hypothesis of the lemmas and not part of an operation,
since the sizes come from computations of their own.

A layout is a list of sections with offsets.  It is ordered when each section begins where the one
before it has ended, or later, with any gap between.  That is what alignment produces, and all that
is needed: from neighbours that do not overlap it follows that no two sections do.  Sections may be
empty, and several of those may share an offset.

* `slice_poke_self`, `slice_poke_before`: a copy is read back, and nothing before it moves.
* `poke_poke_adjacent`: two copies that touch are one copy.
* `slice_pokes`: in a sequence of copies at increasing offsets, every section is read back.
-/

namespace LibSigma.Library

variable {α : Type}

/-- The `n` entries from `off`. -/
def slice (buf : List α) (off n : ℕ) : List α := (buf.drop off).take n

/-- The buffer after copying `bs` to `off`. -/
def poke (buf : List α) (off : ℕ) (bs : List α) : List α :=
  buf.take off ++ bs ++ buf.drop (off + bs.length)

/-- The buffer after copying every section to its offset, in order. -/
def pokes (buf : List α) (sects : List (ℕ × List α)) : List α :=
  sects.foldl (fun b s => poke b s.1 s.2) buf

@[simp] theorem pokes_nil (buf : List α) : pokes buf [] = buf := rfl

@[simp] theorem pokes_cons (buf : List α) (s : ℕ × List α) (sects : List (ℕ × List α)) :
    pokes buf (s :: sects) = pokes (poke buf s.1 s.2) sects := rfl

theorem pokes_append (buf : List α) (s t : List (ℕ × List α)) :
    pokes buf (s ++ t) = pokes (pokes buf s) t := by
  simp [pokes, List.foldl_append]

theorem length_slice (buf : List α) {off n : ℕ} (h : off + n ≤ buf.length) :
    (slice buf off n).length = n := by
  rw [slice, List.length_take, List.length_drop]
  omega

@[simp] theorem slice_zero (buf : List α) (off : ℕ) : slice buf off 0 = [] := by
  simp [slice]

@[simp] theorem length_poke {buf bs : List α} {off : ℕ} (h : off + bs.length ≤ buf.length) :
    (poke buf off bs).length = buf.length := by
  simp only [poke, List.length_append, List.length_take, List.length_drop]
  omega

/-- Copying nothing changes nothing. -/
@[simp] theorem poke_nil (buf : List α) (off : ℕ) : poke buf off [] = buf := by
  simp [poke]

theorem getElem?_poke {buf bs : List α} {off : ℕ} (h : off + bs.length ≤ buf.length) (i : ℕ) :
    (poke buf off bs)[i]? =
      if i < off then buf[i]? else if i < off + bs.length then bs[i - off]? else buf[i]? := by
  have htake : (buf.take off).length = off := by
    rw [List.length_take]; omega
  rw [poke, List.append_assoc]
  by_cases h₁ : i < off
  · rw [List.getElem?_append_left (by omega), List.getElem?_take_of_lt h₁, if_pos h₁]
  · rw [if_neg h₁, List.getElem?_append_right (by omega), htake]
    by_cases h₂ : i < off + bs.length
    · rw [if_pos h₂, List.getElem?_append_left (by omega)]
    · rw [if_neg h₂, List.getElem?_append_right (by omega), List.getElem?_drop]
      congr 1
      omega

@[simp] theorem getElem?_slice (buf : List α) (off n i : ℕ) :
    (slice buf off n)[i]? = if i < n then buf[off + i]? else none := by
  rw [slice, List.getElem?_take, List.getElem?_drop]

/-- A slice that starts with a known entry. -/
theorem slice_succ {buf : List α} {off n : ℕ} {a : α} (h : buf[off]? = some a) :
    slice buf off (n + 1) = a :: slice buf (off + 1) n := by
  obtain ⟨hlt, rfl⟩ := List.getElem?_eq_some_iff.mp h
  rw [slice, slice, List.drop_eq_getElem_cons hlt, List.take_succ_cons]

theorem mem_slice {buf : List α} {off n : ℕ} {a : α} :
    a ∈ slice buf off n ↔ ∃ i < n, buf[off + i]? = some a := by
  rw [List.mem_iff_getElem?]
  constructor
  · rintro ⟨i, hi⟩
    rw [getElem?_slice] at hi
    split at hi
    · rename_i hlt
      exact ⟨i, hlt, hi⟩
    · exact absurd hi (by simp)
  · rintro ⟨i, hlt, hi⟩
    exact ⟨i, by rw [getElem?_slice, if_pos hlt, hi]⟩

/-- A copy is read back. -/
theorem slice_poke_self {buf bs : List α} {off : ℕ} (h : off + bs.length ≤ buf.length) :
    slice (poke buf off bs) off bs.length = bs := by
  apply List.ext_getElem?
  intro i
  rw [getElem?_slice, getElem?_poke h]
  by_cases hi : i < bs.length
  · rw [if_pos hi, if_neg (by omega), if_pos (by omega), Nat.add_sub_cancel_left]
  · rw [if_neg hi, List.getElem?_eq_none (by omega)]

/-- A copy does not move what ends before it. -/
theorem slice_poke_before {buf bs : List α} {off : ℕ} (h : off + bs.length ≤ buf.length)
    {off' n : ℕ} (hlt : off' + n ≤ off) : slice (poke buf off bs) off' n = slice buf off' n := by
  apply List.ext_getElem?
  intro i
  rw [getElem?_slice, getElem?_slice, getElem?_poke h]
  by_cases hi : i < n
  · rw [if_pos hi, if_pos hi, if_pos (by omega)]
  · rw [if_neg hi, if_neg hi]

/-- Two copies that touch are one copy. -/
theorem poke_poke_adjacent {buf as bs : List α} {off : ℕ}
    (h : off + as.length + bs.length ≤ buf.length) :
    poke (poke buf off as) (off + as.length) bs = poke buf off (as ++ bs) := by
  apply List.ext_getElem?
  intro i
  have h₁ : off + as.length ≤ buf.length := by omega
  have h₂ : off + as.length + bs.length ≤ (poke buf off as).length := by rw [length_poke h₁]; exact h
  have h₃ : off + (as ++ bs).length ≤ buf.length := by rw [List.length_append]; omega
  rw [getElem?_poke h₂, getElem?_poke h₁, getElem?_poke h₃, List.length_append]
  by_cases ha : i < off
  · rw [if_pos (by omega), if_pos ha, if_pos ha]
  by_cases hb : i < off + as.length
  · rw [if_pos hb, if_neg ha, if_pos hb, if_neg ha, if_pos (by omega),
      List.getElem?_append_left (by omega)]
  by_cases hc : i < off + as.length + bs.length
  · rw [if_neg hb, if_pos hc, if_neg ha, if_pos (by omega), List.getElem?_append_right (by omega),
      Nat.sub_sub]
  · rw [if_neg hb, if_neg hc, if_neg ha, if_neg hb, if_neg ha, if_neg (by omega)]

/-- Every section fits in a buffer of `len` entries. -/
def Fits (len : ℕ) (sects : List (ℕ × List α)) : Prop :=
  ∀ s ∈ sects, s.1 + s.2.length ≤ len

/-- The sections follow one another without overlap. -/
def Ordered (sects : List (ℕ × List α)) : Prop :=
  sects.Pairwise fun s t => s.1 + s.2.length ≤ t.1

theorem length_pokes {buf : List α} {sects : List (ℕ × List α)} (h : Fits buf.length sects) :
    (pokes buf sects).length = buf.length := by
  induction sects generalizing buf with
  | nil => rfl
  | cons s sects ih =>
    have hs := h s (List.mem_cons_self ..)
    have hlen := length_poke hs
    rw [pokes_cons, ih, hlen]
    intro t ht
    rw [hlen]
    exact h t (List.mem_cons_of_mem _ ht)

/-- Later sections do not move what ends before them. -/
theorem slice_pokes_before {buf : List α} {sects : List (ℕ × List α)} (h : Fits buf.length sects)
    {off n : ℕ} (hlt : ∀ s ∈ sects, off + n ≤ s.1) :
    slice (pokes buf sects) off n = slice buf off n := by
  induction sects generalizing buf with
  | nil => rfl
  | cons s sects ih =>
    have hs := h s (List.mem_cons_self ..)
    have hlen := length_poke hs
    rw [pokes_cons, ih, slice_poke_before hs (hlt s (List.mem_cons_self ..))]
    · intro t ht
      rw [hlen]
      exact h t (List.mem_cons_of_mem _ ht)
    · exact fun t ht => hlt t (List.mem_cons_of_mem _ ht)

/-- **Every section of an ordered layout is read back.** -/
theorem slice_pokes {buf : List α} {sects : List (ℕ × List α)} (h : Fits buf.length sects)
    (hord : Ordered sects) {s : ℕ × List α} (hs : s ∈ sects) :
    slice (pokes buf sects) s.1 s.2.length = s.2 := by
  induction sects generalizing buf with
  | nil => exact absurd hs (List.not_mem_nil)
  | cons t sects ih =>
    have ht := h t (List.mem_cons_self ..)
    have hlen := length_poke ht
    have hrest : Fits (poke buf t.1 t.2).length sects := by
      intro u hu
      rw [hlen]
      exact h u (List.mem_cons_of_mem _ hu)
    obtain ⟨hhead, htail⟩ := List.pairwise_cons.mp hord
    rw [pokes_cons]
    rcases List.mem_cons.mp hs with rfl | hs
    · rw [slice_pokes_before hrest (fun u hu => hhead u hu), slice_poke_self ht]
    · exact ih hrest htail hs

end LibSigma.Library
