import LibSigma.Library.Leftmost
import LibSigma.Matcher.TeddySpec

/-!
# The substring search, three ways

`sigma_simd.h`: `sigma__memmem_ci_scalar` and the SSE4.2 and NEON versions of `sigma_memmem_ci`.
The vector versions look at 16 first bytes at a time, verify the candidates of a block in place,
give up at a candidate past the last start, and leave the bytes after the last whole block to the
scalar code.

## One loop, two ways to search a block

Both vector versions run over the blocks in the same way.  They differ inside a block: SSE4.2
extracts a mask of 16 bits and clears its lowest bit after each candidate, NEON asks for the largest
lane and then looks at the lanes one by one.  So the loop is one definition with the search of a
block as its parameter, and its theorem assumes of that parameter what `BlockAnswer` says: the block
reports the first occurrence that starts in it, gives up only when no later start is possible, or
lets the loop go on.  Each version then has to show that its block does this.

## The instructions

A vector is 16 bytes, and an instruction is what its manual says of each lane.  The comparison of
the first byte in both cases is two lane-wise equalities and an "or"; for a byte that is no letter
both are the same.

## Reads

Every byte is read through a check, so a read outside the haystack or the needle is a fault.  A
block is loaded whole, and the guard of the loop is what keeps the load inside; a candidate is
verified byte by byte, and the test against the last start is what keeps that inside.

* `memmemBlocks_spec`: the block loop, for any way to search a block that gives a `BlockAnswer`.
* `sseBlock_spec`, `neonBlock_spec`: the two ways.
* `memmem_versions_agree`: **all three return the leftmost occurrence, and no read faults.**
-/

namespace LibSigma

open Library

/-! ## The scalar search -/

/-- A read outside the haystack or the needle. -/
inductive SpanFault where
  | hay (i : ℕ)
  | ndl (i : ℕ)
  deriving DecidableEq, Repr

section Code

variable (hay ndl : Bytes)

/-- `hay[i]`. -/
def hayAt (i : ℕ) : Except SpanFault UInt8 := readAt (.hay i) hay i

/-- `ndl[i]`. -/
def ndlAt (i : ℕ) : Except SpanFault UInt8 := readAt (.ndl i) ndl i

/-- `while (j < nlen && sigma__lc(hay[pos + j]) == sigma__lc(ndl[j])) j++;` from `j` on: the `j` it
ends with. -/
def matchRun (pos j : ℕ) : Except SpanFault ℕ :=
  if j < ndl.length then do
    let h ← hayAt hay (pos + j)
    let n ← ndlAt ndl j
    if sgLower h = sgLower n then matchRun pos (j + 1) else pure j
  else pure j
termination_by ndl.length - j

/-- The loop of `sigma__memmem_ci_scalar` from `i` on. -/
def memmemScalarLoop (n0 : UInt8) (last i : ℕ) : Except SpanFault (Option ℕ) :=
  if i ≤ last then do
    let h ← hayAt hay i
    if sgLower h ≠ n0 then memmemScalarLoop n0 last (i + 1)
    else do
      let j ← matchRun hay ndl i 1
      if j = ndl.length then pure (some i) else memmemScalarLoop n0 last (i + 1)
  else pure none
termination_by last + 1 - i

/-- `sigma__memmem_ci_scalar`, with its reads. -/
def memmemScalar : Except SpanFault (Option ℕ) :=
  if ndl.length = 0 then pure (some 0)
  else if hay.length < ndl.length then pure none
  else do
    let n ← ndlAt ndl 0
    memmemScalarLoop hay ndl (sgLower n) (hay.length - ndl.length) 0

/-! ## Blocks -/

/-- `_mm_loadu_si128` and `vld1q_u8`: the 16 bytes from `hay + i`. -/
def loadBlock (i : ℕ) : Except SpanFault (Vector UInt8 16) :=
  if i + 16 ≤ hay.length then pure (Vector.ofFn fun j => hay.getD (i + j) 0)
  else throw (.hay (i + 15))

/-- `_mm_cmpeq_epi8` and `vceqq_u8`: all ones in the lanes that are equal. -/
def cmpeqLanes (a b : Vector UInt8 16) : Vector UInt8 16 :=
  Vector.zipWith (fun x y => if x = y then 0xFF else 0) a b

/-- `_mm_or_si128` and `vorrq_u8`. -/
def orLanes (a b : Vector UInt8 16) : Vector UInt8 16 := Vector.zipWith (· ||| ·) a b

/-- `_mm_movemask_epi8`: the top bit of each lane. -/
def movemask (v : Vector UInt8 16) : BitVec 32 := maskOf 32 (v.toList.map fun x => 128 ≤ x)

/-- `vmaxvq_u8`: the largest lane. -/
def maxLane (v : Vector UInt8 16) : UInt8 := v.toList.foldl max 0

/-- `n0u`: the upper case of a folded byte. -/
def upperOf (n0l : UInt8) : UInt8 := if 97 ≤ n0l ∧ n0l ≤ 122 then n0l - 32 else n0l

/-- The lanes of a block that hold the first byte of the needle, in either case. -/
def firstByteLanes (n0l : UInt8) (blk : Vector UInt8 16) : Vector UInt8 16 :=
  orLanes (cmpeqLanes blk (Vector.replicate 16 n0l))
    (cmpeqLanes blk (Vector.replicate 16 (upperOf n0l)))

/-- `while (mask) ...`: the candidates of the block at `i`, lowest first.  `none` leaves the loop,
`some r` returns `r` from the search. -/
def sseCandidates (last i : ℕ) (mask : BitVec 32) : Except SpanFault (Option (Option ℕ)) :=
  if mask = 0 then pure none
  else do
    let pos := i + mask.ctz.toNat
    if last < pos then pure (some none)
    else do
      let j ← matchRun hay ndl pos 1
      if j = ndl.length then pure (some (some pos))
      else sseCandidates last i (clearLow mask)
termination_by mask.toNat
decreasing_by exact toNat_clearLow_lt (by assumption)

/-- The SSE4.2 loop body. -/
def sseBlock (n0l : UInt8) (last i : ℕ) : Except SpanFault (Option (Option ℕ)) := do
  let blk ← loadBlock hay i
  sseCandidates hay ndl last i (movemask (firstByteLanes n0l blk))

/-- `for (int b = 0; b < 16; b++) ...` from `b` on, in the block at `i`. -/
def neonLanes (n0l : UInt8) (last i b : ℕ) : Except SpanFault (Option (Option ℕ)) :=
  if b < 16 then
    let pos := i + b
    if last < pos then pure (some none)
    else do
      let h ← hayAt hay pos
      if sgLower h ≠ n0l then neonLanes n0l last i (b + 1)
      else do
        let j ← matchRun hay ndl pos 1
        if j = ndl.length then pure (some (some pos)) else neonLanes n0l last i (b + 1)
  else pure none
termination_by 16 - b

/-- The NEON loop body. -/
def neonBlock (n0l : UInt8) (last i : ℕ) : Except SpanFault (Option (Option ℕ)) := do
  let blk ← loadBlock hay i
  if maxLane (firstByteLanes n0l blk) = 0 then pure none
  else neonLanes hay ndl n0l last i 0

/-- `for (; i + 16 <= hlen; i += 16) ...` and the scalar tail, the same in both versions. -/
def memmemBlocks (block : ℕ → Except SpanFault (Option (Option ℕ))) (last i : ℕ) :
    Except SpanFault (Option ℕ) :=
  if i + 16 ≤ hay.length then do
    let r ← block i
    match r with
    | some r => pure r
    | none => memmemBlocks block last (i + 16)
  else if i ≤ last then do
    let r ← memmemScalar (hay.drop i) ndl
    pure (r.map (i + ·))
  else pure none
termination_by hay.length - i

/-- `sigma_memmem_ci`, SSE4.2. -/
def memmemSse : Except SpanFault (Option ℕ) :=
  if ndl.length = 0 then pure (some 0)
  else if hay.length < ndl.length then pure none
  else do
    let n ← ndlAt ndl 0
    let last := hay.length - ndl.length
    memmemBlocks hay ndl (sseBlock hay ndl (sgLower n) last) last 0

/-- `sigma_memmem_ci`, NEON. -/
def memmemNeon : Except SpanFault (Option ℕ) :=
  if ndl.length = 0 then pure (some 0)
  else if hay.length < ndl.length then pure none
  else do
    let n ← ndlAt ndl 0
    let last := hay.length - ndl.length
    memmemBlocks hay ndl (neonBlock hay ndl (sgLower n) last) last 0

end Code

/-! ## Occurrences

The specification is the same as that of the prefilter, with the position made explicit.  A byte
folds to a folded byte when it is that byte or its upper case, which is what the two lane-wise
comparisons test. -/

section Spec

variable {hay ndl : Bytes} {pos i b last : ℕ}

/-- The needle occurs at `pos`, up to ASCII case. -/
def OccursAt (hay ndl : Bytes) (pos : ℕ) : Prop := teddyEqCi (hay.drop pos) ndl = true

instance (hay ndl : Bytes) (pos : ℕ) : Decidable (OccursAt hay ndl pos) :=
  inferInstanceAs (Decidable (_ = _))

theorem occursAt_drop : OccursAt (hay.drop i) ndl pos ↔ OccursAt hay ndl (i + pos) := by
  rw [OccursAt, OccursAt, List.drop_drop]

theorem occursAt_iff (hne : ndl.length ≠ 0) :
    OccursAt hay ndl pos ↔ pos + ndl.length ≤ hay.length ∧
      ∀ j < ndl.length, sgLower (hay.getD (pos + j) 0) = sgLower (ndl.getD j 0) := by
  have hget : ∀ j, (hay.drop pos).getD j 0 = hay.getD (pos + j) 0 := by
    intro j
    rw [List.getD_eq_getElem?_getD, List.getElem?_drop, ← List.getD_eq_getElem?_getD]
  rw [OccursAt, teddyEqCi_iff, List.length_drop]
  simp only [hget]
  refine and_congr_left fun _ => ⟨fun hle => ?_, fun hle => ?_⟩ <;> omega

@[simp] theorem sgLower_sgLower (d : UInt8) : sgLower (sgLower d) = sgLower d := by
  by_cases hd : 65 ≤ d ∧ d ≤ 90
  · have hlow : sgLower d = d + 32 := if_pos hd
    rw [hlow, sgLower, if_neg]
    simp only [UInt8.le_iff_toNat_le, UInt8.toNat_add, UInt8.reduceToNat] at hd ⊢
    omega
  · have hlow : sgLower d = d := if_neg hd
    rw [hlow, hlow]

theorem sgLower_upperOf (d : UInt8) : sgLower (upperOf (sgLower d)) = sgLower d := by
  unfold upperOf
  split
  · rename_i hletter
    generalize sgLower d = c at hletter ⊢
    rw [sgLower, if_pos]
    · exact UInt8.sub_add_cancel c 32
    · simp only [UInt8.le_iff_toNat_le, UInt8.toNat_sub, UInt8.reduceToNat] at hletter ⊢
      omega
  · exact sgLower_sgLower d

/-- The bytes that fold to a folded byte: itself and its upper case. -/
theorem eq_or_eq_upperOf_iff {c d : UInt8} :
    c = sgLower d ∨ c = upperOf (sgLower d) ↔ sgLower c = sgLower d := by
  refine ⟨?_, eq_of_sgLower_eq⟩
  rintro (rfl | rfl)
  · exact sgLower_sgLower d
  · exact sgLower_upperOf d

/-! ## Reading and verifying

At a possible start the comparison of the needle reads inside both strings, since the needle fits
there.  Where the first byte is known to be right it may begin with the second. -/

theorem hayAt_of_lt (h : i < hay.length) : hayAt hay i = pure (hay.getD i 0) := by
  rw [hayAt, readAt_of_lt h, List.getD_eq_getElem?_getD, List.getElem?_eq_getElem h]
  rfl

theorem ndlAt_of_lt (h : i < ndl.length) : ndlAt ndl i = pure (ndl.getD i 0) := by
  rw [ndlAt, readAt_of_lt h, List.getD_eq_getElem?_getD, List.getElem?_eq_getElem h]
  rfl

/-- At a possible start the comparison reads inside both strings and reaches the end of the needle
exactly when the rest of the needle is there. -/
theorem matchRun_spec (hpos : pos + ndl.length ≤ hay.length) {j : ℕ} (hj : j ≤ ndl.length) :
    ∃ j', matchRun hay ndl pos j = pure j' ∧ (j' = ndl.length ↔
      ∀ k, j ≤ k → k < ndl.length →
        sgLower (hay.getD (pos + k) 0) = sgLower (ndl.getD k 0)) := by
  induction hrest : ndl.length - j generalizing j with
  | zero =>
    obtain rfl : j = ndl.length := by omega
    refine ⟨ndl.length, ?_, iff_of_true rfl fun k hk hlt => absurd hlt (Nat.not_lt_of_le hk)⟩
    rw [matchRun, if_neg (Nat.lt_irrefl _)]
  | succ n ih =>
    have hlt : j < ndl.length := by omega
    rw [matchRun, if_pos hlt, hayAt_of_lt (by omega), pure_bind, ndlAt_of_lt hlt, pure_bind]
    split
    · rename_i heq
      obtain ⟨j', hrun, hiff⟩ := ih (j := j + 1) hlt (by omega)
      refine ⟨j', hrun, hiff.trans ⟨fun h k hk hkn => ?_, fun h k hk => h k (by omega)⟩⟩
      rcases Nat.eq_or_lt_of_le hk with rfl | hjk
      · exact heq
      · exact h k hjk hkn
    · rename_i hne
      exact ⟨j, rfl, iff_of_false (Nat.ne_of_lt hlt) fun h => hne (h j (Nat.le_refl j) hlt)⟩

/-- Where the first byte is right, the comparison from the second byte on decides. -/
theorem verify_spec (hne : ndl.length ≠ 0) (hpos : pos + ndl.length ≤ hay.length)
    (hfirst : sgLower (hay.getD pos 0) = sgLower (ndl.getD 0 0)) :
    ∃ j, matchRun hay ndl pos 1 = pure j ∧ (j = ndl.length ↔ OccursAt hay ndl pos) := by
  obtain ⟨j, hrun, hiff⟩ := matchRun_spec hpos (j := 1) (by omega)
  refine ⟨j, hrun, hiff.trans ?_⟩
  rw [occursAt_iff hne]
  refine ⟨fun h => ⟨hpos, fun k hk => ?_⟩, fun h k _ hk => h.2 k hk⟩
  cases k with
  | zero => exact hfirst
  | succ k => exact h (k + 1) (by omega) hk

theorem OccursAt.first (h : OccursAt hay ndl pos) (hne : ndl.length ≠ 0) :
    sgLower (hay.getD pos 0) = sgLower (ndl.getD 0 0) :=
  ((occursAt_iff hne).mp h).2 0 (Nat.pos_of_ne_zero hne)

theorem OccursAt.le_last (h : OccursAt hay ndl pos) (hne : ndl.length ≠ 0) :
    pos ≤ hay.length - ndl.length := by
  have hle := ((occursAt_iff hne).mp h).1
  omega

/-! ## The scalar search -/

theorem memmemScalarLoop_spec (hne : ndl.length ≠ 0) (hlen : ndl.length ≤ hay.length)
    (hbefore : ∀ q < i, ¬ OccursAt hay ndl q) :
    ∃ r, memmemScalarLoop hay ndl (sgLower (ndl.getD 0 0)) (hay.length - ndl.length) i = pure r ∧
      Leftmost (OccursAt hay ndl) r := by
  induction hrest : hay.length - ndl.length + 1 - i generalizing i with
  | zero =>
    rw [memmemScalarLoop, if_neg (by omega)]
    refine ⟨none, rfl, fun q hq => hbefore q ?_ hq⟩
    have hlast := hq.le_last hne
    omega
  | succ n ih =>
    have hnext : ¬ OccursAt hay ndl i → ∃ r, memmemScalarLoop hay ndl (sgLower (ndl.getD 0 0))
        (hay.length - ndl.length) (i + 1) = pure r ∧ Leftmost (OccursAt hay ndl) r := by
      intro hnot
      refine ih (fun q hq => ?_) (by omega)
      rcases Nat.lt_succ_iff_lt_or_eq.mp hq with hlt | rfl
      · exact hbefore q hlt
      · exact hnot
    rw [memmemScalarLoop, if_pos (by omega), hayAt_of_lt (by omega), pure_bind]
    split
    · rename_i hfirst
      exact hnext fun hocc => hfirst (hocc.first hne)
    · rename_i hfirst
      obtain ⟨j, hrun, hiff⟩ := verify_spec hne (by omega) (not_not.mp hfirst)
      rw [hrun, pure_bind]
      split
      · rename_i hj
        exact ⟨some i, rfl, hiff.mp hj, hbefore⟩
      · rename_i hj
        exact hnext (mt hiff.mpr hj)

theorem leftmost_of_nil (hnil : ndl.length = 0) : Leftmost (OccursAt hay ndl) (some 0) := by
  obtain rfl := List.eq_nil_of_length_eq_zero hnil
  exact ⟨by simp [OccursAt, teddyEqCi], nofun⟩

theorem leftmost_of_long (hlong : hay.length < ndl.length) :
    Leftmost (OccursAt hay ndl) none := by
  intro q hq
  have hle := ((occursAt_iff (by omega)).mp hq).1
  omega

/-- The scalar search returns the leftmost occurrence. -/
theorem memmemScalar_spec (hay ndl : Bytes) :
    ∃ r, memmemScalar hay ndl = pure r ∧ Leftmost (OccursAt hay ndl) r := by
  unfold memmemScalar
  split
  · rename_i hnil
    exact ⟨some 0, rfl, leftmost_of_nil hnil⟩
  · rename_i hne
    split
    · rename_i hlong
      exact ⟨none, rfl, leftmost_of_long hlong⟩
    · rename_i hlen
      rw [ndlAt_of_lt (Nat.pos_of_ne_zero hne), pure_bind]
      exact memmemScalarLoop_spec hne (Nat.le_of_not_lt hlen) fun q hq => absurd hq (Nat.not_lt_zero q)

/-! ## The candidates of a block

From lanes to bits to positions: lane `b` of the comparison is all ones exactly if byte `i + b` is
right, the mask has that bit, and the largest lane is zero exactly if there is none. -/

/-- The 16 bytes from `i`. -/
def blockOf (hay : Bytes) (i : ℕ) : Vector UInt8 16 := Vector.ofFn fun j => hay.getD (i + j) 0

theorem loadBlock_of_le (h : i + 16 ≤ hay.length) : loadBlock hay i = pure (blockOf hay i) :=
  if_pos h

/-- A lane is all ones when its byte folds to the first byte of the needle, and zero otherwise. -/
theorem getElem_firstByteLanes (d : UInt8) (hb : b < 16) :
    (firstByteLanes (sgLower d) (blockOf hay i))[b] =
      if sgLower (hay.getD (i + b) 0) = sgLower d then 0xFF else 0 := by
  simp only [firstByteLanes, orLanes, cmpeqLanes, blockOf, Vector.getElem_zipWith,
    Vector.getElem_ofFn, Vector.getElem_replicate, ← eq_or_eq_upperOf_iff]
  generalize hay.getD (i + b) 0 = c
  by_cases h1 : c = sgLower d
  · rw [if_pos h1, if_pos (Or.inl h1)]
    split <;> rfl
  · rw [if_neg h1]
    by_cases h2 : c = upperOf (sgLower d)
    · rw [if_pos h2, if_pos (Or.inr h2)]
      rfl
    · rw [if_neg h2, if_neg (not_or.mpr ⟨h1, h2⟩)]
      rfl

theorem getLsbD_movemask (v : Vector UInt8 16) (b : ℕ) :
    (movemask v).getLsbD b = true ↔ ∃ hb : b < 16, 128 ≤ v[b] := by
  rw [movemask, getLsbD_maskOf, Bool.and_eq_true, decide_eq_true_eq, List.getD_eq_getElem?_getD,
    List.getElem?_map]
  by_cases hb : b < 16
  · have hget : v.toList[b]? = some v[b] := by simp [hb]
    rw [hget]
    simp [hb, Nat.lt_trans hb (by decide : 16 < 32)]
  · have hget : v.toList[b]? = none := by simp; omega
    rw [hget]
    simp [hb]

/-- The mask of a block: the offsets whose byte folds to the first byte of the needle. -/
theorem getLsbD_candidates (d : UInt8) :
    (movemask (firstByteLanes (sgLower d) (blockOf hay i))).getLsbD b = true ↔
      b < 16 ∧ sgLower (hay.getD (i + b) 0) = sgLower d := by
  rw [getLsbD_movemask]
  constructor
  · rintro ⟨hb, hlane⟩
    rw [getElem_firstByteLanes d hb] at hlane
    refine ⟨hb, ?_⟩
    by_contra hne
    rw [if_neg hne] at hlane
    exact absurd hlane (by decide)
  · rintro ⟨hb, heq⟩
    refine ⟨hb, ?_⟩
    rw [getElem_firstByteLanes d hb, if_pos heq]
    decide

theorem le_max_byte (a b : UInt8) : a ≤ max a b ∧ b ≤ max a b := by
  have hmax : max a b = if a ≤ b then b else a := rfl
  rw [hmax]
  split
  · rename_i hle
    exact ⟨hle, UInt8.le_refl b⟩
  · rename_i hgt
    exact ⟨UInt8.le_refl a, UInt8.le_of_lt (UInt8.not_le.mp hgt)⟩

theorem le_foldl_max {l : List UInt8} {a x : UInt8} (h : x = a ∨ x ∈ l) : x ≤ l.foldl max a := by
  induction l generalizing a x with
  | nil =>
    rcases h with rfl | hmem
    · exact UInt8.le_refl x
    · exact absurd hmem List.not_mem_nil
  | cons y l ih =>
    obtain ⟨hleft, hright⟩ := le_max_byte a y
    have hmax : max a y ≤ l.foldl max (max a y) := ih (.inl rfl)
    rw [List.foldl_cons]
    rcases h with rfl | hmem
    · exact UInt8.le_trans hleft hmax
    · rcases List.mem_cons.mp hmem with rfl | hmem
      · exact UInt8.le_trans hright hmax
      · exact ih (.inr hmem)

/-- When the largest lane is zero no byte of the block folds to the first byte of the needle. -/
theorem no_candidate_of_maxLane {d : UInt8}
    (h : maxLane (firstByteLanes (sgLower d) (blockOf hay i)) = 0) (hb : b < 16) :
    sgLower (hay.getD (i + b) 0) ≠ sgLower d := by
  intro heq
  have hmem : (firstByteLanes (sgLower d) (blockOf hay i))[b] ∈
      (firstByteLanes (sgLower d) (blockOf hay i)).toList := by simp
  have hle := le_foldl_max (a := 0) (.inr hmem)
  rw [← maxLane, h, getElem_firstByteLanes d hb, if_pos heq] at hle
  exact absurd hle (by decide)

/-! ## Blocks -/

/-- The candidates of a block, from the lowest up, when they hold every occurrence that starts
before the end of the block. -/
theorem sseCandidates_spec (hne : ndl.length ≠ 0) (hlen : ndl.length ≤ hay.length)
    {mask : BitVec 32}
    (hcand : ∀ b, mask.getLsbD b = true →
      b < 16 ∧ sgLower (hay.getD (i + b) 0) = sgLower (ndl.getD 0 0))
    (hall : ∀ q < i + 16, OccursAt hay ndl q → ∃ b, q = i + b ∧ mask.getLsbD b = true) :
    ∃ r, sseCandidates hay ndl (hay.length - ndl.length) i mask = pure r ∧
      BlockAnswer (OccursAt hay ndl) (i + 16) r := by
  induction hsize : mask.toNat using Nat.strong_induction_on generalizing mask with
  | _ size ih =>
    rw [sseCandidates]
    split
    · rename_i hzero
      refine ⟨none, rfl, fun q hq hocc => ?_⟩
      obtain ⟨b, -, hb⟩ := hall q hq hocc
      rw [hzero] at hb
      simp at hb
    · rename_i hmask
      obtain ⟨hlow, hfirst⟩ := hcand _ (BitVec.getLsbD_true_ctz_of_ne_zero hmask)
      -- every occurrence before the end of the block is at the lowest candidate or after it
      have hleast : ∀ q < i + 16, OccursAt hay ndl q → i + mask.ctz.toNat ≤ q := by
        intro q hq hocc
        obtain ⟨b, rfl, hb⟩ := hall q hq hocc
        by_contra hlt
        have hfalse := BitVec.getLsbD_false_of_lt_ctz (show b < mask.ctz.toNat by omega)
        rw [hfalse] at hb
        exact absurd hb (by simp)
      dsimp only
      split
      · rename_i hlast
        refine ⟨some none, rfl, fun q hocc => ?_⟩
        have hle := hocc.le_last hne
        have hge := hleast q (by omega) hocc
        omega
      · rename_i hlast
        have hroom : i + mask.ctz.toNat + ndl.length ≤ hay.length := by omega
        obtain ⟨j, hrun, hiff⟩ := verify_spec hne hroom hfirst
        rw [hrun, pure_bind]
        split
        · rename_i hj
          refine ⟨some (some _), rfl, hiff.mp hj, fun q hq hocc => ?_⟩
          have hge := hleast q (by omega) hocc
          omega
        · rename_i hj
          refine ih _ (hsize ▸ toNat_clearLow_lt hmask) (fun b hb => ?_) (fun q hq hocc => ?_) rfl
          · rw [getLsbD_clearLow hmask, Bool.and_eq_true] at hb
            exact hcand b hb.1
          · obtain ⟨b, rfl, hb⟩ := hall q hq hocc
            refine ⟨b, rfl, ?_⟩
            rw [getLsbD_clearLow hmask, hb, Bool.true_and, decide_eq_true_eq]
            rintro rfl
            exact hj (hiff.mpr hocc)

theorem sseBlock_spec (hne : ndl.length ≠ 0) (hlen : ndl.length ≤ hay.length)
    (hin : i + 16 ≤ hay.length) (hbefore : ∀ q < i, ¬ OccursAt hay ndl q) :
    ∃ r, sseBlock hay ndl (sgLower (ndl.getD 0 0)) (hay.length - ndl.length) i = pure r ∧
      BlockAnswer (OccursAt hay ndl) (i + 16) r := by
  rw [sseBlock, loadBlock_of_le hin, pure_bind]
  refine sseCandidates_spec hne hlen (fun b hb => (getLsbD_candidates _).mp hb)
    fun q hq hocc => ?_
  have hge : i ≤ q := Nat.le_of_not_lt fun hlt => hbefore q hlt hocc
  obtain ⟨b, rfl⟩ := Nat.exists_eq_add_of_le hge
  exact ⟨b, rfl, (getLsbD_candidates _).mpr ⟨by omega, hocc.first hne⟩⟩

theorem neonLanes_spec (hne : ndl.length ≠ 0) (hlen : ndl.length ≤ hay.length)
    (hin : i + 16 ≤ hay.length) (hb : b ≤ 16) (hbefore : ∀ q < i + b, ¬ OccursAt hay ndl q) :
    ∃ r, neonLanes hay ndl (sgLower (ndl.getD 0 0)) (hay.length - ndl.length) i b = pure r ∧
      BlockAnswer (OccursAt hay ndl) (i + 16) r := by
  induction hrest : 16 - b generalizing b with
  | zero =>
    obtain rfl : b = 16 := by omega
    rw [neonLanes, if_neg (Nat.lt_irrefl _)]
    exact ⟨none, rfl, hbefore⟩
  | succ n ih =>
    have hnext : ¬ OccursAt hay ndl (i + b) → ∃ r, neonLanes hay ndl (sgLower (ndl.getD 0 0))
        (hay.length - ndl.length) i (b + 1) = pure r ∧
          BlockAnswer (OccursAt hay ndl) (i + 16) r := by
      intro hnot
      refine ih (by omega) (fun q hq => ?_) (by omega)
      rcases Nat.lt_succ_iff_lt_or_eq.mp hq with hlt | rfl
      · exact hbefore q hlt
      · exact hnot
    rw [neonLanes, if_pos (by omega)]
    dsimp only
    split
    · rename_i hlast
      refine ⟨some none, rfl, fun q hocc => hbefore q ?_ hocc⟩
      have hle := hocc.le_last hne
      omega
    · rw [hayAt_of_lt (by omega), pure_bind]
      split
      · rename_i hfirst
        exact hnext fun hocc => hfirst (hocc.first hne)
      · rename_i hfirst
        have hroom : i + b + ndl.length ≤ hay.length := by omega
        obtain ⟨j, hrun, hiff⟩ := verify_spec hne hroom (not_not.mp hfirst)
        rw [hrun, pure_bind]
        split
        · rename_i hj
          exact ⟨some (some (i + b)), rfl, hiff.mp hj, hbefore⟩
        · rename_i hj
          exact hnext (mt hiff.mpr hj)

theorem neonBlock_spec (hne : ndl.length ≠ 0) (hlen : ndl.length ≤ hay.length)
    (hin : i + 16 ≤ hay.length) (hbefore : ∀ q < i, ¬ OccursAt hay ndl q) :
    ∃ r, neonBlock hay ndl (sgLower (ndl.getD 0 0)) (hay.length - ndl.length) i = pure r ∧
      BlockAnswer (OccursAt hay ndl) (i + 16) r := by
  rw [neonBlock, loadBlock_of_le hin, pure_bind]
  split
  · rename_i hzero
    refine ⟨none, rfl, fun q hq hocc => ?_⟩
    have hge : i ≤ q := Nat.le_of_not_lt fun hlt => hbefore q hlt hocc
    obtain ⟨b, rfl⟩ := Nat.exists_eq_add_of_le hge
    exact no_candidate_of_maxLane hzero (by omega) (hocc.first hne)
  · exact neonLanes_spec hne hlen hin (Nat.zero_le _) hbefore

/-- **The block loop**, for any search of a block that gives an answer. -/
theorem memmemBlocks_spec (hne : ndl.length ≠ 0)
    {block : ℕ → Except SpanFault (Option (Option ℕ))}
    (hblock : ∀ i, i + 16 ≤ hay.length → (∀ q < i, ¬ OccursAt hay ndl q) →
      ∃ r, block i = pure r ∧ BlockAnswer (OccursAt hay ndl) (i + 16) r)
    (hbefore : ∀ q < i, ¬ OccursAt hay ndl q) :
    ∃ r, memmemBlocks hay ndl block (hay.length - ndl.length) i = pure r ∧
      Leftmost (OccursAt hay ndl) r := by
  induction hrest : hay.length - i using Nat.strong_induction_on generalizing i with
  | _ rest ih =>
    rw [memmemBlocks]
    split
    · rename_i hin
      obtain ⟨r, hrun, hanswer⟩ := hblock i hin hbefore
      rw [hrun, pure_bind]
      cases r with
      | some r => exact ⟨r, rfl, hanswer⟩
      | none => exact ih (hay.length - (i + 16)) (by omega) hanswer rfl
    · split
      · obtain ⟨r, hrun, hleft⟩ := memmemScalar_spec (hay.drop i) ndl
        rw [hrun, pure_bind]
        have hdrop : OccursAt (hay.drop i) ndl = fun q => OccursAt hay ndl (i + q) :=
          funext fun q => propext occursAt_drop
        rw [hdrop] at hleft
        exact ⟨_, rfl, hleft.shift hbefore⟩
      · rename_i hlast
        refine ⟨none, rfl, fun q hocc => hbefore q ?_ hocc⟩
        have hle := hocc.le_last hne
        omega

/-- A version of `sigma_memmem_ci`, from its loop body. -/
theorem memmem_of_block
    {block : UInt8 → ℕ → ℕ → Except SpanFault (Option (Option ℕ))}
    (hblock : ndl.length ≠ 0 → ndl.length ≤ hay.length → ∀ i, i + 16 ≤ hay.length →
      (∀ q < i, ¬ OccursAt hay ndl q) →
        ∃ r, block (sgLower (ndl.getD 0 0)) (hay.length - ndl.length) i = pure r ∧
          BlockAnswer (OccursAt hay ndl) (i + 16) r) :
    ∃ r, (if ndl.length = 0 then pure (some 0)
      else if hay.length < ndl.length then pure none
      else do
        let n ← ndlAt ndl 0
        let last := hay.length - ndl.length
        memmemBlocks hay ndl (block (sgLower n) last) last 0) = pure r ∧
      Leftmost (OccursAt hay ndl) r := by
  split
  · rename_i hnil
    exact ⟨some 0, rfl, leftmost_of_nil hnil⟩
  · rename_i hne
    split
    · rename_i hlong
      exact ⟨none, rfl, leftmost_of_long hlong⟩
    · rename_i hlen
      rw [ndlAt_of_lt (Nat.pos_of_ne_zero hne), pure_bind]
      exact memmemBlocks_spec hne (hblock hne (Nat.le_of_not_lt hlen)) fun q hq =>
        absurd hq (Nat.not_lt_zero q)

theorem memmemSse_spec (hay ndl : Bytes) :
    ∃ r, memmemSse hay ndl = pure r ∧ Leftmost (OccursAt hay ndl) r :=
  memmem_of_block fun hne hlen _ hin hbefore => sseBlock_spec hne hlen hin hbefore

theorem memmemNeon_spec (hay ndl : Bytes) :
    ∃ r, memmemNeon hay ndl = pure r ∧ Leftmost (OccursAt hay ndl) r :=
  memmem_of_block fun hne hlen _ hin hbefore => neonBlock_spec hne hlen hin hbefore

/-- The search that predicates use is the same. -/
theorem leftmost_sigmaMemmemCiScalar (hay ndl : Bytes) :
    Leftmost (OccursAt hay ndl) (sigmaMemmemCiScalar hay ndl) := by
  cases ndl with
  | nil => exact leftmost_of_nil rfl
  | cons n0 rest =>
    rw [sigmaMemmemCiScalar]
    split
    · rename_i hlong
      exact leftmost_of_long hlong
    · rename_i hlen
      refine leftmost_find? (fun q _ => ?_) fun q hocc => ?_
      · rw [OccursAt]
        cases hay.drop q with
        | nil => simp [teddyEqCi]
        | cons h t => rw [teddyEqCi]
      · have hle := hocc.le_last (Nat.succ_ne_zero _)
        omega

/-- **The three versions agree.**  For every haystack and needle the scalar, the SSE4.2 and the NEON
search read inside both strings only and return the same: the leftmost offset at which the needle
occurs up to ASCII case, or nothing when it does not occur. -/
theorem memmem_versions_agree (hay ndl : Bytes) :
    memmemSse hay ndl = .ok (sigmaMemmemCiScalar hay ndl) ∧
      memmemNeon hay ndl = .ok (sigmaMemmemCiScalar hay ndl) ∧
      memmemScalar hay ndl = .ok (sigmaMemmemCiScalar hay ndl) ∧
      (∀ p, sigmaMemmemCiScalar hay ndl = some p ↔ IsLeast {q | OccursAt hay ndl q} p) ∧
      (sigmaMemmemCiScalar hay ndl = none ↔ ¬ OccursCi hay ndl) := by
  have hleft := leftmost_sigmaMemmemCiScalar hay ndl
  have hsame : ∀ {m : Except SpanFault (Option ℕ)},
      (∃ r, m = pure r ∧ Leftmost (OccursAt hay ndl) r) →
        m = .ok (sigmaMemmemCiScalar hay ndl) := by
    rintro _ ⟨r, rfl, hr⟩
    rw [hr.unique hleft]
    rfl
  exact ⟨hsame (memmemSse_spec hay ndl), hsame (memmemNeon_spec hay ndl),
    hsame (memmemScalar_spec hay ndl), fun _ => hleft.eq_some_iff, hleft.eq_none_iff⟩

end Spec

end LibSigma
