import Mathlib.Data.List.Sort
import LibSigma.Library.Agree
import LibSigma.Matcher.TeddySpec
import LibSigma.Matcher.RoundTrip

/-!
# The scan is exact

What `teddy_confirm` marks depends on the needles and on the text alone: not on the scratch, which
other scans have used, and not on the 16-byte blocks that the SIMD loop skips.

## What is quantified over

The result speaks of a scan on its own, apart from the matcher it was written for.  So it needs its
own description of what can be handed to it.  A matcher is one that the two builders deliver from a
table of needles (`TeddyBuilt`).  A scratch is one that any scans before may have left: of other
texts, with other matchers for as many needles, with and without SIMD, with any callbacks
(`ScratchLeft`).  Both are inductive, so every theorem about them is about all that can occur, and
the induction over the second is where stamps and generations are shown to stay in step
(`ScratchLeft.ready`).

## Blocks that are skipped

The SIMD loop probes a subset of the positions of the scalar one, and the positions left out meet
nothing.  That is not quite enough for the two to agree, since a probe of an empty chain still
counts its steps.  `teddyScan_skip` says that skipping changes that counter and nothing else, so
agreement is stated on the marks and on the stamps (`SameStamps`), and not on the counter, on which
the two versions do differ.

* `NeedleTable`: what a matcher is built from, on its own; `TeddyBuilt`: the matchers the two
  builders deliver; `ScratchLeft`: the scratches that scans leave behind.
* `teddyScan_skip`: probing a position where nothing is met changes the step counter only.
* `teddyConfirm_exact`: **each chained needle that occurs is marked once, no other is marked, and
  the SIMD loop marks the same needles in the same order as the scalar loop.**
-/

namespace LibSigma

open Library

/-! ## Needle tables, matchers and scratches

What a scan can be given, with no database around it.  A scan reads nothing of a database but the
needles and the pool, so the lemmas of the matcher apply to a database that has nothing else. -/

/-- A needle table: 32-bit indices, every needle inside the pool and of two bytes at least. -/
structure NeedleTable (db : SigmaDb) : Prop where
  count : db.litndl.length < 2 ^ 32
  inPool : ∀ s ∈ db.litndl, db.InPool s
  twoBytes : ∀ s ∈ db.litndl, 2 ≤ s.len.toNat

/-- The matchers built from a needle table, each with the needles it chains. -/
inductive TeddyBuilt (db : SigmaDb) : List ℕ → SigmaTeddy → Prop where
  | build {t : SigmaTeddy} (h : sigmaTeddyBuild db.litndl db.byte = some t) :
      TeddyBuilt db (List.range db.litndl.length) t
  | buildSubset {ids : List ℕ} {t : SigmaTeddy} (hset : ids.Nodup)
      (h : sigmaTeddyBuildSubset db.litndl db.byte ids = some t) :
      TeddyBuilt db (ids.filter (· < db.litndl.length)) t

/-- The scratches for `n` needles that any scans leave: of any texts, with any matchers, with and
without SIMD, whatever the callbacks did. -/
inductive ScratchLeft (n : ℕ) : TeddyScratch → Prop where
  | init : ScratchLeft n (sigmaTeddyScratchInit n)
  | confirm {db : SigmaDb} {ids : List ℕ} {t : SigmaTeddy} {σ : Type} {mark : ℕ → σ → σ}
      {simd : Bool} {buf : Bytes} {scr scr' : TeddyScratch} {s s' : σ} (h : ScratchLeft n scr)
      (hn : db.litndl.length = n) (hdb : NeedleTable db) (ht : TeddyBuilt db ids t)
      (hrun : (teddyConfirm db t (fun k => modifyState (mark k)) simd buf scr).run s =
        .ok (scr', s')) :
      ScratchLeft n scr'

/-- No buckets and no keys. -/
theorem noBuckets_length : ([] : List SigmaBucket).length = ([] : List SigmaStr).length := rfl

/-- The database with nothing in it but its needles. -/
def SigmaDb.needlesOnly (db : SigmaDb) : SigmaDb where
  fields := []
  values := []
  preds := []
  sels := []
  cond := []
  rules := []
  cidrs := []
  bucketKeys := []
  buckets := []
  bucketIdx := []
  litndl := db.litndl
  litpost := List.replicate db.litndl.length ⟨0, 0⟩
  litpostRef := []
  litav := []
  ruleClauses := none
  fwit := []
  strpool := db.strpool
  buckets_length := noBuckets_length
  litpost_length := List.length_replicate
  ruleClauses_length := nofun
  poolNext := db.poolNext
  avBucket := none
  catFieldId := none
  teddy := none
  fieldTeddy := none
  bucketFields := none
  bucketFieldsStride := 0
  litAnyField := false
  re := none
  nReSkipped := 0

section Built

variable {db : SigmaDb}

theorem NeedleTable.valid (h : NeedleTable db) : db.needlesOnly.Valid where
  fieldName := nofun
  valueInPool := nofun
  predField := nofun
  selPreds := nofun
  ruleSels := nofun
  ruleCond := nofun
  condKind := nofun
  keyInPool := nofun
  bucketIdx := nofun
  bucketRule := nofun
  ndlInPool := h.inPool
  ndlNonempty s hs hzero := by
    have htwo := h.twoBytes s hs
    rw [hzero] at htwo
    exact absurd htwo (by decide)
  postings p hp := by
    obtain rfl := (List.mem_replicate.mp hp).2
    exact Nat.le_refl 0
  refRule := nofun
  refField := nofun
  refClause := nofun
  avRule := nofun
  avClauses := nofun
  clauseMax i := Nat.zero_le _
  fwitRule := nofun
  fwitField := nofun
  fwitClause := nofun
  fwitCidr := nofun

/-- An index past the table is not chained. -/
theorem teddyChain_of_le {litndl : List SigmaStr} {byte : ℕ → UInt8} {t : SigmaTeddy} {i : ℕ}
    (h : litndl.length ≤ i) : teddyChain litndl byte t i = t := by
  rw [teddyChain, List.getElem?_eq_none h]

theorem foldl_teddyChain_filter {litndl : List SigmaStr} {byte : ℕ → UInt8} (ids : List ℕ)
    (t : SigmaTeddy) :
    (ids.filter (· < litndl.length)).foldl (teddyChain litndl byte) t =
      ids.foldl (teddyChain litndl byte) t := by
  induction ids generalizing t with
  | nil => rfl
  | cons i ids ih =>
    rw [List.filter_cons]
    split
    · rw [List.foldl_cons, List.foldl_cons, ih]
    · rename_i hi
      have hle : litndl.length ≤ i := Nat.le_of_not_lt fun hlt => hi (decide_eq_true hlt)
      rw [List.foldl_cons, teddyChain_of_le hle, ih]

/-- Both builders deliver a matcher that a scan can use. -/
theorem TeddyBuilt.scannable {ids : List ℕ} {t : SigmaTeddy} (ht : TeddyBuilt db ids t)
    (hdb : NeedleTable db) : Scannable db.needlesOnly ids t := by
  cases ht with
  | build h =>
    exact ⟨hdb.valid, hdb.count, teddyFor_build hdb.count h, List.nodup_range,
      fun k hk => List.mem_range.mp hk⟩
  | @buildSubset ids _ hset h =>
    have hin : ∀ k ∈ ids.filter (· < db.litndl.length), k < db.litndl.length :=
      fun k hk => of_decide_eq_true (List.mem_filter.mp hk).2
    refine ⟨hdb.valid, hdb.count, ?_, hset.filter _, hin⟩
    rw [sigmaTeddyBuildSubset] at h
    split at h
    · exact absurd h (by simp)
    · obtain rfl := Option.some.inj h
      have hfold := (teddyFor_empty db.litndl db.byte).foldl (hset.filter _) hin hdb.count
      rwa [List.nil_append, foldl_teddyChain_filter] at hfold

theorem TeddyBuilt.ne_nil {ids : List ℕ} {t : SigmaTeddy} (ht : TeddyBuilt db ids t) :
    db.litndl ≠ [] := by
  rintro hnil
  cases ht with
  | build h =>
    rw [sigmaTeddyBuild, if_pos hnil] at h
    exact absurd h (by simp)
  | buildSubset _ h =>
    rw [sigmaTeddyBuildSubset, if_pos (.inl hnil)] at h
    exact absurd h (by simp)

variable {σ : Type} {t : SigmaTeddy} {mark : ℕ → StateT σ (Except Fault) PUnit} {simd : Bool}
  {buf : Bytes} {scr : TeddyScratch}

theorem teddyWalk_needlesOnly {avail pos fuel : ℕ} {next : ℕ → UInt32} {k : UInt32} :
    teddyWalk db.needlesOnly t mark buf avail pos next fuel k scr =
      teddyWalk db t mark buf avail pos next fuel k scr := by
  induction fuel generalizing k scr with
  | zero => rfl
  | succ fuel ih =>
    have htry : teddyTry db.needlesOnly t mark buf avail pos k.toNat scr =
        teddyTry db t mark buf avail pos k.toNat scr := rfl
    simp only [teddyWalk, htry, ih]

@[simp] theorem teddyScan_needlesOnly {poss : List ℕ} :
    teddyScan db.needlesOnly t mark buf poss scr = teddyScan db t mark buf poss scr := by
  induction poss generalizing scr with
  | nil => rfl
  | cons pos poss ih => simp only [teddyScan, teddyProbeAt, teddyWalk_needlesOnly, ih]

/-- A scan reads nothing of the database but its needles. -/
@[simp] theorem teddyConfirm_needlesOnly :
    teddyConfirm db.needlesOnly t mark simd buf scr = teddyConfirm db t mark simd buf scr := by
  rw [teddyConfirm, teddyConfirm, teddyScan_needlesOnly]

/-- **Scratches stay usable.**  Whatever scans it has been through, a scratch has one stamp for
each needle and no stamp ahead of its counter. -/
theorem ScratchLeft.ready {n : ℕ} (h : ScratchLeft n scr) :
    scr.ndlGen.length = n ∧ Bounded scr.gen scr.ndlGen := by
  induction h with
  | init => exact ⟨List.length_replicate, bounded_replicate_zero _ _⟩
  | @confirm db ids t σ mark simd buf scr scr' s s' _ hn hdb ht hrun ih =>
    by_cases hlen : 2 ≤ buf.length
    · have hmark : Marks db.needlesOnly (fun k => modifyState (mark k)) fun _ (_ : σ) => True :=
        fun _ _ _ _ _ _ => Runs.modify trivial
      have hready : ScratchReady db.needlesOnly scr := ⟨ih.1.trans hn.symm, ih.2⟩
      have hruns := teddyConfirm_runs (s := s) (ht.scannable hdb) hmark simd hready ht.ne_nil hlen
        trivial
      rw [teddyConfirm_needlesOnly] at hruns
      obtain ⟨hcells, hbounded⟩ := (hruns.result hrun).1
      exact ⟨hcells.trans hn, hbounded⟩
    · rw [teddyConfirm, if_pos (.inl (Nat.lt_of_not_le hlen))] at hrun
      obtain rfl := (Prod.mk.inj (Except.ok.inj hrun)).1
      exact ih

end Built

/-! ## Positions that can be skipped

Two scans of one text with different lists of positions.  They do the same at a position they share,
and at a position where nothing is met they do nothing but count. -/

/-- Two scratches for `n` needles with the same stamps: they differ in the counter of chain steps
only. -/
def SameStamps (n : ℕ) (scr scr' : TeddyScratch) : Prop :=
  scr.ndlGen = scr'.ndlGen ∧ scr.gen = scr'.gen ∧ scr'.ndlGen.length = n

section Skip

variable {σ : Type} {db : SigmaDb} {t : SigmaTeddy} {mark : ℕ → StateT σ (Except Fault) PUnit}
  {buf : Bytes} {ids : List ℕ} {scr scr' : TeddyScratch} {s : σ} {n : ℕ}

/-- The step counter is never read. -/
theorem teddyTry_agree (h : SameStamps n scr scr') (avail pos k : ℕ) :
    Agree (SameStamps n) (teddyTry db t mark buf avail pos k scr)
      (teddyTry db t mark buf avail pos k scr') s := by
  obtain ⟨hcells, hgen, hlength⟩ := h
  unfold teddyTry
  dsimp only
  rw [hcells, hgen]
  refine Agree.bind_same fun g _ => ?_
  split
  · exact Agree.pure ⟨rfl, rfl, hlength⟩
  · refine Agree.bind_same fun ndl _ => ?_
    split
    · exact Agree.pure ⟨rfl, rfl, hlength⟩
    · split
      · exact Agree.pure ⟨rfl, rfl, hlength⟩
      · refine Agree.bind_same fun _ _ => ?_
        split
        · exact Agree.bind_same fun _ _ => Agree.pure ⟨rfl, rfl, (List.length_set ..).trans hlength⟩
        · exact Agree.pure ⟨rfl, rfl, hlength⟩

theorem teddyWalk_agree (h : SameStamps n scr scr') (avail pos : ℕ) (next : ℕ → UInt32) (fuel : ℕ)
    (k : UInt32) : Agree (SameStamps n) (teddyWalk db t mark buf avail pos next fuel k scr)
      (teddyWalk db t mark buf avail pos next fuel k scr') s := by
  induction fuel generalizing k scr scr' s with
  | zero =>
    unfold teddyWalk
    split
    · exact Agree.pure h
    · exact rfl
  | succ fuel ih =>
    unfold teddyWalk
    split
    · exact Agree.pure h
    · exact (teddyTry_agree h _ _ _).bind fun _ _ _ h' => ih h' _

theorem teddyProbeAt_agree (h : SameStamps n scr scr') (pos : ℕ) :
    Agree (SameStamps n) (teddyProbeAt db t mark buf pos scr) (teddyProbeAt db t mark buf pos scr')
      s := by
  have hshort : ∀ {scr scr' : TeddyScratch} {u : σ}, SameStamps n scr scr' →
      Agree (SameStamps n)
        (if t.nShort ≠ 0 then
          teddyWalk db t mark buf (buf.length - pos) pos t.fp2Next t.nNeedles
            (t.fp2Head (teddyHash (teddyFp16 (buf.getD (pos + 0) 0) (buf.getD (pos + 1) 0)))) scr
        else pure scr)
        (if t.nShort ≠ 0 then
          teddyWalk db t mark buf (buf.length - pos) pos t.fp2Next t.nNeedles
            (t.fp2Head (teddyHash (teddyFp16 (buf.getD (pos + 0) 0) (buf.getD (pos + 1) 0)))) scr'
        else pure scr') u := by
    intro scr scr' u h
    split
    · exact teddyWalk_agree h _ _ _ _ _
    · exact Agree.pure h
  unfold teddyProbeAt
  dsimp only
  split
  · exact (teddyWalk_agree h _ _ _ _ _).bind fun _ _ _ h' => hshort h'
  · exact (Agree.pure h).bind fun _ _ _ h' => hshort h'

/-! ### Nothing is met -/

/-- Trying a needle that is not met. -/
theorem teddyTry_idle (hdb : db.Valid) {pos k : ℕ} (hk : k < db.litndl.length)
    (hcells : scr.ndlGen.length = db.litndl.length) (hnot : ¬ Meets db t buf pos k) :
    Runs (teddyTry db t mark buf (buf.length - pos) pos k scr) s fun scr' u =>
      u = s ∧ SameStamps db.litndl.length scr' scr := by
  have hsame : SameStamps db.litndl.length { scr with chainSteps := scr.chainSteps + 1 } scr :=
    ⟨rfl, rfl, hcells⟩
  have hn : db.litndl[k]? = some db.litndl[k] := List.getElem?_eq_getElem hk
  have hcell : k < scr.ndlGen.length := hcells.symm ▸ hk
  unfold teddyTry
  refine runs_tableAt (List.getElem?_eq_getElem hcell) ?_
  split
  · exact Runs.pure ⟨rfl, hsame⟩
  · refine runs_tableAt hn ?_
    split
    · exact Runs.pure ⟨rfl, hsame⟩
    · rename_i hlen
      split
      · exact Runs.pure ⟨rfl, hsame⟩
      · rename_i hc2
        refine runs_poolStr (hdb.ndlInPool _ (List.getElem_mem hk)) ?_
        split
        · rename_i heq
          refine absurd ⟨_, hn, Nat.le_of_not_lt hlen, ?_, heq⟩ hnot
          by_cases hno : t.fpC2 k = teddyNoC2
          · exact .inl hno
          · exact .inr (not_not.mp fun hne => hc2 ⟨hno, hne⟩)
        · exact Runs.pure ⟨rfl, hsame⟩

/-- Walking a chain none of whose needles is met. -/
theorem teddyWalk_idle (hdb : db.Valid) (hcount : db.litndl.length < 2 ^ 32) {pos : ℕ}
    {next : ℕ → UInt32} {l : List ℕ} {fuel : ℕ} {head : UInt32}
    (hlist : Threaded chainEnd UInt32.ofNat next head l) (hfuel : l.length ≤ fuel)
    (hin : ∀ k ∈ l, k < db.litndl.length) (hcells : scr.ndlGen.length = db.litndl.length)
    (hnot : ∀ k ∈ l, ¬ Meets db t buf pos k) :
    Runs (teddyWalk db t mark buf (buf.length - pos) pos next fuel head scr) s fun scr' u =>
      u = s ∧ SameStamps db.litndl.length scr' scr := by
  induction l generalizing fuel head scr with
  | nil =>
    rw [teddyWalk_end hlist]
    exact Runs.pure ⟨rfl, rfl, rfl, hcells⟩
  | cons k l ih =>
    obtain ⟨rfl, hstop, hrest⟩ := hlist
    have hk : k < db.litndl.length := hin k (by simp)
    obtain ⟨fuel, rfl⟩ : ∃ f, fuel = f + 1 :=
      Nat.exists_eq_succ_of_ne_zero (by rw [List.length_cons] at hfuel; omega)
    have hfuel' : l.length ≤ fuel := by
      rw [List.length_cons] at hfuel
      omega
    rw [teddyWalk_link (hk.trans hcount) hstop]
    refine (teddyTry_idle hdb hk hcells (hnot k (by simp))).bind ?_
    rintro scr₁ u ⟨rfl, hcells₁, hgen₁, -⟩
    have hwalk : Runs (teddyWalk db t mark buf (buf.length - pos) pos next fuel (next k) scr₁) u
        fun scr' v => v = u ∧ SameStamps db.litndl.length scr' scr₁ :=
      ih hrest hfuel' (fun j hj => hin j (by simp [hj])) (by rw [hcells₁, hcells])
        fun j hj => hnot j (by simp [hj])
    refine hwalk.mono ?_
    rintro scr' v ⟨hv, hc, hg, -⟩
    exact ⟨hv, hc.trans hcells₁, hg.trans hgen₁, hcells⟩

/-- Probing a position where nothing is met. -/
theorem teddyProbeAt_idle (ht : Scannable db ids t) {pos : ℕ}
    (hcells : scr.ndlGen.length = db.litndl.length) (hnot : ∀ k, ¬ Probed db t ids buf pos k) :
    Runs (teddyProbeAt db t mark buf pos scr) s fun scr' u =>
      u = s ∧ SameStamps db.litndl.length scr' scr := by
  have hchain : ∀ {hash : ℕ → Option UInt32} {h : UInt32}, ∀ k ∈ chainOf hash ids h,
      k < db.litndl.length := fun k hk => ht.inRange k (mem_chainOf.mp hk).1
  have hshort : ∀ scr₁ : TeddyScratch, scr₁.ndlGen.length = db.litndl.length →
      Runs (if t.nShort ≠ 0 then
          teddyWalk db t mark buf (buf.length - pos) pos t.fp2Next t.nNeedles
            (t.fp2Head (teddyHash (teddyFp16 (buf.getD (pos + 0) 0) (buf.getD (pos + 1) 0)))) scr₁
        else pure scr₁) s fun scr' u => u = s ∧ SameStamps db.litndl.length scr' scr₁ := by
    intro scr₁ hcells₁
    split
    · refine teddyWalk_idle ht.valid ht.count (ht.teddyFor.short _) (ht.length_chainOf_le _) hchain
        hcells₁ fun k hk hmeets => ?_
      obtain ⟨hmem, hhash⟩ := mem_chainOf.mp hk
      exact hnot k ⟨hmem, hmeets, .inr hhash⟩
    · exact Runs.pure ⟨rfl, rfl, rfl, hcells₁⟩
  unfold teddyProbeAt
  dsimp only
  split
  · rename_i hlong
    refine (teddyWalk_idle ht.valid ht.count (ht.teddyFor.long _) (ht.length_chainOf_le _) hchain
      hcells fun k hk hmeets => ?_).bind ?_
    · obtain ⟨hmem, hhash⟩ := mem_chainOf.mp hk
      exact hnot k ⟨hmem, hmeets, .inl ⟨hlong, hhash⟩⟩
    rintro scr₁ u ⟨rfl, hcells₁, hgen₁, -⟩
    exact (hshort scr₁ (by rw [hcells₁, hcells])).mono fun _ _ ⟨hu, hc, hg, _⟩ =>
      ⟨hu, hc.trans hcells₁, hg.trans hgen₁, hcells⟩
  · rw [pure_bind]
    exact hshort scr hcells

/-- **Skipping positions where nothing is met changes the step counter only.** -/
theorem teddyScan_skip (ht : Scannable db ids t) {poss : List ℕ} {keep : ℕ → Bool}
    (hskip : ∀ pos ∈ poss, keep pos = false → ∀ k, ¬ Probed db t ids buf pos k)
    (h : SameStamps db.litndl.length scr scr') :
    Agree (SameStamps db.litndl.length) (teddyScan db t mark buf poss scr)
      (teddyScan db t mark buf (poss.filter keep) scr') s := by
  induction poss generalizing scr scr' s with
  | nil => exact Agree.pure h
  | cons pos poss ih =>
    have hrest := fun pos hpos => hskip pos (List.mem_cons_of_mem _ hpos)
    rw [List.filter_cons]
    cases hkeep : keep pos with
    | true =>
      exact (teddyProbeAt_agree h pos).bind fun _ _ _ h' => ih hrest h'
    | false =>
      have hcells : scr.ndlGen.length = db.litndl.length := h.1 ▸ h.2.2
      have hidle : Runs (teddyProbeAt db t mark buf pos scr) s fun scr₁ u =>
          u = s ∧ SameStamps db.litndl.length scr₁ scr' :=
        (teddyProbeAt_idle ht hcells (hskip pos List.mem_cons_self hkeep)).mono
          fun _ _ ⟨hu, hc, hg, _⟩ => ⟨hu, hc.trans h.1, hg.trans h.2.1, h.2.2⟩
      have hbind : Agree (SameStamps db.litndl.length)
          (teddyProbeAt db t mark buf pos scr >>= teddyScan db t mark buf poss)
          (pure scr' >>= teddyScan db t mark buf (poss.filter keep)) s :=
        (Agree.of_runs hidle).bind fun _ _ _ h' => ih hrest h'
      rwa [pure_bind] at hbind

/-! ### The blocks the SIMD loop skips

Which positions the two loops probe, as lists in order: the SIMD loop leaves out blocks, and no
needle begins in a block that it leaves out. -/

/-- A position of a block that is not skipped. -/
theorem bounds_of_mem_chunk {t : SigmaTeddy} {j last x : ℕ}
    (h : x ∈ if teddyChunkInteresting t (slice buf (16 * j) 16) then
      ((List.range 16).map (16 * j + ·)).filter (· < last) else []) :
    16 * j ≤ x ∧ x < 16 * (j + 1) ∧ x < last := by
  split at h
  · obtain ⟨hmem, hlast⟩ := List.mem_filter.mp h
    obtain ⟨i, hi, rfl⟩ := List.mem_map.mp hmem
    have hi16 := List.mem_range.mp hi
    have hlt := of_decide_eq_true hlast
    omega
  · exact absurd h List.not_mem_nil

theorem bounds_of_mem_chunks {t : SigmaTeddy} {n last x : ℕ}
    (h : x ∈ (List.range n).flatMap fun j =>
      if teddyChunkInteresting t (slice buf (16 * j) 16) then
        ((List.range 16).map (16 * j + ·)).filter (· < last) else []) :
    x < 16 * n ∧ x < last := by
  obtain ⟨j, hj, hx⟩ := List.mem_flatMap.mp h
  have hjn := List.mem_range.mp hj
  have hbounds := bounds_of_mem_chunk hx
  omega

/-- The positions are probed from left to right. -/
theorem pairwise_teddyPositions (t : SigmaTeddy) (simd : Bool) (buf : Bytes) :
    (teddyPositions t simd buf).Pairwise (· < ·) := by
  unfold teddyPositions
  dsimp only
  rw [List.pairwise_append]
  refine ⟨List.pairwise_flatMap.mpr ⟨fun j _ => ?_, ?_⟩, List.pairwise_lt_range', ?_⟩
  · split
    · refine List.Pairwise.filter _ (List.pairwise_map.mpr ?_)
      exact List.pairwise_lt_range.imp fun hlt => Nat.add_lt_add_left hlt _
    · exact List.Pairwise.nil
  · refine List.pairwise_lt_range.imp fun hlt x hx y hy => ?_
    have hx' := bounds_of_mem_chunk hx
    have hy' := bounds_of_mem_chunk hy
    omega
  · intro x hx y hy
    have hx' := bounds_of_mem_chunks hx
    have hy' := List.mem_range'_1.mp hy
    omega

theorem mem_teddyPositions_false {pos : ℕ} :
    pos ∈ teddyPositions t false buf ↔ pos < buf.length - 1 := by
  simp [teddyPositions]

/-- The SIMD loop probes some of the positions of the scalar loop, in the same order. -/
theorem teddyPositions_true :
    teddyPositions t true buf =
      (teddyPositions t false buf).filter fun pos => decide (pos ∈ teddyPositions t true buf) := by
  refine (pairwise_teddyPositions t true buf).eq_of_mem_iff
    ((pairwise_teddyPositions t false buf).filter _) fun pos => ?_
  rw [List.mem_filter, decide_eq_true_eq]
  refine ⟨fun h => ⟨mem_teddyPositions_false.mpr ?_, h⟩, fun h => h.2⟩
  unfold teddyPositions at h
  rcases List.mem_append.mp h with hchunk | htail
  · exact (bounds_of_mem_chunks hchunk).2
  · have hbounds := List.mem_range'_1.mp htail
    omega

/-- A block is skipped only when no needle of two bytes starts in it. -/
theorem not_probed_of_skipped (ht : Scannable db ids t)
    (htwo : ∀ s ∈ db.litndl, 2 ≤ s.len.toNat) {pos : ℕ}
    (hpos : pos ∈ teddyPositions t false buf) (hskip : pos ∉ teddyPositions t true buf) (k : ℕ) :
    ¬ Probed db t ids buf pos k := by
  rintro ⟨hk, ⟨n, hn, hlen, -, heq⟩, -⟩
  have hmem := List.mem_of_getElem? hn
  have hpool := ht.valid.ndlInPool n hmem
  have hn2 := htwo n hmem
  have hlast := mem_teddyPositions_false.mp hpos
  have hfirst := (teddyEqCi_iff.mp heq).2 0 (by rw [length_str hpool]; omega)
  rw [getD_str hpool (by omega), Nat.add_zero, List.getD_eq_getElem?_getD, List.getElem?_drop,
    Nat.add_zero, ← List.getD_eq_getElem?_getD] at hfirst
  exact hskip (mem_teddyPositions (by omega) (ht.teddyFor.marked k hk n hn _ hfirst))

end Skip

/-! ## The marks of a scan

With a callback that writes down what it is given.  Exactness is then a statement about a list: no
duplicates, these elements, the same for both loops. -/

/-- The callback that records the needles it is given, in order. -/
def recordMark (k : ℕ) : StateT (List ℕ) (Except Fault) PUnit := modifyState (· ++ [k])

section Exact

variable {db : SigmaDb} {ids : List ℕ} {t : SigmaTeddy} {scr : TeddyScratch}

/-- The recorded needles are those the scan confirms. -/
theorem marks_recordMark (db : SigmaDb) : Marks db recordMark fun done marks => marks = done := by
  rintro done k _ - - rfl
  exact Runs.modify rfl

/-- **The marks of a scan.**  Each chained needle that occurs in the text is marked exactly once, no
other needle is marked, and the blocks that the SIMD loop skips make no difference. -/
theorem teddyConfirm_exact (hdb : NeedleTable db) (ht : TeddyBuilt db ids t)
    (hscr : ScratchLeft db.litndl.length scr) (buf : Bytes) :
    ∃ marks : List ℕ, marks.Nodup ∧
      (∀ k, k ∈ marks ↔ k ∈ ids ∧ ∃ n, db.litndl[k]? = some n ∧ OccursCi buf (db.str n)) ∧
      ∀ simd, ∃ scr', (teddyConfirm db t recordMark simd buf scr).run [] = .ok (scr', marks) := by
  have hscan := ht.scannable hdb
  obtain ⟨hcells, hbounded⟩ := hscr.ready
  by_cases hlen : 2 ≤ buf.length
  · have hready : ScratchReady db.needlesOnly scr := ⟨hcells, hbounded⟩
    have hruns := teddyConfirm_runs (s := []) hscan (marks_recordMark _) false hready ht.ne_nil
      hlen rfl
    rw [teddyConfirm_needlesOnly] at hruns
    obtain ⟨scr', marks, hrun, -, done, hnodup, rfl, hmem⟩ := hruns
    refine ⟨marks, hnodup, fun k => ?_, fun simd => ?_⟩
    · rw [hmem]
      constructor
      · rintro ⟨pos, hpos, hprobed⟩
        obtain ⟨n, hn, -⟩ := hprobed.2.1
        have htwo := hdb.twoBytes n (List.mem_of_getElem? hn)
        exact ⟨hprobed.1, n, hn, (probed_iff_occurs hscan false hn hprobed.1 htwo).mp
          ⟨pos, hpos, hprobed⟩⟩
      · rintro ⟨hk, n, hn, hocc⟩
        have htwo := hdb.twoBytes n (List.mem_of_getElem? hn)
        exact (probed_iff_occurs hscan false hn hk htwo).mpr hocc
    · cases simd with
      | false => exact ⟨scr', hrun⟩
      | true =>
        have hne : ¬ (buf.length < 2 ∨ scr.ndlGen = []) := by
          rintro (hshort | hempty)
          · omega
          · rw [hempty] at hcells
            exact ht.ne_nil (List.eq_nil_of_length_eq_zero hcells.symm)
        rw [teddyConfirm, if_neg hne, ← teddyScan_needlesOnly] at hrun ⊢
        have hsame : SameStamps db.litndl.length (sigmaTeddyScratchNext scr)
            (sigmaTeddyScratchNext scr) := ⟨rfl, rfl, (length_nextCells _ _).trans hcells⟩
        have hskip : Agree (SameStamps db.litndl.length)
            (teddyScan db.needlesOnly t recordMark buf (teddyPositions t false buf)
              (sigmaTeddyScratchNext scr))
            (teddyScan db.needlesOnly t recordMark buf ((teddyPositions t false buf).filter
              fun pos => decide (pos ∈ teddyPositions t true buf)) (sigmaTeddyScratchNext scr)) [] :=
          teddyScan_skip hscan (fun pos hpos hkeep => not_probed_of_skipped hscan hdb.twoBytes hpos
            (of_decide_eq_false hkeep)) hsame
        rw [← teddyPositions_true] at hskip
        obtain ⟨scr'', hrun', -⟩ := hskip.run_ok hrun
        exact ⟨scr'', hrun'⟩
  · refine ⟨[], List.nodup_nil, fun k => ?_, fun simd => ⟨scr, ?_⟩⟩
    · refine iff_of_false List.not_mem_nil ?_
      rintro ⟨-, n, hn, hocc⟩
      have hmem := List.mem_of_getElem? hn
      have hle := hocc.length_le
      rw [length_str (hdb.inPool n hmem)] at hle
      have htwo := hdb.twoBytes n hmem
      omega
    · rw [teddyConfirm, if_pos (.inl (Nat.lt_of_not_le hlen))]
      rfl

end Exact

/-- The matcher of the small artifact, whose needle is `xy`, on the text `XxY`. -/
theorem teddyConfirm_exact_sample :
    ∃ db t, sigmaDbLoadBuffer samplePlatform (sigmaDbSerialize sampleTables) = .ok db ∧
      db.teddy = some t ∧ ∃ marks : List ℕ, marks.Nodup ∧ 0 ∈ marks ∧
        ∀ simd, ∃ scr', (teddyConfirm db t recordMark simd [88, 120, 89]
          (sigmaTeddyScratchInit db.litndl.length)).run [] = .ok (scr', marks) := by
  obtain ⟨db, hload, hsame⟩ := load_sample
  have hloaded := loaded_of_loadBuffer hload
  have hneedles : NeedleTable db := by
    refine ⟨hloaded.countNdl, hloaded.valid.ndlInPool, ?_⟩
    rw [hsame.litndl]
    decide
  obtain ⟨t, hbuilt⟩ : ∃ t, sigmaTeddyBuild db.litndl db.byte = some t := by
    rw [sigmaTeddyBuild, if_neg (by rw [hsame.litndl]; exact List.cons_ne_nil _ _)]
    exact ⟨_, rfl⟩
  obtain ⟨marks, hnodup, hmem, hrun⟩ :=
    teddyConfirm_exact hneedles (.build hbuilt) .init [88, 120, 89]
  refine ⟨db, t, hload, hloaded.teddy.trans hbuilt, marks, hnodup, (hmem 0).mpr ⟨?_, ?_⟩, hrun⟩
  · rw [hsame.litndl]
    decide
  · refine ⟨⟨2, 2⟩, by rw [hsame.litndl]; rfl, 1, ?_⟩
    rw [hsame.str]
    decide

end LibSigma
