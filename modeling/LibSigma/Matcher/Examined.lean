import LibSigma.Matcher.Run

/-!
# How many chain entries the prefilter examines

A walk does not stop at a needle it confirms, so the number of chain entries that a scan examines is
the total length of the chains it walks: a function of the tables and of the text.

## Why it is a function

The counter goes up at every entry looked at, before the test whether the needle is confirmed
already.  So what a scan examines does not depend on its stamps, nor on what the callback did.  It
does depend on the blocks that the SIMD loop skips, and the platform is an argument of the count.

## The counter is a total

`sigma_teddy_scratch_t` keeps its count of steps for its whole life, and the prefilter copies that
into the statistics.  So the statistics hold the total since the scratch was created, and what one
run adds is a difference.  `prefilterCandidates_entries` states both: what is added to the count of
the scan scratch, and what is copied.  Whether the copy still covers the work after a reset is asked
in `LibSigma.Matcher.Stats`.

* `entriesAt`, `scanEntries`, `fieldEntries`, `runEntries`: that number for a probe, for a scan, for
  a field and for an evaluation.
* `teddyConfirm_entries`: **a scan adds that number to its counter.**
* `prefilterCandidates_entries`: so does the prefilter, which then copies the counter.
-/

namespace LibSigma

open Library

/-! ## The numbers -/

/-- The entries on the chains that the probe at `pos` walks. -/
def entriesAt (db : SigmaDb) (ids : List ℕ) (buf : Bytes) (pos : ℕ) : ℕ :=
  (if 3 ≤ buf.length - pos then
    (chainOf (longHash db.litndl db.byte) ids (teddyHash (teddyFp24
      (buf.getD (pos + 0) 0) (buf.getD (pos + 1) 0) (buf.getD (pos + 2) 0)))).length
  else 0) +
    (chainOf (shortHash db.litndl db.byte) ids (teddyHash (teddyFp16
      (buf.getD (pos + 0) 0) (buf.getD (pos + 1) 0)))).length

/-- The entries that a scan examines. -/
def scanEntries (db : SigmaDb) (ids : List ℕ) (t : SigmaTeddy) (simd : Bool) (buf : Bytes) : ℕ :=
  ((teddyPositions t simd buf).map (entriesAt db ids buf)).sum

section Numbers

variable (pf : Platform) (db : SigmaDb) (ev : Event)

/-- The entries that the scan of field `f` examines. -/
def fieldEntries (buckets : List ℕ) (f : ℕ) : ℕ :=
  if scanField db buckets f then
    match db.teddy.bind fun t => fieldMatcher db t f, fieldValue db ev f.toUInt16.toNat with
    | some tf, some v =>
      if v.length < 2 then 0 else scanEntries db (needleIds db f) tf pf.simd v
    | _, _ => 0
  else 0

/-- The entries that `sigma_eval_run` examines in prefilter mode `mode`. -/
def runEntries (mode : Int) : ℕ :=
  if PrefilterRuns db ev mode then
    ((List.range db.fields.length).map (fieldEntries pf db ev (bucketSel db ev))).sum
  else 0

end Numbers

/-! ## Scans -/

section Scan

variable {σ : Type} {db : SigmaDb} {t : SigmaTeddy} {mark : ℕ → StateT σ (Except Fault) PUnit}
  {buf : Bytes} {ids : List ℕ} {scr : TeddyScratch} {s : σ}

/-- The scratch of a scan that has examined `n` more entries. -/
def Examined (scr : TeddyScratch) (n : ℕ) (scr' : TeddyScratch) : Prop :=
  scr'.chainSteps = scr.chainSteps + n ∧ scr'.ndlGen.length = scr.ndlGen.length

theorem Examined.trans {n n' : ℕ} {scr' scr'' : TeddyScratch} (h : Examined scr n scr')
    (h' : Examined scr' n' scr'') : Examined scr (n + n') scr'' :=
  ⟨by rw [h'.1, h.1, Nat.add_assoc], h'.2.trans h.2⟩

/-- An entry counts whether or not its needle is confirmed. -/
theorem teddyTry_entries (avail pos k : ℕ) :
    Ensures (teddyTry db t mark buf avail pos k scr) s fun scr' _ => Examined scr 1 scr' := by
  have hmiss : Examined scr 1 { scr with chainSteps := scr.chainSteps + 1 } := ⟨rfl, rfl⟩
  refine Ensures.any_bind fun g u => ?_
  split
  · exact Ensures.pure hmiss
  · refine Ensures.any_bind fun n u => ?_
    split
    · exact Ensures.pure hmiss
    · split
      · exact Ensures.pure hmiss
      · refine Ensures.any_bind fun ndl u => ?_
        split
        · exact Ensures.any_bind fun _ u => Ensures.pure ⟨rfl, List.length_set⟩
        · exact Ensures.pure hmiss

/-- A walk examines its whole chain. -/
theorem teddyWalk_entries (hcount : db.litndl.length < 2 ^ 32) {avail pos : ℕ}
    {next : ℕ → UInt32} {l : List ℕ} {fuel : ℕ} {head : UInt32}
    (hlist : Threaded chainEnd UInt32.ofNat next head l) (hin : ∀ k ∈ l, k < db.litndl.length) :
    Ensures (teddyWalk db t mark buf avail pos next fuel head scr) s
      fun scr' _ => Examined scr l.length scr' := by
  induction l generalizing fuel head scr s with
  | nil =>
    rw [teddyWalk_end hlist]
    exact Ensures.pure ⟨rfl, rfl⟩
  | cons k l ih =>
    obtain ⟨rfl, hstop, hrest⟩ := hlist
    cases fuel with
    | zero =>
      rw [teddyWalk.eq_def]
      dsimp only
      rw [if_neg hstop]
      exact Ensures.throw
    | succ fuel =>
      rw [teddyWalk_link ((hin k List.mem_cons_self).trans hcount) hstop]
      refine (teddyTry_entries avail pos k).bind fun scr₁ u h₁ => ?_
      refine (ih hrest fun j hj => hin j (List.mem_cons_of_mem _ hj)).mono fun scr₂ _ h₂ => ?_
      rw [List.length_cons, Nat.add_comm]
      exact h₁.trans h₂

theorem teddyProbeAt_entries (ht : Scannable db ids t) (pos : ℕ) :
    Ensures (teddyProbeAt db t mark buf pos scr) s
      fun scr' _ => Examined scr (entriesAt db ids buf pos) scr' := by
  have hchain : ∀ {hash : ℕ → Option UInt32} {h : UInt32}, ∀ k ∈ chainOf hash ids h,
      k < db.litndl.length := fun k hk => ht.inRange k (mem_chainOf.mp hk).1
  have hshort : ∀ scr₁ u, Ensures (if t.nShort ≠ 0 then
        teddyWalk db t mark buf (buf.length - pos) pos t.fp2Next t.nNeedles
          (t.fp2Head (teddyHash (teddyFp16 (buf.getD (pos + 0) 0) (buf.getD (pos + 1) 0)))) scr₁
      else pure scr₁) u fun scr' _ => Examined scr₁
        (chainOf (shortHash db.litndl db.byte) ids (teddyHash (teddyFp16
          (buf.getD (pos + 0) 0) (buf.getD (pos + 1) 0)))).length scr' := by
    intro scr₁ u
    split
    · exact teddyWalk_entries ht.count (ht.teddyFor.short _) hchain
    · rename_i hnone
      -- a matcher without short needles chains none
      have hempty : chainOf (shortHash db.litndl db.byte) ids (teddyHash (teddyFp16
          (buf.getD (pos + 0) 0) (buf.getD (pos + 1) 0))) = [] := by
        refine List.eq_nil_iff_forall_not_mem.mpr fun k hk => ?_
        obtain ⟨hids, hhash⟩ := mem_chainOf.mp hk
        exact hnone (ht.teddyFor.nShort k hids (by rw [hhash]; simp))
      rw [hempty]
      exact Ensures.pure ⟨rfl, rfl⟩
  unfold teddyProbeAt entriesAt
  dsimp only
  split
  · refine (teddyWalk_entries ht.count (ht.teddyFor.long _) hchain).bind fun scr₁ u h₁ => ?_
    exact (hshort scr₁ u).mono fun scr₂ _ h₂ => h₁.trans h₂
  · rw [pure_bind, Nat.zero_add]
    exact hshort scr s

theorem teddyScan_entries (ht : Scannable db ids t) (poss : List ℕ) :
    Ensures (teddyScan db t mark buf poss scr) s
      fun scr' _ => Examined scr (poss.map (entriesAt db ids buf)).sum scr' := by
  induction poss generalizing scr s with
  | nil => exact Ensures.pure ⟨rfl, rfl⟩
  | cons pos poss ih =>
    refine (teddyProbeAt_entries ht pos).bind fun scr₁ u h₁ => ih.mono fun scr₂ _ h₂ => ?_
    rw [List.map_cons, List.sum_cons]
    exact h₁.trans h₂

/-- **A scan adds to its counter the number of entries on the chains it walks.** -/
theorem teddyConfirm_entries (ht : Scannable db ids t) (simd : Bool) (hbuf : ¬ buf.length < 2)
    (hscr : scr.ndlGen ≠ []) :
    Ensures (teddyConfirm db t mark simd buf scr) s
      fun scr' _ => Examined scr (scanEntries db ids t simd buf) scr' := by
  unfold teddyConfirm
  rw [if_neg (by simp [hbuf, hscr])]
  refine (teddyScan_entries ht _).mono fun scr' _ h => ?_
  exact ⟨h.1, h.2.trans (length_nextCells _ _)⟩

end Scan

/-! ## The prefilter -/

section Prefilter

variable {pf : Platform} {db : SigmaDb} {ev : Event} {e : SigmaEval} {buckets : List ℕ}

/-- What reads the event and leaves the scan scratch alone. -/
def readFrame (db : SigmaDb) (ev : Event) : Frame SigmaEval where
  inv e := MemoOk db ev e
  keeps s t := t.tscr = s.tscr
  refl _ := rfl
  trans _ _ _ hst htu := htu.trans hst

theorem resolveField_readFrame (hdb : db.Valid) (f : UInt16) :
    Keeps (readFrame db ev) (resolveField db ev f) := by
  intro e he
  refine (Ensures.of_runs (resolveField_yields hdb f e he)).mono ?_
  rintro _ t ⟨-, ht, hfrozen⟩
  have htscr : t.frozen.tscr = e.frozen.tscr := congrArg SigmaEval.tscr hfrozen
  exact ⟨ht, htscr⟩

theorem skipsMasks_readFrame : SkipsMasks (readFrame db ev) :=
  fun _ _ _ he => ⟨he.of_memo_eq rfl, rfl⟩

theorem markPostings_readFrame (k : ℕ) : Keeps (readFrame db ev) (markPostings db k) :=
  markPostings_keeps skipsMasks_readFrame (fun _ _ he => ⟨he.of_memo_eq rfl, rfl⟩) k

/-- The scan of a field. -/
theorem scanOneField_entries (hdb : db.Loaded) {t : SigmaTeddy} (ht : db.teddy = some t) {f : ℕ}
    (he : MemoOk db ev e) (hscr : e.tscr.ndlGen ≠ []) :
    Ensures (scanOneField pf db ev t buckets f) e fun _ e' =>
      MemoOk db ev e' ∧ Examined e.tscr (fieldEntries pf db ev buckets f) e'.tscr := by
  unfold scanOneField fieldEntries
  rw [ht, Option.bind_some]
  cases scanField db buckets f with
  | false => exact Ensures.pure ⟨he, rfl, rfl⟩
  | true =>
    cases htf : fieldMatcher db t f with
    | none => exact Ensures.pure ⟨he, rfl, rfl⟩
    | some tf =>
      refine (Ensures.of_runs (resolveField_yields hdb.valid f.toUInt16 e he)).bind ?_
      rintro _ e₁ ⟨rfl, h₁, hfrozen⟩
      have hscr₁ : e₁.frozen.tscr = e.frozen.tscr := congrArg SigmaEval.tscr hfrozen
      change e₁.tscr = e.tscr at hscr₁
      cases fieldValue db ev f.toUInt16.toNat with
      | none => exact Ensures.pure ⟨h₁, by rw [hscr₁]; exact ⟨rfl, rfl⟩⟩
      | some v =>
        simp only [if_true]
        split
        · exact Ensures.pure ⟨h₁, by rw [hscr₁]; exact ⟨rfl, rfl⟩⟩
        · rename_i hlen
          have hkeeps : Keeps (readFrame db ev)
              (teddyConfirm db tf (markPostings db) pf.simd v e₁.tscr) :=
            teddyConfirm_keeps markPostings_readFrame v pf.simd e₁.tscr
          have hmemo : MemoOk db ev { e₁ with
              curField := f.toUInt16, log := .scan f v.length :: e₁.log } := h₁.of_memo_eq rfl
          have hne : e₁.tscr.ndlGen ≠ [] := by rwa [hscr₁]
          refine Ensures.modify_bind (Ensures.get_bind (((hkeeps _ hmemo).and
            (teddyConfirm_entries (scannable_fieldMatcher hdb ht htf) pf.simd hlen hne)).bind ?_))
          rintro scr u ⟨⟨hu, -⟩, hexamined⟩
          rw [hscr₁] at hexamined
          exact Ensures.modify ⟨MemoOk.of_memo_eq hu rfl, hexamined⟩

/-- The scratch of the scans is allocated when there is something to scan for. -/
theorem scanScratch_ne_nil (hdb : db.Loaded) (h : ScratchOk db e) {t : SigmaTeddy}
    (ht : db.teddy = some t) (hmask : e.ruleMask ≠ []) : e.tscr.ndlGen ≠ [] := by
  have hpf : Prefilterable db := by
    by_contra hno
    have hlen := h.ruleMask
    rw [if_neg hno] at hlen
    exact hmask (List.eq_nil_of_length_eq_zero hlen)
  have hndl := hdb.litndl_ne_nil ht
  have hready := h.tscr hpf (by rw [ht]; rfl)
  rw [← List.length_pos_iff, hready.1, List.length_pos_iff]
  exact hndl

/-- **The prefilter** examines the entries of its fields, and copies the total since the scratch
was created. -/
theorem prefilterCandidates_entries (hdb : db.Loaded) (h : ScratchOk db e)
    (he : MemoOk db ev e) :
    Ensures (prefilterCandidates pf db ev buckets) e fun b e' =>
      b = true → e'.st.chainSteps = e'.tscr.chainSteps ∧
        e'.tscr.chainSteps = e.tscr.chainSteps +
          ((List.range db.fields.length).map (fieldEntries pf db ev buckets)).sum := by
  have hresolve : ∀ f, Keeps (readFrame db ev) (resolveField db ev f) :=
    resolveField_readFrame hdb.valid
  unfold prefilterCandidates
  refine Ensures.get_bind ?_
  split
  · exact Ensures.pure nofun
  rename_i hon
  split
  · exact Ensures.pure nofun
  refine (litav_keeps skipsMasks_readFrame e he).bind fun _ e₁ ⟨h₁, hscr₁⟩ => ?_
  refine (fwits_keeps hresolve skipsMasks_readFrame e₁ h₁).bind fun _ e₂ ⟨h₂, hscr₂⟩ => ?_
  have hscr₂ : e₂.tscr = e.tscr := hscr₂.trans hscr₁
  cases ht : db.teddy with
  | none =>
    refine Ensures.modify_bind (Ensures.pure fun _ => ⟨rfl, ?_⟩)
    have hzero : fieldEntries pf db ev buckets = fun _ => 0 := by
      funext f
      unfold fieldEntries
      rw [ht, Option.bind_none]
      split <;> rfl
    simp [hzero, hscr₂]
  | some t =>
    have hready : e.tscr.ndlGen ≠ [] := scanScratch_ne_nil hdb h ht fun hnil => hon (.inl hnil)
    -- after `f` fields their entries have been added
    refine Ensures.bind (Ensures.forRange (fun f e' => MemoOk db ev e' ∧ Examined e.tscr
      ((List.range f).map (fieldEntries pf db ev buckets)).sum e'.tscr) ?_ ?_) ?_
    · exact ⟨h₂, by rw [hscr₂]; exact ⟨rfl, rfl⟩⟩
    · rintro f e₃ - ⟨h₃, hexamined⟩
      have hne : e₃.tscr.ndlGen ≠ [] := by
        rw [← List.length_pos_iff, hexamined.2, List.length_pos_iff]
        exact hready
      refine (scanOneField_entries hdb ht h₃ hne).mono ?_
      rintro _ e₄ ⟨h₄, hstep⟩
      rw [List.range_succ, List.map_append, List.sum_append, List.map_singleton,
        List.sum_singleton]
      exact ⟨h₄, hexamined.trans hstep⟩
    · rintro _ e₃ ⟨-, hexamined⟩
      exact Ensures.modify_bind (Ensures.pure fun _ => ⟨rfl, hexamined.1⟩)

end Prefilter

end LibSigma
