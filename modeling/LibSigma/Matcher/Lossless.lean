import LibSigma.Matcher.Routing

/-!
# The prefilter loses nothing

When the literal index is sound, a rule that accepts an event is a candidate on it, so gating out
the other rules leaves every report as it is.

## Soundness of an index

The index is data.  It claims that certain rules cannot match unless certain literals occur, and
nothing in the loader or the matcher checks that.  So it is a hypothesis, in two parts.  `GateReady`
does not mention an event: rules without clauses are listed as always verified, needles are long
enough to be found, a posting names a field that its rule tests.  `IndexSound` is about the event at
hand: if a rule accepts it, each clause of the rule has a literal present or a witness that holds.
The second is what a compiler proves when it extracts literals, and is used at one event at a time.

## The three shortcuts

The prefilter skips a field that no selected bucket uses, scans a field with a matcher for its own
needles, and skips needles confirmed before in the same field.  Each could lose something.
`bucketUsesField_of_mem` is about the first: the field of a posting is one that its rule tests, and
the rule is in the bucket.  `exists_fieldMatcher` is about the second.  The third is exact by
`LibSigma.Matcher.TeddySpec`.

## The report

With every accepted rule a candidate, the visits that the gate drops are visits to rules that do not
fire, and the report of a list of visits is not changed by those.  Modes 0, 1 and 2 differ in when
the prefilter runs, and all three give the report of the scope.

* `GateReady`: what the index must provide whatever the event.
* `IndexSound`: on this event, an accepted rule has all its clauses witnessed.
* `bucketUsesField_of_mem`, `exists_fieldMatcher`: the per-bucket bitmaps and the per-field matchers
  leave out nothing that is needed.
* `candidate_of_accepted`: **an accepted rule of a selected bucket is a candidate.**
* `prefilter_is_invisible`: **one report for all prefilter modes.**
-/

namespace LibSigma

open Library

/-! ## The index -/

/-- The predicates of a rule: those of its selections. -/
def Tables.rulePreds (t : Tables) (r : SigmaRule) : List SigmaPred :=
  (slice t.sels r.selStart.toNat r.selCount.toNat).flatMap fun s =>
    slice t.preds s.predStart.toNat s.predCount.toNat

/-- Rules without clauses are always verified, needles have two bytes, and a scoped posting names
a field that its rule tests. -/
structure GateReady (db : SigmaDb) : Prop where
  unclaused : ∀ i < db.rules.length, db.clauses i = 0 → AlwaysVerified db i
  needles : ∀ s ∈ db.litndl, 2 ≤ s.len.toNat
  postField : ∀ k, ∀ r ∈ db.postings k, r.fieldId ≠ sigmaLitrefAnyField →
    ∃ rule, db.rules[r.ruleIdx.toNat]? = some rule ∧
      ∃ p ∈ db.rulePreds rule, p.fieldId = r.fieldId

/-- A needle posted for clause `c` of rule `i` occurs, case-insensitively, in the field the posting
names, or in some compiled field when it names none. -/
def NeedlePresent (db : SigmaDb) (ev : Event) (i c : ℕ) : Prop :=
  ∃ k n, db.litndl[k]? = some n ∧ ∃ r ∈ db.postings k,
    r.ruleIdx.toNat = i ∧ r.clauseIdx.toNat = c ∧
      ∃ f v, (r.fieldId = sigmaLitrefAnyField ∨ r.fieldId.toNat = f) ∧
        fieldValue db ev f = some v ∧ OccursCi v (db.str n)

/-- A field witness for clause `c` of rule `i` holds. -/
def WitnessHolds (pf : Platform) (db : SigmaDb) (ev : Event) (i c : ℕ) : Prop :=
  ∃ w ∈ db.fwit, w.ruleIdx.toNat = i ∧ w.clauseIdx.toNat = c ∧
    ∃ e, (fwitHolds pf db ev w).run (sigmaEvalCreate db) = .ok (true, e)

/-- Every clause of a rule that accepts the event is witnessed. -/
def IndexSound (pf : Platform) (db : SigmaDb) (ev : Event) : Prop :=
  ∀ i, RuleAccepted pf db ev i → ∀ c < db.clauses i,
    NeedlePresent db ev i c ∨ WitnessHolds pf db ev i c

/-! ## Bucket bitmaps -/

section Bitmaps

variable {db : SigmaDb}

/-- Bit `f` of the row that starts at byte `row`. -/
def rowBit (row : ℕ) (bm : Bytes) (f : ℕ) : Prop :=
  (bm.getD (row + f / 8) 0).toNat.testBit (f % 8) = true

theorem rowBit_iff {row f : ℕ} {bm : Bytes} :
    (bm.getD (row + f / 8) 0 >>> (f % 8).toUInt8) &&& 1 ≠ 0 ↔ rowBit row bm f := by
  have hmod : f % 8 < 8 := Nat.mod_lt _ (by decide)
  have hcast : (f % 8).toUInt8.toNat = f % 8 := by
    rw [Nat.toUInt8_eq, UInt8.toNat_ofNat']
    omega
  rw [rowBit, Nat.testBit_eq_decide_div_mod_eq, decide_eq_true_eq, ne_eq, ← UInt8.toNat_inj,
    UInt8.toNat_and, UInt8.toNat_shiftRight, hcast, Nat.mod_eq_of_lt hmod, UInt8.toNat_one,
    UInt8.toNat_zero, Nat.and_one_is_mod, Nat.shiftRight_eq_div_pow]
  omega

@[simp] theorem length_setRowBit (row : ℕ) (bm : Bytes) (f : ℕ) :
    (setRowBit row bm f).length = bm.length := by
  rw [setRowBit, List.length_modify]

/-- Setting a bit clears none. -/
theorem rowBit_setRowBit_of_rowBit {row row' f f' : ℕ} {bm : Bytes} (h : rowBit row bm f) :
    rowBit row (setRowBit row' bm f') f := by
  unfold rowBit at h ⊢
  rw [setRowBit, List.getD_eq_getElem?_getD, List.getElem?_modify]
  rw [List.getD_eq_getElem?_getD] at h
  cases hget : bm[row + f / 8]? with
  | none =>
    rw [hget] at h
    simp at h
  | some x =>
    rw [hget, Option.getD_some] at h
    rw [Option.map_eq_map, Option.map_some, Option.getD_some]
    split
    · rw [UInt8.toNat_or, Nat.testBit_or, h, Bool.true_or]
    · exact h

theorem rowBit_setRowBit_self {row f : ℕ} {bm : Bytes} (h : row + f / 8 < bm.length) :
    rowBit row (setRowBit row bm f) f := by
  have hmod : f % 8 < 8 := Nat.mod_lt _ (by decide)
  have hcast : (f % 8).toUInt8.toNat = f % 8 := by
    rw [Nat.toUInt8_eq, UInt8.toNat_ofNat']
    omega
  have hpow : (1 <<< (f % 8).toUInt8 : UInt8).toNat = 2 ^ (f % 8) := by
    rw [UInt8.toNat_shiftLeft, hcast, UInt8.toNat_one, Nat.mod_eq_of_lt hmod, Nat.one_shiftLeft,
      Nat.mod_eq_of_lt]
    exact Nat.pow_lt_pow_right (by decide) hmod
  unfold rowBit
  rw [setRowBit, List.getD_eq_getElem?_getD, List.getElem?_modify, List.getElem?_eq_getElem h,
    Option.map_eq_map, Option.map_some, Option.getD_some, if_pos rfl, UInt8.toNat_or, hpow,
    Nat.testBit_or, Nat.testBit_two_pow_self, Bool.or_true]

theorem length_foldl_setRowBit (row : ℕ) (fs : List ℕ) (bm : Bytes) :
    (fs.foldl (setRowBit row) bm).length = bm.length := by
  induction fs generalizing bm with
  | nil => rfl
  | cons f fs ih => rw [List.foldl_cons, ih, length_setRowBit]

theorem rowBit_foldl_of_rowBit {row row' f : ℕ} {fs : List ℕ} {bm : Bytes} (h : rowBit row bm f) :
    rowBit row (fs.foldl (setRowBit row') bm) f := by
  induction fs generalizing bm with
  | nil => exact h
  | cons f' fs ih => exact ih (rowBit_setRowBit_of_rowBit h)

theorem rowBit_foldl_of_mem {row f : ℕ} {fs : List ℕ} {bm : Bytes} (hf : f ∈ fs)
    (h : row + f / 8 < bm.length) : rowBit row (fs.foldl (setRowBit row) bm) f := by
  induction fs generalizing bm with
  | nil => exact absurd hf List.not_mem_nil
  | cons f' fs ih =>
    rw [List.foldl_cons]
    rcases List.mem_cons.mp hf with rfl | hmem
    · exact rowBit_foldl_of_rowBit (rowBit_setRowBit_self h)
    · exact ih hmem (by rwa [length_setRowBit])

/-- The bitmap of every bucket has the fields of its rules. -/
theorem rowBit_bucketBitmap {t : Tables} {stride b f : ℕ} {bk : SigmaBucket}
    (hb : t.buckets[b]? = some bk) (hf : f ∈ t.bucketFieldIds bk) (hstride : f / 8 < stride) :
    rowBit (b * stride) (t.bucketBitmap stride) f := by
  have hlt := (List.getElem?_eq_some_iff.mp hb).1
  have hroom : b * stride + f / 8 < t.buckets.length * stride := by
    calc b * stride + f / 8 < b * stride + stride := Nat.add_lt_add_left hstride _
      _ = (b + 1) * stride := (Nat.succ_mul _ _).symm
      _ ≤ t.buckets.length * stride := Nat.mul_le_mul_right _ hlt
  have hmem : (bk, b) ∈ t.buckets.zipIdx := List.mem_zipIdx_iff_getElem?.mpr hb
  have hfold : ∀ (ps : List (SigmaBucket × ℕ)) (bm : Bytes),
      (∀ row, rowBit row bm f → rowBit row (ps.foldl (fun bm p =>
        (t.bucketFieldIds p.1).foldl (setRowBit (p.2 * stride)) bm) bm) f) ∧
      ((bk, b) ∈ ps → b * stride + f / 8 < bm.length → rowBit (b * stride) (ps.foldl (fun bm p =>
        (t.bucketFieldIds p.1).foldl (setRowBit (p.2 * stride)) bm) bm) f) := by
    intro ps
    induction ps with
    | nil => exact fun bm => ⟨fun _ h => h, fun h => absurd h List.not_mem_nil⟩
    | cons p ps ih =>
      intro bm
      refine ⟨fun row h => (ih _).1 row (rowBit_foldl_of_rowBit h), fun hin hlen => ?_⟩
      rcases List.mem_cons.mp hin with rfl | hin
      · exact (ih _).1 _ (rowBit_foldl_of_mem hf hlen)
      · exact (ih _).2 hin (by rwa [length_foldl_setRowBit])
  exact (hfold _ _).2 hmem (by rwa [List.length_replicate])

/-- A field that a rule of the bucket tests is a field of the bucket. -/
theorem mem_bucketFieldIds {b i : ℕ} {bk : SigmaBucket} (hb : db.buckets[b]? = some bk)
    (hi : i ∈ bucketRules db b) {r : SigmaRule} (hr : db.rules[i]? = some r) {p : SigmaPred}
    (hp : p ∈ db.rulePreds r) (hlt : p.fieldId.toNat < db.fields.length) :
    p.fieldId.toNat ∈ db.bucketFieldIds bk := by
  rw [bucketRules, hb] at hi
  obtain ⟨ri, hri, rfl⟩ := List.mem_map.mp hi
  rw [Tables.bucketFieldIds, List.mem_flatMap]
  refine ⟨ri, hri, ?_⟩
  rw [hr]
  dsimp only
  obtain ⟨s, hs, hps⟩ := List.mem_flatMap.mp hp
  exact List.mem_flatMap.mpr ⟨s, hs, List.mem_filterMap.mpr ⟨p, hps, if_pos hlt⟩⟩

/-- The bitmap of a bucket says so. -/
theorem bucketUsesField_of_mem (hdb : db.Loaded) (hfields : db.fields.length < 2 ^ 32 - 7) {b f : ℕ}
    {bk : SigmaBucket} (hb : db.buckets[b]? = some bk) (hf : f ∈ db.bucketFieldIds bk)
    (hlt : f < db.fields.length) : bucketUsesField db b f = true := by
  unfold bucketUsesField
  cases hbm : db.bucketFields with
  | none => rfl
  | some bm =>
    obtain ⟨hstride, rfl⟩ := hdb.bucketFields bm hbm
    have hsize : db.bucketFieldsStride.toNat = (db.fields.length + 7) / 8 := by
      rw [hstride, UInt32.toNat_div, UInt32.toNat_add, UInt32.toNat_ofNat']
      simp only [UInt32.reduceToNat]
      omega
    have hbit : rowBit _ (db.bucketBitmap db.bucketFieldsStride.toNat) f :=
      rowBit_bucketBitmap hb hf (by omega)
    have hlen : ¬ db.bucketKeys.length ≤ b := by
      have hlt' := (List.getElem?_eq_some_iff.mp hb).1
      rw [db.buckets_length] at hlt'
      omega
    dsimp only
    rw [if_neg hlen, decide_eq_true_eq]
    exact rowBit_iff.mpr hbit

end Bitmaps

/-! ## Matchers -/

section Matchers

variable {pf : Platform} {db : SigmaDb} {ev : Event}

/-- Needles give a matcher. -/
theorem exists_teddy (hdb : db.Loaded) {k : ℕ} {n : SigmaStr} (hn : db.litndl[k]? = some n) :
    ∃ t, db.teddy = some t := by
  have hne : db.litndl ≠ [] := List.ne_nil_of_mem (List.mem_of_getElem? hn)
  rw [hdb.teddy, sigmaTeddyBuild, if_neg hne]
  exact ⟨_, rfl⟩

/-- A needle posted to a field, or posted without one, is among the needles of the matcher that
scans the field. -/
theorem mem_needleIds_of_posted {k f : ℕ} (hk : k < db.litndl.length) {r : SigmaLitref}
    (hr : r ∈ db.postings k) (hfield : db.litAnyField = true ∨ r.fieldId.toNat = f) :
    k ∈ needleIds db f := by
  unfold needleIds
  split
  · exact List.mem_range.mpr hk
  · rename_i hscoped
    have hany : db.litAnyField ≠ true := by
      intro hany
      rw [hany] at hscoped
      exact hscoped rfl
    exact List.mem_filter.mpr ⟨List.mem_range.mpr hk, List.any_eq_true.mpr
      ⟨r, hr, beq_iff_eq.mpr (hfield.resolve_left hany)⟩⟩

/-- Where it has needles, a field has a matcher. -/
theorem exists_fieldMatcher (hdb : db.Loaded) (t : SigmaTeddy) {k f : ℕ}
    (hf : f < db.fields.length) (hk : k ∈ needleIds db f) :
    ∃ tf, fieldMatcher db t f = some tf := by
  unfold fieldMatcher
  unfold needleIds at hk
  cases hany : db.litAnyField with
  | true => exact ⟨t, rfl⟩
  | false =>
    cases hft : db.fieldTeddy with
    | none => exact ⟨t, rfl⟩
    | some arr =>
      rw [hany, hft] at hk
      have hmem : k ∈ db.fieldNeedles f := hk
      have hne : db.litndl ≠ [] := List.ne_nil_of_length_pos
        (Nat.zero_lt_of_lt (List.mem_range.mp (List.mem_filter.mp hmem).1))
      rw [if_neg (by decide)]
      dsimp only
      rw [hdb.fieldTeddy arr hft, List.getElem?_map, List.getElem?_range hf, Option.map_some,
        Option.join_some, sigmaTeddyBuildSubset, if_neg (not_or.mpr ⟨hne, List.ne_nil_of_mem hmem⟩)]
      exact ⟨_, rfl⟩

/-! ## Candidates -/

theorem fwitTrue_iff (hdb : db.Loaded) {w : SigmaFwit} :
    fwitTrue pf db ev w = true ↔
      ∃ e, (fwitHolds pf db ev w).run (sigmaEvalCreate db) = .ok (true, e) := by
  have hruns : Runs (fwitHolds pf db ev w) (sigmaEvalCreate db) _ :=
    fwitHolds_yields hdb.valid w _ (memoOk_create db ev)
  obtain ⟨b, e, hrun, rfl, -⟩ := hruns
  constructor
  · exact fun htrue => ⟨e, by rw [hrun, htrue]⟩
  · rintro ⟨e', hrun'⟩
    rw [hrun] at hrun'
    exact (Prod.mk.inj (Except.ok.inj hrun')).1

/-- An unscoped posting turns the per-field tables off. -/
theorem litAnyField_of_unscoped (hdb : db.Loaded) (hkeys : db.bucketKeys ≠ []) {k f : ℕ}
    {n : SigmaStr} (hn : db.litndl[k]? = some n) (hf : f < db.fields.length) {r : SigmaLitref}
    (hr : r ∈ db.postings k) (hany : r.fieldId = sigmaLitrefAnyField) : db.litAnyField = true := by
  by_contra hno
  have hscoped := hdb.postScoped (Bool.eq_false_iff.mpr hno) hkeys
    (List.ne_nil_of_length_pos (Nat.zero_lt_of_lt hf))
    (List.ne_nil_of_mem (List.mem_of_getElem? hn))
  exact hscoped r (Tables.mem_litpostRef_of_mem_postings hr) hany

/-- A field with a posting of a rule in a selected bucket is scanned. -/
theorem scanField_of_posted (hdb : db.Loaded) (hfields : db.fields.length ≤ 65536)
    (hready : GateReady db) {sel : List ℕ} {b : ℕ} (hb : b ∈ sel) {r : SigmaLitref} {k : ℕ}
    (hr : r ∈ db.postings k) (hi : r.ruleIdx.toNat ∈ bucketRules db b)
    (hany : db.litAnyField = true ∨ r.fieldId ≠ sigmaLitrefAnyField) {f : ℕ}
    (hlt : f < db.fields.length) (hnamed : db.litAnyField = true ∨ r.fieldId.toNat = f) :
    scanField db sel f = true := by
  unfold scanField
  split
  · rfl
  · rename_i hscoped
    have hno : ¬ db.litAnyField = true := by
      rw [Bool.or_eq_true, not_or] at hscoped
      exact hscoped.1
    obtain rfl := hnamed.resolve_left hno
    split
    · rfl
    · obtain ⟨rule, hrule, p, hp, hpf⟩ := hready.postField k r hr (hany.resolve_left hno)
      cases hbk : db.buckets[b]? with
      | none =>
        rw [bucketRules, hbk] at hi
        exact absurd hi List.not_mem_nil
      | some bk =>
        have hmem := mem_bucketFieldIds hbk hi hrule hp (by rwa [hpf])
        rw [hpf] at hmem
        exact List.any_eq_true.mpr
          ⟨b, hb, bucketUsesField_of_mem hdb (by omega) hbk hmem hlt⟩

/-- **An accepted rule of a selected bucket is a candidate.** -/
theorem candidate_of_accepted (hdb : db.Loaded) (hfields : db.fields.length ≤ 65536)
    (hkeys : db.bucketKeys ≠ []) (hready : GateReady db) (hsound : IndexSound pf db ev)
    {sel : List ℕ} {b i : ℕ} (hb : b ∈ sel) (hi : i ∈ bucketRules db b)
    (hacc : RuleAccepted pf db ev i) : Candidate pf db ev sel i := by
  have hlt : i < db.rules.length := by
    obtain ⟨r, hr, -⟩ := hacc
    exact (List.getElem?_eq_some_iff.mp hr).1
  rcases Nat.eq_zero_or_pos (db.clauses i) with hzero | hpos
  · exact .inl (hready.unclaused i hlt hzero)
  · refine .inr ⟨hpos, fun c hc => ?_⟩
    rcases hsound i hacc c hc with
      ⟨k, n, hn, r, hr, hri, hrc, f, v, hfield, hv, hocc⟩ | ⟨w, hw, hwi, hwc, hholds⟩
    · right
      have hf : f < db.fields.length := by
        by_contra hge
        rw [fieldValue, List.getElem?_eq_none (Nat.le_of_not_lt hge)] at hv
        exact absurd hv (by simp)
      have hcast : f.toUInt16.toNat = f := by
        rw [Nat.toUInt16_eq, UInt16.toNat_ofNat']
        omega
      have htwo := hready.needles n (List.mem_of_getElem? hn)
      have hlen : 2 ≤ v.length := by
        have hle := hocc.length_le
        rw [length_str (hdb.valid.ndlInPool n (List.mem_of_getElem? hn))] at hle
        omega
      have hany : db.litAnyField = true ∨ r.fieldId ≠ sigmaLitrefAnyField := by
        by_cases hunscoped : r.fieldId = sigmaLitrefAnyField
        · exact .inl (litAnyField_of_unscoped hdb hkeys hn hf hr hunscoped)
        · exact .inr hunscoped
      have hnamed : db.litAnyField = true ∨ r.fieldId.toNat = f :=
        hany.imp_right fun hscoped => hfield.resolve_left hscoped
      obtain ⟨t, ht⟩ := exists_teddy hdb hn
      have hk := mem_needleIds_of_posted (List.getElem?_eq_some_iff.mp hn).1 hr hnamed
      obtain ⟨tf, htf⟩ := exists_fieldMatcher hdb t hf hk
      have hscan : scanField db sel f = true :=
        scanField_of_posted hdb hfields hready hb hr (hri ▸ hi) hany hf hnamed
      have hmet : NeedleMet pf db f v k :=
        ⟨t, tf, ht, htf, (probed_iff_occurs (scannable_fieldMatcher hdb ht htf) pf.simd hn hk
          htwo).mpr hocc⟩
      have hcounts : r.fieldId = sigmaLitrefAnyField ∨ r.fieldId = f.toUInt16 :=
        hfield.imp_right fun heq => UInt16.toNat_inj.mp (heq.trans hcast.symm)
      exact ⟨f, hf, hscan, v, by rwa [hcast], hlen, k, hmet, r, hr, hcounts, hri, hrc⟩
    · exact .inl ⟨w, hw, (fwitTrue_iff hdb).mpr hholds, hwi, hwc⟩

open Classical in
/-- The report does not depend on the mode. -/
theorem runReport_eq (hdb : db.Loaded) (hfields : db.fields.length ≤ 65536)
    (hready : GateReady db) (hsound : IndexSound pf db ev) (mode maxHits : Int) :
    runReport pf db ev mode maxHits = runReport pf db ev 0 maxHits := by
  unfold runReport runVisits
  by_cases hfull : db.bucketKeys.length = 0 ∨ hasRoute db ev = false
  · rw [if_pos hfull, if_pos hfull]
  · have hkeys : db.bucketKeys ≠ [] := fun h => hfull (.inl (by rw [h]; rfl))
    have hoff : ¬ (isBig db 0 (bucketSel db ev) = true ∧ Prefilterable db ∧ (0 : Int) ≠ 0) :=
      fun h => h.2.2 rfl
    rw [if_neg hfull, if_neg hfull, if_neg hoff]
    dsimp only
    split
    · refine congrArg (reportOf db maxHits) (firedOf_filter fun i hi hacc => ?_)
      obtain ⟨b, hb, hib⟩ := List.mem_flatMap.mp hi
      exact decide_eq_true (candidate_of_accepted hdb hfields hkeys hready hsound hb hib
        ((ruleAccepts_iff hdb).mp hacc))
    · rfl

/-- **Prefilter on equals prefilter off.**  There is one report that `sigma_eval_run` returns for an
event, whatever the mode of its scratch. -/
theorem prefilter_is_invisible {buf : Bytes} (hload : sigmaDbLoadBuffer pf buf = .ok db)
    (hfields : db.fields.length ≤ 65536) (hready : GateReady db) (ev : Event)
    (hsound : IndexSound pf db ev) (maxHits : Int) :
    ∃ rep, ∀ e, Reached pf db e → ∃ e', (sigmaEvalRun pf db ev maxHits).run e = .ok (rep, e') := by
  have hdb := loaded_of_loadBuffer hload
  refine ⟨runReport pf db ev 0 maxHits, fun e he => ?_⟩
  have hruns : Runs (sigmaEvalRun pf db ev maxHits) e _ :=
    sigmaEvalRun_runs hdb (he.scratchOk hdb).1
  obtain ⟨rep, e', hrun, hrep, -⟩ := hruns
  exact ⟨e', by rw [hrun, hrep, runReport_eq hdb hfields hready hsound]⟩

end Matchers

/-! ## The small artifact -/

/-- An event with `techno` set to `a` and `a` set to `wXyz`. -/
def sampleScanEvent : Event := fun name =>
  if name = ascii "techno" then some [97]
  else if name = [97] then some [119, 88, 121, 122]
  else none

theorem postings_sample {db : SigmaDb} (hsame : sampleTables.Same db.toTables) :
    db.postings 0 = [⟨0, 0, 0, 0⟩] := by
  rw [Tables.postings, hsame.litpost, hsame.litpostRef]
  rfl

theorem gateReady_sample {db : SigmaDb} (hsame : sampleTables.Same db.toTables) :
    GateReady db where
  unclaused := by
    intro i hi hzero
    rw [hsame.rules] at hi
    obtain rfl : i = 0 := Nat.lt_one_iff.mp hi
    rw [hsame.clauses] at hzero
    exact absurd hzero (by decide)
  needles := by
    rw [hsame.litndl]
    decide
  postField := by
    intro k r hr _
    have hmem := Tables.mem_litpostRef_of_mem_postings hr
    rw [hsame.litpostRef] at hmem
    obtain rfl := List.mem_singleton.mp hmem
    refine ⟨_, by rw [hsame.rules]; rfl, ⟨0, 0, 1, 0, #v[0, 0], 0, #v[0, 0, 0, 0], 0⟩, ?_, rfl⟩
    rw [Tables.rulePreds, hsame.sels, hsame.preds]
    decide

/-- Whatever accepts this event, the one needle is in it. -/
theorem indexSound_sample {db : SigmaDb} (hsame : sampleTables.Same db.toTables) :
    IndexSound samplePlatform db sampleScanEvent := by
  rintro i ⟨r, hr, -⟩ c hc
  rw [hsame.rules] at hr
  obtain rfl : i = 0 := Nat.lt_one_iff.mp (List.getElem?_eq_some_iff.mp hr).1
  rw [hsame.clauses] at hc
  obtain rfl : c = 0 := Nat.lt_one_iff.mp hc
  refine .inl ⟨0, ⟨2, 2⟩, by rw [hsame.litndl]; rfl, ⟨0, 0, 0, 0⟩, ?_, rfl, rfl, 0,
    [119, 88, 121, 122], .inr rfl, ?_, 1, ?_⟩
  · rw [postings_sample hsame]
    exact List.mem_singleton_self _
  · rw [fieldValue_of_lt (by rw [hsame.fields]; rfl), hsame.str]
    rfl
  · rw [hsame.str]
    decide

theorem prefilter_is_invisible_sample :
    ∃ db, sigmaDbLoadBuffer samplePlatform (sigmaDbSerialize sampleTables) = .ok db ∧
      ∃ rep, ∀ e, Reached samplePlatform db e →
        ∃ e', (sigmaEvalRun samplePlatform db sampleScanEvent 4).run e = .ok (rep, e') := by
  obtain ⟨db, hload, hsame⟩ := load_sample
  have hfields : db.fields.length ≤ 65536 := by
    rw [hsame.fields]
    decide
  exact ⟨db, hload, prefilter_is_invisible hload hfields (gateReady_sample hsame) sampleScanEvent
    (indexSound_sample hsame) 4⟩

end LibSigma
