import LibSigma.Matcher.BucketFields

/-!
# One matcher for each field

`build_field_teddy` gives every field a matcher of its own, for the needles posted to it, and the
prefilter scans the field with that one and not with the full matcher.  The two confirm different
needles; what matters is what they credit.

## What is compared

A scan of the text of a field marks clauses of rules.  The full matcher would confirm more needles,
among them some that are posted to other fields, and their postings do not count here.  So the two
scans are compared by the pairs of rule and clause that are credited after them, from any scratch
fit for a scan, whatever was credited before (`SameCredits`).  Counters and stamps differ and are
not compared.

## The loops of the builder

The builder walks the postings with an array of flags and leaves the walk when a posting names its
field.  The model of the finalizer states which needles that collects (`Tables.fieldNeedles`); this
module has the loops themselves and shows that they collect the same list, so nothing about flags
and the `break` is assumed.

## Fields past the 16-bit ids

A posting names its field in 16 bits and so does the scratch (`cur_field`), and an artifact may list
more fields than that.  The scan of a field past the range credits in the name of another one.  The
equivalence has this on its right side: there the two agree only when none of the needles of the
scan stands in the text with a posting that counts.

* `Tables.collectNeedles`: the loops of the builder, with the `seen` flags and the `break`;
  `collectNeedles_eq`: they collect each needle posted to the field, once.
* `SigmaEval.Credited`, `ScanReady`: the credited pairs, and the scratches that are fit for a scan.
* `fullScan_runs`, `fieldScan_runs`: what the two scans credit.
* `fieldScan_agrees_iff`: **the two scans credit the same, except in a field past the 16-bit ids**,
  whose number `cur_field` cuts off.
-/

namespace LibSigma

open Library

/-! ## The needles of a field -/

section Collect

/-- The loop over the postings of needle `i`: the `seen` flags and the ids collected so far.  It
breaks when a posting names the field and the needle has been seen. -/
def collectPostings (f i : ℕ) : List SigmaLitref → List Bool × List ℕ → List Bool × List ℕ
  | [], acc => acc
  | r :: rs, acc =>
    if r.fieldId.toNat ≠ f then collectPostings f i rs acc
    else if acc.1.getD i false then acc
    else collectPostings f i rs (acc.1.set i true, acc.2 ++ [i])

/-- The ids that `build_field_teddy` collects for field `f`. -/
def Tables.collectNeedles (t : Tables) (f : ℕ) : List ℕ :=
  ((List.range t.litndl.length).foldl (fun acc i => collectPostings f i (t.postings i) acc)
    (List.replicate t.litndl.length false, [])).2

variable {t : Tables} {f i : ℕ} {seen : List Bool} {ids : List ℕ}

/-- A needle that has been seen is not collected again. -/
theorem collectPostings_seen (h : seen.getD i false = true) (rs : List SigmaLitref) :
    collectPostings f i rs (seen, ids) = (seen, ids) := by
  induction rs with
  | nil => rfl
  | cons r rs ih =>
    rw [collectPostings, ih, if_pos h, ite_self]

/-- A needle that has not been seen is collected when one of its postings names the field. -/
theorem collectPostings_unseen (hi : i < seen.length) (h : seen.getD i false = false)
    (rs : List SigmaLitref) :
    collectPostings f i rs (seen, ids) =
      if rs.any (·.fieldId.toNat == f) then (seen.set i true, ids ++ [i]) else (seen, ids) := by
  induction rs with
  | nil => rfl
  | cons r rs ih =>
    rw [collectPostings, List.any_cons]
    by_cases hr : r.fieldId.toNat = f
    · have hset : (seen.set i true).getD i false = true := by
        rw [List.getD_eq_getElem?_getD, List.getElem?_set_self hi, Option.getD_some]
      rw [if_neg (not_not.mpr hr), if_neg (by rw [h]; decide), collectPostings_seen hset,
        beq_iff_eq.mpr hr, Bool.true_or, if_pos rfl]
    · rw [if_pos hr, ih, beq_eq_false_iff_ne.mpr hr, Bool.false_or]

/-- After the first `m` needles, those of them that are posted to the field are collected, and no
later one has been seen. -/
theorem foldl_collectPostings {m : ℕ} (hm : m ≤ t.litndl.length) :
    ∃ seen : List Bool, seen.length = t.litndl.length ∧
      (∀ i, m ≤ i → seen.getD i false = false) ∧
      (List.range m).foldl (fun acc i => collectPostings f i (t.postings i) acc)
          (List.replicate t.litndl.length false, []) =
        (seen, (List.range m).filter fun i => (t.postings i).any (·.fieldId.toNat == f)) := by
  induction m with
  | zero =>
    refine ⟨_, List.length_replicate, fun i _ => ?_, rfl⟩
    rw [List.getD_eq_getElem?_getD, List.getElem?_replicate]
    split <;> rfl
  | succ m ih =>
    obtain ⟨seen, hlen, hunseen, hfold⟩ := ih (Nat.le_of_succ_le hm)
    rw [List.range_succ, List.foldl_append, hfold, List.foldl_cons, List.foldl_nil,
      collectPostings_unseen (by omega) (hunseen m (Nat.le_refl m)), List.filter_append]
    by_cases hany : (t.postings m).any (·.fieldId.toNat == f) = true
    · rw [if_pos hany, List.filter_cons, if_pos hany, List.filter_nil]
      refine ⟨_, (List.length_set ..).trans hlen, fun i hi => ?_, rfl⟩
      rw [List.getD_eq_getElem?_getD, List.getElem?_set_ne (by omega),
        ← List.getD_eq_getElem?_getD]
      exact hunseen i (by omega)
    · rw [if_neg hany, List.filter_cons, if_neg hany, List.filter_nil, List.append_nil]
      exact ⟨seen, hlen, fun i hi => hunseen i (by omega), rfl⟩

/-- **The loops collect each needle posted to the field, once.** -/
theorem Tables.collectNeedles_eq (t : Tables) (f : ℕ) : t.collectNeedles f = t.fieldNeedles f := by
  obtain ⟨seen, -, -, hfold⟩ := foldl_collectPostings (t := t) (f := f) (Nat.le_refl _)
  rw [Tables.collectNeedles, hfold, Tables.fieldNeedles]

end Collect

/-! ## Which fields have a matcher -/

section Built

variable {pf : Platform} {db : SigmaDb} {buf : Bytes} {f : ℕ}

/-- Without an unscoped posting the matchers of the fields are not turned off. -/
theorem buildBucketFields_litAnyField {db' : SigmaDb}
    (hrun : buildBucketFields (fun _ => true) db = (true, db')) (hscoped : db.Scoped) :
    db'.litAnyField = db.litAnyField := by
  rw [buildBucketFields, any_unscoped_eq_false hscoped, if_neg Bool.false_ne_true] at hrun
  split at hrun
  · obtain rfl := (Prod.mk.inj hrun).2
    rfl
  · obtain rfl := (Prod.mk.inj hrun).2
    rfl

/-- Where there is something to build them from, they are built. -/
theorem buildFieldTeddy_isSome {db' : SigmaDb}
    (hrun : buildFieldTeddy (fun _ => true) db = (true, db')) (hfields : db.fields ≠ [])
    (hndl : db.litndl ≠ []) (hrefs : db.litpostRef ≠ []) (hany : db.litAnyField = false) :
    db'.fieldTeddy.isSome := by
  have hnonzero : ¬ (db.fields.length = 0 ∨ db.litndl.length = 0 ∨ db.litpostRef = []) := by
    simp [List.length_eq_zero_iff, hfields, hndl, hrefs]
  rw [buildFieldTeddy, if_neg hnonzero, hany, if_neg (by decide)] at hrun
  obtain rfl := (Prod.mk.inj hrun).2
  rfl

theorem finalizeTeddy_fieldTeddy (hfresh : db.Fresh) (hfields : db.fields ≠ [])
    (hndl : db.litndl ≠ []) (hrefs : db.litpostRef ≠ []) (hscoped : db.Scoped) :
    (finalizeTeddy (fun _ => true) db).2.2.litAnyField = false ∧
      (finalizeTeddy (fun _ => true) db).2.2.fieldTeddy.isSome := by
  obtain ⟨db₂, db₃, hrun₂, hrun₃, htab₂, -, hany₃, hrun⟩ := finalizeTeddy_stages hfresh hndl
  have hany₂ : db₂.litAnyField = false :=
    (buildBucketFields_litAnyField hrun₂ hscoped).trans hfresh.litAnyField
  rw [hrun]
  exact ⟨hany₃.trans hany₂, buildFieldTeddy_isSome hrun₃ (htab₂ ▸ hfields) (htab₂ ▸ hndl)
    (htab₂ ▸ hrefs) hany₂⟩

/-- **Which matcher scans a field**: when some needle is posted and none without a field, the one
for the needles that the builder collects, so none when it collects none. -/
theorem fieldMatcher_eq (hload : sigmaDbLoadBuffer pf buf = .ok db) (hscoped : db.Scoped)
    (hndl : db.litndl ≠ []) (hrefs : db.litpostRef ≠ []) (hf : f < db.fields.length)
    (t : SigmaTeddy) :
    fieldMatcher db t f = sigmaTeddyBuildSubset db.litndl db.byte (db.collectNeedles f) := by
  have hfields : db.fields ≠ [] := List.ne_nil_of_length_pos (Nat.zero_lt_of_lt hf)
  obtain ⟨db₀, built, db₁, hfresh, htab, hrun, -, hft, hany⟩ := finalized_of_loadBuffer hload
  obtain ⟨hany₁, hsome₁⟩ := finalizeTeddy_fieldTeddy hfresh (htab ▸ hfields) (htab ▸ hndl)
    (htab ▸ hrefs) (htab ▸ hscoped)
  rw [hrun] at hany₁ hsome₁
  obtain ⟨arr, harr⟩ := Option.isSome_iff_exists.mp hsome₁
  rw [fieldMatcher, hany, hany₁, if_neg (by decide), hft, harr]
  dsimp only
  rw [(loaded_of_loadBuffer hload).fieldTeddy arr (hft.trans harr), List.getElem?_map,
    List.getElem?_range hf, Option.map_some, Option.join_some, Tables.collectNeedles_eq]

end Built

/-! ## Credited pairs -/

/-- Clause `c` of rule `ri` is credited: the mask of the rule is of this event and has bit `c`. -/
def SigmaEval.Credited (e : SigmaEval) (ri c : ℕ) : Prop :=
  Marked e.gen e.ruleGen ri ∧ ∃ m, e.ruleMask[ri]? = some m ∧ m.toNat.testBit c = true

/-- A scratch fit for a scan, whatever is credited in it: a memo of some event, arrays of the right
sizes, and no stamp ahead of its counter. -/
structure ScanReady (db : SigmaDb) (e : SigmaEval) : Prop where
  memo : ∃ ev, MemoOk db ev e
  tscr : db.teddy.isSome = true → ScratchReady db e.tscr
  genLength : e.ruleGen.length = db.rules.length
  maskLength : e.ruleMask.length = db.rules.length
  bounded : Bounded e.gen e.ruleGen

section Credited

variable {pf : Platform} {db : SigmaDb} {ev : Event} {e₀ e : SigmaEval} {av : ℕ → Prop}
  {C : ℕ → ℕ → Prop}

theorem Credit.credited_iff (h : Credit db ev e₀ av C e) {ri c : ℕ} :
    e.Credited ri c ↔ C ri c := by
  constructor
  · rintro ⟨hmark, m, hm, hbit⟩
    exact (h.bits ri m hmark hm c).mp hbit
  · intro hc
    have hmark := (h.touched ri).mpr (.inr ⟨c, hc⟩)
    have hlt : ri < e.ruleMask.length := by
      have hri := (List.getElem?_eq_some_iff.mp hmark).1
      rwa [h.genLength, ← h.maskLength] at hri
    have hm := List.getElem?_eq_getElem hlt
    exact ⟨hmark, _, hm, (h.bits ri _ hmark hm c).mpr hc⟩

/-- The scratch is fit for a scan at each step of the prefilter. -/
theorem Credit.scanReady (h : Credit db ev e₀ av C e) : ScanReady db e :=
  ⟨⟨ev, h.memo⟩, h.tscr, h.genLength, h.maskLength, h.bounded⟩

/-- Its masks hold the pairs credited so far. -/
theorem ScanReady.credit (h : ScanReady db e) :
    ∃ ev, Credit db ev e (Marked e.gen e.ruleGen) e.Credited e := by
  obtain ⟨ev, hmemo⟩ := h.memo
  refine ⟨ev, hmemo, rfl, rfl, rfl, h.tscr, h.genLength, h.maskLength, h.bounded, fun ri => ?_,
    fun ri m hmark hm c => ?_⟩
  · exact ⟨.inl, fun hmark => hmark.elim id fun ⟨c, hc⟩ => hc.1⟩
  · refine ⟨fun hbit => ⟨hmark, m, hm, hbit⟩, ?_⟩
    rintro ⟨-, m', hm', hbit⟩
    rwa [Option.some.inj (hm.symm.trans hm')]

/-- So is every scratch that evaluations leave behind, once the next one has started, and then
nothing is credited. -/
theorem scanReady_startRun (hdb : db.Loaded) (hpf : Prefilterable db) (he : Reached pf db e) :
    ScanReady db (startRun e) ∧ ∀ ri c, ¬ (startRun e).Credited ri c := by
  have hstarted : Started db (fun _ => none) (startRun e) := (he.scratchOk hdb).1.started _
  have hcredit := credit_nothing hstarted.scratch hstarted.memo hstarted.freshMask hpf
  exact ⟨hcredit.scanReady, fun ri c hc => hcredit.credited_iff.mp hc⟩

end Credited

/-! ## The two scans -/

section Scans

variable (pf : Platform) (db : SigmaDb)

/-- The text `v` scanned in field `f` with the full matcher. -/
def fullScan (f : ℕ) (v : Bytes) : EvalM PUnit := scanText pf db db.teddy f v

/-- The text `v` scanned in field `f` with the matcher of the field. -/
def fieldScan (f : ℕ) (v : Bytes) : EvalM PUnit :=
  scanText pf db (db.teddy.bind fun t => fieldMatcher db t f) f v

/-- Whatever is credited before, both scans succeed and leave the same pairs credited. -/
def SameCredits (f : ℕ) (v : Bytes) : Prop :=
  ∀ e, ScanReady db e → ∃ e₁ e₂, (fieldScan pf db f v).run e = .ok (⟨⟩, e₁) ∧
    (fullScan pf db f v).run e = .ok (⟨⟩, e₂) ∧ ∀ ri c, e₁.Credited ri c ↔ e₂.Credited ri c

/-- One of the needles `ids` occurs in `v`, and a posting of it that counts in field `f` names
clause `c` of rule `ri`. -/
def TextCredits (ids : List ℕ) (f : ℕ) (v : Bytes) (ri c : ℕ) : Prop :=
  ∃ k ∈ ids, ∃ n, db.litndl[k]? = some n ∧ OccursCi v (db.str n) ∧ PostingCredits db f k ri c

variable {pf db} {ev : Event} {e₀ e : SigmaEval} {av : ℕ → Prop} {C : ℕ → ℕ → Prop} {f : ℕ}
  {v : Bytes} {ids : List ℕ}

/-- A scan meets the needles of its matcher that occur in the text. -/
theorem metIn_iff {tf : SigmaTeddy} (htf : Scannable db ids tf)
    (htwo : ∀ s ∈ db.litndl, 2 ≤ s.len.toNat) {k : ℕ} :
    MetIn pf db tf ids v k ↔
      k ∈ ids ∧ ∃ n, db.litndl[k]? = some n ∧ OccursCi v (db.str n) := by
  constructor
  · rintro ⟨-, pos, hpos, hprobed⟩
    obtain ⟨n, hn, -⟩ := hprobed.2.1
    exact ⟨hprobed.1, n, hn, (probed_iff_occurs htf pf.simd hn hprobed.1
      (htwo n (List.mem_of_getElem? hn))).mp ⟨pos, hpos, hprobed⟩⟩
  · rintro ⟨hk, n, hn, hocc⟩
    have hmem := List.mem_of_getElem? hn
    have hle := hocc.length_le
    rw [length_str (htf.valid.ndlInPool n hmem)] at hle
    exact ⟨(htwo n hmem).trans hle, (probed_iff_occurs htf pf.simd hn hk (htwo n hmem)).mpr hocc⟩

theorem scanText_credits (hdb : db.Loaded) (htwo : ∀ s ∈ db.litndl, 2 ≤ s.len.toNat)
    (hteddy : db.teddy.isSome = true) {tf : SigmaTeddy} (htf : Scannable db ids tf)
    (h : Credit db ev e₀ av C e) :
    Runs (scanText pf db (some tf) f v) e fun _ e' =>
      Credit db ev e₀ av (fun ri c => C ri c ∨ TextCredits db ids f v ri c) e' := by
  refine (scanText_runs hdb hteddy htf f v h).mono fun _ _ h' => h'.congr fun ri c =>
    or_congr_right ?_
  constructor
  · rintro ⟨k, hmet, hp⟩
    obtain ⟨hk, n, hn, hocc⟩ := (metIn_iff htf htwo).mp hmet
    exact ⟨k, hk, n, hn, hocc, hp⟩
  · rintro ⟨k, hk, n, hn, hocc, hp⟩
    exact ⟨k, (metIn_iff htf htwo).mpr ⟨hk, n, hn, hocc⟩, hp⟩

/-- A scan without a matcher credits nothing. -/
theorem scanText_none (h : Credit db ev e₀ av C e)
    (hnone : ∀ ri c, ¬ TextCredits db ids f v ri c) :
    Runs (scanText pf db none f v) e fun _ e' =>
      Credit db ev e₀ av (fun ri c => C ri c ∨ TextCredits db ids f v ri c) e' :=
  Runs.pure (h.congr fun ri c => by simp [hnone ri c])

/-- Without needles there is no matcher. -/
theorem not_textCredits_of_none (hdb : db.Loaded) (ht : db.teddy = none) (ri c : ℕ) :
    ¬ TextCredits db ids f v ri c := by
  rintro ⟨k, -, n, hn, -⟩
  obtain ⟨t, ht'⟩ := exists_teddy hdb hn
  exact absurd (ht.symm.trans ht') (by simp)

/-- **What the full scan credits.** -/
theorem fullScan_runs (hdb : db.Loaded) (htwo : ∀ s ∈ db.litndl, 2 ≤ s.len.toNat)
    (h : Credit db ev e₀ av C e) :
    Runs (fullScan pf db f v) e fun _ e' => Credit db ev e₀ av
      (fun ri c => C ri c ∨ TextCredits db (List.range db.litndl.length) f v ri c) e' := by
  unfold fullScan
  cases ht : db.teddy with
  | none => exact scanText_none h (not_textCredits_of_none hdb ht)
  | some t => exact scanText_credits hdb htwo (by rw [ht]; rfl) (scannable_teddy hdb ht) h

/-- **What the scan with the matcher of the field credits.** -/
theorem fieldScan_runs (hdb : db.Loaded) (htwo : ∀ s ∈ db.litndl, 2 ≤ s.len.toNat)
    (hf : f < db.fields.length) (h : Credit db ev e₀ av C e) :
    Runs (fieldScan pf db f v) e fun _ e' => Credit db ev e₀ av
      (fun ri c => C ri c ∨ TextCredits db (needleIds db f) f v ri c) e' := by
  unfold fieldScan
  cases ht : db.teddy with
  | none => exact scanText_none h (not_textCredits_of_none hdb ht)
  | some t =>
    rw [Option.bind_some]
    cases htf : fieldMatcher db t f with
    | none =>
      refine scanText_none h fun ri c hc => ?_
      obtain ⟨k, hk, -⟩ := hc
      obtain ⟨tf, htf'⟩ := exists_fieldMatcher hdb t hf hk
      exact absurd (htf.symm.trans htf') (by simp)
    | some tf =>
      exact scanText_credits hdb htwo (by rw [ht]; rfl) (scannable_fieldMatcher hdb ht htf) h

/-! ## Where they agree -/

/-- When no posting is unscoped, those that count in field `f` name the field that `cur_field` is
during its scan. -/
theorem fieldId_of_counts (hscoped : db.Scoped) {k ri c : ℕ} {r : SigmaLitref}
    (hr : r ∈ db.postings k) (hcounts : Counts f r ri c) : r.fieldId.toNat = f % 65536 := by
  have hfield := hcounts.1.resolve_left (hscoped r (Tables.mem_litpostRef_of_mem_postings hr))
  rw [hfield, Nat.toUInt16_eq, UInt16.toNat_ofNat']

/-- Below the 16-bit bound, the needles that the matcher of the field leaves out have no posting
that counts in it. -/
theorem textCredits_needleIds_iff (hscoped : db.Scoped) (hlt : f < 65536) {ri c : ℕ} :
    TextCredits db (needleIds db f) f v ri c ↔
      TextCredits db (List.range db.litndl.length) f v ri c := by
  constructor
  · rintro ⟨k, -, n, hn, hrest⟩
    exact ⟨k, List.mem_range.mpr (List.getElem?_eq_some_iff.mp hn).1, n, hn, hrest⟩
  · rintro ⟨k, hk, n, hn, hocc, r, hr, hcounts⟩
    have hfield := fieldId_of_counts hscoped hr hcounts
    rw [Nat.mod_eq_of_lt hlt] at hfield
    exact ⟨k, mem_needleIds_of_posted (List.mem_range.mp hk) hr (.inr hfield), n, hn, hocc, r, hr,
      hcounts⟩

/-- No posting names a field past the 16-bit bound. -/
theorem collectNeedles_eq_nil (t : Tables) (hge : 65536 ≤ f) : t.collectNeedles f = [] := by
  rw [t.collectNeedles_eq, Tables.fieldNeedles, List.filter_eq_nil_iff]
  intro k _ hany
  obtain ⟨r, -, heq⟩ := List.any_eq_true.mp hany
  have hfield : r.fieldId.toNat = f := beq_iff_eq.mp heq
  have hbound : r.fieldId.toNat < 65536 := r.fieldId.toNat_lt
  omega

theorem sameCredits_of_iff (hdb : db.Loaded) (htwo : ∀ s ∈ db.litndl, 2 ≤ s.len.toNat)
    (hf : f < db.fields.length)
    (hiff : ∀ ri c, TextCredits db (needleIds db f) f v ri c ↔
      TextCredits db (List.range db.litndl.length) f v ri c) : SameCredits pf db f v := by
  intro e he
  obtain ⟨ev, hcredit⟩ := he.credit
  have hfield : Runs (fieldScan pf db f v) e _ := fieldScan_runs hdb htwo hf hcredit
  have hfull : Runs (fullScan pf db f v) e _ := fullScan_runs hdb htwo hcredit
  obtain ⟨_, e₁, hrun₁, h₁⟩ := hfield
  obtain ⟨_, e₂, hrun₂, h₂⟩ := hfull
  exact ⟨e₁, e₂, hrun₁, hrun₂, fun ri c => by rw [h₁.credited_iff, h₂.credited_iff, hiff]⟩

/-- Past the bound the field has no matcher, while the full scan credits what is posted to another
field. -/
theorem not_sameCredits_of_wrapped {buf : Bytes} (hload : sigmaDbLoadBuffer pf buf = .ok db)
    (hscoped : db.Scoped) (htwo : ∀ s ∈ db.litndl, 2 ≤ s.len.toNat) (hf : f < db.fields.length)
    (hge : 65536 ≤ f) {k : ℕ} {n : SigmaStr} (hn : db.litndl[k]? = some n)
    (hocc : OccursCi v (db.str n)) {r : SigmaLitref} (hr : r ∈ db.postings k)
    (hfield : r.fieldId.toNat = f % 65536) : ¬ SameCredits pf db f v := by
  intro hsame
  have hdb := loaded_of_loadBuffer hload
  have hmem := Tables.mem_litpostRef_of_mem_postings hr
  obtain ⟨t, ht⟩ := exists_teddy hdb hn
  have hpf : Prefilterable db :=
    ⟨Nat.ne_of_gt (Nat.zero_lt_of_lt (hdb.valid.refRule r hmem)), .inl (by rw [ht]; rfl)⟩
  obtain ⟨hready, hnone⟩ := scanReady_startRun hdb hpf (reached_create pf db)
  obtain ⟨e₁, e₂, hrun₁, hrun₂, hiff⟩ := hsame _ hready
  have hcredited : e₂.Credited r.ruleIdx.toNat r.clauseIdx.toNat := by
    obtain ⟨ev, hcredit⟩ := hready.credit
    have h₂ := (fullScan_runs hdb htwo hcredit).result hrun₂
    have hcounts : r.fieldId = f.toUInt16 := by
      rw [← UInt16.toNat_inj, hfield, Nat.toUInt16_eq, UInt16.toNat_ofNat']
    exact h₂.credited_iff.mpr (.inr ⟨k, List.mem_range.mpr (List.getElem?_eq_some_iff.mp hn).1, n,
      hn, hocc, r, hr, .inr hcounts, rfl, rfl⟩)
  have hunscanned : fieldScan pf db f v = pure ⟨⟩ := by
    rw [fieldScan, ht, Option.bind_some, fieldMatcher_eq hload hscoped
      (List.ne_nil_of_mem (List.mem_of_getElem? hn)) (List.ne_nil_of_mem hmem) hf t,
      collectNeedles_eq_nil _ hge, sigmaTeddyBuildSubset, if_pos (.inr rfl)]
    rfl
  rw [hunscanned] at hrun₁
  obtain rfl := (Prod.mk.inj (Except.ok.inj hrun₁)).2
  exact hnone _ _ ((hiff _ _).mpr hcredited)

/-- **Where the matcher of a field credits what the full matcher credits.**  In every field that a
16-bit id can name; past them, only when no needle of the text is posted to the field that the id
wraps to. -/
theorem fieldScan_agrees_iff {buf : Bytes} (hload : sigmaDbLoadBuffer pf buf = .ok db)
    (hscoped : db.Scoped) (htwo : ∀ s ∈ db.litndl, 2 ≤ s.len.toNat) (hf : f < db.fields.length)
    (v : Bytes) :
    SameCredits pf db f v ↔
      f < 65536 ∨ ∀ k n, db.litndl[k]? = some n → OccursCi v (db.str n) →
        ∀ r ∈ db.postings k, r.fieldId.toNat ≠ f % 65536 := by
  have hdb := loaded_of_loadBuffer hload
  constructor
  · intro hsame
    refine or_iff_not_imp_left.mpr fun hge k n hn hocc r hr hfield => ?_
    exact not_sameCredits_of_wrapped hload hscoped htwo hf (Nat.le_of_not_lt hge) hn hocc hr hfield
      hsame
  · rintro (hlt | hunposted)
    · exact sameCredits_of_iff hdb htwo hf fun ri c => textCredits_needleIds_iff hscoped hlt
    · have hnothing : ∀ ids ri c, ¬ TextCredits db ids f v ri c := by
        rintro ids ri c ⟨k, -, n, hn, hocc, r, hr, hcounts⟩
        exact hunposted k n hn hocc r hr (fieldId_of_counts hscoped hr hcounts)
      exact sameCredits_of_iff hdb htwo hf fun ri c => iff_of_false (hnothing _ ri c) (hnothing _ ri c)

end Scans

/-! ## An artifact with more fields than ids -/

/-- The small artifact with its one field listed 65537 times. -/
def wideTables : Tables := { sampleTables with fields := List.replicate 65537 ⟨0, 1⟩ }

theorem rangesOk_wide : wideTables.rangesOk = true := by
  simp only [wideTables, sampleTables, Tables.rangesOk, List.all_cons, List.all_nil,
    List.all_replicate, Tables.predOk, Tables.litrefOk, List.length_replicate]
  decide

theorem length_wide : wideTables.fields.length = 65537 := List.length_replicate

theorem total_wide : wideTables.layout.total < 2 ^ 32 := by
  unfold Tables.layout
  rw [length_wide]
  decide

/-- The loader accepts it.  Its last field has no matcher, but the full matcher credits there what
is posted to the first one. -/
theorem wide_scans_differ :
    ∃ db, sigmaDbLoadBuffer samplePlatform (sigmaDbSerialize wideTables) = .ok db ∧ db.Scoped ∧
      (∀ s ∈ db.litndl, 2 ≤ s.len.toNat) ∧ 65536 < db.fields.length ∧
      ¬ SameCredits samplePlatform db 65536 [120, 121] := by
  obtain ⟨db, hload, hsame⟩ :=
    wideTables.load_serialize samplePlatform rangesOk_wide (by decide) total_wide
  have hscoped : db.Scoped := by
    rw [Tables.Scoped, hsame.litpostRef]
    decide
  have htwo : ∀ s ∈ db.litndl, 2 ≤ s.len.toNat := by
    rw [hsame.litndl]
    decide
  have hf : 65536 < db.fields.length := by
    rw [hsame.fields, length_wide]
    decide
  have hposted : (⟨0, 0, 0, 0⟩ : SigmaLitref) ∈ db.postings 0 := by
    rw [Tables.postings, hsame.litpost, hsame.litpostRef]
    decide
  refine ⟨db, hload, hscoped, htwo, hf, not_sameCredits_of_wrapped (k := 0) (n := ⟨2, 2⟩) hload
    hscoped htwo hf (Nat.le_refl _) (by rw [hsame.litndl]; rfl) ⟨0, ?_⟩ hposted rfl⟩
  rw [hsame.str]
  decide

/-- Field `a` of the small artifact, with a text that has its needle `xy` in capitals. -/
theorem fieldScan_agrees_iff_sample :
    ∃ db, sigmaDbLoadBuffer samplePlatform (sigmaDbSerialize sampleTables) = .ok db ∧
      SameCredits samplePlatform db 0 [87, 88, 89] := by
  obtain ⟨db, hload, hsame⟩ := load_sample
  have hscoped : db.Scoped := by
    rw [Tables.Scoped, hsame.litpostRef]
    decide
  have htwo : ∀ s ∈ db.litndl, 2 ≤ s.len.toNat := by
    rw [hsame.litndl]
    decide
  have hf : 0 < db.fields.length := by
    rw [hsame.fields]
    decide
  exact ⟨db, hload, (fieldScan_agrees_iff hload hscoped htwo hf [87, 88, 89]).mpr (.inl (by decide))⟩

end LibSigma
