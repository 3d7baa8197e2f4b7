import LibSigma.Matcher.Format

/-!
# What an accepted artifact guarantees

The loader's checks as statements about the tables, and what `sigma_db_finalize` adds.

## From checks to propositions

`rangesOk` is a Boolean over the raw tables, computed as the loader computes it.  `Tables.Valid`
says the same as a proposition per kind of reference, in natural numbers and without the order of
the checks.  Each field is derived from its check once, here, and the rest of the development reads
fields of `Valid` and never looks at a check.  When the loader learns a new check, this is the place
where it becomes usable.

## Loaded databases

The evaluation theorems do not start from bytes.  They start from `SigmaDb.Loaded`: valid tables,
the widths that the header's counts have, and derived tables that are what `sigma_db_finalize`
builds from just these tables.  The last part is a property of the function and not of its result: a
database in which somebody edits a table after finalizing is not loaded.  `loaded_of_loadBuffer`
provides it for every accepted buffer, so a statement with `Loaded` as a hypothesis holds of all
files the loader lets through, on any platform.

## What the loader leaves open

Some properties that the matcher would like are not here because the loader does not check them:
needles of at least two bytes, prefixes within the width of the family, groups that stand together,
clauses that can all be credited.  Where a result needs one of them it is a hypothesis of that
result, or the result is an equivalence that has it on one side.

* `Tables.Valid`: the cross references between the tables, one field for each kind.
* `SigmaDb.Loaded`: a database as `sigma_db_load_buffer` leaves it.  Every result about evaluation
  starts from this.
* `loaded_of_loadBuffer`: **an accepted buffer gives a `Loaded` database.**
-/

namespace LibSigma

open Library

/-! ## Valid tables

The proof takes the loader's checks apart, one conjunct after the other, and each becomes a
statement in natural numbers.  Sums are formed in a type that is wide enough, so there is no
overflow to think of. -/

/-- The cross references the loader has checked. -/
structure Tables.Valid (t : Tables) : Prop where
  fieldName : ∀ f ∈ t.fields, t.strpool[f.off.toNat + f.len.toNat]? = some 0
  valueInPool : ∀ s ∈ t.values, t.InPool s
  predField : ∀ p ∈ t.preds, p.fieldId.toNat < t.fields.length
  selPreds : ∀ s ∈ t.sels, s.predStart.toNat + s.predCount.toNat ≤ t.preds.length
  ruleSels : ∀ r ∈ t.rules, r.selStart.toNat + r.selCount.toNat ≤ t.sels.length
  ruleCond : ∀ r ∈ t.rules, r.condStart.toNat + r.condCount.toNat ≤ t.cond.length
  condKind : ∀ k ∈ t.cond, k.kind ≤ sigmaCNot
  keyInPool : ∀ s ∈ t.bucketKeys, t.InPool s
  bucketIdx : ∀ b ∈ t.buckets, b.idxStart.toNat + b.idxCount.toNat ≤ t.bucketIdx.length
  bucketRule : ∀ ri ∈ t.bucketIdx, ri.toNat < t.rules.length
  ndlInPool : ∀ s ∈ t.litndl, t.InPool s
  ndlNonempty : ∀ s ∈ t.litndl, s.len ≠ 0
  postings : ∀ p ∈ t.litpost, p.idxStart.toNat + p.idxCount.toNat ≤ t.litpostRef.length
  refRule : ∀ r ∈ t.litpostRef, r.ruleIdx.toNat < t.rules.length
  refField : ∀ r ∈ t.litpostRef,
    r.fieldId = sigmaLitrefAnyField ∨ r.fieldId.toNat < t.fields.length
  refClause : ∀ r ∈ t.litpostRef, r.clauseIdx.toNat < t.clauses r.ruleIdx.toNat
  avRule : ∀ ri ∈ t.litav, ri.toNat < t.rules.length
  avClauses : ∀ ri ∈ t.litav, t.clauses ri.toNat = 0
  clauseMax : ∀ i, t.clauses i ≤ sigmaMaxClauses
  fwitRule : ∀ w ∈ t.fwit, w.ruleIdx.toNat < t.rules.length
  fwitField : ∀ w ∈ t.fwit, w.fieldId.toNat < t.fields.length
  fwitClause : ∀ w ∈ t.fwit, w.clauseIdx.toNat < t.clauses w.ruleIdx.toNat
  fwitCidr : ∀ w ∈ t.fwit, SigmaOp.ofByte w.op = some .opCidr →
    w.ival.toUInt64.toNat < t.cidrs.length

/-- A posting of a needle is an entry of the posting pool. -/
theorem Tables.mem_litpostRef_of_mem_postings {t : Tables} {k : ℕ} {r : SigmaLitref}
    (h : r ∈ t.postings k) : r ∈ t.litpostRef := by
  unfold Tables.postings at h
  split at h
  · exact absurd h List.not_mem_nil
  · obtain ⟨j, -, hj⟩ := mem_slice.mp h
    exact List.mem_of_getElem? hj

theorem Tables.clauses_eq_zero_of_none {t : Tables} (h : t.ruleClauses = none) (i : ℕ) :
    t.clauses i = 0 := by
  rw [Tables.clauses, h]

/-- A clause below a rule's count is below the 32 bits of its mask. -/
theorem Tables.Valid.clause_lt {t : Tables} (h : t.Valid) {c : UInt8} {i : ℕ}
    (hc : c.toNat < t.clauses i) : c.toNat < 32 :=
  Nat.lt_of_lt_of_le hc (h.clauseMax i)

theorem Tables.valid_of_rangesOk {t : Tables} (h : t.rangesOk = true) : t.Valid := by
  simp only [Tables.rangesOk, Bool.and_eq_true, List.all_eq_true, decide_eq_true_eq] at h
  obtain ⟨⟨⟨⟨⟨⟨⟨⟨⟨⟨⟨⟨⟨⟨⟨hfields, hvalues⟩, hpreds⟩, hsels⟩, hrules⟩, hcond⟩, hkeys⟩, hbuckets⟩,
    _⟩, hbidx⟩, hndl⟩, hpost⟩, href⟩, hav⟩, hcl⟩, hfwit⟩ := h
  refine
    { fieldName := fun f hf => ?_
      valueInPool := hvalues
      predField := fun p hp => ?_
      selPreds := fun s hs => by simpa [Tables.selOk] using hsels s hs
      ruleSels := fun r hr => ?_
      ruleCond := fun r hr => ?_
      condKind := hcond
      keyInPool := hkeys
      bucketIdx := fun b hb => by simpa [Tables.bucketOk] using hbuckets b hb
      bucketRule := hbidx
      ndlInPool := fun s hs => (hndl s hs).1
      ndlNonempty := fun s hs => by simpa using (hndl s hs).2
      postings := fun p hp => by simpa [Tables.litpostOk] using hpost p hp
      refRule := fun r hr => ?_
      refField := fun r hr => ?_
      refClause := fun r hr => ?_
      avRule := fun ri hri => ?_
      avClauses := fun ri hri => ?_
      clauseMax := fun i => ?_
      fwitRule := fun w hw => ?_
      fwitField := fun w hw => ?_
      fwitClause := fun w hw => ?_
      fwitCidr := fun w hw hop => ?_ }
  · have hok := hfields f hf
    simp only [Tables.fieldOk, Bool.and_eq_true, decide_eq_true_eq, beq_iff_eq] at hok
    rw [List.getD_eq_getElem?_getD, List.getElem?_eq_getElem (by omega)] at hok
    rw [List.getElem?_eq_getElem (by omega)]
    exact congrArg some hok.2
  · have hok := hpreds p hp
    simp only [Tables.predOk, Bool.and_eq_true, decide_eq_true_eq] at hok
    exact hok.1
  · have hok := hrules r hr
    simp only [Tables.ruleOk, Bool.and_eq_true, decide_eq_true_eq] at hok
    exact hok.1.1.1
  · have hok := hrules r hr
    simp only [Tables.ruleOk, Bool.and_eq_true, decide_eq_true_eq] at hok
    exact hok.1.1.2
  · have hok := href r hr
    simp only [Tables.litrefOk, Bool.and_eq_true, decide_eq_true_eq] at hok
    exact hok.1.1.1
  · have hok := href r hr
    simp only [Tables.litrefOk, Bool.and_eq_true, Bool.or_eq_true, decide_eq_true_eq] at hok
    exact hok.1.1.2
  · have hok := href r hr
    simp only [Tables.litrefOk, Tables.clauseNamed, Bool.and_eq_true, decide_eq_true_eq] at hok
    exact hok.2.2
  · have hok := hav ri hri
    simp only [Tables.litavOk, Bool.and_eq_true, decide_eq_true_eq] at hok
    exact hok.1
  · have hok := hav ri hri
    simp only [Tables.litavOk, Bool.and_eq_true, Bool.or_eq_true, decide_eq_true_eq,
      Option.isNone_iff_eq_none] at hok
    exact hok.2.elim (fun hnone => Tables.clauses_eq_zero_of_none hnone _) id
  · unfold Tables.clauses
    split
    · exact Nat.zero_le _
    · rename_i cs hcs
      rw [hcs] at hcl
      rw [List.getD_eq_getElem?_getD]
      rcases hget : cs[i]? with _ | n
      · exact Nat.zero_le _
      · exact hcl n (List.mem_of_getElem? hget)
  · have hok := hfwit w hw
    simp only [Tables.fwitOk, Bool.and_eq_true, decide_eq_true_eq] at hok
    exact hok.1.1.1.1
  · have hok := hfwit w hw
    simp only [Tables.fwitOk, Bool.and_eq_true, Bool.not_eq_true', Bool.or_eq_false_iff,
      decide_eq_false_iff_not, decide_eq_true_eq] at hok
    exact Nat.lt_of_not_le hok.1.1.1.2.2
  · have hok := hfwit w hw
    simp only [Tables.fwitOk, Tables.clauseNamed, Bool.and_eq_true, decide_eq_true_eq] at hok
    exact hok.1.2.2
  · have hok := hfwit w hw
    simp only [Tables.fwitOk, Bool.and_eq_true, hop, decide_eq_true_eq] at hok
    exact hok.2

/-! ## The always-verify bucket -/

/-- The scan finds the one empty key, if there is one, and rejects a second. -/
theorem Tables.avScan_eq_some {ks : List SigmaStr} {i : ℕ} {acc av : Option ℕ}
    (h : Tables.avScan ks i acc = some av) :
    (acc.isSome → av = acc ∧ ∀ k ∈ ks, k.len ≠ 0) ∧
    (acc = none → ∀ j, av = some j ↔ i ≤ j ∧ ∃ k, ks[j - i]? = some k ∧ k.len = 0) := by
  induction ks generalizing i acc with
  | nil =>
    obtain rfl := Option.some.inj h
    refine ⟨fun _ => ⟨rfl, by simp⟩, ?_⟩
    rintro rfl j
    simp
  | cons k ks ih =>
    rw [Tables.avScan.eq_def] at h
    dsimp only at h
    by_cases hk : k.len = 0
    · rw [if_pos hk] at h
      cases acc with
      | some a => exact absurd h (by simp)
      | none =>
        obtain ⟨hav, hrest⟩ := (ih h).1 rfl
        refine ⟨by simp, fun _ j => ?_⟩
        rw [hav, Option.some_inj]
        constructor
        · rintro rfl
          exact ⟨Nat.le_refl _, k, by simp, hk⟩
        · rintro ⟨hij, k', hk', hlen⟩
          rcases Nat.eq_or_lt_of_le hij with rfl | hlt
          · rfl
          · rw [show j - i = (j - i - 1) + 1 by omega, List.getElem?_cons_succ] at hk'
            exact absurd hlen (hrest k' (List.mem_of_getElem? hk'))
    · rw [if_neg hk] at h
      obtain ⟨hsome, hnone⟩ := ih h
      refine ⟨fun hacc => ⟨(hsome hacc).1, ?_⟩, fun hacc j => ?_⟩
      · intro k' hk'
        rcases List.mem_cons.mp hk' with rfl | hmem
        · exact hk
        · exact (hsome hacc).2 k' hmem
      · rw [hnone hacc j]
        constructor
        · rintro ⟨hij, k', hk', hlen⟩
          refine ⟨by omega, k', ?_, hlen⟩
          rwa [show j - i = (j - (i + 1)) + 1 by omega, List.getElem?_cons_succ]
        · rintro ⟨hij, k', hk', hlen⟩
          rcases Nat.eq_or_lt_of_le hij with rfl | hlt
          · rw [Nat.sub_self, List.getElem?_cons_zero] at hk'
            exact absurd (Option.some.inj hk' ▸ hlen) hk
          · refine ⟨hlt, k', ?_, hlen⟩
            rwa [show j - i = (j - (i + 1)) + 1 by omega, List.getElem?_cons_succ] at hk'

/-! ## Loaded databases

The finalizer's functions are run on a database in which nothing is derived, with memory that does
not run out.  Each builder has a lemma for what it stores; `SigmaDb.Indexed` collects them as
properties of the result, so that no later proof looks at a builder. -/

/-- No posting is unscoped. -/
def Tables.Scoped (t : Tables) : Prop := ∀ r ∈ t.litpostRef, r.fieldId ≠ sigmaLitrefAnyField

/-- The prefilter tables `sigma_db_finalize` derives. -/
structure SigmaDb.Indexed (db : SigmaDb) : Prop where
  teddy : db.teddy = sigmaTeddyBuild db.litndl db.byte
  postScoped : db.litAnyField = false → db.bucketKeys ≠ [] → db.fields ≠ [] → db.litndl ≠ [] →
    db.Scoped
  bucketFields : ∀ bm, db.bucketFields = some bm →
    db.bucketFieldsStride = (UInt32.ofNat db.fields.length + 7) / 8 ∧
      bm = db.bucketBitmap db.bucketFieldsStride.toNat
  fieldTeddy : ∀ arr, db.fieldTeddy = some arr →
    arr = (List.range db.fields.length).map fun f =>
      sigmaTeddyBuildSubset db.litndl db.byte (db.fieldNeedles f)

/-- A database as the loader leaves it: valid tables, counts of 32 bits, and derived tables that
`sigma_db_finalize` built from them. -/
structure SigmaDb.Loaded (db : SigmaDb) : Prop extends db.Indexed where
  valid : db.Valid
  countFields : db.fields.length < 2 ^ 32
  countNdl : db.litndl.length < 2 ^ 32
  countRules : db.rules.length < 2 ^ 32
  avBucket : ∀ j, db.avBucket = some j ↔ ∃ k, db.bucketKeys[j]? = some k ∧ k.len = 0
  catFieldId : db.catFieldId = db.catFieldIdOf
  re : ∀ arr, db.re = some arr → arr.length = db.preds.length

/-- The matcher is built from needles only. -/
theorem SigmaDb.Loaded.litndl_ne_nil {db : SigmaDb} (hdb : db.Loaded) {t : SigmaTeddy}
    (ht : db.teddy = some t) : db.litndl ≠ [] := by
  intro hnil
  have hteddy := hdb.teddy
  rw [ht, sigmaTeddyBuild, if_pos hnil] at hteddy
  exact nomatch hteddy

/-- Two databases that agree on all that finalizing leaves alone. -/
structure SigmaDb.SameBase (db db' : SigmaDb) : Prop where
  toTables : db'.toTables = db.toTables
  poolNext : db'.poolNext = db.poolNext
  avBucket : db'.avBucket = db.avBucket
  catFieldId : db'.catFieldId = db.catFieldId

theorem SigmaDb.SameBase.trans {db₁ db₂ db₃ : SigmaDb} (h : db₁.SameBase db₂)
    (h' : db₂.SameBase db₃) : db₁.SameBase db₃ :=
  ⟨h'.toTables.trans h.toTables, h'.poolNext.trans h.poolNext, h'.avBucket.trans h.avBucket,
    h'.catFieldId.trans h.catFieldId⟩

theorem SigmaDb.SameBase.byte {db db' : SigmaDb} (h : db.SameBase db') : db'.byte = db.byte := by
  rw [SigmaDb.byte, SigmaDb.byte, h.toTables, h.poolNext]

theorem SigmaDb.SameBase.refl (db : SigmaDb) : db.SameBase db := ⟨rfl, rfl, rfl, rfl⟩

/-- Nothing is derived yet. -/
structure SigmaDb.Fresh (db : SigmaDb) : Prop where
  teddy : db.teddy = none
  fieldTeddy : db.fieldTeddy = none
  bucketFields : db.bucketFields = none
  litAnyField : db.litAnyField = false
  re : db.re = none

theorem fresh_toDb (t : Tables) (poolNext : UInt8) : (t.toDb poolNext).Fresh :=
  ⟨rfl, rfl, rfl, rfl, rfl⟩

/-- The bucket bitmaps when no allocation fails. -/
theorem buildBucketFields_spec (db : SigmaDb) (hbf : db.bucketFields = none) :
    ∃ db', buildBucketFields (fun _ => true) db = (true, db') ∧ db.SameBase db' ∧
      db'.teddy = db.teddy ∧ db'.fieldTeddy = db.fieldTeddy ∧ db'.re = db.re ∧
      (db'.litAnyField = false → db.bucketKeys ≠ [] → db.fields ≠ [] → db.Scoped) ∧
      ∀ bm, db'.bucketFields = some bm →
        db'.bucketFieldsStride = (UInt32.ofNat db.fields.length + 7) / 8 ∧
          bm = db.bucketBitmap db'.bucketFieldsStride.toNat := by
  rw [buildBucketFields]
  split
  · rename_i hzero
    refine ⟨db, rfl, .refl db, rfl, rfl, rfl, fun _ hk hf => ?_, fun bm hbm => ?_⟩
    · simp only [List.length_eq_zero_iff] at hzero
      exact absurd hzero (not_or.mpr ⟨hk, hf⟩)
    · exact absurd (hbf ▸ hbm) (by simp)
  · split
    · refine ⟨_, rfl, ⟨rfl, rfl, rfl, rfl⟩, rfl, rfl, rfl, fun h => absurd h (by simp),
        fun bm hbm => ?_⟩
      exact absurd (hbf ▸ hbm) (by simp)
    · rename_i hscoped
      refine ⟨_, rfl, ⟨rfl, rfl, rfl, rfl⟩, rfl, rfl, rfl, fun _ _ _ r hr heq => ?_,
        fun bm hbm => ⟨rfl, (Option.some.inj hbm).symm⟩⟩
      exact hscoped (List.any_eq_true.mpr ⟨r, hr, beq_iff_eq.mpr heq⟩)

/-- The matchers of the fields when no allocation fails. -/
theorem buildFieldTeddy_spec (db : SigmaDb) (hft : db.fieldTeddy = none) :
    ∃ db', buildFieldTeddy (fun _ => true) db = (true, db') ∧ db.SameBase db' ∧
      db'.teddy = db.teddy ∧ db'.re = db.re ∧ db'.litAnyField = db.litAnyField ∧
      db'.bucketFields = db.bucketFields ∧ db'.bucketFieldsStride = db.bucketFieldsStride ∧
      ∀ arr, db'.fieldTeddy = some arr →
        arr = (List.range db.fields.length).map fun f =>
          sigmaTeddyBuildSubset db.litndl db.byte (db.fieldNeedles f) := by
  have hnone : ∀ arr, db.fieldTeddy = some arr →
      arr = (List.range db.fields.length).map fun f =>
        sigmaTeddyBuildSubset db.litndl db.byte (db.fieldNeedles f) :=
    fun arr harr => absurd (hft ▸ harr) (by simp)
  rw [buildFieldTeddy]
  split
  · exact ⟨db, rfl, .refl db, rfl, rfl, rfl, rfl, rfl, hnone⟩
  · split
    · exact ⟨db, rfl, .refl db, rfl, rfl, rfl, rfl, rfl, hnone⟩
    · exact ⟨_, rfl, ⟨rfl, rfl, rfl, rfl⟩, rfl, rfl, rfl, rfl, rfl,
        fun arr harr => (Option.some.inj harr).symm⟩

/-- The prefilter part of finalizing, from the results of its two builders. -/
theorem finalizeTeddy_eq {db db₁ db₂ db₃ : SigmaDb} (h : db.Fresh) (hndl : db.litndl ≠ [])
    (hdb₁ : db₁ = { db with teddy := sigmaTeddyBuild db.litndl db.byte })
    (hrun₂ : buildBucketFields (fun _ => true) db₁ = (true, db₂))
    (hrun₃ : buildFieldTeddy (fun _ => true) db₂ = (true, db₃)) :
    finalizeTeddy (fun _ => true) db = (0, true, db₃) := by
  rw [finalizeTeddy, if_pos ⟨by rw [h.teddy]; rfl, hndl⟩, if_pos rfl, ← hdb₁]
  simp only [hrun₂, hrun₃]

/-- The prefilter part of finalizing a fresh database succeeds. -/
theorem finalizeTeddy_fresh {db : SigmaDb} (h : db.Fresh) :
    ∃ built db', finalizeTeddy (fun _ => true) db = (0, built, db') ∧ db.SameBase db' ∧
      db'.re = none ∧ db'.Indexed := by
  by_cases hndl : db.litndl = []
  · refine ⟨false, db, ?_, .refl db, h.re, ?_⟩
    · rw [finalizeTeddy, if_neg (fun hcond => hcond.2 hndl)]
    · refine ⟨?_, fun _ _ _ hne => absurd hndl hne, fun bm hbm => ?_, fun arr harr => ?_⟩
      · rw [h.teddy, sigmaTeddyBuild, if_pos hndl]
      · exact absurd (h.bucketFields ▸ hbm) (by simp)
      · exact absurd (h.fieldTeddy ▸ harr) (by simp)
  · obtain ⟨db₁, hdb₁⟩ : ∃ x, x = { db with teddy := sigmaTeddyBuild db.litndl db.byte } :=
      ⟨_, rfl⟩
    have hbase₁ : db.SameBase db₁ := by
      rw [hdb₁]
      exact ⟨rfl, rfl, rfl, rfl⟩
    have hteddy₁ : db₁.teddy = sigmaTeddyBuild db.litndl db.byte := by rw [hdb₁]
    obtain ⟨db₂, hrun₂, hbase₂, hteddy₂, hft₂, hre₂, hscoped₂, hbf₂⟩ :=
      buildBucketFields_spec db₁ (by rw [hdb₁]; exact h.bucketFields)
    obtain ⟨db₃, hrun₃, hbase₃, hteddy₃, hre₃, hany₃, hbf₃, hst₃, hft₃⟩ :=
      buildFieldTeddy_spec db₂ (by rw [hft₂, hdb₁]; exact h.fieldTeddy)
    have hbase := (hbase₁.trans hbase₂).trans hbase₃
    have hbase₁₃ := hbase₂.trans hbase₃
    refine ⟨true, db₃, finalizeTeddy_eq h hndl hdb₁ hrun₂ hrun₃, hbase, ?_, ?_, ?_, ?_, ?_⟩
    · rw [hre₃, hre₂, hdb₁]
      exact h.re
    · rw [hteddy₃, hteddy₂, hteddy₁, hbase.byte, hbase.toTables]
    · rw [hany₃, hbase₁₃.toTables]
      exact fun hany hk hf _ => hscoped₂ hany hk hf
    · rw [hbf₃, hst₃, hbase₁₃.toTables]
      exact hbf₂
    · rw [hbase₃.byte, hbase₃.toTables]
      exact hft₃

/-- What the two builders of the prefilter part are run on and give. -/
theorem finalizeTeddy_stages {db : SigmaDb} (h : db.Fresh) (hndl : db.litndl ≠ []) :
    ∃ db₂ db₃, buildBucketFields (fun _ => true)
        { db with teddy := sigmaTeddyBuild db.litndl db.byte } = (true, db₂) ∧
      buildFieldTeddy (fun _ => true) db₂ = (true, db₃) ∧ db₂.toTables = db.toTables ∧
      db₃.bucketFields = db₂.bucketFields ∧ db₃.litAnyField = db₂.litAnyField ∧
      finalizeTeddy (fun _ => true) db = (0, true, db₃) := by
  obtain ⟨db₁, hdb₁⟩ : ∃ x, x = { db with teddy := sigmaTeddyBuild db.litndl db.byte } := ⟨_, rfl⟩
  obtain ⟨db₂, hrun₂, hbase₂, -, hft₂, -⟩ :=
    buildBucketFields_spec db₁ (by rw [hdb₁]; exact h.bucketFields)
  obtain ⟨db₃, hrun₃, -, -, -, hany₃, hbf₃, -⟩ :=
    buildFieldTeddy_spec db₂ (by rw [hft₂, hdb₁]; exact h.fieldTeddy)
  refine ⟨db₂, db₃, hdb₁ ▸ hrun₂, hrun₃, hbase₂.toTables.trans (by rw [hdb₁]), hbf₃, hany₃,
    finalizeTeddy_eq h hndl hdb₁ hrun₂ hrun₃⟩

theorem compileRes_length {pf : Platform} {t : Tables} {ps : List SigmaPred} {skipped : ℕ}
    {arr : List (Option SigmaRe)} (h : (compileRes pf t ps skipped).1 = some arr) :
    arr.length = ps.length := by
  induction ps generalizing skipped arr with
  | nil =>
    obtain rfl := Option.some.inj h
    rfl
  | cons p ps ih =>
    rw [compileRes] at h
    split at h
    · split at h
      · exact absurd h (by simp)
      · obtain ⟨tail, htail, rfl⟩ := Option.map_eq_some_iff.mp h
        rw [List.length_cons, ih htail, List.length_cons]
    · obtain ⟨tail, htail, rfl⟩ := Option.map_eq_some_iff.mp h
      rw [List.length_cons, ih htail, List.length_cons]

/-- Every pattern predicate has a pattern. -/
def Tables.ReOk (t : Tables) : Prop :=
  ∀ p ∈ t.preds, p.isRe = true → p.valueId.toNat < t.values.length

instance (t : Tables) : Decidable t.ReOk :=
  inferInstanceAs (Decidable (∀ p ∈ t.preds, p.isRe = true → p.valueId.toNat < t.values.length))

/-- Compilation fails exactly on a pattern predicate without a pattern. -/
theorem compileRes_isSome_iff {pf : Platform} {t : Tables} {ps : List SigmaPred} {skipped : ℕ} :
    (compileRes pf t ps skipped).1.isSome ↔
      ∀ p ∈ ps, p.isRe = true → p.valueId.toNat < t.values.length := by
  induction ps generalizing skipped with
  | nil => simp [compileRes]
  | cons p ps ih =>
    rw [List.forall_mem_cons, compileRes]
    by_cases hp : p.isRe = true
    · rw [if_pos hp]
      by_cases hlt : p.valueId.toNat < t.values.length
      · rw [List.getElem?_eq_getElem hlt]
        simp only [Option.isSome_map, ih, hlt, implies_true, true_and]
      · rw [List.getElem?_eq_none (Nat.le_of_not_lt hlt)]
        simp [hp, hlt]
    · rw [if_neg hp]
      simp only [Option.isSome_map, ih]
      simp [hp]

/-- Finalizing a fresh database succeeds exactly when every pattern predicate has a pattern. -/
theorem sigmaDbFinalize_eq_zero_iff {pf : Platform} {db : SigmaDb} (h : db.Fresh) :
    (∃ db', sigmaDbFinalize pf (fun _ => true) db = (0, db')) ↔ db.ReOk := by
  obtain ⟨built, db₁, hrun₁, hbase₁, hre₁, -⟩ := finalizeTeddy_fresh h
  have hcomp : ∀ skipped, (compileRes pf db₁.toTables db₁.preds skipped).1.isSome ↔ db.ReOk := by
    intro skipped
    rw [hbase₁.toTables]
    exact compileRes_isSome_iff
  rw [sigmaDbFinalize, hrun₁]
  simp only [hre₁, Option.isSome_none, Bool.false_eq_true, if_false, if_true]
  by_cases hnone : db₁.preds.all (!·.isRe) = true
  · rw [if_pos hnone]
    refine iff_of_true ⟨_, rfl⟩ fun p hp hisRe => ?_
    have hall := List.all_eq_true.mp hnone p (by rwa [hbase₁.toTables])
    rw [hisRe] at hall
    exact absurd hall (by decide)
  · rw [if_neg hnone]
    specialize hcomp db₁.nReSkipped
    rcases hres : compileRes pf db₁.toTables db₁.preds db₁.nReSkipped with ⟨_ | arr, skipped⟩
    · rw [hres] at hcomp
      refine iff_of_false ?_ (fun hok => absurd (hcomp.mpr hok) (by simp))
      rintro ⟨db', hdb'⟩
      exact absurd (Prod.mk.inj hdb').1 (by decide)
    · rw [hres] at hcomp
      exact iff_of_true ⟨_, rfl⟩ (hcomp.mp rfl)

/-- Finalizing a fresh database without error adds the prefilter tables and, when some predicate
needs one, a pattern table with one entry for each predicate. -/
theorem sigmaDbFinalize_fresh {pf : Platform} {db db' : SigmaDb} (h : db.Fresh)
    (hrun : sigmaDbFinalize pf (fun _ => true) db = (0, db')) :
    db.SameBase db' ∧ db'.Indexed ∧ ∀ arr, db'.re = some arr → arr.length = db'.preds.length := by
  obtain ⟨built, db₁, hrun₁, hbase₁, hre₁, hidx₁⟩ := finalizeTeddy_fresh h
  rw [sigmaDbFinalize, hrun₁] at hrun
  simp only [hre₁, Option.isSome_none, Bool.false_eq_true, if_false, if_true] at hrun
  split at hrun
  · obtain rfl := (Prod.mk.inj hrun).2
    exact ⟨hbase₁, hidx₁, fun arr harr => absurd (hre₁ ▸ harr) (by simp)⟩
  · split at hrun
    · rename_i arr skipped hcomp
      obtain rfl := (Prod.mk.inj hrun).2
      refine ⟨⟨hbase₁.toTables, hbase₁.poolNext, hbase₁.avBucket, hbase₁.catFieldId⟩,
        ⟨hidx₁.teddy, hidx₁.postScoped, hidx₁.bucketFields, hidx₁.fieldTeddy⟩, fun arr' harr' => ?_⟩
      obtain rfl := Option.some.inj harr'
      exact compileRes_length (congrArg Prod.fst hcomp)
    · exact absurd (Prod.mk.inj hrun).1 (by decide)

/-- Finalized tables that passed the loader's checks are a loaded database. -/
theorem loaded_of_finalize {pf : Platform} {t : Tables} {poolNext : UInt8} {db : SigmaDb}
    (hok : t.rangesOk = true) (hfields : t.fields.length < 2 ^ 32)
    (hndl : t.litndl.length < 2 ^ 32) (hrules : t.rules.length < 2 ^ 32)
    (hrun : sigmaDbFinalize pf (fun _ => true) (t.toDb poolNext) = (0, db)) : db.Loaded := by
  obtain ⟨hbase, hidx, hre⟩ := sigmaDbFinalize_fresh (fresh_toDb t poolNext) hrun
  have htab : db.toTables = t := hbase.toTables
  have hscan : (Tables.avScan t.bucketKeys 0 none).isSome := by
    simp only [Tables.rangesOk, Bool.and_eq_true] at hok
    exact hok.1.1.1.1.1.1.1.2
  obtain ⟨av, hav⟩ := Option.isSome_iff_exists.mp hscan
  refine
    { toIndexed := hidx
      valid := by rw [htab]; exact Tables.valid_of_rangesOk hok
      countFields := by rwa [htab]
      countNdl := by rwa [htab]
      countRules := by rwa [htab]
      avBucket := fun j => ?_
      catFieldId := ?_
      re := hre }
  · rw [hbase.avBucket, htab]
    change (Tables.avScan t.bucketKeys 0 none).getD none = some j ↔ _
    rw [hav, Option.getD_some, (Tables.avScan_eq_some hav).2 rfl j]
    simp
  · rw [hbase.catFieldId, htab]
    rfl

/-- The size of the header of a buffer, by its version. -/
def hdrSizeOf (buf : Bytes) : ℕ :=
  if Codec.u32.dec (slice buf 4 4) = 4 then hdrV4Size else hdrSize

/-- What acceptance means: the size in the header and the check sum are right, the header's tables
passed every check, and finalizing them gave the database. -/
theorem loadBuffer_eq_ok {pf : Platform} {buf : Bytes} {db : SigmaDb}
    (h : sigmaDbLoadBuffer pf buf = .ok db) :
    hdrSizeOf buf + 4 ≤ buf.length ∧
      (readHdr buf (hdrSizeOf buf)).totalSize.toNat = buf.length ∧
      sigmaCrc32c 0 (buf.take (buf.length - 4)) = Codec.u32.dec (slice buf (buf.length - 4) 4) ∧
      ((readHdr buf (hdrSizeOf buf)).tables buf).rangesOk = true ∧
      ∃ poolNext, sigmaDbFinalize pf (fun _ => true)
        (((readHdr buf (hdrSizeOf buf)).tables buf).toDb poolNext) = (0, db) := by
  unfold sigmaDbLoadBuffer at h
  dsimp only at h
  rw [← hdrSizeOf] at h
  split at h
  · cases h
  split at h
  · cases h
  split at h
  · cases h
  split at h
  · cases h
  rename_i hlen
  split at h
  · cases h
  rename_i hsize
  split at h
  · cases h
  split at h
  · cases h
  rename_i hcrc
  split at h
  · cases h
  rename_i hranges
  split at h
  · rename_i hfin
    obtain rfl := Except.ok.inj h
    exact ⟨Nat.le_of_not_lt hlen, not_not.mp hsize, not_not.mp hcrc, by simpa using hranges, _, hfin⟩
  · cases h

/-- Up to its pattern table, an accepted database is what the prefilter part of finalizing made of
its tables. -/
theorem finalized_of_loadBuffer {pf : Platform} {buf : Bytes} {db : SigmaDb}
    (h : sigmaDbLoadBuffer pf buf = .ok db) :
    ∃ db₀ built db₁, db₀.Fresh ∧ db.toTables = db₀.toTables ∧
      finalizeTeddy (fun _ => true) db₀ = (0, built, db₁) ∧
      db.bucketFields = db₁.bucketFields ∧ db.fieldTeddy = db₁.fieldTeddy ∧
      db.litAnyField = db₁.litAnyField := by
  obtain ⟨-, -, -, -, poolNext, hfin⟩ := loadBuffer_eq_ok h
  have hfresh := fresh_toDb ((readHdr buf (hdrSizeOf buf)).tables buf) poolNext
  obtain ⟨hbase, -⟩ := sigmaDbFinalize_fresh hfresh hfin
  obtain ⟨built, db₁, hrun, -, hre, -⟩ := finalizeTeddy_fresh hfresh
  refine ⟨_, built, db₁, hfresh, hbase.toTables, hrun, ?_⟩
  rw [sigmaDbFinalize, hrun] at hfin
  simp only [hre, Option.isSome_none, Bool.false_eq_true, if_false, if_true] at hfin
  split at hfin
  · obtain rfl := (Prod.mk.inj hfin).2
    exact ⟨rfl, rfl, rfl⟩
  · split at hfin
    · obtain rfl := (Prod.mk.inj hfin).2
      exact ⟨rfl, rfl, rfl⟩
    · exact absurd (Prod.mk.inj hfin).1 (by decide)

/-- **An accepted buffer gives a loaded database.** -/
theorem loaded_of_loadBuffer {pf : Platform} {buf : Bytes} {db : SigmaDb}
    (h : sigmaDbLoadBuffer pf buf = .ok db) : db.Loaded := by
  obtain ⟨-, -, -, hranges, poolNext, hfin⟩ := loadBuffer_eq_ok h
  have hcount : ∀ n : UInt32, n.toNat < 2 ^ 32 := UInt32.toNat_lt
  exact loaded_of_finalize hranges (by simpa [SigmaHdr.tables] using hcount _)
    (by simpa [SigmaHdr.tables] using hcount _) (by simpa [SigmaHdr.tables] using hcount _) hfin

end LibSigma
