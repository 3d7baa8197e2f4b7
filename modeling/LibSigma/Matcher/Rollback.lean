import LibSigma.Matcher.RoundTrip

/-!
# What a failed finalize leaves behind

`sigma_db_finalize` builds in stages, and each failure takes back what its author remembered: the
matchers, never the bitmaps, the any-field flag or the count of skipped patterns.

## The question

The header says what a failed call returns and is silent about the database it leaves.  A caller
that goes on with it, or calls again, relies on its being as before.  So the claim compares the
derived members after a failure with those before the call: all empty again, and the counters
unchanged (`LeftAsBefore`).  It is asked of a database in which nothing is derived yet
(`NothingDerived`), as the loader makes it.

## The answer in terms of the inputs

Which stage fails is a question about the allocations, the patterns and the tables, and is answered
by predicates on these, one per stage (`FieldTeddyFails`, `ReFails` and so on), before anything is
run.  `LeavesBehind` is made of them, and has three ways: the bitmaps, when something later fails;
the flag, when the patterns fail; the count, when a pattern is missing behind one that was refused.
The theorem is an equivalence for every failing call.

## How it is proved

Each stage has one record of what it returns and leaves, for every outcome (`BitmapStep`,
`MatcherStep`, `TeddyStage`).  The prefilter stage is put together from two of them, and the whole
call from that and the loop over the patterns.  No later proof unfolds a builder.

* `teddyStage`: what the prefilter stage returns and leaves, for every outcome of its allocations.
* `finalize_clean_iff`: **a failure leaves nothing behind exactly when it comes before the bitmaps
  and the flag, and no pattern was skipped before the one that is missing.**
-/

namespace LibSigma

open Library

variable {pf : Platform} {mem : AllocSite → Bool} {db : SigmaDb}

/-- The derived members are empty. -/
structure SigmaDb.NothingDerived (db : SigmaDb) : Prop where
  teddy : db.teddy = none
  fieldTeddy : db.fieldTeddy = none
  bucketFields : db.bucketFields = none
  re : db.re = none

/-- The derived members are empty again, and the counters are those of before. -/
structure SigmaDb.LeftAsBefore (db db' : SigmaDb) : Prop where
  teddy : db'.teddy = none
  fieldTeddy : db'.fieldTeddy = none
  bucketFields : db'.bucketFields = none
  re : db'.re = none
  nReSkipped : db'.nReSkipped = db.nReSkipped
  litAnyField : db'.litAnyField = db.litAnyField

/-! ## Which stage fails

Predicates on the tables, the allocations and the patterns.  None of them runs the finalizer; each
says by itself under which inputs a stage has something to do and cannot do it. -/

section Conditions

variable (mem : AllocSite → Bool) (db : SigmaDb)

/-- Some posting is unscoped. -/
def SigmaDb.anyField : Bool := db.litpostRef.any (·.fieldId == sigmaLitrefAnyField)

/-- The prefilter stage gets to the buckets, and there are buckets and fields. -/
def SigmaDb.MapsBuckets : Prop :=
  db.litndl ≠ [] ∧ mem .teddy = true ∧ db.bucketKeys ≠ [] ∧ db.fields ≠ []

/-- `build_bucket_fields` stores the bitmaps. -/
def SigmaDb.BuildsBitmaps : Prop :=
  db.MapsBuckets mem ∧ db.anyField = false ∧ mem .bucketFields = true

/-- `build_bucket_fields` sets the any-field flag, which was clear. -/
def SigmaDb.RaisesFlag : Prop :=
  db.MapsBuckets mem ∧ db.anyField = true ∧ db.litAnyField = false

/-- `build_bucket_fields` runs out of memory. -/
def SigmaDb.BucketFieldsFail : Prop :=
  db.MapsBuckets mem ∧ db.anyField = false ∧ mem .bucketFields = false

/-- `build_field_teddy` has something to build and runs out of memory. -/
def SigmaDb.FieldTeddyFails : Prop :=
  db.fields ≠ [] ∧ db.litpostRef ≠ [] ∧ db.litAnyField = false ∧
    ¬ (db.bucketKeys ≠ [] ∧ db.anyField = true) ∧ mem .fieldTeddy = false

/-- The prefilter stage has nothing to do, or does it. -/
def SigmaDb.TeddyStageOk : Prop :=
  db.litndl = [] ∨ mem .teddy = true ∧ ¬ db.BucketFieldsFail mem ∧ ¬ db.FieldTeddyFails mem

/-- There are patterns, and no memory for their table or one that is missing. -/
def SigmaDb.ReFails : Prop :=
  (∃ p ∈ db.preds, p.isRe = true) ∧ (mem .reTable = false ∨ ¬ db.ReOk)

/-- A pattern that PCRE2 refuses. -/
def SkippedRe (pf : Platform) (t : Tables) (p : SigmaPred) : Prop :=
  p.isRe = true ∧ ∃ s, t.values[p.valueId.toNat]? = some s ∧
    pf.pcre2Compiles ⟨t.str s, p.flags &&& sigmaPfCase == 0⟩ = false

/-- The compilation loop meets a refused pattern before a missing one. -/
def SkipsBefore (pf : Platform) (t : Tables) (ps : List SigmaPred) : Prop :=
  ∃ pre p post, ps = pre ++ p :: post ∧ SkippedRe pf t p ∧
    ∀ q ∈ pre, q.isRe = true → q.valueId.toNat < t.values.length

/-- What a failure does not take back: the bitmaps when a later step fails, the flag when the
patterns fail, the count when a pattern is missing after a refused one. -/
def SigmaDb.LeavesBehind (pf : Platform) : Prop :=
  (db.BuildsBitmaps mem ∧ (db.FieldTeddyFails mem ∨ db.ReFails mem)) ∨
    (db.RaisesFlag mem ∧ db.ReFails mem) ∨
      (db.TeddyStageOk mem ∧ mem .reTable = true ∧ ¬ db.ReOk ∧
        SkipsBefore pf db.toTables db.preds)

end Conditions

/-! ## The prefilter stage

The full matcher is built first, then the bitmaps with the flag, then the matchers of the fields.  A
failure of the last frees all matchers.  The bitmaps and the flag stay. -/

/-- What the prefilter stage returns and leaves. -/
structure TeddyStage (mem : AllocSite → Bool) (db : SigmaDb) (rc : Int) (built : Bool)
    (db' : SigmaDb) : Prop where
  code : rc = 0 ↔ db.TeddyStageOk mem
  base : db.SameBase db'
  re : db'.re = none
  skipped : db'.nReSkipped = db.nReSkipped
  flag : db'.litAnyField = true ↔ db.litAnyField = true ∨ db.RaisesFlag mem
  bitmaps : db'.bucketFields = none ↔ ¬ db.BuildsBitmaps mem
  failed : rc ≠ 0 → db'.teddy = none ∧ db'.fieldTeddy = none
  unbuilt : rc = 0 →
    (unbuildTeddy built db').teddy = none ∧ (unbuildTeddy built db').fieldTeddy = none

/-- The two steps behind the full matcher leave the tables and the patterns alone. -/
structure KeepsRest (db db' : SigmaDb) : Prop where
  base : db.SameBase db'
  teddy : db'.teddy = db.teddy
  re : db'.re = db.re
  skipped : db'.nReSkipped = db.nReSkipped

theorem KeepsRest.refl (db : SigmaDb) : KeepsRest db db := ⟨.refl db, rfl, rfl, rfl⟩

/-- The bitmaps of the buckets: their outcome. -/
theorem buildBucketFields_cases (mem : AllocSite → Bool) (hbf : db.bucketFields = none) :
    ∃ ok db', buildBucketFields mem db = (ok, db') ∧ KeepsRest db db' ∧
      db'.fieldTeddy = db.fieldTeddy ∧
      (ok = false ↔ db.bucketKeys ≠ [] ∧ db.fields ≠ [] ∧ db.anyField = false ∧
        mem .bucketFields = false) ∧
      (db'.bucketFields = none ↔ ¬ (db.bucketKeys ≠ [] ∧ db.fields ≠ [] ∧ db.anyField = false ∧
        mem .bucketFields = true)) ∧
      (db'.litAnyField = true ↔ db.litAnyField = true ∨
        db.bucketKeys ≠ [] ∧ db.fields ≠ [] ∧ db.anyField = true ∧ db.litAnyField = false) := by
  rw [buildBucketFields]
  by_cases hzero : db.bucketKeys.length = 0 ∨ db.fields.length = 0
  · rw [if_pos hzero]
    have hnot : ¬ (db.bucketKeys ≠ [] ∧ db.fields ≠ []) := by
      rw [List.length_eq_zero_iff, List.length_eq_zero_iff] at hzero
      tauto
    exact ⟨true, db, rfl, .refl db, rfl, iff_of_false (by decide) fun h => hnot ⟨h.1, h.2.1⟩,
      iff_of_true hbf fun h => hnot ⟨h.1, h.2.1⟩, (or_iff_left fun h => hnot ⟨h.1, h.2.1⟩).symm⟩
  rw [if_neg hzero]
  rw [List.length_eq_zero_iff, List.length_eq_zero_iff, not_or] at hzero
  obtain ⟨hkeys, hfields⟩ := hzero
  by_cases hany : db.anyField = true
  · have hany' : db.litpostRef.any (·.fieldId == sigmaLitrefAnyField) = true := hany
    have hscoped : ¬ db.anyField = false := fun h => absurd (hany.symm.trans h) (by decide)
    rw [if_pos hany']
    refine ⟨true, _, rfl, ⟨⟨rfl, rfl, rfl, rfl⟩, rfl, rfl, rfl⟩, rfl,
      iff_of_false (by decide) fun h => hscoped h.2.2.1, iff_of_true hbf fun h => hscoped h.2.2.1,
      iff_of_true rfl ?_⟩
    cases hflag : db.litAnyField with
    | true => exact Or.inl rfl
    | false => exact Or.inr ⟨hkeys, hfields, hany, rfl⟩
  · have hany' : ¬ db.litpostRef.any (·.fieldId == sigmaLitrefAnyField) = true := hany
    have hscoped : db.anyField = false := Bool.eq_false_iff.mpr hany
    have hflag : db.litAnyField = true ↔ db.litAnyField = true ∨
        db.bucketKeys ≠ [] ∧ db.fields ≠ [] ∧ db.anyField = true ∧ db.litAnyField = false :=
      (or_iff_left fun h => hany h.2.2.1).symm
    rw [if_neg hany']
    dsimp only
    by_cases hmem : mem .bucketFields = true
    · rw [if_pos hmem]
      refine ⟨true, _, rfl, ⟨⟨rfl, rfl, rfl, rfl⟩, rfl, rfl, rfl⟩, rfl, iff_of_false (by decide) ?_,
        iff_of_false (Option.some_ne_none _) ?_, hflag⟩
      · rintro ⟨-, -, -, hfail⟩
        exact absurd (hmem.symm.trans hfail) (by decide)
      · exact not_not.mpr ⟨hkeys, hfields, hscoped, hmem⟩
    · rw [if_neg hmem]
      exact ⟨false, db, rfl, .refl db, rfl,
        iff_of_true rfl ⟨hkeys, hfields, hscoped, Bool.eq_false_iff.mpr hmem⟩,
        iff_of_true hbf fun h => hmem h.2.2.2, hflag⟩

/-- The matchers of the fields: their outcome. -/
theorem buildFieldTeddy_cases (mem : AllocSite → Bool) (hndl : db.litndl ≠ []) :
    ∃ ok db', buildFieldTeddy mem db = (ok, db') ∧ KeepsRest db db' ∧
      db'.bucketFields = db.bucketFields ∧ db'.litAnyField = db.litAnyField ∧
      (ok = false ↔ db.fields ≠ [] ∧ db.litpostRef ≠ [] ∧ db.litAnyField = false ∧
        mem .fieldTeddy = false) := by
  rw [buildFieldTeddy]
  by_cases hzero : db.fields.length = 0 ∨ db.litndl.length = 0 ∨ db.litpostRef = []
  · rw [if_pos hzero]
    refine ⟨true, db, rfl, .refl db, rfl, rfl, iff_of_false (by decide) ?_⟩
    rintro ⟨hfields, hpost, -⟩
    rcases hzero with h | h | h
    · exact hfields (List.length_eq_zero_iff.mp h)
    · exact hndl (List.length_eq_zero_iff.mp h)
    · exact hpost h
  rw [if_neg hzero]
  push Not at hzero
  have hfields : db.fields ≠ [] := fun h => hzero.1 (List.length_eq_zero_iff.mpr h)
  by_cases hany : db.litAnyField = true
  · rw [if_pos hany]
    refine ⟨true, db, rfl, .refl db, rfl, rfl, iff_of_false (by decide) ?_⟩
    rintro ⟨-, -, hclear, -⟩
    exact absurd (hany.symm.trans hclear) (by decide)
  rw [if_neg hany]
  by_cases hmem : mem .fieldTeddy = true
  · rw [if_pos hmem]
    refine ⟨true, _, rfl, ⟨⟨rfl, rfl, rfl, rfl⟩, rfl, rfl, rfl⟩, rfl, rfl,
      iff_of_false (by decide) ?_⟩
    rintro ⟨-, -, -, hfail⟩
    exact absurd (hmem.symm.trans hfail) (by decide)
  · rw [if_neg hmem]
    exact ⟨false, db, rfl, .refl db, rfl, rfl, iff_of_true rfl
      ⟨hfields, hzero.2.2, Bool.eq_false_iff.mpr hany, Bool.eq_false_iff.mpr hmem⟩⟩

/-- Behind `build_bucket_fields` the matchers of the fields fail as the tables say. -/
theorem fieldTeddyFails_iff (hndl : db.litndl ≠ []) (hteddy : mem .teddy = true) {flag : Bool}
    (hflag : flag = true ↔ db.litAnyField = true ∨ db.RaisesFlag mem) :
    (db.fields ≠ [] ∧ db.litpostRef ≠ [] ∧ flag = false ∧ mem .fieldTeddy = false) ↔
      db.FieldTeddyFails mem := by
  constructor
  · rintro ⟨hfields, hpost, hclear, hmem⟩
    have hnot : ¬ (db.litAnyField = true ∨ db.RaisesFlag mem) := by
      rw [← hflag, hclear]
      decide
    have hbefore : db.litAnyField = false := Bool.eq_false_iff.mpr fun h => hnot (Or.inl h)
    refine ⟨hfields, hpost, hbefore, ?_, hmem⟩
    rintro ⟨hkeys, hany⟩
    exact hnot (Or.inr ⟨⟨hndl, hteddy, hkeys, hfields⟩, hany, hbefore⟩)
  · rintro ⟨hfields, hpost, hbefore, hscoped, hmem⟩
    refine ⟨hfields, hpost, ?_, hmem⟩
    rw [← Bool.not_eq_true, hflag, not_or]
    refine ⟨by rw [hbefore]; decide, ?_⟩
    rintro ⟨⟨-, -, hkeys, -⟩, hany, -⟩
    exact hscoped ⟨hkeys, hany⟩

/-- What the bitmaps leave, built behind the full matcher. -/
structure BitmapStep (mem : AllocSite → Bool) (db : SigmaDb) (ok : Bool) (db' : SigmaDb) :
    Prop where
  fails : ok = false ↔ db.BucketFieldsFail mem
  base : db.SameBase db'
  teddy : db'.teddy = sigmaTeddyBuild db.litndl db.byte
  fieldTeddy : db'.fieldTeddy = none
  re : db'.re = none
  skipped : db'.nReSkipped = db.nReSkipped
  flag : db'.litAnyField = true ↔ db.litAnyField = true ∨ db.RaisesFlag mem
  bitmaps : db'.bucketFields = none ↔ ¬ db.BuildsBitmaps mem

theorem bitmapStep (h : db.NothingDerived) (hndl : db.litndl ≠ []) (hteddy : mem .teddy = true) :
    ∃ ok db', buildBucketFields mem { db with teddy := sigmaTeddyBuild db.litndl db.byte } =
      (ok, db') ∧ BitmapStep mem db ok db' := by
  obtain ⟨db₁, hdb₁⟩ : ∃ x, x = { db with teddy := sigmaTeddyBuild db.litndl db.byte } :=
    ⟨_, rfl⟩
  have hbase₁ : db.SameBase db₁ := by
    rw [hdb₁]
    exact ⟨rfl, rfl, rfl, rfl⟩
  have hnone₁ : db₁.bucketFields = none := by
    rw [hdb₁]
    exact h.bucketFields
  obtain ⟨ok, db₂, hrun, hkeep, hft, hok, hbf, hflag⟩ := buildBucketFields_cases mem hnone₁
  have hmaps : ∀ P : Prop, (db.bucketKeys ≠ [] ∧ db.fields ≠ [] ∧ P) ↔
      (db.MapsBuckets mem ∧ P) := by
    intro P
    constructor
    · rintro ⟨hkeys, hfields, hP⟩
      exact ⟨⟨hndl, hteddy, hkeys, hfields⟩, hP⟩
    · rintro ⟨⟨-, -, hkeys, hfields⟩, hP⟩
      exact ⟨hkeys, hfields, hP⟩
  rw [← hdb₁]
  refine ⟨ok, db₂, hrun, ?_, hbase₁.trans hkeep.base, ?_, ?_, ?_, ?_, ?_, ?_⟩
  · rw [hok, hdb₁]
    exact hmaps _
  · rw [hkeep.teddy, hdb₁]
  · rw [hft, hdb₁]
    exact h.fieldTeddy
  · rw [hkeep.re, hdb₁]
    exact h.re
  · rw [hkeep.skipped, hdb₁]
  · rw [hflag, hdb₁]
    exact or_congr .rfl (hmaps _)
  · rw [hbf, hdb₁]
    exact not_congr (hmaps _)

/-- What the matchers of the fields leave, built behind the bitmaps. -/
structure MatcherStep (mem : AllocSite → Bool) (db : SigmaDb) (ok : Bool) (db' : SigmaDb) :
    Prop where
  fails : ok = false ↔ db.FieldTeddyFails mem
  base : db.SameBase db'
  built : db'.teddy.isSome = true
  re : db'.re = none
  skipped : db'.nReSkipped = db.nReSkipped
  flag : db'.litAnyField = true ↔ db.litAnyField = true ∨ db.RaisesFlag mem
  bitmaps : db'.bucketFields = none ↔ ¬ db.BuildsBitmaps mem

theorem matcherStep (hndl : db.litndl ≠ []) (hteddy : mem .teddy = true) {db₂ : SigmaDb}
    (hstep : BitmapStep mem db true db₂) :
    ∃ ok db', buildFieldTeddy mem db₂ = (ok, db') ∧ MatcherStep mem db ok db' := by
  have hndl₂ : db₂.litndl ≠ [] := by
    rw [hstep.base.toTables]
    exact hndl
  obtain ⟨ok, db₃, hrun, hkeep, hbf, hany, hok⟩ := buildFieldTeddy_cases mem hndl₂
  refine ⟨ok, db₃, hrun, ?_, hstep.base.trans hkeep.base, ?_, hkeep.re.trans hstep.re, ?_, ?_, ?_⟩
  · rw [hok, hstep.base.toTables]
    exact fieldTeddyFails_iff hndl hteddy hstep.flag
  · rw [hkeep.teddy, hstep.teddy, sigmaTeddyBuild, if_neg hndl]
    rfl
  · rw [hkeep.skipped, hstep.skipped]
  · rw [hany, hstep.flag]
  · rw [hbf, hstep.bitmaps]

/-- A stage that fails has freed the matchers. -/
theorem TeddyStage.of_failure {db' : SigmaDb} (hfails : ¬ db.TeddyStageOk mem)
    (hbase : db.SameBase db') (hre : db'.re = none) (hskipped : db'.nReSkipped = db.nReSkipped)
    (hflag : db'.litAnyField = true ↔ db.litAnyField = true ∨ db.RaisesFlag mem)
    (hbitmaps : db'.bucketFields = none ↔ ¬ db.BuildsBitmaps mem) (hteddy : db'.teddy = none)
    (hfieldTeddy : db'.fieldTeddy = none) : TeddyStage mem db (-2) true db' where
  code := iff_of_false (by decide) hfails
  base := hbase
  re := hre
  skipped := hskipped
  flag := hflag
  bitmaps := hbitmaps
  failed _ := ⟨hteddy, hfieldTeddy⟩
  unbuilt hzero := absurd hzero (by decide)

/-- **The prefilter stage.**  The bitmaps and the flag are set by `build_bucket_fields`, which runs
behind the full matcher and before the matchers of the fields. -/
theorem teddyStage (mem : AllocSite → Bool) (h : db.NothingDerived) :
    ∃ rc built db', finalizeTeddy mem db = (rc, built, db') ∧ TeddyStage mem db rc built db' := by
  by_cases hndl : db.litndl = []
  · have hmaps : ¬ db.MapsBuckets mem := fun hmaps => hmaps.1 hndl
    refine ⟨0, false, db, by rw [finalizeTeddy, if_neg fun hcond => hcond.2 hndl], ?_⟩
    exact
      { code := iff_of_true rfl (Or.inl hndl)
        base := .refl db
        re := h.re
        skipped := rfl
        flag := (or_iff_left fun hflag => hmaps hflag.1).symm
        bitmaps := iff_of_true h.bucketFields fun hbits => hmaps hbits.1
        failed := fun hne => absurd rfl hne
        unbuilt := fun _ => ⟨h.teddy, h.fieldTeddy⟩ }
  have hcond : db.teddy.isNone = true ∧ db.litndl ≠ [] := ⟨by rw [h.teddy]; rfl, hndl⟩
  by_cases hteddy : mem .teddy = true
  · obtain ⟨ok₂, db₂, hrun₂, hstep⟩ := bitmapStep h hndl hteddy
    cases ok₂ with
    | false =>
      refine ⟨-2, true, { db₂ with teddy := none }, ?_, ?_⟩
      · rw [finalizeTeddy, if_pos hcond, if_pos hteddy]
        simp only [hrun₂]
      · have hbase := hstep.base
        have hfails : ¬ db.TeddyStageOk mem := fun hok =>
          hok.elim hndl fun hok => hok.2.1 (hstep.fails.mp rfl)
        exact .of_failure hfails
          ⟨hbase.toTables, hbase.poolNext, hbase.avBucket, hbase.catFieldId⟩ hstep.re
          hstep.skipped hstep.flag hstep.bitmaps rfl hstep.fieldTeddy
    | true =>
      obtain ⟨ok₃, db₃, hrun₃, hmatch⟩ := matcherStep hndl hteddy hstep
      have hbase := hmatch.base
      cases ok₃ with
      | false =>
        refine ⟨-2, true, { db₃ with fieldTeddy := none, teddy := none }, ?_, ?_⟩
        · rw [finalizeTeddy, if_pos hcond, if_pos hteddy]
          simp only [hrun₂, hrun₃]
        · have hfails : ¬ db.TeddyStageOk mem := fun hok =>
            hok.elim hndl fun hok => hok.2.2 (hmatch.fails.mp rfl)
          exact .of_failure hfails
            ⟨hbase.toTables, hbase.poolNext, hbase.avBucket, hbase.catFieldId⟩ hmatch.re
            hmatch.skipped hmatch.flag hmatch.bitmaps rfl rfl
      | true =>
        have hbuckets : ¬ db.BucketFieldsFail mem := fun hfails =>
          absurd (hstep.fails.mpr hfails) (by decide)
        have hfields : ¬ db.FieldTeddyFails mem := fun hfails =>
          absurd (hmatch.fails.mpr hfails) (by decide)
        refine ⟨0, true, db₃, ?_, ?_⟩
        · rw [finalizeTeddy, if_pos hcond, if_pos hteddy]
          simp only [hrun₂, hrun₃]
        · exact
            { code := iff_of_true rfl (Or.inr ⟨hteddy, hbuckets, hfields⟩)
              base := hbase
              re := hmatch.re
              skipped := hmatch.skipped
              flag := hmatch.flag
              bitmaps := hmatch.bitmaps
              failed := fun hne => absurd rfl hne
              unbuilt := fun _ => by
                rw [unbuildTeddy, Bool.true_and, if_pos hmatch.built]
                exact ⟨rfl, rfl⟩ }
  · have hmaps : ¬ db.MapsBuckets mem := fun hmaps => hteddy hmaps.2.1
    refine ⟨-2, true, { db with teddy := none }, ?_, ?_⟩
    · rw [finalizeTeddy, if_pos hcond, if_neg hteddy]
    · have hfails : ¬ db.TeddyStageOk mem := fun hok => hok.elim hndl fun hok => hteddy hok.1
      exact .of_failure hfails ⟨rfl, rfl, rfl, rfl⟩ h.re rfl
        (or_iff_left fun hflag => hmaps hflag.1).symm
        (iff_of_true h.bucketFields fun hbits => hmaps hbits.1) rfl h.fieldTeddy

/-! ## The patterns

The loop compiles one pattern after the other and counts those it has to skip.  It stops at a
predicate without a pattern, with the count as it is. -/

theorem not_skipsBefore_nil {t : Tables} : ¬ SkipsBefore pf t [] := by
  rintro ⟨pre, p, post, hsplit, -⟩
  exact absurd hsplit.symm (List.append_ne_nil_of_right_ne_nil pre (by simp))

/-- The first predicate is refused, or it has what it needs and a later one is. -/
theorem skipsBefore_cons {t : Tables} {p : SigmaPred} {ps : List SigmaPred} :
    SkipsBefore pf t (p :: ps) ↔
      SkippedRe pf t p ∨
        (p.isRe = true → p.valueId.toNat < t.values.length) ∧ SkipsBefore pf t ps := by
  constructor
  · rintro ⟨pre, q, post, hsplit, hskip, hpre⟩
    cases pre with
    | nil =>
      obtain ⟨rfl, -⟩ := List.cons.inj hsplit
      exact Or.inl hskip
    | cons p' pre =>
      obtain ⟨rfl, hrest⟩ := List.cons.inj hsplit
      exact Or.inr ⟨hpre p List.mem_cons_self,
        pre, q, post, hrest, hskip, fun q' hq' => hpre q' (List.mem_cons_of_mem _ hq')⟩
  · rintro (hskip | ⟨hp, pre, q, post, rfl, hskip, hpre⟩)
    · exact ⟨[], p, ps, rfl, hskip, fun q hq => absurd hq List.not_mem_nil⟩
    · refine ⟨p :: pre, q, post, rfl, hskip, fun q' hq' => ?_⟩
      rcases List.mem_cons.mp hq' with rfl | hq'
      · exact hp
      · exact hpre q' hq'

/-- **The count of skipped patterns** stays what it was when no pattern is refused before one is
missing. -/
theorem compileRes_skipped {t : Tables} {ps : List SigmaPred} {n : ℕ} :
    n ≤ (compileRes pf t ps n).2 ∧ ((compileRes pf t ps n).2 = n ↔ ¬ SkipsBefore pf t ps) := by
  induction ps generalizing n with
  | nil => exact ⟨le_rfl, iff_of_true rfl not_skipsBefore_nil⟩
  | cons p ps ih =>
    rw [skipsBefore_cons, compileRes]
    by_cases hre : p.isRe = true
    · rw [if_pos hre]
      cases hval : t.values[p.valueId.toNat]? with
      | none =>
        have hmissing : ¬ p.valueId.toNat < t.values.length := fun hlt => by
          rw [List.getElem?_eq_getElem hlt] at hval
          cases hval
        refine ⟨le_rfl, iff_of_true rfl ?_⟩
        rintro (⟨-, s, hs, -⟩ | ⟨hlt, -⟩)
        · rw [hval] at hs
          cases hs
        · exact hmissing (hlt hre)
      | some s =>
        have hlt : p.valueId.toNat < t.values.length := (List.getElem?_eq_some_iff.mp hval).1
        dsimp only
        cases hok : pf.pcre2Compiles ⟨t.str s, p.flags &&& sigmaPfCase == 0⟩ with
        | true =>
          have hnot : ¬ SkippedRe pf t p := by
            rintro ⟨-, s', hs', hbad⟩
            obtain rfl := Option.some.inj (hval.symm.trans hs')
            exact absurd (hok.symm.trans hbad) (by decide)
          rw [if_pos rfl, or_iff_right hnot, and_iff_right fun _ => hlt]
          exact ih
        | false =>
          obtain ⟨hle, -⟩ := ih (n := n + 1)
          rw [if_neg (by decide)]
          exact ⟨by omega, iff_of_false (by omega) (not_not.mpr (Or.inl ⟨hre, s, hval, hok⟩))⟩
    · have hnot : ¬ SkippedRe pf t p := fun hskip => hre hskip.1
      rw [if_neg hre, or_iff_right hnot, and_iff_right fun h => absurd h hre]
      exact ih

/-! ## The whole call -/

/-- What unbuilding leaves alone. -/
theorem unbuildTeddy_keeps (built : Bool) (db : SigmaDb) :
    (unbuildTeddy built db).bucketFields = db.bucketFields ∧
      (unbuildTeddy built db).re = db.re ∧
        (unbuildTeddy built db).nReSkipped = db.nReSkipped ∧
          (unbuildTeddy built db).litAnyField = db.litAnyField := by
  unfold unbuildTeddy
  split
  · exact ⟨rfl, rfl, rfl, rfl⟩
  · exact ⟨rfl, rfl, rfl, rfl⟩

/-- A failed call leaves things as before when no bitmaps were built, the flag was not raised and
no pattern was counted. -/
theorem leftAsBefore_unbuildTeddy_iff {rc : Int} {built : Bool} {db₁ : SigmaDb}
    (hstage : TeddyStage mem db rc built db₁) (hrc : rc = 0) (n : ℕ) :
    db.LeftAsBefore (unbuildTeddy built { db₁ with nReSkipped := n }) ↔
      ¬ db.BuildsBitmaps mem ∧ ¬ db.RaisesFlag mem ∧ n = db.nReSkipped := by
  obtain ⟨hbits, hre, hskip, hflag⟩ := unbuildTeddy_keeps built { db₁ with nReSkipped := n }
  have hunbuilt : (unbuildTeddy built { db₁ with nReSkipped := n }).teddy = none ∧
      (unbuildTeddy built { db₁ with nReSkipped := n }).fieldTeddy = none := by
    have h := hstage.unbuilt hrc
    unfold unbuildTeddy at h ⊢
    split at h
    · rename_i hcond
      rw [if_pos hcond]
      exact ⟨rfl, rfl⟩
    · rename_i hcond
      rw [if_neg hcond]
      exact h
  have hsame : db₁.litAnyField = db.litAnyField ↔ ¬ db.RaisesFlag mem := by
    have hbool : db₁.litAnyField = db.litAnyField ↔
        (db₁.litAnyField = true ↔ db.litAnyField = true) := Bool.eq_iff_iff
    rw [hbool, hstage.flag, or_iff_left_iff_imp]
    refine ⟨fun h hraise => ?_, fun h hraise => absurd hraise h⟩
    exact absurd ((h hraise).symm.trans hraise.2.2) (by decide)
  constructor
  · intro h
    refine ⟨hstage.bitmaps.mp (hbits.symm.trans h.bucketFields), hsame.mp ?_, ?_⟩
    · exact hflag.symm.trans h.litAnyField
    · exact hskip.symm.trans h.nReSkipped
  · rintro ⟨hnobits, hnoflag, rfl⟩
    exact
      { teddy := hunbuilt.1
        fieldTeddy := hunbuilt.2
        bucketFields := hbits.trans (hstage.bitmaps.mpr hnobits)
        re := hre.trans hstage.re
        nReSkipped := hskip
        litAnyField := hflag.trans (hsame.mpr hnoflag) }

/-- A raised flag or stored bitmaps of a failed prefilter stage: the flag keeps the later step from
failing, the bitmaps stay. -/
theorem leavesBehind_of_not_stageOk (pf : Platform) (hstage : ¬ db.TeddyStageOk mem) :
    ¬ db.RaisesFlag mem ∧ (db.LeavesBehind mem pf ↔ db.BuildsBitmaps mem) := by
  have hndl : db.litndl ≠ [] := fun h => hstage (Or.inl h)
  have hfails : ∀ {P : Prop}, mem .teddy = true → ¬ db.BucketFieldsFail mem →
      (db.FieldTeddyFails mem → P) → P := by
    intro P hteddy hbuckets hP
    by_contra hnot
    exact hstage (Or.inr ⟨hteddy, hbuckets, fun hfail => hnot (hP hfail)⟩)
  have hraise : ¬ db.RaisesFlag mem := by
    rintro ⟨hmaps, hany, -⟩
    refine hfails hmaps.2.1 (fun h => absurd (hany.symm.trans h.2.1) (by decide)) ?_
    rintro ⟨-, -, -, hscoped, -⟩
    exact hscoped ⟨hmaps.2.2.1, hany⟩
  refine ⟨hraise, ?_, fun hbits => ?_⟩
  · rintro (⟨hbits, -⟩ | ⟨hflag, -⟩ | ⟨hok, -⟩)
    · exact hbits
    · exact absurd hflag hraise
    · exact absurd hok hstage
  · refine hfails hbits.1.2.1 (fun h => absurd (hbits.2.2.symm.trans h.2.2) (by decide)) ?_
    exact fun hfail => Or.inl ⟨hbits, Or.inl hfail⟩

/-- Behind a stage that went well only the patterns can fail. -/
theorem leavesBehind_of_stageOk (hstage : db.TeddyStageOk mem) :
    db.LeavesBehind mem pf ↔
      db.ReFails mem ∧ (db.BuildsBitmaps mem ∨ db.RaisesFlag mem ∨
        mem .reTable = true ∧ SkipsBefore pf db.toTables db.preds) := by
  have hfields : db.BuildsBitmaps mem → ¬ db.FieldTeddyFails mem := by
    rintro ⟨hmaps, -⟩
    exact hstage.elim (fun hndl => absurd hndl hmaps.1) fun h => h.2.2
  have hre : ¬ db.ReOk → ∃ p ∈ db.preds, p.isRe = true := by
    intro hbad
    by_contra hnone
    exact hbad fun p hp hpre => absurd ⟨p, hp, hpre⟩ hnone
  constructor
  · rintro (⟨hbits, hfail | hfail⟩ | ⟨hflag, hfail⟩ | ⟨-, hmem, hbad, hskip⟩)
    · exact absurd hfail (hfields hbits)
    · exact ⟨hfail, Or.inl hbits⟩
    · exact ⟨hfail, Or.inr (Or.inl hflag)⟩
    · exact ⟨⟨hre hbad, Or.inr hbad⟩, Or.inr (Or.inr ⟨hmem, hskip⟩)⟩
  · rintro ⟨hfail, hbits | hflag | ⟨hmem, hskip⟩⟩
    · exact Or.inl ⟨hbits, Or.inr hfail⟩
    · exact Or.inr (Or.inl ⟨hflag, hfail⟩)
    · have hbad : ¬ db.ReOk :=
        hfail.2.resolve_left fun hnone => absurd (hmem.symm.trans hnone) (by decide)
      exact Or.inr (Or.inr ⟨hstage, hmem, hbad, hskip⟩)

/-- The call behind a prefilter stage that went well. -/
theorem sigmaDbFinalize_of_stage {rc : Int} {built : Bool} {db₁ : SigmaDb}
    (hrun : finalizeTeddy mem db = (rc, built, db₁)) (hspec : TeddyStage mem db rc built db₁)
    (hrc : rc = 0) :
    sigmaDbFinalize pf mem db =
      if db.preds.all (!·.isRe) then (0, db₁)
      else if mem .reTable then
        match compileRes pf db.toTables db.preds db.nReSkipped with
        | (some arr, skipped) => (0, { db₁ with re := some arr, nReSkipped := skipped })
        | (none, skipped) => (-1, unbuildTeddy built { db₁ with nReSkipped := skipped })
      else (-2, unbuildTeddy built { db₁ with nReSkipped := db.nReSkipped }) := by
  subst hrc
  have hnone : ¬ db₁.re.isSome = true := by
    rw [hspec.re]
    exact Bool.false_ne_true
  rw [sigmaDbFinalize, hrun, ← hspec.base.toTables, ← hspec.skipped]
  exact if_neg hnone

/-- **When a failed finalize leaves nothing behind.**  Whatever allocations fail and whatever
patterns PCRE2 refuses: the derived members are empty again and the counters are those of before
exactly when no later step fails behind the bitmaps or the raised flag, and no pattern is refused
before one is missing. -/
theorem finalize_clean_iff (pf : Platform) (mem : AllocSite → Bool) {db : SigmaDb}
    (h : db.NothingDerived) :
    ((sigmaDbFinalize pf mem db).1 ≠ 0 → db.LeftAsBefore (sigmaDbFinalize pf mem db).2) ↔
      ¬ db.LeavesBehind mem pf := by
  obtain ⟨rc, built, db₁, hrun, hspec⟩ := teddyStage mem h
  by_cases hrc : rc = 0
  · have hok : db.TeddyStageOk mem := hspec.code.mp hrc
    rw [leavesBehind_of_stageOk hok, sigmaDbFinalize_of_stage hrun hspec hrc]
    by_cases hall : db.preds.all (!·.isRe) = true
    · have hno : ¬ ∃ p ∈ db.preds, p.isRe = true := by
        rintro ⟨p, hp, hpre⟩
        have hnot := List.all_eq_true.mp hall p hp
        rw [hpre] at hnot
        exact absurd hnot (by decide)
      rw [if_pos hall]
      exact iff_of_true (fun hne => absurd rfl hne) fun hleaves => hno hleaves.1.1
    · have hsome : ∃ p ∈ db.preds, p.isRe = true := by
        by_contra hno
        refine hall (List.all_eq_true.mpr fun p hp => ?_)
        cases hpre : p.isRe with
        | false => rfl
        | true => exact absurd ⟨p, hp, hpre⟩ hno
      rw [if_neg hall]
      by_cases hmem : mem .reTable = true
      · rw [if_pos hmem]
        have hcompiled : (compileRes pf db.toTables db.preds db.nReSkipped).1.isSome ↔ _ :=
          compileRes_isSome_iff
        have hcount : (compileRes pf db.toTables db.preds db.nReSkipped).2 = db.nReSkipped ↔ _ :=
          compileRes_skipped.2
        rcases hres : compileRes pf db.toTables db.preds db.nReSkipped with ⟨_ | arr, skipped⟩
        all_goals rw [hres] at hcompiled hcount
        · have hbad : ¬ db.ReOk := fun hre => Bool.false_ne_true (hcompiled.mpr hre)
          have hfails : db.ReFails mem := ⟨hsome, Or.inr hbad⟩
          have hne : (-1 : Int) ≠ 0 := by decide
          show ((-1 : Int) ≠ 0 → db.LeftAsBefore (unbuildTeddy built _)) ↔ _
          rw [forall_prop_of_true hne, leftAsBefore_unbuildTeddy_iff hspec hrc,
            and_iff_right hfails, not_or, not_or, and_iff_right hmem]
          exact and_congr_right fun _ => and_congr_right fun _ => hcount
        · have hgood : db.ReOk := hcompiled.mp rfl
          refine iff_of_true (fun hne => absurd rfl hne) ?_
          rintro ⟨⟨-, hnomem | hbad⟩, -⟩
          · exact absurd (hmem.symm.trans hnomem) (by decide)
          · exact hbad hgood
      · have hfails : db.ReFails mem := ⟨hsome, Or.inl (Bool.eq_false_iff.mpr hmem)⟩
        have hne : (-2 : Int) ≠ 0 := by decide
        rw [if_neg hmem, forall_prop_of_true hne, leftAsBefore_unbuildTeddy_iff hspec hrc,
          and_iff_right hfails, not_or, not_or]
        refine and_congr_right fun _ => and_congr_right fun _ => ?_
        exact iff_of_true rfl fun h => hmem h.1
  · have hbad : ¬ db.TeddyStageOk mem := fun hok => hrc (hspec.code.mpr hok)
    obtain ⟨hraise, hleaves⟩ := leavesBehind_of_not_stageOk pf hbad
    have hresult : sigmaDbFinalize pf mem db = (rc, db₁) := by
      rw [sigmaDbFinalize, hrun]
      split
      · rename_i heq
        exact absurd (Prod.mk.inj heq).1 hrc
      · rename_i heq
        cases heq
        rfl
    rw [hresult, hleaves]
    constructor
    · exact fun hclean => hspec.bitmaps.mp (hclean hrc).bucketFields
    · intro hnobits _
      obtain ⟨hteddy, hft⟩ := hspec.failed hrc
      refine ⟨hteddy, hft, hspec.bitmaps.mpr hnobits, hspec.re, hspec.skipped, ?_⟩
      rw [Bool.eq_iff_iff, hspec.flag, or_iff_left hraise]

/-- The small artifact with a pattern predicate that names no value. -/
def missingPattern : Tables :=
  { sampleTables with preds := [⟨0, 0, 9, 0, .replicate 2 0, sigmaNoValue, .replicate 4 0, 0⟩] }

/-- Finalizing it fails, and the bitmaps stay. -/
theorem missingPattern_leaves_bitmaps :
    ¬ ∀ (pf : Platform) (mem : AllocSite → Bool) (db : SigmaDb), db.NothingDerived →
      (sigmaDbFinalize pf mem db).1 ≠ 0 → db.LeftAsBefore (sigmaDbFinalize pf mem db).2 := by
  intro hclaim
  have hleft := hclaim samplePlatform (fun _ => true) (missingPattern.toDb 0) ⟨rfl, rfl, rfl, rfl⟩
    (by decide)
  exact absurd hleft.bucketFields (by decide)

/-- The theorem at that artifact. -/
theorem finalize_clean_iff_sample :
    ((sigmaDbFinalize samplePlatform (fun _ => true) (missingPattern.toDb 0)).1 ≠ 0 →
      (missingPattern.toDb 0).LeftAsBefore
        (sigmaDbFinalize samplePlatform (fun _ => true) (missingPattern.toDb 0)).2) ↔
      ¬ (missingPattern.toDb 0).LeavesBehind (fun _ => true) samplePlatform :=
  finalize_clean_iff samplePlatform (fun _ => true) ⟨rfl, rfl, rfl, rfl⟩

end LibSigma
