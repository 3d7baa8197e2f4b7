import LibSigma.Matcher.FieldReads
import LibSigma.Matcher.Lossless

/-!
# The bitmap of a bucket and what its rules read

`build_bucket_fields` collects the `field_id` of every predicate of a bucket's rules, and the
comment above it says that the bitmap only skips fields no rule in the bucket reads.  A FIELDREF
predicate reads a second field, its operand, whose bit is not set.

## Read by some evaluation

"Read by no rule" speaks of all events, and the code's reads depend on the event.  So the claim is
stated over evaluations: from a scratch that is right for some event, some rule of the bucket
resolves the field.  A bit that is clear then has two sides.  That no evaluation gets to a predicate
on the field follows from the way the bitmap is built; that none gets to it as an operand does not,
and is the condition.

## The width of a row

The number of bytes of a row is computed in 32 bits from the number of fields, and for the last few
field counts that sum wraps.  There the row has no bytes, the builder writes past its allocation and
the reader finds every bit clear; so in that case a predicate on the field is a second way to be
wrong (`StrideWraps`).

The prefilter is not led astray by the gap, since it asks about fields with needles posted to them,
and an operand of a comparison between fields has no needle.  That is shown where the prefilter is
(`LibSigma.Matcher.Lossless`); here the comment is measured against the code.

* `bucketFields_isSome`: which artifacts get bitmaps.
* `bitmap_skips_unread_iff`: **a field whose bit is clear is unread exactly when no evaluation gets
  to a FIELDREF operand that names it**, where the stride does not wrap.
* `bitmap_skips_unread_of_no_fieldref`: so it is when the bucket has no such predicate.
* `bitmap_misses_operand`: a small artifact where the bit is clear and the field is read.
-/

namespace LibSigma

open Library

section Bitmap

variable {pf : Platform} {db : SigmaDb} {buf : Bytes} {b f : ℕ}

/-- Some evaluation of a rule of bucket `b` on some event resolves field `f`: from a scratch that is
right for the event and has an empty log. -/
def BucketResolves (pf : Platform) (db : SigmaDb) (b f : ℕ) : Prop :=
  ∃ i ∈ bucketRules db b, ∃ r, db.rules[i]? = some r ∧ ∃ ev e, MemoOk db ev e ∧ e.log = [] ∧
    ∃ v e', (ruleMatch pf db ev r).run e = .ok (v, e') ∧ Obs.resolve f ∈ e'.log

/-- Some evaluation of a rule of bucket `b` on some event gets to a FIELDREF operand that is field
`f`. -/
def BucketReachesOperand (pf : Platform) (db : SigmaDb) (b f : ℕ) : Prop :=
  ∃ i ∈ bucketRules db b, ∃ r, db.rules[i]? = some r ∧ ∃ ev, ∃ p ∈ ruleVisits pf db ev r,
    OperandReads db ev p f

/-- Some evaluation of a rule of bucket `b` on some event gets to a predicate on field `f`. -/
def BucketTests (pf : Platform) (db : SigmaDb) (b f : ℕ) : Prop :=
  ∃ i ∈ bucketRules db b, ∃ r, db.rules[i]? = some r ∧ ∃ ev, ∃ p ∈ ruleVisits pf db ev r,
    p.fieldId.toNat = f

/-- `n_fields + 7u` wraps: the rows of the bitmap have no bytes.  The builder then writes past its
allocation; here those writes are lost and every bit is clear. -/
def StrideWraps (db : SigmaDb) : Prop := 2 ^ 32 - 7 ≤ db.fields.length

/-- What an evaluation resolves. -/
theorem resolve_mem_log_iff (hdb : db.Loaded) {r : SigmaRule} (hr : r ∈ db.rules) {ev : Event}
    {e e' : SigmaEval} (he : MemoOk db ev e) (hlog : e.log = []) {v : Bool}
    (hrun : (ruleMatch pf db ev r).run e = .ok (v, e')) :
    Obs.resolve f ∈ e'.log ↔
      ∃ p ∈ ruleVisits pf db ev r, p.fieldId.toNat = f ∨ OperandReads db ev p f := by
  have hnil : e.fieldReads = [] := by
    rw [SigmaEval.fieldReads, hlog]
    rfl
  rw [← mem_fieldReads, ruleMatch_reads hdb hr e he v e' hrun, hnil, List.nil_append,
    List.mem_flatMap]
  simp only [mem_predReads]

theorem any_unscoped_eq_false {t : Tables} (hscoped : t.Scoped) :
    t.litpostRef.any (·.fieldId == sigmaLitrefAnyField) = false := by
  rw [List.any_eq_false]
  exact fun r hr heq => hscoped r hr (beq_iff_eq.mp heq)

/-- Without an unscoped posting the buckets get their bitmap. -/
theorem buildBucketFields_isSome {db' : SigmaDb}
    (hrun : buildBucketFields (fun _ => true) db = (true, db')) (hkeys : db.bucketKeys ≠ [])
    (hfields : db.fields ≠ []) (hscoped : db.Scoped) : db'.bucketFields.isSome := by
  have hnonzero : ¬ (db.bucketKeys.length = 0 ∨ db.fields.length = 0) := by
    simp [List.length_eq_zero_iff, hkeys, hfields]
  rw [buildBucketFields, if_neg hnonzero, any_unscoped_eq_false hscoped, if_neg (by decide)] at hrun
  obtain rfl := (Prod.mk.inj hrun).2
  rfl

/-- The rest of finalizing leaves the bitmaps alone. -/
theorem finalizeTeddy_bucketFields (hfresh : db.Fresh) (hndl : db.litndl ≠ [])
    (hkeys : db.bucketKeys ≠ []) (hfields : db.fields ≠ []) (hscoped : db.Scoped) :
    (finalizeTeddy (fun _ => true) db).2.2.bucketFields.isSome := by
  obtain ⟨db₂, db₃, hrun₂, -, -, hbf₃, -, hrun⟩ := finalizeTeddy_stages hfresh hndl
  rw [hrun]
  dsimp only
  rw [hbf₃]
  exact buildBucketFields_isSome hrun₂ hkeys hfields hscoped

/-- Which artifacts get bitmaps: those with needles, buckets and fields and no unscoped posting. -/
theorem bucketFields_isSome (hload : sigmaDbLoadBuffer pf buf = .ok db) (hndl : db.litndl ≠ [])
    (hkeys : db.bucketKeys ≠ []) (hfields : db.fields ≠ []) (hscoped : db.Scoped) :
    db.bucketFields.isSome := by
  obtain ⟨db₀, built, db₁, hfresh, htab, hrun, hbf, -⟩ := finalized_of_loadBuffer hload
  have hsome := finalizeTeddy_bucketFields hfresh (htab ▸ hndl) (htab ▸ hkeys) (htab ▸ hfields)
    (htab ▸ hscoped)
  rw [hrun] at hsome
  rwa [hbf]

/-- A clear bit: no predicate of a rule of the bucket is on the field. -/
theorem fieldId_ne_of_clear (hload : sigmaDbLoadBuffer pf buf = .ok db)
    (hrow : ¬ StrideWraps db) (hclear : bucketUsesField db b f = false) {i : ℕ}
    (hi : i ∈ bucketRules db b) {r : SigmaRule} (hr : db.rules[i]? = some r) {p : SigmaPred}
    (hp : p ∈ db.rulePreds r) : p.fieldId.toNat ≠ f := by
  rintro rfl
  have hdb := loaded_of_loadBuffer hload
  have hlt : p.fieldId.toNat < db.fields.length := by
    obtain ⟨s, -, hps⟩ := List.mem_flatMap.mp hp
    obtain ⟨j, -, hj⟩ := mem_slice.mp hps
    exact hdb.valid.predField p (List.mem_of_getElem? hj)
  cases hbk : db.buckets[b]? with
  | none =>
    rw [bucketRules, hbk] at hi
    exact absurd hi List.not_mem_nil
  | some bk =>
    have huses := bucketUsesField_of_mem hdb (Nat.lt_of_not_le hrow) hbk
      (mem_bucketFieldIds hbk hi hr hp hlt) hlt
    rw [hclear] at huses
    exact absurd huses (by simp)

/-- So none is got to. -/
theorem not_bucketTests_of_clear (hload : sigmaDbLoadBuffer pf buf = .ok db)
    (hrow : ¬ StrideWraps db) (hclear : bucketUsesField db b f = false) :
    ¬ BucketTests pf db b f := by
  rintro ⟨i, hi, r, hr, ev, p, hp, hfield⟩
  exact fieldId_ne_of_clear hload hrow hclear hi hr (mem_rulePreds_of_visited hp) hfield

/-- What the rules of a bucket resolve: the fields of the predicates they get to, and the operands
they get to. -/
theorem bucketResolves_iff (hdb : db.Loaded) :
    BucketResolves pf db b f ↔ BucketTests pf db b f ∨ BucketReachesOperand pf db b f := by
  constructor
  · rintro ⟨i, hi, r, hr, ev, e, he, hlog, v, e', hrun, hres⟩
    obtain ⟨p, hp, hfield | hread⟩ :=
      (resolve_mem_log_iff hdb (List.mem_of_getElem? hr) he hlog hrun).mp hres
    · exact .inl ⟨i, hi, r, hr, ev, p, hp, hfield⟩
    · exact .inr ⟨i, hi, r, hr, ev, p, hp, hread⟩
  · have hrun : ∀ i ∈ bucketRules db b, ∀ r, db.rules[i]? = some r → ∀ ev,
        ∀ p ∈ ruleVisits pf db ev r, p.fieldId.toNat = f ∨ OperandReads db ev p f →
        BucketResolves pf db b f := by
      intro i hi r hr ev p hp hread
      have hmem := List.mem_of_getElem? hr
      have he := memoOk_create db ev
      have hruns : Runs (ruleMatch pf db ev r) _ _ := ruleMatch_yields hdb hmem _ he
      obtain ⟨v, e', hok, -⟩ := hruns
      exact ⟨i, hi, r, hr, ev, _, he, rfl, v, e', hok,
        (resolve_mem_log_iff hdb hmem he rfl hok).mpr ⟨p, hp, hread⟩⟩
    rintro (⟨i, hi, r, hr, ev, p, hp, hfield⟩ | ⟨i, hi, r, hr, ev, p, hp, hread⟩)
    · exact hrun i hi r hr ev p hp (.inl hfield)
    · exact hrun i hi r hr ev p hp (.inr hread)

/-- **What the bitmap covers.**  A field whose bit is clear in the row of a bucket is read by no
evaluation of a rule of that bucket if and only if none gets to a FIELDREF operand that names the
field, nor, where the stride wraps, to a predicate on it. -/
theorem bitmap_skips_unread_iff (hload : sigmaDbLoadBuffer pf buf = .ok db)
    (hclear : bucketUsesField db b f = false) :
    ¬ BucketResolves pf db b f ↔
      ¬ BucketReachesOperand pf db b f ∧ (StrideWraps db → ¬ BucketTests pf db b f) := by
  rw [bucketResolves_iff (loaded_of_loadBuffer hload), not_or, and_comm]
  refine and_congr_right fun _ => ⟨fun h _ => h, fun h => ?_⟩
  by_cases hwraps : StrideWraps db
  · exact h hwraps
  · exact not_bucketTests_of_clear hload hwraps hclear

/-- In particular the bitmap skips only unread fields where the stride does not wrap and no predicate
of the bucket names the field as its FIELDREF operand. -/
theorem bitmap_skips_unread_of_no_fieldref (hload : sigmaDbLoadBuffer pf buf = .ok db)
    (hrow : ¬ StrideWraps db) (hclear : bucketUsesField db b f = false)
    (hnone : ∀ i ∈ bucketRules db b, ∀ r, db.rules[i]? = some r → ∀ p ∈ db.rulePreds r,
      p.flags &&& sigmaPfFieldref ≠ 0 → p.valueId.toNat ≠ f) :
    ¬ BucketResolves pf db b f := by
  rw [bucketResolves_iff (loaded_of_loadBuffer hload), not_or]
  refine ⟨not_bucketTests_of_clear hload hrow hclear, ?_⟩
  rintro ⟨i, hi, r, hr, ev, p, hp, hread⟩
  exact hnone i hi r hr p (mem_rulePreds_of_visited hp) hread.2.2.1 hread.2.2.2.2.2

end Bitmap

/-! ## An artifact that reads a skipped field -/

/-- "`a` contains `xy`". -/
def containsPred : SigmaPred := ⟨0, 0, 1, 0, Vector.replicate 2 0, 0, Vector.replicate 4 0, 0⟩

/-- "`a` equals field `b`". -/
def fieldrefPred : SigmaPred :=
  ⟨0, 1, 0, sigmaPfFieldref, Vector.replicate 2 0, 1, Vector.replicate 4 0, 0⟩

/-- One rule that asks for both. -/
def refTables : Tables :=
  { sampleTables with
    fields := [⟨0, 1⟩, ⟨4, 1⟩]
    preds := [containsPred, fieldrefPred]
    sels := [⟨0, 2⟩]
    strpool := [97, 0, 120, 121, 98, 0] }

/-- The loader accepts it. -/
theorem load_ref :
    ∃ db, sigmaDbLoadBuffer samplePlatform (sigmaDbSerialize refTables) = .ok db ∧
      refTables.Same db.toTables :=
  refTables.load_serialize samplePlatform (by decide) (by decide) (by decide)

/-- The row of its bucket has no bit for `b`. -/
theorem clear_ref {db : SigmaDb}
    (hload : sigmaDbLoadBuffer samplePlatform (sigmaDbSerialize refTables) = .ok db)
    (hsame : refTables.Same db.toTables) : bucketUsesField db 0 1 = false := by
  have hsome := bucketFields_isSome hload (by rw [hsame.litndl]; decide)
    (by rw [hsame.bucketKeys]; decide) (by rw [hsame.fields]; decide) (by
      intro r hr
      rw [hsame.litpostRef] at hr
      obtain rfl := List.mem_singleton.mp hr
      decide)
  obtain ⟨bm, hbm⟩ := Option.isSome_iff_exists.mp hsome
  obtain ⟨hstride, rfl⟩ := (loaded_of_loadBuffer hload).bucketFields bm hbm
  have hone : db.bucketFieldsStride = 1 := by
    rw [hstride, hsame.fields]
    decide
  have hmap : db.bucketBitmap db.bucketFieldsStride.toNat = [1] := by
    rw [hone, Tables.bucketBitmap, hsame.buckets]
    unfold Tables.bucketFieldIds
    rw [hsame.bucketIdx, hsame.rules, hsame.sels, hsame.preds, hsame.fields]
    decide
  rw [bucketUsesField, hbm, hmap, hone, hsame.bucketKeys]
  decide

/-- On an event whose `a` is `wXyz` the first predicate holds. -/
theorem predHolds_ref {db : SigmaDb} (hsame : refTables.Same db.toTables) :
    predHolds samplePlatform db sampleScanEvent containsPred 0 = true := by
  have hop : SigmaOp.ofByte containsPred.op = some .opContains := rfl
  unfold predHolds testHolds operandOf fieldValue
  rw [hsame.fields, hsame.values, hsame.str, hop]
  dsimp only
  decide

/-- So the selection gets to the second. -/
theorem selVisits_ref {db : SigmaDb} (hsame : refTables.Same db.toTables) :
    selVisits samplePlatform db sampleScanEvent ⟨0, 2⟩ = [containsPred, fieldrefPred] := by
  have hloop : loopVisits samplePlatform db sampleScanEvent 0 2 0 false 0 =
      [containsPred, fieldrefPred] := by
    rw [loopVisits, hsame.preds]
    change containsPred :: loopVisits samplePlatform db sampleScanEvent 0 1 1
      (predHolds samplePlatform db sampleScanEvent containsPred 0) 0 = _
    rw [predHolds_ref hsame, loopVisits, hsame.preds]
    rfl
  rw [selVisits, hsame.preds]
  exact hloop

theorem reachesOperand_ref {db : SigmaDb} (hsame : refTables.Same db.toTables) :
    BucketReachesOperand samplePlatform db 0 1 := by
  refine ⟨0, ?_, ⟨7, 0, 1, 0, 0, 1, 2, 300, 0, sigmaNoValue⟩, by rw [hsame.rules]; rfl,
    sampleScanEvent, fieldrefPred, ?_, ?_⟩
  · rw [bucketRules, hsame.buckets, hsame.bucketIdx]
    decide
  · refine List.mem_flatMap.mpr ⟨0, List.mem_cons_self, ?_⟩
    rw [ruleSelVisits, hsame.sels]
    change fieldrefPred ∈ selVisits samplePlatform db sampleScanEvent ⟨0, 2⟩
    rw [selVisits_ref hsame]
    exact List.mem_cons_of_mem _ List.mem_cons_self
  · unfold OperandReads fieldValue
    rw [hsame.fields, hsame.str]
    decide

/-- The bitmap skips a field that a rule of its bucket reads. -/
theorem bitmap_misses_operand :
    ¬ ∀ (pf : Platform) (buf : Bytes) (db : SigmaDb) (b f : ℕ),
      sigmaDbLoadBuffer pf buf = .ok db → bucketUsesField db b f = false →
        ¬ BucketResolves pf db b f := by
  intro h
  obtain ⟨db, hload, hsame⟩ := load_ref
  exact h _ _ db 0 1 hload (clear_ref hload hsame)
    ((bucketResolves_iff (loaded_of_loadBuffer hload)).mpr (.inr (reachesOperand_ref hsame)))

/-- The theorem at that artifact. -/
theorem bitmap_skips_unread_iff_sample :
    ∃ db, sigmaDbLoadBuffer samplePlatform (sigmaDbSerialize refTables) = .ok db ∧
      bucketUsesField db 0 1 = false ∧
      (¬ BucketResolves samplePlatform db 0 1 ↔
        ¬ BucketReachesOperand samplePlatform db 0 1 ∧
          (StrideWraps db → ¬ BucketTests samplePlatform db 0 1)) := by
  obtain ⟨db, hload, hsame⟩ := load_ref
  have hclear := clear_ref hload hsame
  exact ⟨db, hload, hclear, bitmap_skips_unread_iff hload hclear⟩

end LibSigma
