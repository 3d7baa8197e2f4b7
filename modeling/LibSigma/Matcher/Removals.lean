import LibSigma.Matcher.FieldTeddy
import LibSigma.Matcher.Lossless

/-!
# What the prefilter removes

An index need not be sound.  Whatever it says, the prefilter removes rules from a report and adds
none, and it removes those with a clause of which nothing is in the event.

## Exact instead of sound

`LibSigma.Matcher.Lossless` has one direction, from an index that is right.  Here nothing is asked
of the index but what makes the question well posed: the needles are long enough, a posting names a
field that its rule tests, and the fields have 16-bit ids.  Then what is credited can be said
exactly.  A clause is credited when one of its needles is in the event, in the field of the posting
or in any compiled field, or one of its witnesses holds (`Witnessed`); and a rule is let through
when it is always verified or all its clauses are witnessed (`LetThrough`).

## What follows

The report with the prefilter on is the report without, filtered by `LetThrough`.  So it is never
larger, the order of the hits is kept, and it is the same exactly when the accepted rules are all
let through.  In that sense soundness of the index is not only enough for an invisible prefilter, it
is needed.

* `clauseCredited_iff`: a clause is credited exactly if it is witnessed.
* `candidate_iff_letThrough`: an accepted rule is a candidate exactly if it is let through.
* `prefilter_removes_unwitnessed`: **the report with the prefilter on, by the one without.**
-/

namespace LibSigma

open Library

variable {pf : Platform} {db : SigmaDb} {ev : Event}

/-- A needle of clause `c` of rule `i` is in the event, or a field witness of it holds. -/
def Witnessed (pf : Platform) (db : SigmaDb) (ev : Event) (i c : ℕ) : Prop :=
  NeedlePresent db ev i c ∨ WitnessHolds pf db ev i c

/-- Rule `i` is always verified, or all its clauses are witnessed. -/
def LetThrough (pf : Platform) (db : SigmaDb) (ev : Event) (i : ℕ) : Prop :=
  AlwaysVerified db i ∨ ∀ c < db.clauses i, Witnessed pf db ev i c

/-- The number of a field fits a posting. -/
theorem toNat_toUInt16 (hfields : db.fields.length ≤ 65536) {f : ℕ} (hf : f < db.fields.length) :
    f.toUInt16.toNat = f := by
  rw [Nat.toUInt16_eq]
  exact UInt16.toNat_ofNat_of_lt' (hf.trans_le hfields)

/-- **A clause of a selected rule is credited exactly if it is witnessed.** -/
theorem clauseCredited_iff (hdb : db.Loaded) (hfields : db.fields.length ≤ 65536)
    (hkeys : db.bucketKeys ≠ []) (hready : GateReady db) {sel : List ℕ} {b i : ℕ} (hb : b ∈ sel)
    (hi : i ∈ bucketRules db b) {c : ℕ} :
    ClauseCredited pf db ev sel i c ↔ Witnessed pf db ev i c := by
  constructor
  · rintro (⟨w, hw, htrue, hwi, hwc⟩ | ⟨f, hf, -, v, hv, hlen, k, ⟨t, tf, ht, htf, hmet⟩, r, hr,
      hfield, hri, hrc⟩)
    · exact .inr ⟨w, hw, hwi, hwc, (fwitTrue_iff hdb).mp htrue⟩
    · have hcast := toNat_toUInt16 hfields hf
      obtain ⟨-, n, hn, hocc⟩ :=
        (metIn_iff (scannable_fieldMatcher hdb ht htf) hready.needles).mp ⟨hlen, hmet⟩
      refine .inl ⟨k, n, hn, r, hr, hri, hrc, f, v, hfield.imp_right fun heq => ?_, ?_, hocc⟩
      · rw [heq, hcast]
      · rwa [hcast] at hv
  · rintro (⟨k, n, hn, r, hr, hri, hrc, f, v, hfield, hv, hocc⟩ | ⟨w, hw, hwi, hwc, hholds⟩)
    · right
      have hf : f < db.fields.length := by
        by_contra hge
        rw [fieldValue, List.getElem?_eq_none (Nat.le_of_not_lt hge)] at hv
        exact absurd hv (by simp)
      have hcast := toNat_toUInt16 hfields hf
      have hany : db.litAnyField = true ∨ r.fieldId ≠ sigmaLitrefAnyField := by
        by_cases hunscoped : r.fieldId = sigmaLitrefAnyField
        · exact .inl (litAnyField_of_unscoped hdb hkeys hn hf hr hunscoped)
        · exact .inr hunscoped
      have hnamed : db.litAnyField = true ∨ r.fieldId.toNat = f :=
        hany.imp_right fun hscoped => hfield.resolve_left hscoped
      obtain ⟨t, ht⟩ := exists_teddy hdb hn
      have hk := mem_needleIds_of_posted (List.getElem?_eq_some_iff.mp hn).1 hr hnamed
      obtain ⟨tf, htf⟩ := exists_fieldMatcher hdb t hf hk
      obtain ⟨hlen, hmet⟩ : MetIn pf db tf (needleIds db f) v k :=
        (metIn_iff (scannable_fieldMatcher hdb ht htf) hready.needles).mpr ⟨hk, n, hn, hocc⟩
      exact ⟨f, hf, scanField_of_posted hdb hfields hready hb hr (hri ▸ hi) hany hf hnamed, v,
        by rwa [hcast], hlen, k, ⟨t, tf, ht, htf, hmet⟩, r, hr,
        hfield.imp_right fun heq => UInt16.toNat_inj.mp (heq.trans hcast.symm), hri, hrc⟩
    · exact .inl ⟨w, hw, (fwitTrue_iff hdb).mpr hholds, hwi, hwc⟩

/-- **An accepted rule of a selected bucket is a candidate exactly if it is let through.** -/
theorem candidate_iff_letThrough (hdb : db.Loaded) (hfields : db.fields.length ≤ 65536)
    (hkeys : db.bucketKeys ≠ []) (hready : GateReady db) {sel : List ℕ} {b i : ℕ} (hb : b ∈ sel)
    (hi : i ∈ bucketRules db b) (hacc : RuleAccepted pf db ev i) :
    Candidate pf db ev sel i ↔ LetThrough pf db ev i := by
  have hlt : i < db.rules.length := by
    obtain ⟨r, hr, -⟩ := hacc
    exact (List.getElem?_eq_some_iff.mp hr).1
  have hcredit := fun c => @clauseCredited_iff pf db ev hdb hfields hkeys hready sel b i hb hi c
  constructor
  · exact fun h => h.imp_right fun hall c hc => (hcredit c).mp (hall.2 c hc)
  · rintro (halways | hall)
    · exact .inl halways
    · rcases Nat.eq_zero_or_pos (db.clauses i) with hzero | hpos
      · exact .inl (hready.unclaused i hlt hzero)
      · exact .inr ⟨hpos, fun c hc => (hcredit c).mpr (hall c hc)⟩

open Classical in
/-- The rules that fire with the prefilter, by those that fire without. -/
theorem firedOf_runVisits (hdb : db.Loaded) (hfields : db.fields.length ≤ 65536)
    (hready : GateReady db) (mode : Int) :
    firedOf (ruleAccepts pf db ev) (runVisits pf db ev mode) =
      if PrefilterRuns db ev mode then
        (firedOf (ruleAccepts pf db ev) (runScope db ev)).filter fun i =>
          decide (LetThrough pf db ev i)
      else firedOf (ruleAccepts pf db ev) (runScope db ev) := by
  unfold runVisits runScope
  by_cases hfull : db.bucketKeys.length = 0 ∨ hasRoute db ev = false
  · have hoff : ¬ PrefilterRuns db ev mode := fun h => h.1 hfull
    rw [if_pos hfull, if_pos hfull, if_neg hoff]
  · have hkeys : db.bucketKeys ≠ [] := fun h => hfull (.inl (by rw [h]; rfl))
    rw [if_neg hfull, if_neg hfull]
    dsimp only
    by_cases hon : isBig db mode (bucketSel db ev) = true ∧ Prefilterable db ∧ mode ≠ 0
    · have hruns : PrefilterRuns db ev mode := ⟨hfull, hon⟩
      rw [if_pos hon, if_pos hruns, firedOf, firedOf, eraseDups_filter, List.filter_filter,
        List.filter_filter]
      refine List.filter_congr fun i hi => ?_
      obtain ⟨b, hb, hib⟩ := List.mem_flatMap.mp (List.mem_eraseDups.mp hi)
      cases hacc : ruleAccepts pf db ev i with
      | false => rw [Bool.false_and, Bool.and_false]
      | true =>
        have hiff := candidate_iff_letThrough hdb hfields hkeys hready hb hib
          ((ruleAccepts_iff hdb).mp hacc)
        rw [Bool.true_and, Bool.and_true, decide_eq_decide.mpr hiff]
    · have hoff : ¬ PrefilterRuns db ev mode := fun h => hon h.2
      rw [if_neg hon, if_neg hoff]

open Classical in
/-- **What the prefilter removes.**  An evaluation reports the accepted rules of its scope; with the
prefilter on, those of them that it lets through.  The two reports are one exactly if it lets all of
them through. -/
theorem prefilter_removes_unwitnessed {buf : Bytes} (hload : sigmaDbLoadBuffer pf buf = .ok db)
    (hfields : db.fields.length ≤ 65536) (hready : GateReady db) (ev : Event) (maxHits : Int) :
    ∃ fired : List ℕ, fired.Nodup ∧
      (∀ i, i ∈ fired ↔ i ∈ runScope db ev ∧ RuleAccepted pf db ev i) ∧
      (∀ e, Reached pf db e → ∃ e', (sigmaEvalRun pf db ev maxHits).run e =
        .ok (reportOf db maxHits (if PrefilterRuns db ev e.prefilterOn then
          fired.filter fun i => decide (LetThrough pf db ev i) else fired), e')) ∧
      (reportOf db maxHits (fired.filter fun i => decide (LetThrough pf db ev i)) =
        reportOf db maxHits fired ↔ ∀ i ∈ fired, LetThrough pf db ev i) := by
  have hdb := loaded_of_loadBuffer hload
  refine ⟨firedOf (ruleAccepts pf db ev) (runScope db ev), nodup_firedOf _ _, fun i => ?_,
    fun e he => ?_, ?_⟩
  · rw [mem_firedOf, ruleAccepts_iff hdb]
  · have hruns : Runs (sigmaEvalRun pf db ev maxHits) e _ :=
      sigmaEvalRun_runs hdb (he.scratchOk hdb).1
    obtain ⟨rep, e', hrun, hrep, -⟩ := hruns
    exact ⟨e', by rw [hrun, hrep, runReport, firedOf_runVisits hdb hfields hready]⟩
  · constructor
    · intro hsame i hi
      -- the counts of the reports are the lengths of the two lists
      have hlen := congrArg Report.fired hsame
      have hall := List.length_filter_eq_length_iff.mp (hlen) i hi
      exact of_decide_eq_true hall
    · intro hall
      rw [List.filter_eq_self.mpr fun i hi => decide_eq_true (hall i hi)]

open Classical in
theorem prefilter_removes_unwitnessed_sample :
    ∃ db, sigmaDbLoadBuffer samplePlatform (sigmaDbSerialize sampleTables) = .ok db ∧
      ∃ fired : List ℕ, fired.Nodup ∧
        (∀ i, i ∈ fired ↔
          i ∈ runScope db sampleScanEvent ∧ RuleAccepted samplePlatform db sampleScanEvent i) ∧
        (∀ e, Reached samplePlatform db e →
          ∃ e', (sigmaEvalRun samplePlatform db sampleScanEvent 4).run e =
            .ok (reportOf db 4 (if PrefilterRuns db sampleScanEvent e.prefilterOn then
              fired.filter fun i => decide (LetThrough samplePlatform db sampleScanEvent i)
              else fired), e')) ∧
        (reportOf db 4 (fired.filter fun i =>
            decide (LetThrough samplePlatform db sampleScanEvent i)) = reportOf db 4 fired ↔
          ∀ i ∈ fired, LetThrough samplePlatform db sampleScanEvent i) := by
  obtain ⟨db, hload, hsame⟩ := load_sample
  have hfields : db.fields.length ≤ 65536 := by
    rw [hsame.fields]
    decide
  exact ⟨db, hload, prefilter_removes_unwitnessed hload hfields (gateReady_sample hsame)
    sampleScanEvent 4⟩

end LibSigma
