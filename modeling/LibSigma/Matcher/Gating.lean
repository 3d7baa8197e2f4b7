import Mathlib.Data.Finset.Card
import Mathlib.Data.Finset.Range
import LibSigma.Matcher.Prefilter
import LibSigma.Matcher.RoundTrip

/-!
# Artifacts that gate a rule out for good

A rule passes the gate once all its clauses are credited, and only postings and field witnesses
credit.  The loader checks every posting and every witness against the clause count of its rule, but
it never asks whether they are enough.

## Two ways to be lost

A rule may count a clause that nothing names.  Or it may count no clause and not be in the
always-verify list: the format says that such a rule is never gated, and the code has no mask to
complete for it and lets it through only if the list has it.  A needle of one byte is a third way,
for the rules whose clauses hang on it, since the scan does not find it everywhere.

## Complete and gap-free

`IndexComplete` is the property that matters, in terms of what can credit what.  `GapFree` is the
same as a check on the tables: it counts the distinct clauses that the postings and witnesses of a
rule name, which a loader could do in one pass.  The theorem is that they agree on every accepted
artifact.  The counting is over a list with repetitions and needs that no clause is named past the
count of its rule, which is what the loader does check.

* `IndexComplete`: every rule can pass the gate.
* `not_candidate_of_unnamed`: a rule that it leaves out is never let through, on any event.
* `indexComplete_iff_gapFree`: **what an artifact must satisfy beyond the loader's checks.**
-/

namespace LibSigma

open Library

/-! ## Complete indexes -/

/-- A posting of some needle, or a field witness, names clause `c` of rule `i`. -/
def ClauseNamedBy (t : Tables) (i c : ℕ) : Prop :=
  (∃ k, ∃ r ∈ t.postings k, r.ruleIdx.toNat = i ∧ r.clauseIdx.toNat = c) ∨
    ∃ w ∈ t.fwit, w.ruleIdx.toNat = i ∧ w.clauseIdx.toNat = c

/-- Every rule is always verified or has clauses that are all named, and every posted needle is
long enough for the scan. -/
structure IndexComplete (db : SigmaDb) : Prop where
  rules : ∀ i < db.rules.length, AlwaysVerified db i ∨
    (1 ≤ db.clauses i ∧ ∀ c < db.clauses i, ClauseNamedBy db.toTables i c)
  needles : ∀ k s, db.litndl[k]? = some s → db.postings k ≠ [] → 2 ≤ s.len.toNat

/-- The clauses of rule `i` that the postings and the witnesses name, with repetitions. -/
def Tables.namedClauses (t : Tables) (i : ℕ) : List ℕ :=
  (((List.range t.litndl.length).flatMap t.postings).filter (·.ruleIdx.toNat = i)).map
      (·.clauseIdx.toNat) ++
    (t.fwit.filter (·.ruleIdx.toNat = i)).map (·.clauseIdx.toNat)

/-- Rules without clauses are in the always-verify list, the postings and witnesses of a rule name
as many clauses as it counts, and needles of one byte are not posted. -/
structure Tables.GapFree (t : Tables) : Prop where
  listed : ∀ i < t.rules.length, t.clauses i = 0 → UInt32.ofNat i ∈ t.litav
  counted : ∀ i < t.rules.length, (t.namedClauses i).toFinset.card = t.clauses i
  oneByte : ∀ k s, t.litndl[k]? = some s → s.len = 1 → t.postings k = []

section Complete

variable {pf : Platform} {db : SigmaDb} {ev : Event}

theorem mem_namedClauses {t : Tables} {i c : ℕ} :
    c ∈ t.namedClauses i ↔ ClauseNamedBy t i c := by
  unfold Tables.namedClauses ClauseNamedBy
  rw [List.mem_append, List.mem_map, List.mem_map]
  refine or_congr ⟨?_, ?_⟩ ⟨?_, ?_⟩
  · rintro ⟨r, hr, rfl⟩
    obtain ⟨hmem, hri⟩ := List.mem_filter.mp hr
    obtain ⟨k, -, hk⟩ := List.mem_flatMap.mp hmem
    exact ⟨k, r, hk, by simpa using hri, rfl⟩
  · rintro ⟨k, r, hr, hri, rfl⟩
    have hk : k < t.litndl.length := by
      by_contra hge
      rw [Tables.postings, List.getElem?_eq_none (by rw [t.litpost_length]; omega)] at hr
      exact absurd hr List.not_mem_nil
    exact ⟨r, List.mem_filter.mpr ⟨List.mem_flatMap.mpr ⟨k, List.mem_range.mpr hk, hr⟩,
      by simpa using hri⟩, rfl⟩
  · rintro ⟨w, hw, rfl⟩
    obtain ⟨hmem, hwi⟩ := List.mem_filter.mp hw
    exact ⟨w, hmem, by simpa using hwi, rfl⟩
  · rintro ⟨w, hw, hwi, rfl⟩
    exact ⟨w, List.mem_filter.mpr ⟨hw, by simpa using hwi⟩, rfl⟩

/-- The loader's checks: a named clause is below the rule's count. -/
theorem lt_of_clauseNamedBy {t : Tables} (ht : t.Valid) {i c : ℕ} (h : ClauseNamedBy t i c) :
    c < t.clauses i := by
  rcases h with ⟨k, r, hr, rfl, rfl⟩ | ⟨w, hw, rfl, rfl⟩
  · exact ht.refClause r (Tables.mem_litpostRef_of_mem_postings hr)
  · exact ht.fwitClause w hw

/-- Since no clause past the count is named, naming as many as the count names them all. -/
theorem card_namedClauses_eq_iff {t : Tables} (ht : t.Valid) {i : ℕ} :
    (t.namedClauses i).toFinset.card = t.clauses i ↔
      ∀ c < t.clauses i, ClauseNamedBy t i c := by
  have hsub : (t.namedClauses i).toFinset ⊆ Finset.range (t.clauses i) := by
    intro c hc
    exact Finset.mem_range.mpr (lt_of_clauseNamedBy ht (mem_namedClauses.mp (List.mem_toFinset.mp hc)))
  constructor
  · intro hcard c hc
    have heq := Finset.eq_of_subset_of_card_le hsub (by rw [Finset.card_range, hcard])
    have hmem : c ∈ (t.namedClauses i).toFinset := heq ▸ Finset.mem_range.mpr hc
    exact mem_namedClauses.mp (List.mem_toFinset.mp hmem)
  · intro hall
    have heq : (t.namedClauses i).toFinset = Finset.range (t.clauses i) :=
      hsub.antisymm fun c hc =>
        List.mem_toFinset.mpr (mem_namedClauses.mpr (hall c (Finset.mem_range.mp hc)))
    rw [heq, Finset.card_range]

/-- What is credited on an event is named by the index. -/
theorem clauseNamedBy_of_credited {buckets : List ℕ} {i c : ℕ}
    (h : ClauseCredited pf db ev buckets i c) : ClauseNamedBy db.toTables i c := by
  rcases h with ⟨w, hw, -, hwi, hwc⟩ | ⟨f, -, -, v, -, -, k, -, r, hr, -, hri, hrc⟩
  · exact .inr ⟨w, hw, hwi, hwc⟩
  · exact .inl ⟨k, r, hr, hri, hrc⟩

/-- **A rule the index leaves out is gated out on every event.** -/
theorem not_candidate_of_unnamed {i : ℕ}
    (h : ¬ (AlwaysVerified db i ∨
      (1 ≤ db.clauses i ∧ ∀ c < db.clauses i, ClauseNamedBy db.toTables i c)))
    (buckets : List ℕ) : ¬ Candidate pf db ev buckets i := by
  rintro (hav | ⟨hpos, hall⟩)
  · exact h (.inl hav)
  · exact h (.inr ⟨hpos, fun c hc => clauseNamedBy_of_credited (hall c hc)⟩)

/-- **When an accepted artifact gates no rule out for good.** -/
theorem indexComplete_iff_gapFree {buf : Bytes} (hload : sigmaDbLoadBuffer pf buf = .ok db) :
    IndexComplete db ↔ db.GapFree := by
  have hdb := loaded_of_loadBuffer hload
  have hav : ∀ i < db.rules.length, (AlwaysVerified db i ↔ UInt32.ofNat i ∈ db.litav) := by
    intro i hi
    have hcast : (UInt32.ofNat i).toNat = i := by
      rw [UInt32.toNat_ofNat', Nat.mod_eq_of_lt (Nat.lt_trans hi hdb.countRules)]
    constructor
    · rintro ⟨a, ha, rfl⟩
      rwa [UInt32.ofNat_toNat]
    · exact fun hmem => ⟨_, hmem, hcast⟩
  constructor
  · intro h
    refine ⟨fun i hi hzero => ?_, fun i hi => ?_, fun k s hs hone => ?_⟩
    · rcases h.rules i hi with hmem | ⟨hpos, -⟩
      · exact (hav i hi).mp hmem
      · omega
    · refine (card_namedClauses_eq_iff hdb.valid).mpr ?_
      rcases h.rules i hi with ⟨a, ha, rfl⟩ | ⟨-, hall⟩
      · intro c hc
        rw [hdb.valid.avClauses a ha] at hc
        exact absurd hc (Nat.not_lt_zero c)
      · exact hall
    · by_contra hposted
      have htwo := h.needles k s hs hposted
      rw [hone] at htwo
      exact absurd htwo (by decide)
  · intro h
    refine ⟨fun i hi => ?_, fun k s hs hposted => ?_⟩
    · rcases Nat.eq_zero_or_pos (db.clauses i) with hzero | hpos
      · exact .inl ((hav i hi).mpr (h.listed i hi hzero))
      · exact .inr ⟨hpos, (card_namedClauses_eq_iff hdb.valid).mp (h.counted i hi)⟩
    · have hne : s.len.toNat ≠ 0 := fun hzero =>
        hdb.valid.ndlNonempty s (List.mem_of_getElem? hs) (UInt32.toNat_inj.mp hzero)
      have hone : s.len.toNat ≠ 1 := fun hone =>
        hposted (h.oneByte k s hs (UInt32.toNat_inj.mp hone))
      omega

end Complete

/-! ## An artifact that loses a rule -/

/-- The small artifact with two clauses counted and only the first one named. -/
def gapTables : Tables :=
  { sampleTables with
    ruleClauses := some [2]
    ruleClauses_length := by
      intro cs hcs
      obtain rfl := Option.some.inj hcs
      rfl }

/-- The loader accepts it, it has a needle, and its rule can never pass the gate. -/
theorem gap_loses_rule :
    ∃ db, sigmaDbLoadBuffer samplePlatform (sigmaDbSerialize gapTables) = .ok db ∧
      db.litndl ≠ [] ∧ ¬ IndexComplete db := by
  obtain ⟨db, hload, hsame⟩ :=
    gapTables.load_serialize samplePlatform (by decide) (by decide) (by decide)
  refine ⟨db, hload, by rw [hsame.litndl]; exact List.cons_ne_nil _ _, fun h => ?_⟩
  have hclauses : db.clauses 0 = 2 := hsame.clauses 0
  rcases h.rules 0 (by rw [hsame.rules]; decide) with ⟨a, ha, -⟩ | ⟨-, hall⟩
  · rw [hsame.litav] at ha
    exact absurd ha List.not_mem_nil
  · rcases hall 1 (by rw [hclauses]; decide) with ⟨k, r, hr, -, hone⟩ | ⟨w, hw, -⟩
    · have hmem := Tables.mem_litpostRef_of_mem_postings hr
      rw [hsame.litpostRef] at hmem
      rw [List.mem_singleton.mp hmem] at hone
      exact absurd hone (by decide)
    · rw [hsame.fwit] at hw
      exact absurd hw List.not_mem_nil

/-- The small artifact itself leaves no gap. -/
theorem indexComplete_iff_gapFree_sample :
    ∃ db, sigmaDbLoadBuffer samplePlatform (sigmaDbSerialize sampleTables) = .ok db ∧
      (IndexComplete db ↔ db.GapFree) := by
  obtain ⟨db, hload, -⟩ := load_sample
  exact ⟨db, hload, indexComplete_iff_gapFree hload⟩

end LibSigma
