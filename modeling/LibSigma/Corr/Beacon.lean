import Mathlib.Tactic.Ring
import LibSigma.Corr.Observed
import LibSigma.Library.Slots

/-!
# Beaconing in buckets

The buckets of a group are a table of epochs, indexed modulo its size and never cleared.

## A table that is never cleared

A bucket is a count together with the epoch it was written for.  To find out whether the group had
an event in an epoch, the code looks into the bucket of this epoch and compares.  Two epochs of one
window never share a bucket, because the window has as many epochs as there are buckets.  So what an
older epoch has left is recognised as stale, and `Life.epochActive` is an equivalence: an epoch is
active if its bucket was written for it last (`LibSigma.Library.Slots`).

## The two passes

The first pass counts the active epochs and finds the first and the last; the second goes over the
gaps.  Both walk over the same epochs, from `max(0, E - n + 1)` to `E`, and `activeEpochs` is the
list they see.  What is then asked of it is `CorrRule.Beacon`.

## Epochs of doubles

The length of a bucket is a double and so is the quotient by which a time is put into an epoch.  So
an epoch is not `⌊ts / (timespan / n)⌋` in exact numbers: it can be one less at the border of a
bucket.  The statements take the rounding as a parameter and hold in the epochs that it gives.

What rounding can change besides is the past.  A group that the sweep drops has no events within the
window; with exact numbers it has then no epoch among the buckets either, while two rounded epochs
can be nearer to each other than their times are.  The theorem speaks of the events since the group
was last created, and says when these are all that matter.  `rounded_epochs_differ` has an example
of each.

* `Life.epochActive`: an epoch is active if its bucket was written for it last.
* `beaconFires_iff`: the test of the two passes, as a statement about the active epochs.
* `bucketed_beaconing_exact`: **the passes see the epochs of the window in which the group had an
  event, and decide on their number, their presence and the spread of their gaps.**
-/

namespace LibSigma

open Library

variable {fp : Doubles} {caps : CorrCaps} {r : CorrRule}

/-! ## Epochs

The epoch of a time, in the code's arithmetic: a quotient that is rounded, and its integer part.  It
does not decrease with the time.  Beyond that nothing is known about it in general, and nothing is
needed. -/

/-- A bucket of an admitted rule has a length: there are few of them, in at least a second. -/
theorem CorrRule.Bucketed.bucketSecs_pos (h : r.Bucketed) (hvalid : ruleValid r = true) :
    0 < r.bucketSecs fp := by
  have hspan : (1 : ℚ) ≤ r.timespanS := by exact_mod_cast timespanS_pos hvalid
  have hpos : (0 : ℚ) < r.beaconNBuckets.toNat := by exact_mod_cast h.toNat_pos
  have hmany : (r.beaconNBuckets.toNat : ℚ) ≤ 2 ^ 10 := by
    have hle : r.beaconNBuckets.toNat ≤ 2 ^ 10 := beaconNBuckets_le hvalid h.1 h.2
    exact_mod_cast hle
  refine fp.round_pos _ ?_
  calc (1 : ℚ) / 2 ^ 1074 ≤ 1 / 2 ^ 10 :=
        one_div_pow_le_one_div_pow_of_le (by norm_num) (by norm_num)
    _ ≤ 1 / r.beaconNBuckets.toNat := one_div_le_one_div_of_le hpos hmany
    _ ≤ r.timespanS / r.beaconNBuckets.toNat := div_le_div_of_nonneg_right hspan hpos.le

/-- The epochs of the events among some inputs. -/
def epochs (fp : Doubles) (r : CorrRule) (is : List GroupInput) : List ℕ :=
  (is.filterMap GroupInput.eventTime?).map (r.epochOf fp)

theorem eventTime?_eq_some {i : GroupInput} {t : ℚ} :
    i.eventTime? = some t ↔ i.isEvent = true ∧ i.ts = t := by
  rw [GroupInput.eventTime?]
  split
  · rename_i hevent
    rw [Option.some.injEq, and_iff_right hevent]
  · rename_i hevent
    exact iff_of_false (by simp) fun h => hevent h.1

theorem mem_epochs {is : List GroupInput} {e : ℕ} :
    e ∈ epochs fp r is ↔ ∃ i ∈ is, i.isEvent = true ∧ r.epochOf fp i.ts = e := by
  simp only [epochs, List.mem_map, List.mem_filterMap, eventTime?_eq_some]
  constructor
  · rintro ⟨t, ⟨i, hi, hevent, rfl⟩, rfl⟩
    exact ⟨i, hi, hevent, rfl⟩
  · rintro ⟨i, hi, hevent, rfl⟩
    exact ⟨i.ts, ⟨i, hi, hevent, rfl⟩, rfl⟩

/-- In order of time the epochs do not decrease. -/
theorem epochs_sorted (hsecs : 0 < r.bucketSecs fp) {is : List GroupInput}
    (hsorted : (is.map GroupInput.ts).Pairwise (· ≤ ·)) : (epochs fp r is).Pairwise (· ≤ ·) := by
  rw [epochs, List.pairwise_map, List.pairwise_filterMap]
  refine (List.pairwise_map.mp hsorted).imp fun hle t ht t' ht' => ?_
  rw [← (eventTime?_eq_some.mp ht).2, ← (eventTime?_eq_some.mp ht').2]
  exact epochOf_mono hsecs hle

/-! ## The buckets

An event writes its epoch into the bucket of its residue.  An epoch is active when its bucket holds
it.  Epochs do not decrease in a run, so among the last ones, as many as there are buckets, none has
been overwritten, however long the group was silent in between. -/

/-- An event writes its epoch to its bucket; a partial writes nothing. -/
theorem buckets_groupInput (hb : r.Bucketed) (hsecs : 0 < r.bucketSecs fp) (g : Group)
    {i : GroupInput} (hts : 0 ≤ i.ts) :
    (groupInput fp caps r g i).group.buckets r =
      if i.isEvent then bucketBump (g.buckets r) r.beaconNBuckets.toNat (r.epochOf fp i.ts)
      else g.buckets r := by
  cases i with
  | event hits value ts =>
    by_cases hnil : hits = []
    · subst hnil
      rfl
    · have hskip : ¬ (r.bucketSecs fp ≤ 0 ∨ ts < 0) := by
        push Not
        exact ⟨hsecs, hts⟩
      rw [isEvent_event hnil, if_pos rfl, groupInput_event fp caps r g hnil, settle_group,
        evaluate, hb.1]
      dsimp only
      rw [evalBeaconing, if_pos hb.2, evalBeaconingBucketed_eq hskip]
      rfl
  | contrib c =>
    rw [groupInput, settle_group]
    by_cases hkind : c.kind = some .event
    · rw [evalContrib, hkind]
      rfl
    · have hharmless : Harmless r c := by
        refine ⟨by rw [hb.1]; rfl, hkind, fun htype => ?_⟩
        rw [hb.1] at htype
        cases htype
      have hlocal := (hharmless.evalContrib fp caps { g with lastUpdate := c.ts, mergeRemote := true }
        (c.ts - r.timespanS)).2.1
      rw [Group.buckets, hlocal.bbuckets]
      rfl

variable (fp caps) in
/-- An event is decided by the test of the two passes, on the buckets it leaves. -/
theorem decided_bucketed (hb : r.Bucketed) (hsecs : 0 < r.bucketSecs fp) (g : Group)
    {i : GroupInput} (hevent : i.isEvent = true) (hts : 0 ≤ i.ts) :
    (groupInput fp caps r g i).decided =
      r.beaconFires fp (activeEpochs ((groupInput fp caps r g i).group.buckets r)
        r.beaconNBuckets.toNat (r.epochOf fp i.ts)) := by
  rw [buckets_groupInput hb hsecs g hts, if_pos hevent]
  cases i with
  | event hits value ts =>
    have hnil : hits ≠ [] := by
      rintro rfl
      cases hevent
    have hskip : ¬ (r.bucketSecs fp ≤ 0 ∨ ts < 0) := by
      push Not
      exact ⟨hsecs, hts⟩
    rw [groupInput_event fp caps r g hnil, settle_decided, evaluate, hb.1]
    dsimp only
    rw [evalBeaconing, if_pos hb.2, evalBeaconingBucketed_eq hskip]
    rfl
  | contrib c => cases hevent

/-- **An epoch is active if its bucket was written for it last.** -/
theorem Life.epochActive (hb : r.Bucketed) (hsecs : 0 < r.bucketSecs fp) {H : List GroupStep}
    {s : Option Group} (h : Life fp caps r H s) (hts : ∀ x ∈ H, 0 ≤ x.ts) :
    ((s.getD (groupNew caps.maxEventsPerGroup)).buckets r).length = r.beaconNBuckets.toNat ∧
      ∀ e, LibSigma.epochActive ((s.getD (groupNew caps.maxEventsPerGroup)).buckets r)
          r.beaconNBuckets.toNat e =
        decide (lastIn r.beaconNBuckets.toNat (epochs fp r (H.map GroupStep.input)) e = some e) := by
  induction h with
  | unborn =>
    refine ⟨List.length_replicate, fun e => ?_⟩
    rw [Option.getD_none, epochActive_new r _ rfl]
    rfl
  | @input H s i h ih =>
    obtain ⟨hlen, hactive⟩ := ih fun x hx => hts x (List.mem_append_left _ hx)
    have hnonneg : 0 ≤ i.ts := hts _ (List.mem_append_right _ List.mem_cons_self)
    have hinputs : ((H ++ [(groupApply fp caps r s i).step i]).map GroupStep.input) =
        H.map GroupStep.input ++ [i] := by
      rw [List.map_append]
      rfl
    rw [Option.getD_some, groupApply, buckets_groupInput hb hsecs _ hnonneg, ← groupApply, hinputs,
      epochs, List.filterMap_append, List.map_append, ← epochs]
    by_cases hi : i.isEvent = true
    · have hnew : ([i].filterMap GroupInput.eventTime?).map (r.epochOf fp) = [r.epochOf fp i.ts] := by
        rw [List.filterMap_cons_some (show i.eventTime? = some i.ts from if_pos hi)]
        rfl
      rw [if_pos hi, hnew]
      refine ⟨(List.length_set ..).trans hlen, fun e => ?_⟩
      rw [epochActive_bump hlen hb.toNat_pos, lastIn_concat, hactive]
      by_cases hslot : e % r.beaconNBuckets.toNat = r.epochOf fp i.ts % r.beaconNBuckets.toNat
      · rw [if_pos hslot, if_pos hslot.symm, decide_eq_decide, Option.some.injEq]
        exact eq_comm
      · rw [if_neg hslot, if_neg (Ne.symm hslot)]
    · have hnew : ([i].filterMap GroupInput.eventTime?).map (r.epochOf fp) = [] := by
        rw [List.filterMap_cons_none (show i.eventTime? = none from if_neg hi)]
        rfl
      rw [if_neg hi, hnew, List.append_nil]
      exact ⟨hlen, hactive⟩

/-! ## The test

The two passes visit the active epochs from the oldest to the newest, first for the mean of the gaps
and then for their variance.  `CorrRule.Beacon` states the test on the list of these epochs; where
nothing is rounded the variance is the population variance. -/

/-- The gaps between consecutive epochs. -/
def epochGaps (es : List ℕ) : List ℚ := gaps (es.map Nat.cast)

/-- What is asked of the active epochs: enough of them, enough of the span from the first to the
last, and gaps whose variance, computed with `fp`, is within the tolerance. -/
structure CorrRule.Beacon (r : CorrRule) (fp : Doubles) (es : List ℕ) : Prop where
  count : max 3 r.condCount ≤ es.length
  presence : (7 / 10 : ℚ) * (es.getLastD 0 - es.headD 0 + 1) ≤ es.length
  regular : fp.variance (epochGaps es) ≤ fp.round
    (fp.round (fp.round (r.beaconCvPermille / 1000) * fp.mean (epochGaps es)) *
      fp.round (fp.round (r.beaconCvPermille / 1000) * fp.mean (epochGaps es)))

/-- The mean of some numbers. -/
def mean (xs : List ℚ) : ℚ := xs.sum / xs.length

/-- The population variance of some numbers. -/
def variance (xs : List ℚ) : ℚ := (xs.map fun x => (x - mean xs) ^ 2).sum / xs.length

/-- With exact numbers the variance is the population variance of the gaps, and the tolerated part of
their mean is squared. -/
theorem beacon_exact_iff (strtod : CStr → Option ℚ) (es : List ℕ) :
    r.Beacon (.exact strtod) es ↔ max 3 r.condCount ≤ es.length ∧
      (7 / 10 : ℚ) * (es.getLastD 0 - es.headD 0 + 1) ≤ es.length ∧
      variance (epochGaps es) ≤ ((r.beaconCvPermille : ℚ) / 1000 * mean (epochGaps es)) ^ 2 := by
  have hmean : ∀ xs, (Doubles.exact strtod).mean xs = mean xs := by
    intro xs
    rw [Doubles.mean, Doubles.exact_sum, Doubles.exact_round, zero_add, mean]
  have hvariance : ∀ xs, (Doubles.exact strtod).variance xs = variance xs := by
    intro xs
    rw [Doubles.variance, Doubles.exact_sum, Doubles.exact_round, zero_add, hmean, variance]
    simp only [pow_two]
    rfl
  constructor
  · rintro ⟨hcount, hpresence, hregular⟩
    rw [hmean, hvariance, Doubles.exact_round, Doubles.exact_round, Doubles.exact_round,
      ← pow_two] at hregular
    exact ⟨hcount, hpresence, hregular⟩
  · rintro ⟨hcount, hpresence, hregular⟩
    refine ⟨hcount, hpresence, ?_⟩
    rw [hmean, hvariance, Doubles.exact_round, Doubles.exact_round, Doubles.exact_round, ← pow_two]
    exact hregular

theorem length_epochGaps (es : List ℕ) : (epochGaps es).length = es.length - 1 := by
  rw [epochGaps, gaps, List.length_zipWith, List.length_tail, List.length_map]
  omega

/-- The gaps of epochs in order are at least one. -/
theorem one_le_epochGaps {es : List ℕ} (hsorted : es.Pairwise (· < ·)) :
    ∀ x ∈ epochGaps es, 1 ≤ x := by
  induction es with
  | nil => exact fun x hx => absurd hx List.not_mem_nil
  | cons e es ih =>
    cases es with
    | nil => exact fun x hx => absurd hx List.not_mem_nil
    | cons e' es =>
      intro x hx
      have hcons : epochGaps (e :: e' :: es) = ((e' : ℚ) - e) :: epochGaps (e' :: es) := rfl
      rw [hcons] at hx
      rcases List.mem_cons.mp hx with rfl | hx
      · have hlt : e + 1 ≤ e' := (List.pairwise_cons.mp hsorted).1 e' List.mem_cons_self
        have hcast : (e : ℚ) + 1 ≤ e' := by exact_mod_cast hlt
        linarith
      · exact ih (List.pairwise_cons.mp hsorted).2 x hx

/-- The first of two or more epochs in order is before the last. -/
theorem headD_lt_getLastD {es : List ℕ} (hsorted : es.Pairwise (· < ·)) (hlen : 2 ≤ es.length) :
    es.headD 0 < es.getLastD 0 := by
  cases es with
  | nil => exact absurd hlen (by decide)
  | cons e es =>
    have hne : es ≠ [] := List.ne_nil_of_length_pos (by simpa [Nat.succ_le_iff] using hlen)
    rw [List.headD_cons, List.getLastD_cons, List.getLastD_eq_getLast?,
      List.getLast?_eq_some_getLast hne, Option.getD_some]
    exact (List.pairwise_cons.mp hsorted).1 _ (List.getLast_mem hne)

/-- **The test of the two passes.** -/
theorem beaconFires_iff {es : List ℕ} (hsorted : es.Pairwise (· < ·)) (hlen : es.length ≤ 2 ^ 53) :
    r.beaconFires fp es = true ↔ r.Beacon fp es := by
  have hpresence : es.headD 0 ≤ es.getLastD 0 →
      (¬ es.length * 1000 < 700 * (es.getLastD 0 - es.headD 0 + 1) ↔
        (7 / 10 : ℚ) * (es.getLastD 0 - es.headD 0 + 1) ≤ es.length) := by
    intro hle
    have hcast : ((es.getLastD 0 - es.headD 0 : ℕ) : ℚ) = es.getLastD 0 - es.headD 0 :=
      Nat.cast_sub hle
    rw [not_lt, ← hcast, ← @Nat.cast_le ℚ]
    push_cast
    constructor <;> intro h <;> linarith
  have hgaps : gaps (es.map Nat.cast) = epochGaps es := rfl
  rw [CorrRule.beaconFires, hgaps, gapsRegular]
  simp only [Bool.and_eq_true, Bool.not_eq_true', Bool.or_eq_false_iff, decide_eq_false_iff_not,
    decide_eq_true_eq, List.isEmpty_eq_false_iff]
  constructor
  · rintro ⟨⟨⟨hcount, hthree⟩, hspan⟩, -, hregular⟩
    have hlt := headD_lt_getLastD hsorted (by omega)
    exact ⟨max_le (by exact_mod_cast not_lt.mp hthree) (not_lt.mp hcount),
      (hpresence hlt.le).mp hspan, hregular⟩
  · rintro ⟨hcount, hpres, hregular⟩
    have hthree : 3 ≤ es.length := by exact_mod_cast (le_max_left _ _).trans hcount
    have hlt := headD_lt_getLastD hsorted (by omega)
    have hne : epochGaps es ≠ [] :=
      List.ne_nil_of_length_pos (by rw [length_epochGaps]; omega)
    -- gaps of at least one have a mean of at least one, rounded or not
    have hmean := fp.one_le_mean (one_le_epochGaps hsorted) hne (by rw [length_epochGaps]; omega)
    exact ⟨⟨⟨not_lt.mpr ((le_max_right _ _).trans hcount), by omega⟩, (hpresence hlt.le).mpr hpres⟩,
      ⟨hne, lt_of_lt_of_le one_pos hmean⟩, hregular⟩

/-! ## Runs

From a life to a run.  The group may have been dropped and created again, and with rounded epochs an
event from before that may lie in an epoch that is still in the buckets' range.  So the theorem
speaks of the events since the group was last created, and says when the others make no difference.
-/

/-- The epochs, among the last ones of `now`, in which one of `times` lies. -/
def windowEpochs (fp : Doubles) (r : CorrRule) (times : List ℚ) (now : ℚ) : List ℕ :=
  (List.range (r.epochOf fp now + 1)).filter fun e =>
    decide (r.epochOf fp now < e + r.beaconNBuckets.toNat) && decide (e ∈ times.map (r.epochOf fp))

theorem windowEpochs_sorted (times : List ℚ) (now : ℚ) :
    (windowEpochs fp r times now).Pairwise (· < ·) :=
  List.pairwise_lt_range.sublist List.filter_sublist

/-- The passes visit as many epochs as there are buckets. -/
theorem length_activeEpochs_le {nb : ℕ} (hnb : 0 < nb) (bb : List BeaconBucket) (nowE : ℕ) :
    (activeEpochs bb nb nowE).length ≤ nb := by
  unfold activeEpochs
  refine (List.length_filter_le _ _).trans ?_
  rw [List.length_range']
  split <;> omega

section Run

variable {rules : List CorrRule} {ci : ℕ} {key : List CStr}

/-- The passes of the last step of a life see the epochs of its window. -/
theorem Life.activeEpochs (hb : r.Bucketed) (hsecs : 0 < r.bucketSecs fp) {H : List GroupStep}
    {x : GroupStep} {g : Group} (h : Life fp caps r (H ++ [x]) (some g))
    (hsorted : ((H ++ [x]).map GroupStep.ts).Pairwise (· ≤ ·)) (hts : ∀ y ∈ H ++ [x], 0 ≤ y.ts) :
    LibSigma.activeEpochs (g.buckets r) r.beaconNBuckets.toNat (r.epochOf fp x.ts) =
      windowEpochs fp r (((H ++ [x]).map GroupStep.input).filterMap GroupInput.eventTime?) x.ts := by
  have hactive := (h.epochActive hb hsecs hts).2
  have hinputs : (((H ++ [x]).map GroupStep.input).map GroupInput.ts).Pairwise (· ≤ ·) := by
    rw [List.map_map]
    exact hsorted
  refine activeEpochs_eq hb.toNat_pos fun e _ hwindow => ?_
  rw [← Option.getD_some (a := g), hactive, decide_eq_decide, ← epochs]
  refine lastIn_eq_some_iff (epochs_sorted hsecs hinputs) fun e' he' => ?_
  obtain ⟨i, hi, -, rfl⟩ := mem_epochs.mp he'
  obtain ⟨y, hy, rfl⟩ := List.mem_map.mp hi
  refine lt_of_le_of_lt (epochOf_mono hsecs ?_) hwindow
  rcases List.mem_append.mp hy with hy | hy
  · exact le_of_sorted_concat hsorted y hy
  · exact (congrArg GroupStep.ts (List.mem_singleton.mp hy)).le

/-- The times of the events that calls address to the group of `key`. -/
def eventTimes (rules : List CorrRule) (ci : ℕ) (r : CorrRule) (key : List CStr)
    (cs : List CorrCall) : List ℚ :=
  (cs.filterMap (CorrCall.inputFor rules ci r key)).filterMap GroupInput.eventTime?

variable (fp caps r rules ci key) in
/-- Those of them, call `c` after `cs` included, that came since the group was last created. -/
def heldTimes (cs : List CorrCall) (c : CorrCall) : List ℚ :=
  ((lifeFound ci key (corrRun fp (corrEngineNew rules caps) cs)
      (lifeRun fp ci r key (corrEngineNew rules caps) cs).2 c).map GroupStep.input ++
    (c.inputFor (admittedRules rules) ci r key).toList).filterMap GroupInput.eventTime?

variable (caps r rules ci key) in
/-- On call `c` after `cs` the engine, which computes with `fp`, decides as the epochs of the window in
which one of `times` lies demand; these epochs and the spread of their gaps are computed with
`num`. -/
def BeaconsOn (fp num : Doubles) (cs : List CorrCall) (c : CorrCall) (times : List ℚ) : Prop :=
  ∃ g x, (corrRun fp (corrEngineNew rules caps) (cs ++ [c])).slot ci key = some g ∧
    groupTrace fp ci r key (corrEngineNew rules caps) (cs ++ [c]) =
      groupTrace fp ci r key (corrEngineNew rules caps) cs ++ [x] ∧
    activeEpochs (g.buckets r) r.beaconNBuckets.toNat (r.epochOf num c.ts) =
      windowEpochs num r times c.ts ∧
    (x.decided = true ↔ r.Beacon num (windowEpochs num r times c.ts))

/-- Times that leave no epoch in the window. -/
theorem windowEpochs_append {times times' : List ℚ} {now : ℚ}
    (h : ∀ t ∈ times, r.epochOf fp t + r.beaconNBuckets.toNat ≤ r.epochOf fp now) :
    windowEpochs fp r (times ++ times') now = windowEpochs fp r times' now := by
  refine List.filter_congr fun e _ => ?_
  by_cases hwindow : r.epochOf fp now < e + r.beaconNBuckets.toNat
  · have hmem : e ∉ times.map (r.epochOf fp) := by
      intro he
      obtain ⟨t, ht, rfl⟩ := List.mem_map.mp he
      have := h t ht
      omega
    rw [List.map_append, decide_eq_true hwindow, Bool.true_and, Bool.true_and, decide_eq_decide,
      List.mem_append, or_iff_right hmem]
  · rw [decide_eq_false hwindow, Bool.false_and, Bool.false_and]

/-- What a group held before it was last created is older than the window. -/
theorem heldTimes_spec (hr : (admittedRules rules)[ci]? = some r) {cs : List CorrCall}
    {c : CorrCall} {i : GroupInput} (hsorted : TimeOrdered (cs ++ [c]))
    (hspared : spared fp ci r key (corrEngineNew rules caps) (cs ++ [c]) = true)
    (hi : c.inputFor (admittedRules rules) ci r key = some i) :
    ∃ old, eventTimes (admittedRules rules) ci r key (cs ++ [c]) =
        old ++ heldTimes fp caps r rules ci key cs c ∧
      ∀ t ∈ old, t < c.ts - r.timespanS ∧ t ∈ callTimes (cs ++ [c]) := by
  obtain ⟨H, L, s, hin⟩ := exists_lastInput hr hsorted hspared hi
  refine ⟨(H.map GroupStep.input).filterMap GroupInput.eventTime?, ?_, fun t ht => ?_⟩
  · rw [eventTimes, ← hin.inputs, List.filterMap_append, heldTimes, hin.steps, hi]
    rfl
  · obtain ⟨j, hj, hevent⟩ := List.mem_filterMap.mp ht
    obtain ⟨y, hy, rfl⟩ := List.mem_map.mp hj
    rw [← (eventTime?_eq_some.mp hevent).2, ← CorrCall.ts_of_inputFor hi]
    refine ⟨hin.past y hy, ?_⟩
    have hmem : y ∈ groupTrace fp ci r key (corrEngineNew rules caps) (cs ++ [c]) := by
      rw [hin.trace_concat]
      exact List.mem_append_left _ hy
    obtain ⟨c', hc', hts⟩ := List.mem_map.mp
      ((groupTrace_ts_sublist _ _).subset (List.mem_map_of_mem (f := GroupStep.ts) hmem))
    exact ⟨c', hc', hts⟩

/-- **Beaconing in buckets decides on the epochs of its window**, those of the events since the group
was last created. -/
theorem beaconsOn_heldTimes (hr : (admittedRules rules)[ci]? = some r) (hb : r.Bucketed)
    {cs : List CorrCall} {c : CorrCall} {i : GroupInput} (hsorted : TimeOrdered (cs ++ [c]))
    (hnonneg : ∀ c' ∈ cs ++ [c], 0 ≤ c'.ts)
    (hspared : spared fp ci r key (corrEngineNew rules caps) (cs ++ [c]) = true)
    (hi : c.inputFor (admittedRules rules) ci r key = some i) (hevent : i.isEvent = true) :
    BeaconsOn caps r rules ci key fp fp cs c (heldTimes fp caps r rules ci key cs c) := by
  have hsecs : 0 < r.bucketSecs fp := hb.bucketSecs_pos (ruleValid_of_admitted hr)
  have htime := CorrCall.ts_of_inputFor hi
  obtain ⟨H, L, s, hin⟩ := exists_lastInput hr hsorted hspared hi
  have hnonneg' : ∀ z ∈ L ++ [(groupApply fp caps.withDefaults r s i).step i], 0 ≤ z.ts := by
    intro z hz
    have hmem : z ∈ groupTrace fp ci r key (corrEngineNew rules caps) (cs ++ [c]) := by
      rw [hin.trace_concat]
      exact List.mem_append_right _ hz
    obtain ⟨c', hc', hts⟩ := List.mem_map.mp
      ((groupTrace_ts_sublist _ _).subset (List.mem_map_of_mem (f := GroupStep.ts) hmem))
    exact hts ▸ hnonneg c' hc'
  have hactive := (hin.life.input i).activeEpochs hb hsecs hin.life_sorted hnonneg'
  have hts : ((groupApply fp caps.withDefaults r s i).step i).ts = c.ts := htime
  have hheld : ((L ++ [(groupApply fp caps.withDefaults r s i).step i]).map
      GroupStep.input).filterMap GroupInput.eventTime? = heldTimes fp caps r rules ci key cs c := by
    rw [heldTimes, hin.steps, hi, List.map_append]
    rfl
  rw [hts, hheld] at hactive
  refine ⟨_, (groupApply fp caps.withDefaults r s i).step i, hin.left, ?_, hactive, ?_⟩
  · rw [hin.trace_concat, hin.trace, List.append_assoc]
  · have hdecided := decided_bucketed fp caps.withDefaults hb hsecs
      (s.getD (groupNew caps.withDefaults.maxEventsPerGroup)) hevent
      (htime ▸ hnonneg c (List.mem_append_right _ List.mem_cons_self))
    have hfew := length_activeEpochs_le hb.toNat_pos ((groupApply fp caps.withDefaults r s i).group.buckets r)
      (r.epochOf fp c.ts)
    have hmany := beaconNBuckets_le (ruleValid_of_admitted hr) hb.1 hb.2
    rw [htime] at hdecided
    rw [← hactive, ← beaconFires_iff (hactive ▸ windowEpochs_sorted _ _)
      (hfew.trans (hmany.trans (by decide)))]
    exact Bool.eq_iff_iff.mp hdecided

/-- **Bucketed beaconing is exact, up to the rounding of its epochs.**  On each event of a group the two
passes visit the epochs of the window in which the group had an event since it was last created, and
the decision is on their number, their presence and the spread of their gaps.  Earlier events are older
than the window, and if no epoch of such a time reaches the buckets of a later one, they make no
difference. -/
theorem bucketed_beaconing_exact (hr : (admittedRules rules)[ci]? = some r) (hb : r.Bucketed)
    {cs : List CorrCall} {c : CorrCall} {i : GroupInput} (hsorted : TimeOrdered (cs ++ [c]))
    (hnonneg : ∀ c' ∈ cs ++ [c], 0 ≤ c'.ts)
    (hspared : spared fp ci r key (corrEngineNew rules caps) (cs ++ [c]) = true)
    (hi : c.inputFor (admittedRules rules) ci r key = some i) (hevent : i.isEvent = true) :
    BeaconsOn caps r rules ci key fp fp cs c (heldTimes fp caps r rules ci key cs c) ∧
      (∃ old, eventTimes (admittedRules rules) ci r key (cs ++ [c]) =
          old ++ heldTimes fp caps r rules ci key cs c ∧ ∀ t ∈ old, t < c.ts - r.timespanS) ∧
      (r.EpochsExpire fp (callTimes (cs ++ [c])) → BeaconsOn caps r rules ci key fp fp cs c
        (eventTimes (admittedRules rules) ci r key (cs ++ [c]))) := by
  have hbeacons := beaconsOn_heldTimes hr hb hsorted hnonneg hspared hi hevent
  obtain ⟨old, hall, hold⟩ := heldTimes_spec hr hsorted hspared hi
  refine ⟨hbeacons, ⟨old, hall, fun t ht => (hold t ht).1⟩, fun hexpire => ?_⟩
  have hsame : windowEpochs fp r (old ++ heldTimes fp caps r rules ci key cs c) c.ts =
      windowEpochs fp r (heldTimes fp caps r rules ci key cs c) c.ts := by
    refine windowEpochs_append fun t ht => ?_
    obtain ⟨hlt, c', hc', rfl⟩ := hold t ht
    exact hexpire _ ⟨c', hc', rfl⟩ _ ⟨c, List.mem_append_right _ List.mem_cons_self, rfl⟩
      (hnonneg c' hc') hlt
  rw [hall, BeaconsOn, hsame]
  exact hbeacons

end Run

/-- The third beat of a second: the window has three epochs, and the event is decided on them. -/
theorem bucketed_beaconing_exact_sample :
    ∃ g x, (corrRun .bare (corrEngineNew [heartbeatRule] capsZero)
        (beatCalls ++ [.event (userEvent 7 2) none])).slot 0 [cstr "a"] = some g ∧
      groupTrace .bare 0 heartbeatRule [cstr "a"] (corrEngineNew [heartbeatRule] capsZero)
          (beatCalls ++ [.event (userEvent 7 2) none]) =
        groupTrace .bare 0 heartbeatRule [cstr "a"]
          (corrEngineNew [heartbeatRule] capsZero) beatCalls ++ [x] ∧
      activeEpochs (g.buckets heartbeatRule) 10 2 = [0, 1, 2] ∧
      (x.decided = true ↔ heartbeatRule.Beacon .bare [0, 1, 2]) := by
  have hexact := (@bucketed_beaconing_exact .bare capsZero heartbeatRule [heartbeatRule] 0
    [cstr "a"] (by decide) ⟨rfl, by decide⟩ beatCalls (.event (userEvent 7 2) none)
    (.event [7] none 2) (by norm_num [TimeOrdered, beatCalls, userEvent, CorrCall.ts])
    (by norm_num [beatCalls, userEvent, CorrCall.ts]) (by decide +kernel) (by decide +kernel) rfl).1
  have hes : windowEpochs .bare heartbeatRule (heldTimes .bare capsZero heartbeatRule [heartbeatRule] 0
      [cstr "a"] beatCalls (.event (userEvent 7 2) none)) 2 = [0, 1, 2] := by
    decide +kernel
  have hepoch : heartbeatRule.epochOf .bare 2 = 2 := by decide +kernel
  rw [BeaconsOn, show CorrCall.ts (.event (userEvent 7 2) none) = 2 from rfl, hes, hepoch] at hexact
  exact hexact

/-! ## Epochs that are rounded -/

/-- A beacon in three buckets over seven seconds. -/
def sevenRule : CorrRule :=
  { heartbeatRule with timespanS := 7, beaconNBuckets := 3 }

/-- The third bucket after 28 seconds ends at 35, where the double of 35 / (7 / 3) is still below
15. -/
def sevenCalls : List CorrCall := [.event (userEvent 7 28) none, .event (userEvent 7 31) none]

/-- A beacon in 28 buckets over an hour. -/
def hourRule : CorrRule :=
  { heartbeatRule with timespanS := 3600, beaconNBuckets := 28 }

/-- Two doubles a little more than an hour apart, in the epochs 3 and 30. -/
def hourStart : ℚ := 0x181b6db6db6db7 / 2 ^ 44
def hourEnd : ℚ := 0x1f236db6db6db7 / 2 ^ 41

/-- **The epochs are those of doubles.**  In exact numbers the passes see another window, and decide
otherwise; and where doubles put a time before the window into an epoch of its buckets, a sweep has
taken it out. -/
theorem rounded_epochs_differ :
    (¬ ∀ (fp : Doubles) (rules : List CorrRule) (caps : CorrCaps) (ci : ℕ) (r : CorrRule)
        (key : List CStr) (cs : List CorrCall) (c : CorrCall) (i : GroupInput),
        (admittedRules rules)[ci]? = some r → r.Bucketed → TimeOrdered (cs ++ [c]) →
        (∀ c' ∈ cs ++ [c], 0 ≤ c'.ts) →
        spared fp ci r key (corrEngineNew rules caps) (cs ++ [c]) = true →
        c.inputFor (admittedRules rules) ci r key = some i → i.isEvent = true →
        BeaconsOn caps r rules ci key fp (.exact fp.strtod) cs c
          (eventTimes (admittedRules rules) ci r key (cs ++ [c]))) ∧
      ¬ ∀ (fp : Doubles) (rules : List CorrRule) (caps : CorrCaps) (ci : ℕ) (r : CorrRule)
        (key : List CStr) (cs : List CorrCall) (c : CorrCall) (i : GroupInput),
        (admittedRules rules)[ci]? = some r → r.Bucketed → TimeOrdered (cs ++ [c]) →
        (∀ c' ∈ cs ++ [c], 0 ≤ c'.ts) →
        spared fp ci r key (corrEngineNew rules caps) (cs ++ [c]) = true →
        c.inputFor (admittedRules rules) ci r key = some i → i.isEvent = true →
        BeaconsOn caps r rules ci key fp fp cs c
          (eventTimes (admittedRules rules) ci r key (cs ++ [c])) := by
  constructor
  · intro hclaim
    obtain ⟨g, x, -, htrace, -, hdecided⟩ := hclaim .bare [sevenRule] capsZero 0 sevenRule [cstr "a"]
      sevenCalls (.event (userEvent 7 35) none) (.event [7] none 35) (by decide) ⟨rfl, by decide⟩
      (by norm_num [TimeOrdered, sevenCalls, userEvent, CorrCall.ts])
      (by norm_num [sevenCalls, userEvent, CorrCall.ts]) (by decide +kernel) (by decide +kernel) rfl
    have hlast : ((groupTrace .bare 0 sevenRule [cstr "a"] (corrEngineNew [sevenRule] capsZero)
        (sevenCalls ++ [.event (userEvent 7 35) none])).getLast?.map GroupStep.decided) = some true := by
      decide +kernel
    rw [htrace, List.getLast?_concat, Option.map_some, Option.some.injEq] at hlast
    have hcount := (hdecided.mp hlast).count
    revert hcount
    decide +kernel
  · intro hclaim
    obtain ⟨g, x, hslot, -, hactive, -⟩ := hclaim .bare [hourRule] capsZero 0 hourRule [cstr "a"]
      [.event (userEvent 7 hourStart) none] (.event (userEvent 7 hourEnd) none)
      (.event [7] none hourEnd) (by decide) ⟨rfl, by decide⟩
      (by norm_num [TimeOrdered, hourStart, hourEnd, userEvent, CorrCall.ts])
      (by norm_num [hourStart, hourEnd, userEvent, CorrCall.ts]) (by decide +kernel)
      (by decide +kernel) rfl
    have hseen : ((corrRun .bare (corrEngineNew [hourRule] capsZero)
        ([.event (userEvent 7 hourStart) none] ++ [.event (userEvent 7 hourEnd) none])).slot 0
          [cstr "a"]).map (fun g => (activeEpochs (g.buckets hourRule) 28 30).length) = some 1 := by
      decide +kernel
    have hepochs : (windowEpochs .bare hourRule (eventTimes (admittedRules [hourRule]) 0 hourRule
        [cstr "a"] ([.event (userEvent 7 hourStart) none] ++ [.event (userEvent 7 hourEnd) none]))
          hourEnd).length = 2 := by
      decide +kernel
    have hepoch : hourRule.epochOf .bare hourEnd = 30 := by decide +kernel
    rw [hslot, Option.map_some, Option.some.injEq] at hseen
    rw [show CorrCall.ts (.event (userEvent 7 hourEnd) none) = hourEnd from rfl, hepoch] at hactive
    rw [← hactive] at hepochs
    exact absurd (hseen.symm.trans hepochs) (by decide)

end LibSigma
