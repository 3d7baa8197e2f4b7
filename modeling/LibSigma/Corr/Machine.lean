import LibSigma.Corr.Memory

/-!
# A group is a machine that forgets

A group takes inputs and gives answers: whether it fires, with which number. As a machine it
forgets: once what it holds has left the window, its answers to later inputs are those of a new
group. `LibSigma.Library.Forgetting` has what follows from that for any machine; here it is shown
that groups are such machines.

## Beaconing in buckets

Buckets go by epochs and the sweep by times. For the group to forget, a time that has left the
window must have an epoch that has left the buckets. In exact numbers it has, because a window is as
long as all the buckets together. Doubles can move the two epochs towards each other at the border
of the window, so for them this is a condition on the times of a run (`EpochsExpire`).

## The deadline

The re-fire deadline outlives the window by nothing: it is set to the time of a fire plus
`timespan_s`, and a group whose last update has left the window has a deadline that has passed. So
two deadlines need not be equal for the machine to answer the same, as long as neither is later than
the next input (`DeadlineEq`).

* `memory_beaconingRaw`, `memory_beaconingBucketed`: what beaconing remembers.
* `exists_memory`: **every admitted rule has a memory.**
* `Memory.forgetful`: **a group forgets**, its re-fire deadline included.
-/

namespace LibSigma

open Library

/-! ## Beaconing on the ring -/

section Raw

variable {fp : Doubles} {caps : CorrCaps} {r : CorrRule} {base : List UInt32}
  {times : Set ℚ}

variable (caps r) in
/-- The times after a partial: the expired ones may be gone. -/
theorem times_evalContrib (g : Group) (c : CorrContrib) (ws : ℚ) :
    (evalContrib fp caps r g c ws).group.times = g.times ∨
      (evalContrib fp caps r g c ws).group.times = g.times.dropWhile (before ws) := by
  obtain ⟨hts, -, hidx⟩ := evalContrib_ring fp caps r g c ws
  rw [Group.times, hts, hidx]
  split
  · exact Or.inr (RingIdx.read_popWhile _ _ _)
  · exact Or.inl rfl

/-- **beaconing without buckets remembers the times of its ring.** -/
theorem memory_beaconingRaw (htype : r.type = some .beaconing) (hnb : ¬ 0 < r.beaconNBuckets) :
    Memory fp caps r base times (fun ws g g' => LiveEq id ws g.times g'.times) (HeldTimes caps) where
  mono hle h := h.mono hle
  agree_mark _ _ _ _ _ _ h := h
  held_mark _ _ _ h := ⟨h.cap, h.le⟩
  agree_new _ := rfl
  held_new T := heldTimes_new T
  stale h hlt := .of_stale h.le hlt
  held_event {T now g hits} value _ _ _ h hle := by
    rw [evaluate, htype]
    dsimp only
    rw [evalBeaconing, if_neg hnb]
    exact h.push hle
  event {T T' now g g' hits} value _ _ _ h h' _ _ hagree := by
    have htimes := times_push_eq h h' hagree now
    have hfired : ∀ g, (evalBeaconingRaw fp r g now (now - r.timespanS)).fired =
        (!(decide (((evPrune (evAppend g now) (now - r.timespanS)).times.length : Int) <
            r.condCount) ||
          decide ((evPrune (evAppend g now) (now - r.timespanS)).times.length < 3)) &&
        gapsRegular fp r ((gaps (evPrune (evAppend g now) (now - r.timespanS)).times).map
          fp.round)) := fun _ => rfl
    simp only [evaluate, htype, evalBeaconing, if_neg hnb]
    refine ⟨?_, fun _ => ?_, congrArg _ htimes⟩
    · rw [hfired, hfired, htimes]
    · rw [observedVal, observedVal, htype]
      exact congrArg Nat.cast (len_eq_of_times htimes)
  held_contrib {T g c} _ h hle := by
    refine ⟨(evalContrib_frame fp caps r g c _).2.2.trans h.cap, fun t ht => ?_⟩
    rcases times_evalContrib caps r g c (c.ts - r.timespanS) with heq | heq
    · exact (h.le t (heq ▸ ht)).trans hle
    · rw [heq] at ht
      exact (h.le t ((List.dropWhile_sublist _).mem ht)).trans hle
  contrib {g g' c} _ hagree := by
    rcases times_evalContrib caps r g c (c.ts - r.timespanS) with heq | heq
    · rw [heq]
      exact hagree
    · rw [heq]
      exact hagree.prune

end Raw

/-! ## Beaconing in buckets -/

section Buckets

variable {bb bb' : List BeaconBucket} {nb : ℕ}

/-- The bucket of an epoch after an event is counted: that of the event, or the one before. -/
theorem bucketAt_bump (hlen : bb.length = nb) (hnb : 0 < nb) (e₀ e : ℕ) :
    (e % nb = e₀ % nb → (bucketAt (bucketBump bb nb e₀) nb e).epoch = e₀ ∧
        0 < (bucketAt (bucketBump bb nb e₀) nb e).count) ∧
      (e % nb ≠ e₀ % nb → bucketAt (bucketBump bb nb e₀) nb e = bucketAt bb nb e) := by
  have hlt : e₀ % nb < bb.length := by
    rw [hlen]
    exact Nat.mod_lt _ hnb
  rw [bucketBump]
  generalize (if (bucketAt bb nb e₀).epoch = e₀ then (bucketAt bb nb e₀).count else 0) = count
  refine ⟨fun heq => ?_, fun hne => ?_⟩
  · rw [bucketAt, heq, List.getD_eq_getElem?_getD, List.getElem?_set_self hlt]
    refine ⟨rfl, ?_⟩
    dsimp only [Option.getD_some]
    split <;> omega
  · rw [bucketAt, bucketAt, List.getD_eq_getElem?_getD, List.getElem?_set_ne hne.symm,
      ← List.getD_eq_getElem?_getD]

/-- The epoch of the event is active, an epoch it collides with is not, another is as before. -/
theorem epochActive_bump (hlen : bb.length = nb) (hnb : 0 < nb) (e₀ e : ℕ) :
    epochActive (bucketBump bb nb e₀) nb e =
      if e % nb = e₀ % nb then decide (e = e₀) else epochActive bb nb e := by
  obtain ⟨hsame, hother⟩ := bucketAt_bump hlen hnb e₀ e
  split
  · rename_i heq
    obtain ⟨hepoch, hcount⟩ := hsame heq
    rw [epochActive, hepoch, decide_eq_true hcount, Bool.and_true, Bool.eq_iff_iff, beq_iff_eq,
      decide_eq_true_eq, eq_comm]
  · rename_i hne
    rw [epochActive, epochActive, hother hne]

/-- The active epochs depend on the buckets of the window. -/
theorem activeEpochs_congr (hnb : 0 < nb) {nowE : ℕ}
    (h : ∀ e, e ≤ nowE → nowE < e + nb → epochActive bb nb e = epochActive bb' nb e) :
    activeEpochs bb nb nowE = activeEpochs bb' nb nowE :=
  (activeEpochs_eq hnb h).trans (activeEpochs_eq hnb fun _ _ _ => rfl).symm

/-- The buckets of a group, empty ones before the first event. -/
def Group.buckets (r : CorrRule) (g : Group) : List BeaconBucket :=
  g.bbuckets.getD (List.replicate r.beaconNBuckets.toNat ⟨0, 0⟩)

/-- Beaconing in buckets. -/
def CorrRule.Bucketed (r : CorrRule) : Prop := r.type = some .beaconing ∧ 0 < r.beaconNBuckets

theorem CorrRule.Bucketed.toNat_pos {r : CorrRule} (h : r.Bucketed) : 0 < r.beaconNBuckets.toNat := by
  have := h.2
  omega

/-- The length of an epoch. -/
def CorrRule.bucketSecs (r : CorrRule) (fp : Doubles) : ℚ :=
  fp.round (r.timespanS / r.beaconNBuckets.toNat)

/-- The epoch of a time. -/
def CorrRule.epochOf (r : CorrRule) (fp : Doubles) (now : ℚ) : ℕ :=
  (fp.round (now / r.bucketSecs fp)).floor.toNat

/-- The beacon test on the active epochs. -/
def CorrRule.beaconFires (r : CorrRule) (fp : Doubles) (es : List ℕ) : Bool :=
  !(decide ((es.length : Int) < r.condCount) || decide (es.length < 3)) &&
    !decide (es.length * 1000 < 700 * (es.getLastD 0 - es.headD 0 + 1)) &&
    gapsRegular fp r (gaps (es.map Nat.cast))

variable {fp : Doubles} {caps : CorrCaps} {r : CorrRule} {base : List UInt32}
  {times : Set ℚ}

/-- An event with a negative time, or with epochs of no length, counts nowhere. -/
theorem evalBeaconingBucketed_skip {now : ℚ} (h : r.bucketSecs fp ≤ 0 ∨ now < 0) (g : Group) :
    evalBeaconingBucketed fp r g now =
      { fired := false, group := { g with bbuckets := some (g.buckets r) }, vagg := 0, incs := [] } :=
  if_pos h

/-- Another counts in its epoch, and the active epochs decide. -/
theorem evalBeaconingBucketed_eq {now : ℚ} (h : ¬ (r.bucketSecs fp ≤ 0 ∨ now < 0)) (g : Group) :
    let bb := bucketBump (g.buckets r) r.beaconNBuckets.toNat (r.epochOf fp now)
    evalBeaconingBucketed fp r g now =
      { fired := r.beaconFires fp (activeEpochs bb r.beaconNBuckets.toNat (r.epochOf fp now))
        group := { g with bbuckets := some bb }
        vagg := 0
        incs := [] } :=
  if_neg h

/-- Later times have later epochs. -/
theorem epochOf_mono (hsecs : 0 < r.bucketSecs fp) : Monotone (r.epochOf fp) := fun _ _ hle =>
  Int.toNat_le_toNat (Rat.floor_monotone (fp.round_mono (div_le_div_of_nonneg_right hle hsecs.le)))

/-! ### Epochs and the window

The sweep and the window speak of times, the passes of epochs.  The two agree if a time before the
window of `now` has an epoch before the buckets of `now`.  Exact numbers have that; rounding can
move the two epochs towards each other at the border of the window. -/

/-- The epochs of some times leave the buckets with the window. -/
def CorrRule.EpochsExpire (r : CorrRule) (fp : Doubles) (times : Set ℚ) : Prop :=
  ∀ t ∈ times, ∀ now ∈ times, 0 ≤ t → t < now - r.timespanS →
    r.epochOf fp t + r.beaconNBuckets.toNat ≤ r.epochOf fp now

/-- With exact numbers, epochs leave the buckets with the window. -/
theorem epochsExpire_exact (strtod : CStr → Option ℚ) (hb : r.Bucketed) (hspan : 0 < r.timespanS) :
    r.EpochsExpire (.exact strtod) times := by
  intro t _ now _ ht hlt
  have hsecs : (0 : ℚ) < r.bucketSecs (.exact strtod) :=
    div_pos (by exact_mod_cast hspan) (by exact_mod_cast hb.toNat_pos)
  have hwidth : (r.beaconNBuckets.toNat : ℚ) * r.bucketSecs (.exact strtod) = r.timespanS :=
    mul_div_cancel₀ _ (Nat.cast_ne_zero.mpr hb.toNat_pos.ne')
  have hquot : t / r.bucketSecs (.exact strtod) + r.beaconNBuckets.toNat ≤
      now / r.bucketSecs (.exact strtod) := by
    rw [le_div_iff₀ hsecs, add_mul, div_mul_cancel₀ _ hsecs.ne', hwidth]
    linarith
  have hnonneg : 0 ≤ (t / r.bucketSecs (.exact strtod)).floor :=
    Rat.le_floor_iff.mpr (div_nonneg ht hsecs.le)
  have hfloor : (t / r.bucketSecs (.exact strtod)).floor + r.beaconNBuckets.toNat ≤
      (now / r.bucketSecs (.exact strtod)).floor := by
    refine Rat.le_floor_iff.mpr (le_trans ?_ hquot)
    push_cast
    exact add_le_add_left (Rat.floor_le _) _
  show (t / r.bucketSecs (.exact strtod)).floor.toNat + r.beaconNBuckets.toNat ≤
    (now / r.bucketSecs (.exact strtod)).floor.toNat
  omega

/-- The buckets of a group hold epochs of times up to `T`, and its ring is empty. -/
structure HeldBuckets (fp : Doubles) (r : CorrRule) (times : Set ℚ) (T : ℚ) (g : Group) : Prop where
  length_eq : (g.buckets r).length = r.beaconNBuckets.toNat
  le : ∀ e : ℕ, epochActive (g.buckets r) r.beaconNBuckets.toNat e = true →
    ∃ t ∈ times, 0 ≤ t ∧ t ≤ T ∧ r.epochOf fp t = e
  ring : g.times = []

/-- An epoch later than that of each of `times` before `ws`. -/
def CorrRule.EpochAfter (r : CorrRule) (fp : Doubles) (times : Set ℚ) (ws : ℚ) (e : ℕ) : Prop :=
  ∀ t ∈ times, 0 ≤ t → t < ws → r.epochOf fp t < e

/-- Groups with the same active epochs after `ws`. -/
def BucketsEq (fp : Doubles) (r : CorrRule) (times : Set ℚ) (ws : ℚ) (g g' : Group) : Prop :=
  ∀ e : ℕ, r.EpochAfter fp times ws e → epochActive (g.buckets r) r.beaconNBuckets.toNat e =
    epochActive (g'.buckets r) r.beaconNBuckets.toNat e

theorem epochActive_new (r : CorrRule) (g : Group) (h : g.bbuckets = none) (e : ℕ) :
    epochActive (g.buckets r) r.beaconNBuckets.toNat e = false := by
  have hzero : (bucketAt (g.buckets r) r.beaconNBuckets.toNat e).count = 0 := by
    rw [bucketAt, Group.buckets, h, Option.getD_none, List.getD_eq_getElem?_getD,
      List.getElem?_replicate]
    split <;> rfl
  rw [epochActive, hzero, decide_eq_false (lt_irrefl 0), Bool.and_false]

/-- **beaconing in buckets remembers its active epochs.** -/
theorem memory_beaconingBucketed (hb : r.Bucketed) (hexpire : r.EpochsExpire fp times) :
    Memory fp caps r base times (BucketsEq fp r times) (HeldBuckets fp r times) where
  mono hle h e he := h e fun t hin ht hlt => he t hin ht (hlt.trans_le hle)
  agree_mark _ _ _ _ _ _ h := h
  held_mark _ _ _ h := ⟨h.length_eq, h.le, h.ring⟩
  agree_new _ _ _ := rfl
  held_new T := by
    refine ⟨List.length_replicate, fun e he => ?_, rfl⟩
    rw [epochActive_new r _ rfl] at he
    cases he
  stale {T ws g} h hlt e he := by
    rw [epochActive_new r _ rfl]
    refine Eq.symm (eq_false_of_ne_true fun hactive => ?_)
    obtain ⟨t, hin, ht, hle, hepoch⟩ := h.le e hactive
    exact (he t hin ht (hle.trans_lt hlt)).ne hepoch
  held_event {T now g hits} value hnow _ _ h hle := by
    have hlater : ∀ e : ℕ, (∃ t ∈ times, 0 ≤ t ∧ t ≤ T ∧ r.epochOf fp t = e) →
        ∃ t ∈ times, 0 ≤ t ∧ t ≤ now ∧ r.epochOf fp t = e :=
      fun _ ⟨t, hin, ht, hT, hepoch⟩ => ⟨t, hin, ht, hT.trans hle, hepoch⟩
    rw [evaluate, hb.1]
    dsimp only
    rw [evalBeaconing, if_pos hb.2]
    by_cases hskip : r.bucketSecs fp ≤ 0 ∨ now < 0
    · rw [evalBeaconingBucketed_skip hskip]
      exact ⟨h.length_eq, fun e he => hlater e (h.le e he), h.ring⟩
    · rw [evalBeaconingBucketed_eq hskip]
      push Not at hskip
      refine ⟨(List.length_set ..).trans h.length_eq, fun e he => ?_, h.ring⟩
      have hactive : epochActive (bucketBump (g.buckets r) r.beaconNBuckets.toNat (r.epochOf fp now))
          r.beaconNBuckets.toNat e = true := he
      rw [epochActive_bump h.length_eq hb.toNat_pos] at hactive
      split at hactive
      · exact ⟨now, hnow, hskip.2, le_rfl, (of_decide_eq_true hactive).symm⟩
      · exact hlater e (h.le e hactive)
  event {T T' now g g' hits} value hnow _ _ h h' _ _ hagree := by
    simp only [evaluate, hb.1, evalBeaconing, if_pos hb.2]
    by_cases hskip : r.bucketSecs fp ≤ 0 ∨ now < 0
    · rw [evalBeaconingBucketed_skip hskip, evalBeaconingBucketed_skip hskip]
      exact ⟨rfl, fun hfired => (by cases hfired), hagree⟩
    · rw [evalBeaconingBucketed_eq hskip, evalBeaconingBucketed_eq hskip]
      push Not at hskip
      have hbump : ∀ e : ℕ, r.EpochAfter fp times (now - r.timespanS) e →
          epochActive (bucketBump (g.buckets r) r.beaconNBuckets.toNat (r.epochOf fp now))
              r.beaconNBuckets.toNat e =
            epochActive (bucketBump (g'.buckets r) r.beaconNBuckets.toNat (r.epochOf fp now))
              r.beaconNBuckets.toNat e := by
        intro e he
        rw [epochActive_bump h.length_eq hb.toNat_pos, epochActive_bump h'.length_eq hb.toNat_pos,
          hagree e he]
      have hwindow : ∀ e : ℕ, r.epochOf fp now < e + r.beaconNBuckets.toNat →
          r.EpochAfter fp times (now - r.timespanS) e := by
        intro e he t hin ht hlt
        have hbefore := hexpire t hin now hnow ht hlt
        omega
      have hepochs := activeEpochs_congr hb.toNat_pos fun e _ he => hbump e (hwindow e he)
      refine ⟨congrArg (r.beaconFires fp) hepochs, fun _ => ?_, hbump⟩
      rw [observedVal, observedVal, hb.1]
      exact congrArg Nat.cast (len_eq_of_times (h.ring.trans h'.ring.symm))
  held_contrib {T g c} hc h hle := by
    have hbuckets : (evalContrib fp caps r g c (c.ts - r.timespanS)).group.buckets r = g.buckets r := by
      rw [Group.buckets, (hc.evalContrib fp caps g _).2.1.bbuckets]
      rfl
    refine ⟨hbuckets ▸ h.length_eq, fun e he => ?_, ?_⟩
    · obtain ⟨t, hin, ht, hT, hepoch⟩ := h.le e (hbuckets ▸ he)
      exact ⟨t, hin, ht, hT.trans hle, hepoch⟩
    rcases times_evalContrib caps r g c (c.ts - r.timespanS) with heq | heq
    · exact heq.trans h.ring
    · rw [heq, h.ring]
      rfl
  contrib {g g' c} hc hagree e he := by
    rw [Group.buckets, (hc.evalContrib fp caps g _).2.1.bbuckets]
    exact hagree e he

end Buckets

/-! ## Every rule -/

/-- An admitted rule with a condition has few base rules. -/
theorem base_of_cond {rules : List CorrRule} {ci : ℕ} {r : CorrRule}
    (hr : (admittedRules rules)[ci]? = some r) (hcond : r.cond ≠ []) :
    r.baseRuleIds.length ≤ corrMaxSeenRules := by
  have hadmitted := (List.mem_filter.mp (List.mem_of_getElem? hr)).2
  rw [CorrRule.admitted, Bool.and_eq_true, Bool.not_eq_true', Bool.and_eq_false_iff] at hadmitted
  rcases hadmitted.1 with hempty | hover
  · exact absurd (by simpa using hempty) hcond
  · exact not_lt.mp (of_decide_eq_false hover)

/-- **Every admitted rule has a memory.** -/
theorem exists_memory {fp : Doubles} {rules : List CorrRule} {caps : CorrCaps} {ci : ℕ}
    {r : CorrRule} {times : Set ℚ} (hr : (admittedRules rules)[ci]? = some r) (hwm : caps.watermarkS ≤ 0)
    (hbase : r.type = some .temporal → r.baseRuleIds.length ≤ corrMaxSeenRules)
    (hexpire : r.Bucketed → r.EpochsExpire fp times) :
    ∃ Agree Held, Memory fp caps r r.baseRuleIds times Agree Held := by
  have hvalid := ruleValid_of_admitted hr
  cases htype : r.type with
  | none =>
    unfold ruleValid at hvalid
    simp [htype] at hvalid
  | some t =>
    cases t with
    | eventCount => exact ⟨_, _, memory_eventCount htype⟩
    | valueCount => exact ⟨_, _, memory_valueCount htype⟩
    | valueSum => exact ⟨_, _, memory_sumAvg (Or.inl htype)⟩
    | valueAvg => exact ⟨_, _, memory_sumAvg (Or.inr htype)⟩
    | valuePercentile => exact ⟨_, _, memory_percentile (Or.inl htype)⟩
    | valueMedian => exact ⟨_, _, memory_percentile (Or.inr htype)⟩
    | temporal => exact ⟨_, _, memory_temporal htype (hbase htype)⟩
    | temporalOrdered =>
      exact ⟨_, _, memory_ordered htype (order_ne_nil hr) hwm (base_of_cond hr)⟩
    | beaconing =>
      by_cases hnb : 0 < r.beaconNBuckets
      · exact ⟨_, _, memory_beaconingBucketed ⟨htype, hnb⟩ (hexpire ⟨htype, hnb⟩)⟩
      · exact ⟨_, _, memory_beaconingRaw htype hnb⟩

/-! ## The deadline -/

/-- Deadlines that nothing from `t` on can tell apart. -/
def DeadlineEq (t : ℚ) (g g' : Group) : Prop :=
  g.firedUntil = g'.firedUntil ∨ g.firedUntil ≤ t ∧ g'.firedUntil ≤ t

/-- A deadline set at `T` or before, or never. -/
def DeadlineBy (span T : ℚ) (g : Group) : Prop :=
  g.firedUntil = 0 ∨ 0 ≤ T ∧ g.firedUntil ≤ T + span

theorem DeadlineEq.mono {t t' : ℚ} {g g' : Group} (h : DeadlineEq t g g') (hle : t ≤ t') :
    DeadlineEq t' g g' := h.imp_right fun hpast => ⟨hpast.1.trans hle, hpast.2.trans hle⟩

theorem DeadlineEq.le_iff {t : ℚ} {g g' : Group} (h : DeadlineEq t g g') :
    g.firedUntil ≤ t ↔ g'.firedUntil ≤ t := by
  rcases h with heq | ⟨hle, hle'⟩
  · rw [heq]
  · exact iff_of_true hle hle'

theorem DeadlineBy.mono {span T T' : ℚ} {g : Group} (h : DeadlineBy span T g) (hle : T ≤ T') :
    DeadlineBy span T' g :=
  h.imp_right fun hset => ⟨hset.1.trans hle, hset.2.trans (by linarith)⟩

theorem DeadlineEq.of_eq {t : ℚ} {g g' k k' : Group} (h : DeadlineEq t g g')
    (hk : k.firedUntil = g.firedUntil) (hk' : k'.firedUntil = g'.firedUntil) : DeadlineEq t k k' := by
  rw [DeadlineEq, hk, hk']
  exact h

theorem DeadlineBy.of_eq {span T : ℚ} {g k : Group} (h : DeadlineBy span T g)
    (hk : k.firedUntil = g.firedUntil) : DeadlineBy span T k := by
  rw [DeadlineBy, hk]
  exact h

/-- A deadline of a group all of which has left the window has passed. -/
theorem DeadlineBy.stale {span T t : ℚ} {g : Group} (hspan : 0 ≤ span) (h : DeadlineBy span T g)
    (hlt : T < t - span) (n : ℕ) : DeadlineEq t (groupNew n) g := by
  rcases h with hzero | ⟨hnonneg, hle⟩
  · exact Or.inl hzero.symm
  · have hnew : (groupNew n).firedUntil ≤ t := by
      have hzero : (groupNew n).firedUntil = 0 := rfl
      linarith
    exact Or.inr ⟨hnew, by linarith⟩

section Settle

variable {r : CorrRule} {ts T : ℚ} {e e' : Evaluated}

/-- What a group answers to an input. -/
def GroupOutcome.answer (o : GroupOutcome) : Bool × Option Int :=
  (o.decided, o.fire.map CorrFired.observed)

/-- The deadline moves when the evaluation decides for a fire and the one before has passed. -/
theorem settle_deadline (r : CorrRule) (ts : ℚ) (e : Evaluated) :
    (settle r ts e).group.firedUntil =
      if e.fired = true ∧ e.group.firedUntil ≤ ts then ts + r.timespanS else e.group.firedUntil := by
  rw [settle_firedUntil, settle_fire]
  split <;> rfl

/-- A deadline is set at `ts` or before. -/
theorem DeadlineBy.settle (h : DeadlineBy r.timespanS T e.group) (hle : T ≤ ts) :
    DeadlineBy r.timespanS ts (settle r ts e).group := by
  rw [DeadlineBy, settle_deadline]
  by_cases hfires : e.fired = true ∧ e.group.firedUntil ≤ ts
  · rw [if_pos hfires]
    refine Or.inr ⟨?_, le_rfl⟩
    rcases h with hzero | ⟨hnonneg, -⟩
    · exact hzero ▸ hfires.2
    · exact hnonneg.trans hle
  · rw [if_neg hfires]
    exact h.mono hle

/-- **Two evaluations that agree settle the same way.** -/
theorem SameEval.settle {Agree : Group → Group → Prop} (h : SameEval r Agree e e')
    (hdeadline : DeadlineEq ts e.group e'.group) :
    (settle r ts e).answer = (LibSigma.settle r ts e').answer ∧
      DeadlineEq ts (LibSigma.settle r ts e).group (LibSigma.settle r ts e').group := by
  have hcond : (e.fired = true ∧ e.group.firedUntil ≤ ts) ↔
      (e'.fired = true ∧ e'.group.firedUntil ≤ ts) := by
    rw [h.fired, hdeadline.le_iff]
  rw [GroupOutcome.answer, GroupOutcome.answer, settle_decided, settle_decided, settle_fire,
    settle_fire, DeadlineEq, settle_deadline, settle_deadline]
  by_cases hfires : e.fired = true ∧ e.group.firedUntil ≤ ts
  · rw [if_pos hfires, if_pos (hcond.mp hfires), if_pos hfires, if_pos (hcond.mp hfires), h.fired]
    exact ⟨congrArg (fun n => (e'.fired, some n)) (h.observed hfires.1), Or.inl rfl⟩
  · have hfires' := fun hfires' => hfires (hcond.mpr hfires')
    rw [if_neg hfires, if_neg hfires', if_neg hfires, if_neg hfires', h.fired]
    exact ⟨rfl, hdeadline⟩

end Settle

/-! ## The machine -/

section Machine

variable (fp : Doubles) (caps : CorrCaps) (r : CorrRule) (base : List UInt32) (times : Set ℚ)

/-- A group as a machine. -/
def groupMachine (g : Group) (i : GroupInput) : Group × (Bool × Option Int) :=
  ((groupInput fp caps r g i).group, (groupInput fp caps r g i).answer)

/-- The inputs of the machine: events of `times` that hit ids of `base`, and harmless partials. -/
def InputOk : GroupInput → Prop
  | .event hits _ ts => ts ∈ times ∧ hits ≠ [] ∧ ∀ rid ∈ hits, rid ∈ base
  | .contrib c => Harmless r c

variable {fp caps r base times} {Agree : ℚ → Group → Group → Prop} {Held : ℚ → Group → Prop}

/-- The bookkeeping of a settled group is replaced, and no more. -/
theorem settle_mark (ts : ℚ) (e : Evaluated) :
    (settle r ts e).group =
      e.group.mark e.group.lastUpdate (settle r ts e).group.firedUntil e.group.mergeRemote :=
  settle_group r ts e

theorem Memory.held_settle (h : Memory fp caps r base times Agree Held) {T ts : ℚ} {e : Evaluated}
    (hheld : Held T e.group) : Held T (settle r ts e).group := by
  rw [settle_mark]
  exact h.held_mark _ _ _ hheld

theorem Memory.agree_settle (h : Memory fp caps r base times Agree Held) {ws ts : ℚ}
    {e e' : Evaluated} (hagree : Agree ws e.group e'.group) :
    Agree ws (settle r ts e).group (settle r ts e').group := by
  rw [settle_mark ts e, settle_mark ts e']
  exact h.agree_mark _ _ _ _ _ _ hagree

/-- **A group is a machine that forgets.** -/
theorem Memory.forgetful (h : Memory fp caps r base times Agree Held) (hspan : 0 ≤ r.timespanS) :
    Forgetful GroupInput.ts r.timespanS (groupMachine fp caps r)
      (groupNew caps.maxEventsPerGroup) (InputOk r base times) GroupInput.isEvent
      (fun t g g' => Agree (t - r.timespanS) g g' ∧ DeadlineEq t g g')
      (fun T g => Held T g ∧ DeadlineBy r.timespanS T g) where
  mono hle hagree := ⟨h.mono (by linarith) hagree.1, hagree.2.mono hle⟩
  held_new T := ⟨h.held_new T, Or.inl rfl⟩
  held_step {T g i} hok hheld hle := by
    cases i with
    | event hits value ts =>
      have hmark := h.held_mark ts g.firedUntil g.mergeRemote hheld.1
      have hframe := sameFrame_evaluate fp caps r (g.mark ts g.firedUntil g.mergeRemote) hits
        value ts (ts - r.timespanS)
      rw [groupMachine, groupInput_event fp caps r g hok.2.1]
      exact ⟨h.held_settle (h.held_event value hok.1 hok.2.1 hok.2.2 hmark hle),
        (hheld.2.of_eq hframe.firedUntil).settle hle⟩
    | contrib c =>
      have hmark := h.held_mark c.ts g.firedUntil true hheld.1
      have hframe := evalContrib_frame fp caps r (g.mark c.ts g.firedUntil true) c (c.ts - r.timespanS)
      exact ⟨h.held_settle (h.held_contrib hok hmark hle), (hheld.2.of_eq hframe.2.1).settle hle⟩
  stale hheld hlt := ⟨h.stale hheld.1 hlt, hheld.2.stale (by exact_mod_cast hspan) hlt _⟩
  agree_new t := ⟨h.agree_new _, Or.inl rfl⟩
  active_step {T T' g g' i} hok hactive hheld hheld' hle hle' hagree := by
    cases i with
    | contrib c => cases hactive
    | event hits value ts =>
      have heval := h.event value hok.1 hok.2.1 hok.2.2
        (h.held_mark ts g.firedUntil g.mergeRemote hheld.1)
        (h.held_mark ts g'.firedUntil g'.mergeRemote hheld'.1) hle hle'
        (h.agree_mark ts g.firedUntil ts g'.firedUntil g.mergeRemote g'.mergeRemote hagree.1)
      have hframe := sameFrame_evaluate fp caps r (g.mark ts g.firedUntil g.mergeRemote) hits
        value ts (ts - r.timespanS)
      have hframe' := sameFrame_evaluate fp caps r (g'.mark ts g'.firedUntil g'.mergeRemote) hits
        value ts (ts - r.timespanS)
      obtain ⟨hanswer, hafter⟩ :=
        heval.settle (hagree.2.of_eq hframe.firedUntil hframe'.firedUntil)
      rw [groupMachine, groupMachine, groupInput_event fp caps r g hok.2.1,
        groupInput_event fp caps r g' hok.2.1]
      exact ⟨hanswer, h.agree_settle heval.agree, hafter⟩
  inert_step {T g g' i} hok hactive hheld hle hagree := by
    cases i with
    | event hits value ts =>
      rw [isEvent_event hok.2.1] at hactive
      cases hactive
    | contrib c =>
      have hmark := h.agree_mark c.ts g.firedUntil g'.lastUpdate g'.firedUntil true g'.mergeRemote
        hagree.1
      have hframe := evalContrib_frame fp caps r (g.mark c.ts g.firedUntil true) c (c.ts - r.timespanS)
      have hfired := (Harmless.evalContrib hok fp caps (g.mark c.ts g.firedUntil true)
        (c.ts - r.timespanS)).1
      have hsettle : settle r c.ts (evalContrib fp caps r (g.mark c.ts g.firedUntil true) c
            (c.ts - r.timespanS)) =
          ⟨(evalContrib fp caps r (g.mark c.ts g.firedUntil true) c (c.ts - r.timespanS)).group, false,
            none, _⟩ := if_pos hfired
      have hgroup : (groupMachine fp caps r g (.contrib c)).1 =
          (evalContrib fp caps r (g.mark c.ts g.firedUntil true) c (c.ts - r.timespanS)).group :=
        congrArg GroupOutcome.group hsettle
      rw [hgroup]
      exact ⟨h.contrib hok hmark, hagree.2.of_eq hframe.2.1 rfl⟩

end Machine

end LibSigma
