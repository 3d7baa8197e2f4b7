import LibSigma.Corr.Order
import LibSigma.Corr.Machine

/-!
# The observed count of a fire

The evaluator of a correlation that counts compares a number with the threshold; the record of the
fire derives its `observed` once more, from the group after the evaluation.

The two are written in different places of the source, and for each type of rule they have to be the
same number: the length of the ring, or that plus the merged count, or the count of the set.
`comparedCount` is what the evaluators compare, `observedVal` what the record reads, and `Compares`
relates the two for one evaluation.

They differ in one case.  Beaconing in buckets counts active epochs and never fills the ring, from
whose length its `observed` is taken, so its fires report 0.

The result is about records, not about outcomes.  The array of the caller may be shorter than the
list of the fires, and the group values may not fit; the records that are written are still those of
the first fires (`corrEmit_records`).

* `compares_evaluate`, `compares_evalContrib`: what the evaluators compare.
* `observed_compared_iff`: **the record of a fire holds the number that crossed the threshold,
  unless the correlation is beaconing in buckets**, whose fires observe an empty ring.
-/

namespace LibSigma

open Library

/-! ## What is compared

The number that an evaluation compares, by type, from the group it leaves.  Types that compare
something else than a count have none. -/

/-- The types whose fires observe a count. -/
def CorrRule.Counts (r : CorrRule) : Prop :=
  r.type = some .eventCount ∨ r.type = some .valueCount ∨ r.type = some .beaconing

/-- Whether a count crosses the threshold; beaconing has no operator. -/
def CorrRule.crosses (r : CorrRule) (n : Int) : Bool :=
  if r.type = some .beaconing then decide (r.condCount ≤ n)
  else cmpThreshold n r.condOp r.condCount

/-- The count that the evaluation of an event compares with the threshold. -/
def comparedOnEvent (fp : Doubles) (caps : CorrCaps) (r : CorrRule) (g : Group)
    (value : Option CStr) (now windowStart : ℚ) : Option Int :=
  match r.type with
  | some .eventCount => some ((evPrune (evAppend g now) windowStart).evIdx.len + g.mergeN.toNat)
  | some .valueCount =>
    value.map fun val => (dsetObserve g.distinct val now windowStart caps.maxDistinct).1.count
  | some .beaconing =>
    if 0 < r.beaconNBuckets then
      let nb := r.beaconNBuckets.toNat
      let nowE := r.epochOf fp now
      if r.bucketSecs fp ≤ 0 ∨ now < 0 then none
      else some (activeEpochs (bucketBump (g.buckets r) nb nowE) nb nowE).length
    else some (evPrune (evAppend g now) windowStart).evIdx.len
  | _ => none

/-- The count that the evaluation of a partial compares with the threshold. -/
def comparedOnContrib (caps : CorrCaps) (r : CorrRule) (g : Group) (c : CorrContrib)
    (windowStart : ℚ) : Option Int :=
  if c.kind = some .count ∧ r.type = some .eventCount then
    some ((evPrune g windowStart).evIdx.len + (g.mergeN + contribAdd c).toNat)
  else if c.kind = some .distinct ∧ r.type = some .valueCount then
    c.value.map fun val => (dsetObserve g.distinct val c.ts windowStart caps.maxDistinct).1.count
  else none

/-- The count that an input of a group compares with the threshold. -/
def comparedCount (fp : Doubles) (caps : CorrCaps) (r : CorrRule) (g : Group) : GroupInput → Option Int
  | .event hits value ts =>
    if hits = [] then none else comparedOnEvent fp caps r g value ts (ts - r.timespanS)
  | .contrib c => comparedOnContrib caps r g c (c.ts - r.timespanS)

/-! ## The evaluators

Each evaluator against that number, and what a fire would observe after it.  Beaconing in buckets is
the one with an empty ring at that point, in every reachable state. -/

/-- An evaluation decides for a fire on a count that crosses the threshold, and a fire then observes
that count, unless it is beaconing in buckets: this observes the ring. -/
structure Compares (r : CorrRule) (e : Evaluated) (count : Option Int) : Prop where
  crosses : e.fired = true → ∃ n, count = some n ∧ r.crosses n = true
  observed : ¬ r.Bucketed → ∀ n, count = some n → observedVal r e.group e.vagg = n
  bucketed : r.Bucketed → e.fired = true → (∃ n, count = some n ∧ 3 ≤ n) ∧
    observedVal r e.group e.vagg = e.group.evIdx.len

section Evaluators

variable {fp : Doubles} {caps : CorrCaps} {r : CorrRule}

/-- An evaluation that decides against a fire and compares nothing. -/
theorem Compares.quiet {e : Evaluated} (h : e.fired = false) : Compares r e none where
  crosses hfired := absurd hfired (by rw [h]; decide)
  observed _ n hn := by cases hn
  bucketed _ hfired := absurd hfired (by rw [h]; decide)

/-- An evaluation by the operator of the rule. -/
theorem Compares.threshold (hbeacon : r.type ≠ some .beaconing) {e : Evaluated} {n : Int}
    (hfired : e.fired = cmpThreshold n r.condOp r.condCount)
    (hobserved : observedVal r e.group e.vagg = n) : Compares r e (some n) where
  crosses h := ⟨n, rfl, by rw [CorrRule.crosses, if_neg hbeacon, ← hfired, h]⟩
  observed _ m hm := by cases hm; exact hobserved
  bucketed h := absurd h.1 hbeacon

theorem compares_evalValueCount (htype : r.type = some .valueCount) (g : Group)
    (value : Option CStr) (m : ℕ) (now ws : ℚ) :
    Compares r (evalValueCount r g value m now ws)
      (value.map fun val => ((dsetObserve g.distinct val now ws m).1.count : Int)) := by
  cases value with
  | none => exact .quiet rfl
  | some val =>
    refine .threshold (by rw [htype]; decide) rfl ?_
    rw [observedVal, htype]
    rfl

theorem compares_evalBeaconing (htype : r.type = some .beaconing) (g : Group) (now ws : ℚ) :
    Compares r (evalBeaconing fp r g now ws) (comparedOnEvent fp caps r g none now ws) := by
  rw [comparedOnEvent, htype]
  dsimp only
  have hobserved : ∀ e : Evaluated, observedVal r e.group e.vagg = e.group.evIdx.len := by
    intro e
    rw [observedVal, htype]
  have hcrosses : ∀ n : ℕ, ¬ ((n : Int) < r.condCount) → r.crosses n = true := by
    intro n hn
    rw [CorrRule.crosses, if_pos htype]
    exact decide_eq_true (not_lt.mp hn)
  by_cases hnb : 0 < r.beaconNBuckets
  · rw [evalBeaconing, if_pos hnb, if_pos hnb]
    by_cases hskip : r.bucketSecs fp ≤ 0 ∨ now < 0
    · rw [evalBeaconingBucketed_skip hskip, if_pos hskip]
      exact .quiet rfl
    · rw [evalBeaconingBucketed_eq hskip, if_neg hskip]
      generalize activeEpochs _ _ _ = es
      have hfired : r.beaconFires fp es = true →
          ¬ ((es.length : Int) < r.condCount) ∧ ¬ es.length < 3 := by
        intro h
        simp only [CorrRule.beaconFires, Bool.and_eq_true, Bool.not_eq_true',
          Bool.or_eq_false_iff, decide_eq_false_iff_not] at h
        exact h.1.1
      refine ⟨fun h => ⟨_, rfl, hcrosses _ (hfired h).1⟩, fun hb => absurd ⟨htype, hnb⟩ hb,
        fun _ h => ⟨⟨_, rfl, ?_⟩, hobserved _⟩⟩
      have := (hfired h).2
      omega
  · rw [evalBeaconing, if_neg hnb, if_neg hnb]
    have hlen : ((evPrune (evAppend g now) ws).evIdx.read (evPrune (evAppend g now) ws).evTs).length =
        (evPrune (evAppend g now) ws).evIdx.len := RingIdx.length_read _ _
    refine ⟨fun h => ⟨_, rfl, hcrosses _ ?_⟩, fun _ n hn => ?_, fun hb => absurd hb.2 hnb⟩
    · simp only [evalBeaconingRaw, Bool.and_eq_true, Bool.not_eq_true', Bool.or_eq_false_iff,
        decide_eq_false_iff_not, hlen] at h
      exact h.1.1
    · cases hn
      exact hobserved _

/-- **The evaluation of an event.** -/
theorem compares_evaluate (hcounts : r.Counts) (g : Group) (hits : List UInt32)
    (value : Option CStr) (now ws : ℚ) :
    Compares r (evaluate fp caps r g hits value now ws)
      (comparedOnEvent fp caps r g value now ws) := by
  rcases hcounts with htype | htype | htype
  · rw [evaluate, comparedOnEvent, htype]
    refine .threshold (by rw [htype]; decide) rfl ?_
    rw [observedVal, htype]
    rfl
  · rw [evaluate, comparedOnEvent, htype]
    exact compares_evalValueCount htype g value caps.maxDistinct now ws
  · have hnone : comparedOnEvent fp caps r g value now ws = comparedOnEvent fp caps r g none now ws := by
      rw [comparedOnEvent, comparedOnEvent, htype]
    rw [hnone, evaluate, htype]
    exact compares_evalBeaconing htype g now ws

/-- **The evaluation of a partial.** -/
theorem compares_evalContrib (hcounts : r.Counts) (g : Group) (c : CorrContrib) (ws : ℚ) :
    Compares r (evalContrib fp caps r g c ws) (comparedOnContrib caps r g c ws) := by
  have hsum : r.type ≠ some .valueSum ∧ r.type ≠ some .valueAvg ∧ r.type ≠ some .temporal := by
    rcases hcounts with htype | htype | htype <;> rw [htype] <;> decide
  have hother : ∀ {k : Option CorrContribKind}, k ≠ some .count → k ≠ some .distinct →
      c.kind = k → comparedOnContrib caps r g c ws = none := by
    rintro k hcount hdistinct rfl
    rw [comparedOnContrib, if_neg (fun h => hcount h.1), if_neg (fun h => hdistinct h.1)]
  cases hkind : c.kind with
  | none =>
    rw [hother (by decide) (by decide) hkind, evalContrib, hkind]
    exact .quiet rfl
  | some k =>
    cases k with
    | event =>
      rw [hother (by decide) (by decide) hkind, evalContrib, hkind]
      exact .quiet rfl
    | count =>
      rw [comparedOnContrib, hkind, evalContrib, hkind]
      dsimp only
      by_cases htype : r.type = some .eventCount
      · rw [if_pos ⟨rfl, htype⟩, htype]
        refine .threshold (by rw [htype]; decide) (Bool.true_and _) ?_
        rw [observedVal, htype]
        rfl
      · rw [if_neg (fun h => htype h.2), if_neg (fun h => absurd h.1 (by decide))]
        refine .quiet ?_
        dsimp only
        rw [beq_false_of_ne htype, Bool.false_and]
    | sum =>
      rw [hother (by decide) (by decide) hkind, evalContrib, hkind]
      dsimp only
      rw [if_neg (fun h => hsum.2.1 h.1), beq_false_of_ne hsum.1, beq_false_of_ne hsum.2.1]
      exact .quiet rfl
    | distinct =>
      have hcompared : comparedOnContrib caps r g c ws =
          if r.type = some .valueCount then
            c.value.map fun val =>
              ((dsetObserve g.distinct val c.ts ws caps.maxDistinct).1.count : Int)
          else none := by
        rw [comparedOnContrib, hkind, if_neg (fun h => absurd h.1 (by decide))]
        exact if_congr (and_iff_right rfl) rfl rfl
      rw [hcompared, evalContrib, hkind]
      dsimp only
      by_cases htype : r.type = some .valueCount
      · rw [if_pos htype, if_pos htype]
        exact compares_evalValueCount htype g c.value caps.maxDistinct c.ts ws
      · rw [if_neg htype, if_neg htype]
        exact .quiet rfl
    | seen =>
      rw [hother (by decide) (by decide) hkind, evalContrib, hkind]
      dsimp only
      rw [if_neg hsum.2.2]
      exact .quiet rfl

/-- The fire of a settled evaluation. -/
theorem Compares.settle {e : Evaluated} {count : Option Int} (h : Compares r e count) {ts : ℚ}
    {fd : CorrFired} (hfire : (settle r ts e).fire = some fd) :
    ∃ n, count = some n ∧ r.crosses n = true ∧
      (¬ r.Bucketed → fd.observed = n) ∧ (r.Bucketed → 3 ≤ n ∧ fd.observed = e.group.evIdx.len) := by
  rw [settle_fire] at hfire
  split at hfire
  · rename_i hand
    cases hfire
    obtain ⟨n, hn, hcrosses⟩ := h.crosses hand.1
    refine ⟨n, hn, hcrosses, fun hb => h.observed hb n hn, fun hb => ?_⟩
    obtain ⟨⟨m, hm, hle⟩, hlen⟩ := h.bucketed hb hand.1
    cases hm.symm.trans hn
    exact ⟨hle, hlen⟩
  · cases hfire

/-- **The fire of an input.** -/
theorem groupInput_fire_compared (hcounts : r.Counts) (g : Group) (i : GroupInput) {fd : CorrFired}
    (hfire : (groupInput fp caps r g i).fire = some fd) :
    ∃ n, comparedCount fp caps r g i = some n ∧ r.crosses n = true ∧
      (¬ r.Bucketed → fd.observed = n) ∧
      (r.Bucketed → 3 ≤ n ∧ fd.observed = (groupInput fp caps r g i).group.times.length) := by
  cases i with
  | event hits value ts =>
    by_cases hnil : hits = []
    · rw [groupInput, if_pos hnil] at hfire
      cases hfire
    · rw [groupInput_event fp caps r g hnil] at hfire ⊢
      rw [comparedCount, if_neg hnil, settle_group]
      have hcompares := @compares_evaluate fp caps r hcounts { g with lastUpdate := ts } hits
        value ts (ts - r.timespanS)
      have hsettle := hcompares.settle hfire
      rw [← length_times] at hsettle
      exact hsettle
  | contrib c =>
    rw [groupInput] at hfire ⊢
    rw [comparedCount, settle_group]
    have hcompares := @compares_evalContrib fp caps r hcounts
      { g with lastUpdate := c.ts, mergeRemote := true } c (c.ts - r.timespanS)
    have hsettle := hcompares.settle hfire
    rw [← length_times] at hsettle
    exact hsettle

variable (fp caps) in
/-- Beaconing in buckets leaves the ring empty. -/
theorem times_bucketed (hb : r.Bucketed) {g : Group} (hnil : g.times = []) (i : GroupInput) :
    (groupInput fp caps r g i).group.times = [] := by
  cases i with
  | event hits value ts =>
    by_cases hhits : hits = []
    · rw [groupInput, if_pos hhits]
      exact hnil
    · rw [groupInput_event fp caps r g hhits, settle_group, evaluate, hb.1]
      dsimp only
      rw [evalBeaconing, if_pos hb.2]
      by_cases hskip : r.bucketSecs fp ≤ 0 ∨ ts < 0
      · rw [evalBeaconingBucketed_skip hskip]
        exact hnil
      · rw [evalBeaconingBucketed_eq hskip]
        exact hnil
  | contrib c =>
    have hstart : ({ g with lastUpdate := c.ts, mergeRemote := true } : Group).times = [] := hnil
    rw [groupInput, settle_group]
    rcases times_evalContrib caps r { g with lastUpdate := c.ts, mergeRemote := true } c
      (c.ts - r.timespanS) with htimes | htimes
    · exact htimes.trans hstart
    · exact htimes.trans (by rw [hstart]; rfl)

end Evaluators

/-! ## The engine -/

/-- The count that a call compares with the threshold in the group of `key`. -/
def CorrEngine.comparedBy (fp : Doubles) (e : CorrEngine) (c : CorrCall) (ci : ℕ) (r : CorrRule)
    (key : List CStr) : Option Int :=
  (c.inputFor (e.states.map CorrState.rule) ci r key).bind
    (comparedCount fp e.caps r
      (((e.sweepIfDue c.ts).slot ci key).getD (groupNew e.caps.maxEventsPerGroup)))

/-- A record of a fire is that of an outcome, its group values apart. -/
def CorrFire.RecordOf (rules : List CorrRule) (f : CorrFire) (o : CorrOutcome) : Prop :=
  ∃ r fd, o.fired rules = some (r, fd) ∧ { f with group := none } = corrFire r none fd

/-- The observed number crosses the threshold and is the one compared. -/
def CorrFire.Truthful (f : CorrFire) (r : CorrRule) (count : Option Int) : Prop :=
  r.crosses f.observed = true ∧ count = some f.observed

section Engine

variable {fp : Doubles} {rules : List CorrRule} {caps : CorrCaps} {ci : ℕ}
  {r : CorrRule}

/-- An outcome of a call is that of an input on the group the call finds. -/
theorem exists_input_of_outcome {e : CorrEngine} (h : EngineOk rules caps e)
    (hr : (admittedRules rules)[ci]? = some r) (c : CorrCall) {o : CorrOutcome}
    (ho : o ∈ (corrCall fp e c).2) (hci : o.corr = ci) :
    ∃ i, c.inputFor (admittedRules rules) ci r o.key = some i ∧
      o.fire = (groupApply fp caps.withDefaults r ((e.sweepIfDue c.ts).slot ci o.key) i).fire := by
  have heffect := (corrCall_effect fp h hr c).2
  have hmem := mem_outcomesOf.mpr ⟨ho, hci⟩
  cases htarget : c.target (admittedRules rules) ci r with
  | none =>
    rw [(heffect.idle htarget).2] at hmem
    exact absurd hmem List.not_mem_nil
  | some p =>
    obtain ⟨key, i⟩ := p
    obtain ⟨st, hst, -, hos⟩ := heffect.input key i htarget
    rw [hos, List.mem_singleton] at hmem
    subst hmem
    have hrule : st.rule = r :=
      Option.some.inj (((h.sweepIfDue c.ts).rule_of_state hst).symm.trans hr)
    refine ⟨i, ?_, ?_⟩
    · rw [CorrCall.inputFor, htarget, Option.bind_some]
      exact if_pos rfl
    · have hwf := (h.sweepIfDue c.ts).wf st (List.mem_of_getElem? hst)
      obtain ⟨-, -, -, hfire, -⟩ := cstateInput_spec fp caps.withDefaults hwf key i
      rw [corrOutcome, hfire, hrule, CorrEngine.slot, hst, Option.bind_some]

/-- In a reachable state the groups of a correlation that beacons in buckets have empty rings. -/
theorem times_corrRun (hr : (admittedRules rules)[ci]? = some r) (hb : r.Bucketed)
    (cs : List CorrCall) (now : ℚ) (key : List CStr) {g : Group}
    (hg : ((corrRun fp (corrEngineNew rules caps) cs).sweepIfDue now).slot ci key = some g) :
    g.times = [] := by
  have hlife : ∀ {H : List GroupStep} {s : Option Group}, Life fp caps.withDefaults r H s →
      ∀ g, s = some g → g.times = [] := by
    intro H s h
    induction h with
    | unborn => exact fun g hg => by cases hg
    | @input H s i h ih =>
      intro g hg
      cases hg
      refine times_bucketed fp caps.withDefaults hb ?_ i
      cases s with
      | none => rfl
      | some g₀ => exact ih g₀ rfl
  obtain ⟨-, -, hL, -⟩ := lifeRun_life fp caps key hr cs
  rcases ((engineOk_new rules caps).corrRun fp hr cs).slot_sweepIfDue hr now key with heq | heq
  · exact hlife hL g (heq ▸ hg)
  · rw [heq] at hg
    exact hlife hL g (Option.filter_eq_some_iff.mp hg).1

/-- **The fire of a call observes the count compared, unless it beacons in buckets.** -/
theorem fire_compared (fp : Doubles) (rules : List CorrRule) (caps : CorrCaps)
    (cs : List CorrCall) (c : CorrCall) {o : CorrOutcome} {fd : CorrFired}
    (ho : o ∈ (corrCall fp (corrRun fp (corrEngineNew rules caps) cs) c).2)
    (hfired : o.fired (admittedRules rules) = some (r, fd)) (hcounts : r.Counts) :
    (r.crosses fd.observed = true ∧
        (corrRun fp (corrEngineNew rules caps) cs).comparedBy fp c o.corr r o.key =
          some fd.observed) ↔
      ¬ r.Bucketed := by
  have hrule : (admittedRules rules)[o.corr]? = some r ∧ o.fire = some fd := by
    unfold CorrOutcome.fired at hfired
    split at hfired
    · rename_i r' fd' hr' hfd'
      cases hfired
      exact ⟨hr', hfd'⟩
    · cases hfired
  obtain ⟨hr, hfire⟩ := hrule
  have hok := (engineOk_new rules caps).corrRun fp hr cs
  obtain ⟨i, hi, hinput⟩ := exists_input_of_outcome hok hr c ho rfl
  rw [hfire, groupApply] at hinput
  obtain ⟨n, hn, hcrosses, hobserved, hbucketed⟩ :=
    groupInput_fire_compared hcounts _ i hinput.symm
  have hcompared : (corrRun fp (corrEngineNew rules caps) cs).comparedBy fp c o.corr r o.key =
      some n := by
    rw [CorrEngine.comparedBy, hok.states, hi, Option.bind_some, hok.caps_eq]
    exact hn
  rw [hcompared]
  refine ⟨fun h hb => ?_, fun hb => ?_⟩
  · obtain ⟨hle, hlen⟩ := hbucketed hb
    have hnil := times_bucketed fp caps.withDefaults hb (i := i)
      (g := ((((corrRun fp (corrEngineNew rules caps) cs).sweepIfDue c.ts).slot o.corr
        o.key).getD (groupNew caps.withDefaults.maxEventsPerGroup))) (by
      cases hslot : ((corrRun fp (corrEngineNew rules caps) cs).sweepIfDue c.ts).slot o.corr
          o.key with
      | none => rfl
      | some g => exact times_corrRun hr hb cs c.ts o.key hslot)
    rw [hnil] at hlen
    have hcount := Option.some.inj h.2
    rw [hlen, List.length_nil] at hcount
    omega
  · rw [hobserved hb]
    exact ⟨hcrosses, rfl⟩

end Engine

/-! ## The records

What the caller sees.  Records are written in order until the array is full, so that a record is
that of some fire of the call, and the statement is about every record that is there. -/

/-- The outcomes that fired. -/
def firings (rules : List CorrRule) (os : List CorrOutcome) : List CorrOutcome :=
  os.filter fun o => (o.fired rules).isSome

/-- A fire is recorded while there is room. -/
theorem emitStep_record (sink : CorrSink) {rules : List CorrRule} {o : CorrOutcome} {r : CorrRule}
    {fd : CorrFired} (hfired : o.fired rules = some (r, fd)) (w : CorrWritten) :
    (emitStep sink r o.key fd w).firedCount = w.firedCount + 1 ∧
      (sink.maxOut ≤ w.firedCount → (emitStep sink r o.key fd w).out = w.out) ∧
      (w.firedCount < sink.maxOut →
        ∃ f : CorrFire, f.RecordOf rules o ∧ (emitStep sink r o.key fd w).out = w.out ++ [f]) := by
  unfold emitStep
  by_cases hfull : sink.maxOut ≤ w.firedCount
  · rw [if_pos hfull]
    exact ⟨rfl, fun _ => rfl, fun hlt => absurd hfull (not_le.mpr hlt)⟩
  · rw [if_neg hfull]
    dsimp only
    split
    · exact ⟨rfl, fun h => absurd h hfull, fun _ => ⟨_, ⟨r, fd, hfired, rfl⟩, rfl⟩⟩
    · exact ⟨rfl, fun h => absurd h hfull, fun _ => ⟨_, ⟨r, fd, hfired, rfl⟩, rfl⟩⟩

/-- **The records are those of the first fires.** -/
theorem corrEmit_records (sink : CorrSink) (rules : List CorrRule) (os : List CorrOutcome) :
    List.Forall₂ (CorrFire.RecordOf rules) (corrEmit sink rules os).out
      ((firings rules os).take sink.maxOut) := by
  have hfold : ∀ (os : List CorrOutcome) (w : CorrWritten), ∃ fs,
      (os.foldl (fun w o => ((o.fired rules).map fun p => emitStep sink p.1 o.key p.2 w).getD w)
          w).out = w.out ++ fs ∧
        List.Forall₂ (CorrFire.RecordOf rules) fs
          ((firings rules os).take (sink.maxOut - w.firedCount)) := by
    intro os
    induction os with
    | nil =>
      refine fun w => ⟨[], (List.append_nil _).symm, ?_⟩
      rw [firings, List.filter_nil, List.take_nil]
      exact .nil
    | cons o os ih =>
      intro w
      rw [List.foldl_cons, firings, List.filter_cons, ← firings]
      cases hfired : o.fired rules with
      | none => exact ih w
      | some p =>
        obtain ⟨r, fd⟩ := p
        obtain ⟨hcount, hfull, hroom⟩ := emitStep_record sink hfired w
        obtain ⟨fs, hout, hrecords⟩ := ih (emitStep sink r o.key fd w)
        rw [hcount] at hrecords
        rw [Option.map_some, Option.getD_some, Option.isSome_some, if_pos rfl, hout]
        by_cases hlt : w.firedCount < sink.maxOut
        · obtain ⟨f, hrecord, hwritten⟩ := hroom hlt
          have htake : sink.maxOut - w.firedCount = sink.maxOut - (w.firedCount + 1) + 1 := by omega
          rw [htake, List.take_succ_cons, hwritten, List.append_assoc]
          exact ⟨f :: fs, rfl, .cons hrecord hrecords⟩
        · have htake : sink.maxOut - w.firedCount = 0 := by omega
          have htake' : sink.maxOut - (w.firedCount + 1) = 0 := by omega
          rw [htake', List.take_zero] at hrecords
          rw [htake, List.take_zero, hfull (not_lt.mp hlt)]
          exact ⟨fs, rfl, hrecords⟩
  obtain ⟨fs, hout, hrecords⟩ := hfold os ⟨0, [], 0, []⟩
  rw [corrEmit_eq, hout]
  exact hrecords

/-- **The record of a fire holds the count that crossed the threshold, unless the correlation beacons
in buckets.**  In every run the records of a call are those of its first fires, and for a
correlation that counts the record is truthful exactly if it does not beacon in buckets. -/
theorem observed_compared_iff (fp : Doubles) (rules : List CorrRule) (caps : CorrCaps)
    (cs : List CorrCall) (c : CorrCall) (sink : CorrSink) :
    let e := corrRun fp (corrEngineNew rules caps) cs
    let os := (corrCall fp e c).2
    List.Forall₂ (fun f o => CorrFire.RecordOf (admittedRules rules) f o ∧
        ∀ r fd, o.fired (admittedRules rules) = some (r, fd) → r.Counts →
          (f.Truthful r (e.comparedBy fp c o.corr r o.key) ↔ ¬ r.Bucketed))
      (corrEmit sink (admittedRules rules) os).out
      ((firings (admittedRules rules) os).take sink.maxOut) := by
  intro e os
  have hrecords := corrEmit_records sink (admittedRules rules) os
  rw [List.forall₂_iff_get] at hrecords ⊢
  refine ⟨hrecords.1, fun i h h' => ⟨hrecords.2 i h h', fun r fd hfired hcounts => ?_⟩⟩
  obtain ⟨r', fd', hfired', hrecord⟩ := hrecords.2 i h h'
  cases hfired.symm.trans hfired'
  have hmem := List.mem_of_mem_take (List.get_mem _ ⟨i, h'⟩)
  have hobserved := congrArg CorrFire.observed hrecord
  have hiff := fire_compared fp rules caps cs c (List.mem_of_mem_filter hmem) hfired hcounts
  rw [CorrFire.Truthful, hobserved]
  exact hiff

/-- Two events of a user, a second apart. -/
def beatCalls : List CorrCall := [.event (userEvent 7 0) none, .event (userEvent 7 1) none]

/-- Room for the records of a call. -/
def beatSink : CorrSink := ⟨4, some 4⟩

/-- The third event of a `tripleRule` fires, and its record observes three. -/
theorem observed_compared_iff_sample :
    let e := corrRun .bare (corrEngineNew [tripleRule] capsZero) beatCalls
    let os := (corrCall .bare e (.event (userEvent 7 2) none)).2
    (corrEmit beatSink [tripleRule] os).out.map (fun f => (f.observed, f.threshold)) = [(3, 3)] ∧
      List.Forall₂ (fun f o => CorrFire.RecordOf (admittedRules [tripleRule]) f o ∧
          ∀ r fd, o.fired (admittedRules [tripleRule]) = some (r, fd) → r.Counts →
            (f.Truthful r (e.comparedBy .bare (.event (userEvent 7 2) none) o.corr r o.key) ↔
              ¬ r.Bucketed))
        (corrEmit beatSink (admittedRules [tripleRule]) os).out
        ((firings (admittedRules [tripleRule]) os).take beatSink.maxOut) :=
  ⟨by decide +kernel,
    observed_compared_iff .bare [tripleRule] capsZero beatCalls
      (.event (userEvent 7 2) none) beatSink⟩

/-- A rule that beacons once a second, in ten buckets. -/
def heartbeatRule : CorrRule :=
  { burstRule with
    type := some .beaconing, condCount := 3, timespanS := 10, beaconCvPermille := 100
    beaconNBuckets := 10 }

/-- The third beat crosses the threshold of three, and its record observes zero. -/
theorem heartbeat_observes_zero :
    ¬ ∀ (fp : Doubles) (rules : List CorrRule) (caps : CorrCaps) (cs : List CorrCall)
        (c : CorrCall) (sink : CorrSink),
      let e := corrRun fp (corrEngineNew rules caps) cs
      let os := (corrCall fp e c).2
      List.Forall₂ (fun f o => CorrFire.RecordOf (admittedRules rules) f o ∧
          ∀ r fd, o.fired (admittedRules rules) = some (r, fd) → r.Counts →
            f.Truthful r (e.comparedBy fp c o.corr r o.key))
        (corrEmit sink (admittedRules rules) os).out
        ((firings (admittedRules rules) os).take sink.maxOut) := by
  intro hclaim
  have hfail := hclaim .bare [heartbeatRule] capsZero beatCalls
    (.event (userEvent 7 2) none) beatSink
  dsimp only at hfail
  have hout : ((corrEmit beatSink (admittedRules [heartbeatRule]) (corrCall .bare
      (corrRun .bare (corrEngineNew [heartbeatRule] capsZero) beatCalls)
        (.event (userEvent 7 2) none)).2).out.map CorrFire.observed) = [0] := by
    decide +kernel
  have hos : ((firings (admittedRules [heartbeatRule]) (corrCall .bare
      (corrRun .bare (corrEngineNew [heartbeatRule] capsZero) beatCalls)
        (.event (userEvent 7 2) none)).2).take beatSink.maxOut).map (CorrOutcome.fired [heartbeatRule])
          = [some (heartbeatRule, ⟨0, false⟩)] := by
    decide +kernel
  obtain ⟨f, hf, hobserved⟩ := List.map_eq_singleton_iff.mp hout
  obtain ⟨o, ho, hfired⟩ := List.map_eq_singleton_iff.mp hos
  rw [hf, ho] at hfail
  have htruthful := (List.forall₂_cons.mp hfail).1.2 heartbeatRule ⟨0, false⟩ hfired
    (Or.inr (Or.inr rfl))
  have hcrosses := htruthful.1
  rw [hobserved] at hcrosses
  exact absurd hcrosses (by decide)

end LibSigma
