import Mathlib.Algebra.BigOperators.Group.Finset.Basic
import Mathlib.Algebra.Order.BigOperators.Group.List
import LibSigma.Corr.EventCount
import LibSigma.Corr.Order

/-!
# What events_overwritten counts

The evaluators append an event to the ring of its group before they age the ring.  A full ring then
loses its oldest timestamp to the append, and the engine counts the loss without looking whether
that timestamp was still in the window.

## The counter and the loss

There are two numbers for a call under a correlation.  What the engine counts is `overwritten`: one,
if the call records an event in a full ring.  What is lost is `discarded`: how many live timestamps
were there before the call, with the new one, and are not there after it.  The header says that the
first counts the second.  Both are computed from the engine before the call, so that they can be
compared call by call, and they agree unless the ring was full and its oldest timestamp had aged out
(`countsLosses_iff`).

To add this up over a run one has to know that nothing else raises the counter: no other branch of
an evaluator, no partial, no admission of a group.  This is proved for each evaluator in the first
section, and is the longer part of the module.

* `EngineOk.stats_corrCall`: the counter grows with each event recorded in a full ring.
* `overwrites_live_iff`: **the counter counts the live timestamps that were discarded exactly when
  no event finds a full ring whose oldest timestamp has aged out**.
* `overwrites_counts_aged`: a run that counts a timestamp no one misses.
-/

namespace LibSigma

open Library

/-! ## One event on its group

An append to a full ring counts an overwrite.  What is discarded is the oldest timestamp, and
whether that one was still in the window is not looked at.  No other part of an evaluation counts
one. -/

/-- Whether a rule records an event in the ring of its group: the rules on numbers record numbers
only, and beaconing in buckets records in the buckets. -/
def CorrRule.records (fp : Doubles) (r : CorrRule) (value : Option CStr) : Bool :=
  match r.type with
  | some .eventCount => true
  | some .valueSum | some .valueAvg | some .valuePercentile | some .valueMedian =>
    (value.bind (sgToF64 fp)).isSome
  | some .beaconing => decide (r.beaconNBuckets ≤ 0)
  | _ => false

/-- A full ring. -/
def Group.ringFull (g : Group) : Prop := g.evIdx.len = g.evIdx.cap

instance (g : Group) : Decidable g.ringFull := inferInstanceAs (Decidable (_ = _))

/-- How many timestamps of a list are in the window. -/
def liveCount (ws : ℚ) (ts : List ℚ) : ℕ := ts.countP fun t => !before ws t

/-- A full ring whose oldest timestamp has aged out. -/
def Group.staleFull (g : Group) (ws : ℚ) : Prop := g.ringFull ∧ g.times.head?.any (before ws) = true

instance (g : Group) (ws : ℚ) : Decidable (g.staleFull ws) := inferInstanceAs (Decidable (_ ∧ _))

section Evaluate

variable {fp : Doubles} {caps : CorrCaps} {r : CorrRule}

/-- An append counts one overwrite if the ring is full. -/
theorem count_evAppendIncs (g : Group) (now ws : ℚ) (hot : Bool) :
    (evAppendIncs g now ws hot).count .eventsOverwritten = if g.ringFull then 1 else 0 := by
  unfold evAppendIncs
  by_cases hfull : g.evIdx.len = g.evIdx.cap
  · rw [if_pos hfull, if_pos (show g.ringFull from hfull)]
    split <;> rfl
  · rw [if_neg hfull, if_neg (show ¬ g.ringFull from hfull)]
    rfl

/-- Counters none of which is that of the overwrites. -/
theorem count_eq_zero_of_forall {incs : List CorrCounter} {k : CorrCounter}
    (hk : k ≠ .eventsOverwritten) (h : ∀ c ∈ incs, c = k) : incs.count .eventsOverwritten = 0 :=
  List.count_eq_zero.mpr fun hmem => hk (h _ hmem).symm

theorem count_evalValueCount (g : Group) (value : Option CStr) (m : ℕ) (now ws : ℚ) :
    (evalValueCount r g value m now ws).incs.count .eventsOverwritten = 0 := by
  cases value with
  | none => rfl
  | some val =>
    show (dsetObserve g.distinct val now ws m).2.count _ = 0
    unfold dsetObserve
    dsimp only
    split
    · rfl
    · split
      · split <;> rfl
      · rfl

theorem incs_temporalRecordSeen (g : Group) (hits : List UInt32) (now ws : ℚ) :
    ∀ c ∈ (temporalRecordSeen g hits now ws).2, c = .seenTruncated := by
  have hfold : ∀ (hits : List UInt32) (acc : List (UInt32 × ℚ) × List CorrCounter),
      (∀ c ∈ acc.2, c = .seenTruncated) →
        ∀ c ∈ (hits.foldl (seenRecord now) acc).2, c = .seenTruncated := by
    intro hits
    induction hits with
    | nil => exact fun _ h => h
    | cons rid hits ih =>
      intro acc h
      refine ih _ ?_
      unfold seenRecord
      split
      · exact h
      · split
        · exact h
        · intro c hc
          exact (List.mem_append.mp hc).elim (h c) List.mem_singleton.mp
  exact hfold hits (g.seen, []) fun c hc => absurd hc List.not_mem_nil

theorem count_evalTemporal (g : Group) (hits : List UInt32) (now ws : ℚ) :
    (evalTemporal r g hits now ws).incs.count .eventsOverwritten = 0 :=
  count_eq_zero_of_forall (by decide) (incs_temporalRecordSeen g hits now ws)

theorem incs_evalTemporalOrderedWm (g : Group) (hits : List UInt32) (now ws w : ℚ) :
    ∀ c ∈ (evalTemporalOrderedWm r g hits now ws w).2.2, c = .watermarkLate := by
  have hfold : ∀ (hits : List UInt32) (acc : Group × List CorrCounter),
      (∀ c ∈ acc.2, c = .watermarkLate) →
        ∀ c ∈ (hits.foldl (wmInsert now) acc).2, c = .watermarkLate := by
    intro hits
    induction hits with
    | nil => exact fun _ h => h
    | cons rid hits ih =>
      intro acc h
      refine ih _ ?_
      unfold wmInsert
      dsimp only
      split
      · intro c hc
        exact (List.mem_append.mp hc).elim (h c) List.mem_singleton.mp
      · exact h
  unfold evalTemporalOrderedWm
  split
  · exact fun c hc => List.mem_singleton.mp hc
  · exact hfold hits (g, []) fun c hc => absurd hc List.not_mem_nil

theorem incs_evalOrderedCase (g : Group) (hits : List UInt32) (now ws : ℚ) :
    (evalOrderedCase caps r g hits now ws).incs.count .eventsOverwritten = 0 := by
  have hseen : (if r.cond.isEmpty then (g, []) else temporalRecordSeen g hits now ws).2.count
      .eventsOverwritten = 0 := by
    split
    · rfl
    · exact count_eq_zero_of_forall (by decide) (incs_temporalRecordSeen g hits now ws)
  have hlate : ∀ g : Group,
      (evalTemporalOrderedWm r g hits now ws caps.watermarkS).2.2.count .eventsOverwritten = 0 :=
    fun g => count_eq_zero_of_forall (by decide) (incs_evalTemporalOrderedWm g hits now ws _)
  unfold evalOrderedCase
  simp only
  split
  · rw [List.count_append, hseen, hlate]
  · exact hseen

/-- The ring and the counters after an event with a value that may be a number. -/
theorem evObserve_spec (g : Group) (value : Option CStr) (now ws : ℚ) :
    ((evObserve fp g value now ws).2.count .eventsOverwritten =
        if (value.bind (sgToF64 fp)).isSome = true ∧ g.ringFull then 1 else 0) ∧
      ((value.bind (sgToF64 fp)).isSome = true → (evObserve fp g value now ws).1.times =
        (pushCap g.evIdx.cap g.times now).dropWhile (before ws)) := by
  unfold evObserve
  cases value.bind (sgToF64 fp) with
  | none => exact ⟨rfl, fun h => absurd h Bool.false_ne_true⟩
  | some v =>
    refine ⟨?_, fun _ => ?_⟩
    · rw [count_evAppendIncs]
      simp
    · exact (times_evPrune _ _).trans (congrArg _ (times_evAppend _ _))

theorem evalValueSumAvg_incs (g : Group) (value : Option CStr) (isAvg : Bool) (now ws : ℚ) :
    (evalValueSumAvg fp r g value isAvg now ws).incs = (evObserve fp g value now ws).2 ∧
      (evalValueSumAvg fp r g value isAvg now ws).group =
        (evObserve fp g value now ws).1 := by
  unfold evalValueSumAvg
  dsimp only
  split <;> exact ⟨rfl, rfl⟩

theorem evalValuePercentile_incs (g : Group) (value : Option CStr) (cap : ℕ) (now ws : ℚ) :
    (evalValuePercentile fp r g value cap now ws).incs =
        (evObserve fp g value now ws).2 ∧
      (evalValuePercentile fp r g value cap now ws).group =
        (evObserve fp g value now ws).1 := by
  unfold evalValuePercentile
  dsimp only
  split <;> exact ⟨rfl, rfl⟩

variable (fp caps r) in
/-- **The evaluation of an event**: it counts an overwrite if it records the event in a full ring, and
what it records is appended before the ring is aged. -/
theorem evaluate_records (g : Group) (hits : List UInt32) (value : Option CStr) (now ws : ℚ) :
    ((evaluate fp caps r g hits value now ws).incs.count .eventsOverwritten =
        if r.records fp value = true ∧ g.ringFull then 1 else 0) ∧
      (r.records fp value = true → (evaluate fp caps r g hits value now ws).group.times =
        (pushCap g.evIdx.cap g.times now).dropWhile (before ws)) := by
  have hskip : ∀ e : Evaluated, e.incs.count .eventsOverwritten = 0 →
      (e.incs.count .eventsOverwritten = if false = true ∧ g.ringFull then 1 else 0) ∧
        (false = true → e.group.times = (pushCap g.evIdx.cap g.times now).dropWhile (before ws)) :=
    fun e he => ⟨by simpa using he, fun h => absurd h Bool.false_ne_true⟩
  unfold evaluate CorrRule.records
  cases r.type with
  | none => exact hskip _ rfl
  | some type =>
    cases type with
    | eventCount =>
      refine ⟨?_, fun _ => times_evalEventCount r g now ws⟩
      simp only [true_and]
      exact count_evAppendIncs g now ws true
    | valueCount => exact hskip _ (count_evalValueCount g value caps.maxDistinct now ws)
    | temporal => exact hskip _ (count_evalTemporal g hits now ws)
    | temporalOrdered => exact hskip _ (incs_evalOrderedCase g hits now ws)
    | valueSum | valueAvg =>
      obtain ⟨hincs, hgroup⟩ := @evalValueSumAvg_incs fp r g value _ now ws
      dsimp only
      rw [hincs, hgroup]
      exact evObserve_spec g value now ws
    | valuePercentile | valueMedian =>
      obtain ⟨hincs, hgroup⟩ := @evalValuePercentile_incs fp r g value _ now ws
      dsimp only
      rw [hincs, hgroup]
      exact evObserve_spec g value now ws
    | beaconing =>
      dsimp only
      unfold evalBeaconing
      by_cases hnb : 0 < r.beaconNBuckets
      · rw [if_pos hnb, decide_eq_false (not_le.mpr hnb)]
        refine hskip _ ?_
        unfold evalBeaconingBucketed
        dsimp only
        split <;> rfl
      · rw [if_neg hnb, decide_eq_true (not_lt.mp hnb)]
        refine ⟨?_, fun _ => ?_⟩
        · simp only [true_and]
          exact count_evAppendIncs g now ws false
        · exact (times_evPrune _ _).trans (congrArg _ (times_evAppend _ _))

/-- Only a suppressed fire is counted besides. -/
theorem count_settle (ts : ℚ) (e : Evaluated) :
    (settle r ts e).incs.count .eventsOverwritten = e.incs.count .eventsOverwritten := by
  unfold settle
  split
  · rfl
  · split
    · exact List.count_append.trans (Nat.add_zero _)
    · rfl

theorem count_groupInput_event (g : Group) {hits : List UInt32} (h : hits ≠ [])
    (value : Option CStr) (ts : ℚ) :
    (groupInput fp caps r g (.event hits value ts)).incs.count .eventsOverwritten =
      if r.records fp value = true ∧ g.ringFull then 1 else 0 := by
  rw [groupInput_event fp caps r g h, count_settle,
    (evaluate_records fp caps r { g with lastUpdate := ts } hits value ts _).1]
  rfl

/-- A partial records nothing. -/
theorem count_groupInput_contrib (g : Group) (c : CorrContrib) :
    (groupInput fp caps r g (.contrib c)).incs.count .eventsOverwritten = 0 := by
  rw [groupInput, count_settle]
  unfold evalContrib
  cases c.kind with
  | none => rfl
  | some kind =>
    cases kind with
    | event => rfl
    | count => rfl
    | sum =>
      dsimp only
      split <;> rfl
    | distinct =>
      dsimp only
      split
      · exact count_evalValueCount _ _ _ _ _
      · rfl
    | seen =>
      dsimp only
      split
      · exact count_evalTemporal _ _ _ _
      · rfl

/-- An input of a correlation counts what its group counts. -/
theorem count_cstateInput {st : CorrState} (h : st.groups.Wf hashGroupKey) (key : List CStr)
    (i : GroupInput) :
    (cstateInput fp caps st key i).2.incs.count .eventsOverwritten =
      (groupApply fp caps st.rule (st.groups.get hashGroupKey key) i).incs.count
        .eventsOverwritten := by
  have hadmit : (cstateGetOrCreate caps st.groups key).2.2.count .eventsOverwritten = 0 := by
    unfold cstateGetOrCreate
    cases st.groups.get hashGroupKey key with
    | some g => rfl
    | none =>
      dsimp only
      split <;> rfl
  have hsum : (cstateInput fp caps st key i).2.incs.count .eventsOverwritten =
      (cstateGetOrCreate caps st.groups key).2.2.count .eventsOverwritten +
        (groupInput fp caps st.rule (cstateGetOrCreate caps st.groups key).2.1 i).incs.count
          .eventsOverwritten := List.count_append
  rw [hsum, hadmit, Nat.zero_add, (cstateGetOrCreate_spec caps h key).2.1, groupApply]

end Evaluate

/-! ## One call

The claim is about timestamps that are lost while they are live.  `CorrEngine.discarded` counts
these from the group before and after a call, without the counter, and `CorrEngine.overwritten`
counts what the code counts.  The two differ where an event meets a full ring whose oldest timestamp
has aged out. -/

section Call

variable (fp : Doubles) (rules : List CorrRule)

/-- What call `c` records under correlation `ci`: an event in the ring of the group of a key. -/
def CorrCall.recorded (c : CorrCall) (ci : ℕ) : Option (CorrRule × List CStr) :=
  rules[ci]?.bind fun r => (c.target rules ci r).bind fun p =>
    match p.2 with
    | .event _ value _ => if r.records fp value then some (r, p.1) else none
    | .contrib _ => none

/-- The group that a call at `now` finds. -/
def CorrEngine.found (e : CorrEngine) (now : ℚ) (ci : ℕ) (key : List CStr) : Group :=
  ((e.sweepIfDue now).slot ci key).getD (groupNew e.caps.maxEventsPerGroup)

/-- The timestamps of a group, none if it does not exist. -/
def CorrEngine.timesOf (e : CorrEngine) (ci : ℕ) (key : List CStr) : List ℚ :=
  (e.slot ci key).elim [] Group.times

/-- How many live timestamps a call discards in recording its event under correlation `ci`: those
that were in the window, and the new one, less those that are still there. -/
def CorrEngine.discarded (e : CorrEngine) (c : CorrCall) (ci : ℕ) : ℕ :=
  match c.recorded fp rules ci with
  | none => 0
  | some (r, key) =>
    liveCount (c.ts - r.timespanS) (e.found c.ts ci key).times + 1 -
      liveCount (c.ts - r.timespanS) ((corrCall fp e c).1.timesOf ci key)

/-- How many timestamps a call overwrites under correlation `ci`. -/
def CorrEngine.overwritten (e : CorrEngine) (c : CorrCall) (ci : ℕ) : ℕ :=
  match c.recorded fp rules ci with
  | none => 0
  | some (_, key) => if (e.found c.ts ci key).ringFull then 1 else 0

/-- A call counts the live timestamps it discards, and nothing else. -/
def CorrEngine.CountsLosses (e : CorrEngine) (c : CorrCall) : Prop :=
  (corrCall fp e c).1.stats .eventsOverwritten =
    e.stats .eventsOverwritten + ((List.range rules.length).map (e.discarded fp rules c)).sum

/-- A call records an event in a full ring whose oldest timestamp has aged out. -/
def CorrEngine.FindsAged (e : CorrEngine) (c : CorrCall) : Prop :=
  ∃ ci r key, c.recorded fp rules ci = some (r, key) ∧
    (e.found c.ts ci key).staleFull (c.ts - r.timespanS)

end Call

/-- **An overwrite discards a live timestamp, or the oldest timestamp had aged out.** -/
theorem liveCount_append (g : Group) {now ws : ℚ} (hws : ws ≤ now) :
    (if g.ringFull then 1 else 0) = (liveCount ws g.times + 1 -
        liveCount ws ((pushCap g.evIdx.cap g.times now).dropWhile (before ws))) +
      if g.staleFull ws then 1 else 0 := by
  have hnow : liveCount ws [now] = 1 := by
    rw [liveCount, List.countP_singleton, before, decide_eq_false (not_lt.mpr hws)]
    rfl
  have hnew : liveCount ws ((pushCap g.evIdx.cap g.times now).dropWhile (before ws)) =
      liveCount ws (if g.ringFull then g.times.tail else g.times) + 1 := by
    rw [liveCount, countP_dropWhile, pushCap, List.countP_append, ← hnow, length_times]
    rfl
  rw [hnew]
  by_cases hfull : g.ringFull
  · obtain ⟨t, ts, hts⟩ : ∃ t ts, g.times = t :: ts := by
      refine List.exists_cons_of_length_pos ?_
      rw [length_times, show g.evIdx.len = g.evIdx.cap from hfull]
      exact g.evIdx.cap_pos
    have hstale : g.staleFull ws ↔ before ws t = true := by
      rw [Group.staleFull, hts]
      exact and_iff_right hfull
    rw [if_pos hfull, if_pos hfull, hts, List.tail_cons, liveCount, List.countP_cons]
    by_cases ht : before ws t = true
    · rw [if_pos (hstale.mpr ht), ht]
      simp [liveCount]
    · rw [if_neg (mt hstale.mp ht), eq_false_of_ne_true ht]
      simp [liveCount]
  · rw [if_neg hfull, if_neg hfull, if_neg fun h => hfull h.1, Nat.sub_self]

section Stats

variable {fp : Doubles} {rules : List CorrRule} {caps : CorrCaps} {e : CorrEngine}
  {ci : ℕ} {r : CorrRule} {key : List CStr}

/-- What is recorded: an event that the call addresses to the group. -/
theorem recorded_spec {c : CorrCall} (h : c.recorded fp rules ci = some (r, key)) :
    rules[ci]? = some r ∧ ∃ hits value, hits ≠ [] ∧ r.records fp value = true ∧
      c.target rules ci r = some (key, .event hits value c.ts) := by
  obtain ⟨r', hr, h⟩ := Option.bind_eq_some_iff.mp h
  obtain ⟨⟨key', i⟩, htarget, h⟩ := Option.bind_eq_some_iff.mp h
  cases i with
  | contrib c' => cases h
  | event hits value ts =>
    dsimp only at h
    split at h
    · rename_i hrec
      cases h
      rcases c.event_or_partial with ⟨ev, apply, hts, hevent, -⟩ | ⟨c', field, rfl, hkind⟩
      · rw [hevent] at htarget
        obtain ⟨hi, hne⟩ := input_of_eventTarget htarget
        cases hi
        exact ⟨hr, _, _, hne, hrec, hts ▸ (hevent rules ci r).trans htarget⟩
      · rw [CorrCall.target, if_neg hkind] at htarget
        cases contrib_of_contribTarget htarget
    · cases h

/-- What a call overwrites is a live timestamp it discards, or the oldest one had aged out. -/
theorem EngineOk.overwritten_eq (h : EngineOk rules caps e) (c : CorrCall) (ci : ℕ) :
    e.overwritten fp (admittedRules rules) c ci =
      e.discarded fp (admittedRules rules) c ci +
        match c.recorded fp (admittedRules rules) ci with
        | none => 0
        | some (r, key) =>
          if (e.found c.ts ci key).staleFull (c.ts - r.timespanS) then 1 else 0 := by
  unfold CorrEngine.overwritten CorrEngine.discarded
  cases hrec : c.recorded fp (admittedRules rules) ci with
  | none => rfl
  | some p =>
    obtain ⟨r, key⟩ := p
    obtain ⟨hr, hits, value, hne, hval, htarget⟩ := recorded_spec hrec
    obtain ⟨g, -, hinput, -⟩ := slot_corrCall fp h hr key c
    obtain ⟨hg, hslot, -⟩ := hinput _ (by
      rw [CorrCall.inputFor, htarget, Option.bind_some, if_pos rfl])
    have hfound : e.found c.ts ci key = g.getD (groupNew caps.withDefaults.maxEventsPerGroup) := by
      rw [CorrEngine.found, hg, h.caps_eq]
    have hspan : c.ts - r.timespanS ≤ c.ts := by
      have hpos : (0 : ℚ) < r.timespanS := by
        exact_mod_cast timespanS_pos (ruleValid_of_admitted hr)
      linarith
    have htimes : (corrCall fp e c).1.timesOf ci key =
        (pushCap (e.found c.ts ci key).evIdx.cap (e.found c.ts ci key).times c.ts).dropWhile
          (before (c.ts - r.timespanS)) := by
      rw [CorrEngine.timesOf, hslot, Option.elim_some, groupApply, ← hfound,
        groupInput_event fp _ r _ hne, settle_group]
      exact (evaluate_records fp caps.withDefaults r
        { e.found c.ts ci key with lastUpdate := c.ts } hits value c.ts _).2 hval
    dsimp only
    rw [htimes]
    exact liveCount_append _ hspan

/-! ### The counter

The counter is one for the engine, and an event may reach many correlations.  It is shown to be the
sum over them, with each visited once. -/

@[simp] theorem sweepIfDue_stats (e : CorrEngine) (now : ℚ) :
    (e.sweepIfDue now).stats = e.stats := by
  unfold CorrEngine.sweepIfDue
  split_ifs <;> rfl

/-- What a visit counts is what the call overwrites under its correlation. -/
theorem EngineOk.count_visitGain (h : EngineOk rules caps e) {c : CorrCall} {ev : CorrEvent}
    {apply : Option (CorrRule → List CStr → Bool)}
    (htarget : ∀ ci r, c.target (admittedRules rules) ci r = eventTarget r ev apply) {rid : UInt32}
    (hr : (admittedRules rules)[ci]? = some r)
    (hrid : ev.rids.find? (fun rid => decide (rid ∈ r.baseRuleIds)) = some rid) :
    (visitGain fp e.caps ev apply (e.sweepIfDue c.ts).states (rid, ci)).2.count
        .eventsOverwritten = e.overwritten fp (admittedRules rules) c ci := by
  obtain ⟨st, hst, hrule⟩ := (h.sweepIfDue c.ts).state_of_rule hr
  have hevent : eventTarget r ev apply = (resolveGroup r ev rid).bind fun key =>
      if apply.all fun f => f r key then some (key, ev.input r) else none := by
    rw [eventTarget, hrid, Option.bind_some]
  unfold visitGain visitStep CorrEngine.overwritten CorrCall.recorded
  rw [if_neg List.not_mem_nil, hr, Option.bind_some, htarget, hevent]
  cases hkey : resolveGroup r ev rid with
  | none =>
    simp only [hst, hrule, hkey]
    rfl
  | some key =>
    rw [Option.bind_some]
    by_cases hall : (apply.all fun f => f r key) = true
    · have hwf := (h.sweepIfDue c.ts).wf st (List.mem_of_getElem? hst)
      have hfound : (e.sweepIfDue c.ts).slot ci key = st.groups.get hashGroupKey key := by
        rw [CorrEngine.slot, hst, Option.bind_some]
      have hbase := List.find?_some hrid
      have hhits := hitBuf_ne_nil (List.mem_of_find?_eq_some hrid) (of_decide_eq_true hbase)
      have hcount : (hitIncs r ev.rids).count .eventsOverwritten = 0 := by
        rw [hitIncs, List.count_replicate]
        rfl
      simp only [hst, hrule, hkey, if_pos hall]
      rw [List.nil_append, List.count_append, hcount, Nat.zero_add, count_cstateInput hwf, hrule,
        groupApply, CorrEvent.input, count_groupInput_event _ hhits, Option.bind_some, ← hfound]
      dsimp only
      by_cases hval : r.records fp (r.valueField.bind ev.field) = true
      · simp only [hval, true_and, if_true]
        rfl
      · simp [hval]
    · simp only [hst, hrule, hkey, if_neg hall]
      rfl

/-- Distinct indices outside of which the terms vanish. -/
theorem sum_map_range {xs : List ℕ} {n : ℕ} {f : ℕ → ℕ} (hnodup : xs.Nodup)
    (hlt : ∀ x ∈ xs, x < n) (hzero : ∀ x < n, x ∉ xs → f x = 0) :
    (xs.map f).sum = ((List.range n).map f).sum := by
  rw [← List.sum_toFinset f hnodup, ← List.sum_toFinset f List.nodup_range]
  refine Finset.sum_subset (fun x hx => ?_) fun x hx hnot => ?_
  · exact List.mem_toFinset.mpr (List.mem_range.mpr (hlt x (List.mem_toFinset.mp hx)))
  · exact hzero x (List.mem_range.mp (List.mem_toFinset.mp hx)) (mt List.mem_toFinset.mpr hnot)

/-- The first entry of a correlation is the one a search for it finds. -/
theorem find?_of_mem_firstEntries {ps : List (UInt32 × ℕ)} {visited : List ℕ} {p : UInt32 × ℕ}
    (h : p ∈ firstEntries ps visited) : ps.find? (fun q => q.2 == p.2) = some p := by
  induction ps generalizing visited with
  | nil => exact absurd h List.not_mem_nil
  | cons q ps ih =>
    have hnew := ((mem_map_snd_firstEntries _ _ _).mp (List.mem_map_of_mem h)).2
    rw [firstEntries] at h
    rw [List.find?_cons]
    split at h
    · rename_i hvisited
      have hne : (q.2 == p.2) = false := beq_eq_false_iff_ne.mpr fun heq => hnew (heq ▸ hvisited)
      rw [hne]
      exact ih h
    · rcases List.mem_cons.mp h with rfl | h
      · rw [beq_self_eq_true]
      · have hlater := ((mem_map_snd_firstEntries _ _ _).mp (List.mem_map_of_mem h)).2
        have hne : (q.2 == p.2) = false :=
          beq_eq_false_iff_ne.mpr fun heq => hlater (heq ▸ List.mem_cons_self)
        rw [hne]
        exact ih h

/-- An event overwrites nothing under a correlation that has none of its rule ids. -/
theorem overwritten_of_unwatched {c : CorrCall} {ev : CorrEvent}
    {apply : Option (CorrRule → List CStr → Bool)}
    (htarget : ∀ ci r, c.target rules ci r = eventTarget r ev apply)
    (hnone : ∀ r rid, rules[ci]? = some r →
      ev.rids.find? (fun rid => decide (rid ∈ r.baseRuleIds)) ≠ some rid) :
    e.overwritten fp rules c ci = 0 := by
  unfold CorrEngine.overwritten CorrCall.recorded
  cases hr : rules[ci]? with
  | none => rfl
  | some r =>
    have hfind : ev.rids.find? (fun rid => decide (rid ∈ r.baseRuleIds)) = none :=
      Option.eq_none_iff_forall_ne_some.mpr fun rid => hnone r rid hr
    rw [Option.bind_some, htarget, eventTarget, hfind]
    rfl

/-- A partial overwrites nothing. -/
theorem overwritten_contribution {c : CorrContrib} {field : CStr → Option CStr}
    (hkind : c.kind ≠ some .event) (ci : ℕ) :
    e.overwritten fp rules (.contribution c field) ci = 0 := by
  unfold CorrEngine.overwritten
  cases hrec : CorrCall.recorded fp rules (.contribution c field) ci with
  | none => rfl
  | some p =>
    obtain ⟨-, hits, value, -, -, htarget⟩ := recorded_spec hrec
    rw [CorrCall.target, if_neg hkind] at htarget
    cases contrib_of_contribTarget htarget

/-- The entry of the index through which an event visits a correlation: that of the first of its rule
ids that the correlation has. -/
theorem EngineOk.find_entry_iff (h : EngineOk rules caps e) (rids : List UInt32) (rid : UInt32)
    (ci : ℕ) :
    (rids.flatMap fun rid => (ridIndexFind e.ridBuckets rid).map (rid, ·)).find?
        (fun q => q.2 == ci) = some (rid, ci) ↔
      ∃ r, (admittedRules rules)[ci]? = some r ∧
        rids.find? (fun rid => decide (rid ∈ r.baseRuleIds)) = some rid := by
  constructor
  · intro hfind
    obtain ⟨rid', -, hmem⟩ := List.mem_flatMap.mp (List.mem_of_find?_eq_some hfind)
    obtain ⟨ci', hci', heq⟩ := List.mem_map.mp hmem
    cases heq
    rw [h.index, mem_ridIndexFind] at hci'
    obtain ⟨r, hr, -⟩ := hci'
    have hwatch := h.find_watch hr rids
    rw [hfind] at hwatch
    obtain ⟨rid', hrid, heq⟩ := Option.map_eq_some_iff.mp hwatch.symm
    cases heq
    exact ⟨r, hr, hrid⟩
  · rintro ⟨r, hr, hrid⟩
    rw [h.find_watch hr, hrid]
    rfl

/-- The events of a call are counted correlation by correlation. -/
theorem EngineOk.stats_corrOnEventApply (h : EngineOk rules caps e) {c : CorrCall} {ev : CorrEvent}
    {apply : Option (CorrRule → List CStr → Bool)} (hts : ev.ts = c.ts)
    (htarget : ∀ ci r, c.target (admittedRules rules) ci r = eventTarget r ev apply) :
    (corrOnEventApply fp e ev apply).1.stats .eventsOverwritten = e.stats .eventsOverwritten +
      ((List.range (admittedRules rules).length).map
        (e.overwritten fp (admittedRules rules) c)).sum := by
  unfold corrOnEventApply
  by_cases hempty : e.states.length = 0 ∨ ev.rids.length = 0
  · rw [if_pos hempty, List.sum_eq_zero, Nat.add_zero]
    intro n hn
    obtain ⟨ci, hci, rfl⟩ := List.mem_map.mp hn
    refine overwritten_of_unwatched htarget fun r rid hr hrid => ?_
    rcases hempty with hlen | hlen
    · rw [← List.length_map (f := CorrState.rule), h.states] at hlen
      exact absurd (List.mem_range.mp hci) (by omega)
    · rw [List.length_eq_zero_iff.mp hlen] at hrid
      cases hrid
  · rw [if_neg hempty]
    simp only [hts, sweepIfDue_caps, CorrEngine.inc, sweepIfDue_stats]
    rw [(visit_outcomes fp e.caps ev apply _ _ ⟨(e.sweepIfDue c.ts).states, [], [], []⟩
      fun _ _ => rfl).2, List.nil_append, List.count_flatMap]
    refine congrArg _ ?_
    have hentry := (h.sweepIfDue c.ts).find_entry_iff ev.rids
    generalize (ev.rids.flatMap fun rid =>
      (ridIndexFind (e.sweepIfDue c.ts).ridBuckets rid).map (rid, ·)) = ps at hentry ⊢
    have hgain : ∀ p ∈ firstEntries ps [],
        (List.count .eventsOverwritten ∘ fun p =>
          (visitGain fp e.caps ev apply (e.sweepIfDue c.ts).states p).2) p =
            e.overwritten fp (admittedRules rules) c p.2 := by
      rintro ⟨rid, ci⟩ hp
      obtain ⟨r, hr, hrid⟩ := (hentry rid ci).mp (find?_of_mem_firstEntries hp)
      exact h.count_visitGain htarget hr hrid
    rw [List.map_congr_left hgain, ← Function.comp_def, ← List.map_map]
    refine sum_map_range (nodup_firstEntries _ _) (fun ci hci => ?_) fun ci hci hnot => ?_
    · obtain ⟨⟨rid, ci⟩, hp, rfl⟩ := List.mem_map.mp hci
      obtain ⟨r, hr, -⟩ := (hentry rid ci).mp (find?_of_mem_firstEntries hp)
      exact (List.getElem?_eq_some_iff.mp hr).1
    · refine overwritten_of_unwatched htarget fun r rid hr hrid => hnot ?_
      refine (mem_map_snd_firstEntries _ _ _).mpr ⟨?_, List.not_mem_nil⟩
      exact List.mem_map_of_mem (f := Prod.snd)
        (List.mem_of_find?_eq_some ((hentry rid ci).mpr ⟨r, hr, hrid⟩))

/-- A partial counts no overwrite. -/
theorem EngineOk.stats_contribution (h : EngineOk rules caps e) {c : CorrContrib}
    {field : CStr → Option CStr} (hkind : c.kind ≠ some .event) :
    (corrCall fp e (.contribution c field)).1.stats .eventsOverwritten =
      e.stats .eventsOverwritten := by
  rw [corrCall, corrOnContribution, if_neg hkind]
  have hok := h.sweepIfDue c.ts
  cases c.corrId with
  | none => rfl
  | some id =>
    cases id with
    | nil => rfl
    | cons b bs =>
      dsimp only
      split
      · exact congrFun (sweepIfDue_stats e c.ts) _
      · split
        · exact congrFun (sweepIfDue_stats e c.ts) _
        · rename_i st hst
          split
          · exact congrFun (sweepIfDue_stats e c.ts) _
          · split
            · exact congrFun (sweepIfDue_stats e c.ts) _
            · rename_i key _
              dsimp only
              have hwf := hok.wf st (List.mem_of_getElem? hst)
              show (e.sweepIfDue c.ts).stats _ +
                (cstateInput fp (e.sweepIfDue c.ts).caps st key (.contrib c)).2.incs.count _ = _
              rw [count_cstateInput hwf, groupApply, count_groupInput_contrib, sweepIfDue_stats]
              rfl

/-- **The counter grows with each event recorded in a full ring.** -/
theorem EngineOk.stats_corrCall (h : EngineOk rules caps e) (c : CorrCall) :
    (corrCall fp e c).1.stats .eventsOverwritten = e.stats .eventsOverwritten +
      ((List.range (admittedRules rules).length).map
        (e.overwritten fp (admittedRules rules) c)).sum := by
  rcases c.event_or_partial with ⟨ev, apply, hts, htarget, hcall⟩ | ⟨c', field, rfl, hkind⟩
  · rw [hcall]
    exact h.stats_corrOnEventApply hts (htarget _)
  · rw [h.stats_contribution hkind, List.sum_eq_zero, Nat.add_zero]
    intro n hn
    obtain ⟨ci, -, rfl⟩ := List.mem_map.mp hn
    exact overwritten_contribution hkind ci

/-- **A call counts the live timestamps it discards exactly when** it does not record an event in a
full ring whose oldest timestamp has aged out. -/
theorem EngineOk.countsLosses_iff (h : EngineOk rules caps e) (c : CorrCall) :
    e.CountsLosses fp (admittedRules rules) c ↔
      ¬ e.FindsAged fp (admittedRules rules) c := by
  rw [CorrEngine.CountsLosses, h.stats_corrCall, Nat.add_left_cancel_iff]
  have hle : ∀ ci ∈ List.range (admittedRules rules).length,
      e.discarded fp (admittedRules rules) c ci ≤
        e.overwritten fp (admittedRules rules) c ci := fun ci _ => by
    rw [h.overwritten_eq c ci]
    exact Nat.le_add_right _ _
  constructor
  · rintro hsum ⟨ci, r, key, hrec, hstale⟩
    have hlt : ci < (admittedRules rules).length :=
      (List.getElem?_eq_some_iff.mp (recorded_spec hrec).1).1
    have hmore : e.discarded fp (admittedRules rules) c ci <
        e.overwritten fp (admittedRules rules) c ci := by
      rw [h.overwritten_eq c ci, hrec]
      dsimp only
      rw [if_pos hstale]
      exact Nat.lt_succ_self _
    exact absurd hsum (List.sum_lt_sum _ _ hle ⟨ci, List.mem_range.mpr hlt, hmore⟩).ne'
  · intro hfresh
    refine congrArg List.sum (List.map_congr_left fun ci _ => ?_)
    rw [h.overwritten_eq c ci]
    cases hrec : c.recorded fp (admittedRules rules) ci with
    | none => rfl
    | some p => exact congrArg (_ + ·) (if_neg fun hstale => hfresh ⟨ci, p.1, p.2, hrec, hstale⟩)

end Stats

/-! ## Runs -/

/-- **events_overwritten counts live timestamps only, in every run in which** no event finds a full
ring whose oldest timestamp has aged out, and in no other. -/
theorem overwrites_live_iff (fp : Doubles) (rules : List CorrRule) (caps : CorrCaps)
    (cs : List CorrCall) :
    (∀ cs₁ c cs₂, cs = cs₁ ++ c :: cs₂ →
        (corrRun fp (corrEngineNew rules caps) cs₁).CountsLosses fp (admittedRules rules) c) ↔
      ∀ cs₁ c cs₂, cs = cs₁ ++ c :: cs₂ →
        ¬ (corrRun fp (corrEngineNew rules caps) cs₁).FindsAged fp (admittedRules rules) c := by
  have hcall : ∀ cs₁ c, (corrRun fp (corrEngineNew rules caps) cs₁).CountsLosses fp
      (admittedRules rules) c ↔ ¬ (corrRun fp (corrEngineNew rules caps) cs₁).FindsAged fp
        (admittedRules rules) c := fun cs₁ c =>
    ((engineOk_new rules caps).run cs₁).countsLosses_iff c
  constructor
  · exact fun h cs₁ c cs₂ hcs => (hcall cs₁ c).mp (h cs₁ c cs₂ hcs)
  · exact fun h cs₁ c cs₂ hcs => (hcall cs₁ c).mpr (h cs₁ c cs₂ hcs)

/-- A ring of two timestamps. -/
def capsPair : CorrCaps := ⟨0, 0, 2, 0, false, 0⟩

/-- Three events of the user, the last one more than a minute after the first. -/
def agedCalls : List CorrCall :=
  [.event (userEvent 7 0) none, .event (userEvent 7 50) none, .event (userEvent 7 70) none]

/-- **An aged timestamp is counted as lost.** -/
theorem overwrites_counts_aged :
    ¬ ∀ (fp : Doubles) (rules : List CorrRule) (caps : CorrCaps) (cs : List CorrCall),
      TimeOrdered cs → ∀ cs₁ c cs₂, cs = cs₁ ++ c :: cs₂ →
        (corrRun fp (corrEngineNew rules caps) cs₁).CountsLosses fp (admittedRules rules)
          c := by
  intro hclaim
  have hlast := hclaim .bare [burstRule] capsPair agedCalls
    (by norm_num [TimeOrdered, agedCalls, userEvent, CorrCall.ts])
    [.event (userEvent 7 0) none, .event (userEvent 7 50) none] (.event (userEvent 7 70) none) [] rfl
  revert hlast
  unfold CorrEngine.CountsLosses
  decide +kernel

end LibSigma
