import Mathlib.Algebra.BigOperators.Fin
import LibSigma.Corr.Schedules

/-!
# The books of an engine

An engine counts what it does not do: fires that are suppressed, groups that are evicted, events
without a group, values that are no numbers.  Many workers add to these counters.  This file says
what the sums mean, at any point of any schedule.

## Two kinds of counters

Most counters are raised under the lock of a correlation, as part of what becomes of an input.  They
are in the outcome of the input (`GroupOutcome.incs`), the history of the workers has every outcome
once, and so these counters are sums over the history (`outcomeCount`).

Two are raised before a group is reached, or instead: `event_skipped_missing_field` and
`hits_truncated`.  No outcome tells of them.  They depend on the calls alone, on the event and the
rule and not on any group, so they are sums over the calls (`countedBy`).  In the middle of a run
some of that is still to come, and it can be read off the place where each worker is
(`CorrPool.remaining`).

`fires_truncated` and `group_evidence_dropped` are left out: they count what the array of the caller
had no room for, and workers do not share that.

## The invariant

Both are kept by one step at a time.  `Books` compares the counters before and after a step with the
outcomes that the step adds to the history, and `Tallied` adds that what is counted without an
outcome was still to count.  `WorkerMove.tallied` proves it for each move, and the results follow by
induction on the schedule.

* `cstateInput_settled`: a decision without a fire is counted as a suppressed one.
* `entryIncs`, `partialIncs`: what calls count without an outcome: groups that are missing and hits
  that are truncated.
* `WorkerMove.tallied`: **one step**: what is counted was still to count, or came of an input.
* `decisions_balance`: **fires and suppressed fires are the decisions.**
* `counters_balance`: **every counter is what the calls and the outcomes add to it**, once each.
-/

namespace LibSigma

open Library

/-! ## Outcomes

What can be counted by an evaluation is a fixed list of counters for each type of rule, and none of
them is a counter of fires.  The fires are counted in one place, when the outcome is settled.  An
outcome is settled when a decision fires or is counted as suppressed, not both, and nothing is
counted as a fire without one. -/

/-- What an evaluation counts. -/
def evalCounters : List CorrCounter :=
  [.distinctEvicted, .eventsOverwritten, .seenTruncated, .valuesNonnumeric, .watermarkLate,
    .hotkeyFallback]

section Settled

variable (fp : Doubles) (caps : CorrCaps) (r : CorrRule)

theorem subset_evalCounters_of_forall {incs : List CorrCounter} {k : CorrCounter}
    (hk : k ∈ evalCounters) (h : ∀ c ∈ incs, c = k) : incs ⊆ evalCounters :=
  fun c hc => h c hc ▸ hk

theorem evAppendIncs_subset (g : Group) (now ws : ℚ) (hot : Bool) :
    evAppendIncs g now ws hot ⊆ evalCounters := by
  unfold evAppendIncs
  split_ifs <;> decide

theorem evObserve_subset (g : Group) (value : Option CStr) (now ws : ℚ) :
    (evObserve fp g value now ws).2 ⊆ evalCounters := by
  unfold evObserve
  cases value.bind (sgToF64 fp) with
  | none => exact subset_evalCounters_of_forall (by decide) fun c hc => List.mem_singleton.mp hc
  | some v => exact evAppendIncs_subset g now ws true

theorem evalValueCount_subset (g : Group) (value : Option CStr) (m : ℕ) (now ws : ℚ) :
    (evalValueCount r g value m now ws).incs ⊆ evalCounters := by
  cases value with
  | none => exact List.nil_subset _
  | some val =>
    show (dsetObserve g.distinct val now ws m).2 ⊆ evalCounters
    unfold dsetObserve
    dsimp only
    split
    · exact List.nil_subset _
    · split_ifs
      · exact List.nil_subset _
      · exact subset_evalCounters_of_forall (by decide) fun c hc => List.mem_singleton.mp hc
      · exact List.nil_subset _

theorem evalTemporal_subset (g : Group) (hits : List UInt32) (now ws : ℚ) :
    (evalTemporal r g hits now ws).incs ⊆ evalCounters :=
  subset_evalCounters_of_forall (by decide) (incs_temporalRecordSeen g hits now ws)

theorem evalOrderedCase_subset (g : Group) (hits : List UInt32) (now ws : ℚ) :
    (evalOrderedCase caps r g hits now ws).incs ⊆ evalCounters := by
  have hseen : (if r.cond.isEmpty then (g, []) else temporalRecordSeen g hits now ws).2 ⊆
      evalCounters := by
    split
    · exact List.nil_subset _
    · exact subset_evalCounters_of_forall (by decide) (incs_temporalRecordSeen g hits now ws)
  have hlate : ∀ g : Group,
      (evalTemporalOrderedWm r g hits now ws caps.watermarkS).2.2 ⊆ evalCounters :=
    fun g => subset_evalCounters_of_forall (by decide) (incs_evalTemporalOrderedWm g hits now ws _)
  unfold evalOrderedCase
  simp only
  split
  · exact List.append_subset.mpr ⟨hseen, hlate _⟩
  · exact hseen

/-- **The evaluation of an event.** -/
theorem evaluate_subset (g : Group) (hits : List UInt32) (value : Option CStr) (now ws : ℚ) :
    (evaluate fp caps r g hits value now ws).incs ⊆ evalCounters := by
  unfold evaluate
  cases r.type with
  | none => exact List.nil_subset _
  | some type =>
    cases type with
    | eventCount => exact evAppendIncs_subset g now ws true
    | valueCount => exact evalValueCount_subset r g value _ now ws
    | temporal => exact evalTemporal_subset r g hits now ws
    | temporalOrdered => exact evalOrderedCase_subset caps r g hits now ws
    | valueSum | valueAvg =>
      dsimp only
      rw [(evalValueSumAvg_incs g value _ now ws).1]
      exact evObserve_subset fp g value now ws
    | valuePercentile | valueMedian =>
      dsimp only
      rw [(evalValuePercentile_incs g value _ now ws).1]
      exact evObserve_subset fp g value now ws
    | beaconing =>
      dsimp only
      unfold evalBeaconing
      split
      · unfold evalBeaconingBucketed
        dsimp only
        split <;> exact List.nil_subset _
      · exact evAppendIncs_subset g now ws false

/-- That of a partial. -/
theorem evalContrib_subset (g : Group) (c : CorrContrib) (ws : ℚ) :
    (evalContrib fp caps r g c ws).incs ⊆ evalCounters := by
  unfold evalContrib
  cases c.kind with
  | none => exact List.nil_subset _
  | some kind =>
    cases kind with
    | event => exact List.nil_subset _
    | count => exact List.nil_subset _
    | sum =>
      dsimp only
      split <;> exact List.nil_subset _
    | distinct =>
      dsimp only
      split
      · exact evalValueCount_subset r g _ _ _ _
      · exact List.nil_subset _
    | seen =>
      dsimp only
      split
      · exact evalTemporal_subset r _ _ _ _
      · exact List.nil_subset _

/-- An outcome whose books are right: a decision fires or is counted as suppressed, and what is counted
besides is an eviction or of the evaluation. -/
structure GroupOutcome.Settled (o : GroupOutcome) : Prop where
  fire : o.fire.isSome = true → o.decided = true
  suppressed : o.incs.count .firesSuppressed = if o.decided = true ∧ o.fire = none then 1 else 0
  incs : o.incs ⊆ .groupsEvicted :: .firesSuppressed :: evalCounters

theorem settled_settle (ts : ℚ) {e : Evaluated} (h : e.incs ⊆ evalCounters) :
    (settle r ts e).Settled := by
  have hzero : e.incs.count .firesSuppressed = 0 :=
    List.count_eq_zero.mpr fun hmem => absurd (h hmem) (by decide)
  have hincs : e.incs ⊆ .groupsEvicted :: .firesSuppressed :: evalCounters :=
    List.subset_cons_of_subset _ (List.subset_cons_of_subset _ h)
  unfold settle
  split
  · exact ⟨nofun, by rw [hzero]; rfl, hincs⟩
  · split
    · refine ⟨fun _ => rfl, ?_, List.append_subset.mpr ⟨hincs, by decide⟩⟩
      rw [List.count_append, hzero]
      rfl
    · exact ⟨fun _ => rfl, by rw [hzero]; rfl, hincs⟩

/-- **An input settles.** -/
theorem cstateInput_settled (st : CorrState) (key : List CStr) (i : GroupInput) :
    (cstateInput fp caps st key i).2.Settled := by
  have hgroup : ∀ g : Group, (groupInput fp caps st.rule g i).Settled := by
    intro g
    cases i with
    | event hits value ts =>
      unfold groupInput
      dsimp only
      split
      · exact ⟨nofun, rfl, List.nil_subset _⟩
      · exact settled_settle _ _ (evaluate_subset fp caps _ _ _ _ _ _)
    | contrib c => exact settled_settle _ _ (evalContrib_subset fp caps _ _ _ _)
  have hfull : ∀ c ∈ (cstateGetOrCreate caps st.groups key).2.2, c = .groupsEvicted := by
    unfold cstateGetOrCreate
    split
    · exact nofun
    · dsimp only
      split
      · exact fun c hc => List.mem_singleton.mp hc
      · exact nofun
  have hzero : (cstateGetOrCreate caps st.groups key).2.2.count .firesSuppressed = 0 :=
    List.count_eq_zero.mpr fun hmem => nomatch hfull _ hmem
  obtain ⟨hfire, hsuppressed, hincs⟩ := hgroup (cstateGetOrCreate caps st.groups key).2.1
  have happend : (cstateInput fp caps st key i).2.incs =
      (cstateGetOrCreate caps st.groups key).2.2 ++
        (groupInput fp caps st.rule (cstateGetOrCreate caps st.groups key).2.1 i).incs := rfl
  refine ⟨hfire, ?_, ?_⟩
  · rw [happend, List.count_append, hzero, Nat.zero_add]
    exact hsuppressed
  · rw [happend]
    refine List.append_subset.mpr ⟨fun c hc => ?_, hincs⟩
    rw [hfull c hc]
    exact List.mem_cons_self

end Settled

/-! ## What is counted without an outcome

A missing group value, a partial of another arity and hits that are cut off are counted before any
group is reached.  Like the inputs of a call, they are known from the call before it is made, so
`CorrPool.remaining` is what a worker has still to count. -/

/-- What an entry of the index counts before its group is reached: a missing field, or the hits that
are truncated. -/
def entryIncs (r : CorrRule) (ev : CorrEvent) (apply : Option (CorrRule → List CStr → Bool))
    (rid : UInt32) : List CorrCounter :=
  match resolveGroup r ev rid with
  | none => [.eventSkippedMissingField]
  | some key => if apply.all fun f => f r key then hitIncs r ev.rids else []

/-- What an event counts under a correlation. -/
def eventIncs (r : CorrRule) (ev : CorrEvent) (apply : Option (CorrRule → List CStr → Bool)) :
    List CorrCounter :=
  ((ev.rids.find? fun rid => decide (rid ∈ r.baseRuleIds)).map (entryIncs r ev apply)).getD []

/-- What a partial counts under a correlation: a group of another arity, or a missing value. -/
def partialIncs (rules : List CorrRule) (ci : ℕ) (r : CorrRule) (c : CorrContrib) :
    List CorrCounter :=
  match c.corrId with
  | none | some [] => []
  | some id =>
    if (rules.findIdx? fun r => r.id == some id) = some ci ∧
        (c.groupVals.length ≠ r.groupBy.length ∨ c.groupVals.mapM (fun v => v) = none) then
      [.eventSkippedMissingField]
    else []

/-- What a call counts under correlation `ci`. -/
def CorrCall.incs (rules : List CorrRule) (ci : ℕ) (r : CorrRule) : CorrCall → List CorrCounter
  | .event ev apply => eventIncs r ev apply
  | .contribution c field =>
    if c.kind = some .event then eventIncs r ⟨c.rids, field, c.ts⟩ none
    else partialIncs rules ci r c

/-- What a worker in the middle of a call has still to count under correlation `ci`. -/
def WorkerPc.incs (rules : List CorrRule) (ci : ℕ) (r : CorrRule) : WorkerPc → List CorrCounter
  | .idle => []
  | .entered c | .sweeping c _ => c.incs rules ci r
  | .visiting ev apply visited todo =>
    if ci ∈ visited then []
    else ((todo.find? fun p => p.2 == ci).map fun p => entryIncs r ev apply p.1).getD []
  | .delivering c => partialIncs rules ci r c

/-- How often a counter is counted by calls, over all correlations. -/
def countedBy (rules : List CorrRule) (k : CorrCounter) (cs : List CorrCall) : ℕ :=
  ∑ ci : Fin rules.length, (cs.flatMap (·.incs rules ci rules[ci])).count k

/-- How often a worker has still to count a counter. -/
def CorrPool.remaining {W : Type} (P : CorrPool W) (rules : List CorrRule) (k : CorrCounter) (w : W) :
    ℕ :=
  ∑ ci : Fin rules.length, ((P.pc w).incs rules ci rules[ci] ++
    (P.calls w).flatMap (·.incs rules ci rules[ci])).count k

/-- How often the outcomes of a history count a counter. -/
def outcomeCount {W : Type} (k : CorrCounter)
    (H : List (Acted W CorrAct (Option GroupOutcome))) : ℕ :=
  ((H.filterMap Acted.result).map fun o => o.incs.count k).sum

theorem outcomeCount_concat {W : Type} (k : CorrCounter)
    (H : List (Acted W CorrAct (Option GroupOutcome)))
    (x : Acted W CorrAct (Option GroupOutcome)) :
    outcomeCount k (H ++ [x]) =
      outcomeCount k H + (x.result.toList.map fun o => o.incs.count k).sum := by
  rw [outcomeCount, outcomeCount, filterMap_concat, List.map_append, List.sum_append]

/-- Sums that differ in one summand. -/
theorem sum_eq_of_one {ι : Type} [Fintype ι] [DecidableEq ι] {f g : ι → ℕ} {i : ι} {d : ℕ}
    (hi : f i = d + g i) (hother : ∀ j, j ≠ i → f j = g j) : ∑ j, f j = d + ∑ j, g j := by
  rw [← Finset.add_sum_erase _ f (Finset.mem_univ i), ← Finset.add_sum_erase _ g (Finset.mem_univ i),
    hi, Nat.add_assoc]
  congr 2
  exact Finset.sum_congr rfl fun j hj => hother j (Finset.ne_of_mem_erase hj)

section Target

variable {rules : List CorrRule} {caps : CorrCaps} {e : CorrEngine} {ci : ℕ} {r : CorrRule}

/-- Past the sweep a call has still to count what it says. -/
theorem incs_work (h : EngineOk rules caps e) (hr : (admittedRules rules)[ci]? = some r)
    (c : CorrCall) :
    (c.work e).incs (admittedRules rules) ci r = c.incs (admittedRules rules) ci r := by
  have hevent : ∀ (ev : CorrEvent) (apply : Option (CorrRule → List CStr → Bool)),
      (WorkerPc.visiting ev apply [] (e.entries ev)).incs (admittedRules rules) ci r =
        eventIncs r ev apply := by
    intro ev apply
    rw [WorkerPc.incs, if_neg List.not_mem_nil, CorrEngine.entries, h.find_watch hr, eventIncs,
      Option.map_map]
    rfl
  cases c with
  | event ev apply => exact hevent ev apply
  | contribution c field =>
    rw [CorrCall.work, CorrCall.incs]
    split
    · exact hevent _ none
    · rfl

/-- A call that returns at once counts nothing. -/
theorem incs_of_returnsAtOnce (h : EngineOk rules caps e)
    (hr : (admittedRules rules)[ci]? = some r) {c : CorrCall} (hc : c.returnsAtOnce e = true) :
    c.incs (admittedRules rules) ci r = [] := by
  have hevent : ∀ (ev : CorrEvent) (apply : Option (CorrRule → List CStr → Bool)),
      e.states.length = 0 ∨ ev.rids.length = 0 → eventIncs r ev apply = [] := by
    intro ev apply hempty
    rcases hempty with hlen | hlen
    · obtain ⟨st, hst, -⟩ := h.state_of_rule hr
      rw [List.length_eq_zero_iff.mp hlen] at hst
      cases hst
    · rw [eventIncs, List.length_eq_zero_iff.mp hlen]
      rfl
  cases c with
  | event ev apply => exact hevent ev apply (of_decide_eq_true hc)
  | contribution c field =>
    rw [CorrCall.returnsAtOnce] at hc
    rw [CorrCall.incs]
    split at hc
    · rename_i hkind
      rw [if_pos hkind]
      exact hevent _ none (of_decide_eq_true hc)
    · rename_i hkind
      rw [if_neg hkind, partialIncs]
      rcases of_decide_eq_true hc with hid | hid <;> rw [hid]

end Target

/-! ## One step

A step counts what its outcomes say and, besides, what it had to count.  `Books` is the equation for
a part of a step, with the number `d` of what is counted without an outcome; `WorkerMove.tallied` is
the equation for a whole step, by cases on where the worker goes. -/

section Step

variable {W : Type} (fp : Doubles) {rules : List CorrRule} {caps : CorrCaps}
  {P : CorrPool W} {w : W}

/-- The books after a part of a step that counts `d` without an outcome. -/
def Books (k : CorrCounter) (P P' : CorrPool W) (d : ℕ) : Prop :=
  P'.engine.stats k + outcomeCount k P.history = P.engine.stats k + outcomeCount k P'.history + d

theorem Books.refl {k : CorrCounter} : Books k P P 0 := rfl

/-- An act counts what its outcome says. -/
theorem books_act (k : CorrCounter) (w : W) (ci : ℕ) (st : CorrState) (a : CorrAct)
    (incs : List CorrCounter) :
    Books k P ({ P with engine := P.engine.inc incs }.act fp w ci st a) (incs.count k) := by
  rw [Books, CorrPool.act]
  dsimp only
  rw [outcomeCount_concat]
  cases (a.run fp (P.engine.inc incs).caps st).2 with
  | none =>
    show P.engine.stats k + incs.count k + 0 + _ = P.engine.stats k + (_ + 0) + _
    omega
  | some o =>
    show P.engine.stats k + incs.count k + o.incs.count k + _ =
      P.engine.stats k + (_ + (o.incs.count k + 0)) + _
    omega

/-- An entry of the loop. -/
theorem books_visitEntry (h : EngineOk rules caps P.engine) (k : CorrCounter) (w : W)
    (ev : CorrEvent) (apply : Option (CorrRule → List CStr → Bool)) (p : UInt32 × ℕ) :
    Books k P (visitEntry fp P w ev apply p)
      (((admittedRules rules)[p.2]?.map fun r => (entryIncs r ev apply p.1).count k).getD 0) := by
  unfold visitEntry
  cases hst : P.engine.states[p.2]? with
  | none =>
    have hr : (admittedRules rules)[p.2]? = none := by
      rw [← h.states, List.getElem?_map, hst]
      rfl
    rw [hr]
    exact .refl
  | some st =>
    rw [h.rule_of_state hst, Option.map_some, Option.getD_some, entryIncs]
    dsimp only
    cases resolveGroup st.rule ev p.1 with
    | none => exact Nat.add_right_comm _ _ _
    | some key =>
      dsimp only
      split
      · exact books_act fp k w p.2 st _ _
      · exact .refl

/-- A partial. -/
theorem books_deliver (h : EngineOk rules caps P.engine) (k : CorrCounter) (w : W)
    (c : CorrContrib) :
    Books k P (deliver fp P w c) (∑ ci : Fin (admittedRules rules).length,
      (partialIncs (admittedRules rules) ci (admittedRules rules)[ci] c).count k) := by
  have hnone : (∀ ci : Fin (admittedRules rules).length,
      partialIncs (admittedRules rules) ci (admittedRules rules)[ci] c = []) →
      ∑ ci : Fin (admittedRules rules).length,
        (partialIncs (admittedRules rules) ci (admittedRules rules)[ci] c).count k = 0 :=
    fun hall => Finset.sum_eq_zero fun ci _ => by rw [hall ci]; rfl
  unfold deliver
  cases hid : c.corrId with
  | none =>
    rw [hnone fun ci => by rw [partialIncs, hid]]
    exact .refl
  | some id =>
    cases id with
    | nil =>
      rw [hnone fun ci => by rw [partialIncs, hid]]
      exact .refl
    | cons x xs =>
      have hcounts : ∀ ci : Fin (admittedRules rules).length,
          partialIncs (admittedRules rules) ci (admittedRules rules)[ci] c =
            if ((admittedRules rules).findIdx? fun r => r.id == some (x :: xs)) = some ci.val ∧
                (c.groupVals.length ≠ (admittedRules rules)[ci].groupBy.length ∨
                  c.groupVals.mapM (fun v => v) = none) then [.eventSkippedMissingField]
            else [] := fun ci => by rw [partialIncs, hid]
      dsimp only
      rw [h.findIdx?_states]
      cases hcj : (admittedRules rules).findIdx? fun r => r.id == some (x :: xs) with
      | none =>
        rw [hnone fun ci => by rw [hcounts, hcj]; exact if_neg nofun]
        exact .refl
      | some cj =>
        obtain ⟨hlt, -⟩ := List.findIdx?_eq_some_iff_getElem.mp hcj
        obtain ⟨st, hst, hrule⟩ := h.state_of_rule (List.getElem?_eq_getElem hlt)
        -- only the correlation it names counts the partial
        have hsum : ∑ ci : Fin (admittedRules rules).length,
            (partialIncs (admittedRules rules) ci (admittedRules rules)[ci] c).count k =
              (if c.groupVals.length ≠ st.rule.groupBy.length ∨
                c.groupVals.mapM (fun v => v) = none then
                  [CorrCounter.eventSkippedMissingField] else []).count k := by
          rw [Finset.sum_eq_single (⟨cj, hlt⟩ : Fin (admittedRules rules).length)]
          · rw [hcounts, hcj]
            simp [hrule]
          · intro ci _ hne
            rw [hcounts, hcj, if_neg]
            · rfl
            · exact fun hand => hne (Fin.ext (Option.some.inj hand.1).symm)
          · exact fun hnot => absurd (Finset.mem_univ _) hnot
        dsimp only
        rw [hst, hsum]
        dsimp only
        by_cases hlen : c.groupVals.length = st.rule.groupBy.length
        · rw [if_neg (not_not.mpr hlen)]
          cases hkey : c.groupVals.mapM fun v => v with
          | none =>
            rw [if_pos (.inr rfl)]
            exact Nat.add_right_comm _ _ _
          | some key =>
            rw [if_neg fun hor => hor.elim (fun hne => hne hlen) nofun]
            exact books_act fp k w cj st _ []
        · rw [if_pos hlen, if_pos (.inl hlen)]
          exact Nat.add_right_comm _ _ _

/-- What is to count is the same under every correlation. -/
theorem remaining_congr {P P' : CorrPool W} (k : CorrCounter) (w : W)
    (h : ∀ ci r, rules[ci]? = some r → (P.pc w).incs rules ci r ++
      (P.calls w).flatMap (·.incs rules ci r) = (P'.pc w).incs rules ci r ++
        (P'.calls w).flatMap (·.incs rules ci r)) :
    P.remaining rules k w = P'.remaining rules k w :=
  Finset.sum_congr rfl fun ci _ => congrArg (List.count k) (h ci _ (List.getElem?_eq_getElem ci.isLt))

/-- A step counts without an outcome what it had to count. -/
def Tallied (rules : List CorrRule) (k : CorrCounter) (P : CorrPool W) (w : W) (P' : CorrPool W) :
    Prop :=
  ∃ d, Books k P P' d ∧ P.remaining rules k w = d + P'.remaining rules k w

/-- A step that counts nothing. -/
theorem Tallied.of_quiet {P' : CorrPool W} {k : CorrCounter} (hbooks : Books k P P' 0)
    (hsame : ∀ ci r, rules[ci]? = some r → (P.pc w).incs rules ci r ++
      (P.calls w).flatMap (·.incs rules ci r) = (P'.pc w).incs rules ci r ++
        (P'.calls w).flatMap (·.incs rules ci r)) : Tallied rules k P w P' :=
  ⟨0, hbooks, (remaining_congr k w hsame).trans (Nat.zero_add _).symm⟩

variable [DecidableEq W]

/-- A worker that goes from a place to one with as much to count. -/
theorem Tallied.of_incs {P' : CorrPool W} {k : CorrCounter} {pc : WorkerPc}
    (hbooks : Books k P P' 0) (hcalls : P'.calls w = P.calls w)
    (hincs : ∀ ci r, rules[ci]? = some r → (P.pc w).incs rules ci r = pc.incs rules ci r) :
    Tallied rules k P w (P'.goto w pc) := by
  refine .of_quiet hbooks fun ci r hr => ?_
  rw [CorrPool.goto_pc_self, CorrPool.goto_calls, hcalls, hincs ci r hr]

/-- A worker that takes its next call. -/
theorem Tallied.of_take {P' : CorrPool W} {k : CorrCounter} {c : CorrCall} {cs : List CorrCall}
    {pc : WorkerPc} (hpc : P.pc w = .idle) (hcalls : P.calls w = c :: cs) (hbooks : Books k P P' 0)
    (hcs : P'.calls w = cs)
    (hincs : ∀ ci r, rules[ci]? = some r → pc.incs rules ci r = c.incs rules ci r) :
    Tallied rules k P w (P'.goto w pc) := by
  refine .of_quiet hbooks fun ci r hr => ?_
  rw [CorrPool.goto_pc_self, CorrPool.goto_calls, hcs, hincs ci r hr, hpc, hcalls, List.flatMap_cons]
  rfl

/-- A call that returns at once. -/
theorem Tallied.of_returns (h : EngineOk rules caps P.engine) {k : CorrCounter} {c : CorrCall}
    {cs : List CorrCall} (hcalls : P.calls w = c :: cs) (hnow : c.returnsAtOnce P.engine = true) :
    Tallied (admittedRules rules) k P w { P with calls := Function.update P.calls w cs } := by
  refine .of_quiet .refl fun ci r hr => ?_
  have hcs : ({ P with calls := Function.update P.calls w cs } : CorrPool W).calls w = cs :=
    Function.update_self ..
  rw [hcs, hcalls, List.flatMap_cons, incs_of_returnsAtOnce h hr hnow, List.nil_append]

/-- An entry of the loop for a correlation that was not visited. -/
theorem Tallied.of_visit (h : EngineOk rules caps P.engine) (k : CorrCounter) {ev : CorrEvent}
    {apply : Option (CorrRule → List CStr → Bool)} {visited : List ℕ} {p : UInt32 × ℕ}
    {todo : List (UInt32 × ℕ)} (hpc : P.pc w = .visiting ev apply visited (p :: todo))
    (hnew : p.2 ∉ visited) :
    Tallied (admittedRules rules) k P w
      ((visitEntry fp P w ev apply p).goto w (.visiting ev apply (p.2 :: visited) todo)) := by
  have hcalls := (visitEntry_same fp P w ev apply p).calls
  have hother : ∀ ci r, ci ≠ p.2 → (P.pc w).incs (admittedRules rules) ci r =
      (WorkerPc.visiting ev apply (p.2 :: visited) todo).incs (admittedRules rules) ci r := by
    intro ci r hne
    rw [hpc, WorkerPc.incs, WorkerPc.incs]
    exact (visiting_skip (fun q => (q.map _).getD []) [] todo (mem_visited_of_ne hne)
      fun heq => absurd heq.symm hne).symm
  refine ⟨_, books_visitEntry fp h k w ev apply p, ?_⟩
  by_cases hlt : p.2 < (admittedRules rules).length
  · rw [List.getElem?_eq_getElem hlt, Option.map_some, Option.getD_some]
    refine sum_eq_of_one (i := ⟨p.2, hlt⟩) ?_ fun ci hne => ?_
    · rw [CorrPool.goto_pc_self, CorrPool.goto_calls, hcalls, List.count_append, List.count_append,
        hpc, WorkerPc.incs, if_neg hnew, List.find?_cons, beq_self_eq_true, WorkerPc.incs,
        if_pos List.mem_cons_self, List.count_nil, Nat.zero_add]
      rfl
    · rw [CorrPool.goto_pc_self, CorrPool.goto_calls, hcalls,
        hother ci _ fun heq => hne (Fin.ext heq)]
  · rw [List.getElem?_eq_none (not_lt.mp hlt), Option.map_none, Option.getD_none, Nat.zero_add]
    refine remaining_congr k w fun ci r hr => ?_
    have hne : ci ≠ p.2 := fun heq => hlt (heq ▸ (List.getElem?_eq_some_iff.mp hr).1)
    rw [CorrPool.goto_pc_self, CorrPool.goto_calls, hcalls, hother ci r hne]

/-- A partial. -/
theorem Tallied.of_deliver (h : EngineOk rules caps P.engine) (k : CorrCounter) {c : CorrContrib}
    (hpc : P.pc w = .delivering c) :
    Tallied (admittedRules rules) k P w ((deliver fp P w c).goto w .idle) := by
  refine ⟨_, books_deliver fp h k w c, ?_⟩
  rw [CorrPool.remaining, CorrPool.remaining, ← Finset.sum_add_distrib]
  refine Finset.sum_congr rfl fun ci _ => ?_
  rw [CorrPool.goto_pc_self, CorrPool.goto_calls, (deliver_same fp P w c).calls, hpc,
    List.count_append]
  rfl

variable {fp}

/-- **One step of a worker**: what it counts without an outcome, it had to count. -/
theorem WorkerMove.tallied {P' : CorrPool W} (hmove : WorkerMove fp P w P')
    (h : EngineOk rules caps P.engine) (k : CorrCounter) : Tallied (admittedRules rules) k P w P' := by
  cases hmove with
  | rests => exact .of_quiet .refl fun _ _ _ => rfl
  | returns _ hcalls hnow => exact .of_returns h hcalls hnow
  | @passes c cs hpc hcalls =>
    exact .of_take hpc hcalls .refl (Function.update_self ..) fun ci r hr => incs_work h hr c
  | enters hpc hcalls => exact .of_take hpc hcalls .refl (Function.update_self ..) fun _ _ _ => rfl
  | @starts c hpc => exact .of_incs .refl rfl fun ci r hr => by rw [incs_work h hr, hpc]; rfl
  | @skips c hpc => exact .of_incs .refl rfl fun ci r hr => by rw [incs_work h hr, hpc]; rfl
  | begins hpc => exact .of_incs .refl rfl fun ci r _ => by rw [hpc]; rfl
  | @drops c n st hpc =>
    exact .of_incs (books_act fp k w n st (.drop (c.ts - st.rule.timespanS)) []) rfl
      fun ci r _ => by rw [hpc]; rfl
  | keeps hpc => exact .of_incs .refl rfl fun ci r _ => by rw [hpc]; rfl
  | @unlocks c n hpc => exact .of_incs .refl rfl fun ci r hr => by rw [incs_work h hr, hpc]; rfl
  | leaves hpc =>
    refine .of_incs .refl rfl fun ci r _ => ?_
    rw [hpc, WorkerPc.incs]
    exact ite_self _
  | @seen ev apply visited p todo hpc hmem =>
    refine .of_incs .refl rfl fun ci r _ => ?_
    rw [hpc, WorkerPc.incs, WorkerPc.incs]
    exact (visiting_skip (fun q => (q.map _).getD []) [] todo .rfl fun heq => heq ▸ hmem).symm
  | visits hpc hnew => exact .of_visit fp h k hpc hnew
  | delivers hpc => exact .of_deliver fp h k hpc

end Step

/-! ## Runs

Summed over all steps.  The sum over the outcomes is one number for the whole history, and the rest
is a sum over the workers, of which each step changes one summand. -/

/-- The counters of what calls count without an outcome. -/
def callCounters : List CorrCounter := [.eventSkippedMissingField, .hitsTruncated]

section Incs

variable {rules : List CorrRule} {ci : ℕ} {r : CorrRule}

theorem entryIncs_subset (ev : CorrEvent) (apply : Option (CorrRule → List CStr → Bool))
    (rid : UInt32) : entryIncs r ev apply rid ⊆ callCounters := by
  unfold entryIncs
  split
  · decide
  · split
    · intro k hk
      rw [List.eq_of_mem_replicate hk]
      decide
    · exact List.nil_subset _

theorem partialIncs_subset (c : CorrContrib) : partialIncs rules ci r c ⊆ callCounters := by
  unfold partialIncs
  split
  · exact List.nil_subset _
  · exact List.nil_subset _
  · split
    · decide
    · exact List.nil_subset _

theorem eventIncs_subset (ev : CorrEvent) (apply : Option (CorrRule → List CStr → Bool)) :
    eventIncs r ev apply ⊆ callCounters := by
  unfold eventIncs
  cases ev.rids.find? fun rid => decide (rid ∈ r.baseRuleIds) with
  | none => exact List.nil_subset _
  | some rid => exact entryIncs_subset ev apply rid

theorem CorrCall.incs_subset (c : CorrCall) : c.incs rules ci r ⊆ callCounters := by
  cases c with
  | event ev apply => exact eventIncs_subset ev apply
  | contribution c field =>
    unfold CorrCall.incs
    dsimp only
    split
    · exact eventIncs_subset _ _
    · exact partialIncs_subset c

theorem WorkerPc.incs_subset (pc : WorkerPc) : pc.incs rules ci r ⊆ callCounters := by
  cases pc with
  | idle => exact List.nil_subset _
  | entered c => exact c.incs_subset
  | sweeping c n => exact c.incs_subset
  | visiting ev apply visited todo =>
    unfold WorkerPc.incs
    dsimp only
    split
    · exact List.nil_subset _
    · cases todo.find? fun p => p.2 == ci with
      | none => exact List.nil_subset _
      | some p => exact entryIncs_subset ev apply p.1
  | delivering c => exact partialIncs_subset c

/-- Other counters wait for an outcome. -/
theorem remaining_eq_zero {W : Type} (P : CorrPool W) {k : CorrCounter} (hk : k ∉ callCounters)
    (w : W) : P.remaining rules k w = 0 := by
  refine Finset.sum_eq_zero fun ci _ => List.count_eq_zero.mpr fun hmem => hk ?_
  rcases List.mem_append.mp hmem with hmem | hmem
  · exact (P.pc w).incs_subset hmem
  · obtain ⟨c, -, hc⟩ := List.mem_flatMap.mp hmem
    exact c.incs_subset hc

end Incs

/-- A rejected rule counts nothing that calls count. -/
theorem count_rejectIncs_callCounters (rules : List CorrRule) {k : CorrCounter}
    (hk : k ∈ callCounters) : (rules.flatMap rejectIncs).count k = 0 := by
  have hapart : ∀ k ∈ callCounters, k ∉ [CorrCounter.condOverArity, .rulesRejected] := by decide
  refine List.count_eq_zero.mpr fun hmem => ?_
  obtain ⟨r, -, hr⟩ := List.mem_flatMap.mp hmem
  have hreject : rejectIncs r ⊆ [.condOverArity, .rulesRejected] := by
    unfold rejectIncs
    split_ifs <;> decide
  exact hapart k hk (hreject hr)

section Run

variable {W : Type} [DecidableEq W] (fp : Doubles) (shared : SharedRules) (caps : CorrCaps)
  (prog : W → List CorrCall) (schedule : List W)

@[simp] theorem poolRun_concat (P : CorrPool W) (w : W) :
    poolRun fp P (schedule ++ [w]) = workerStep fp (poolRun fp P schedule) w := by
  rw [poolRun, List.foldl_concat, poolRun]

/-- The outcomes of a run are settled. -/
theorem poolRun_settled {o : GroupOutcome}
    (ho : o ∈ (poolRun fp (.new shared caps prog) schedule).history.filterMap Acted.result) :
    o.Settled := by
  induction schedule using List.reverseRecOn with
  | nil => exact absurd ho List.not_mem_nil
  | append_singleton schedule w ih =>
    rw [poolRun_concat] at ho
    have hok := (poolOk_run fp shared caps prog schedule).engine
    cases (workerStep_move fp _ w).effect hok with
    | quiet states history evicted pending =>
      rw [history] at ho
      exact ih ho
    | drop cj st c hst hc states history evicted pending =>
      rw [history, filterMap_concat, Option.toList_none, List.append_nil] at ho
      exact ih ho
    | input cj st key i hst states history evicted pending_self pending =>
      rw [history, filterMap_concat] at ho
      rcases List.mem_append.mp ho with hold | hnew
      · exact ih hold
      · rw [List.mem_singleton.mp hnew]
        exact cstateInput_settled fp _ st key i

/-- Settled outcomes decide as often as they fire or are suppressed. -/
theorem countP_decided {os : List GroupOutcome} (h : ∀ o ∈ os, o.Settled) :
    os.countP (fun o => o.decided) = os.countP (fun o => o.fire.isSome) +
      (os.map fun o => o.incs.count .firesSuppressed).sum := by
  induction os with
  | nil => rfl
  | cons o os ih =>
    obtain ⟨hfire, hsuppressed, -⟩ := h o List.mem_cons_self
    rw [List.countP_cons, List.countP_cons, List.map_cons, List.sum_cons,
      ih fun o ho => h o (List.mem_cons_of_mem _ ho), hsuppressed]
    cases hf : o.fire with
    | none =>
      cases hd : o.decided with
      | false => simp
      | true =>
        simp
        omega
    | some f =>
      have hd : o.decided = true := hfire (by rw [hf]; rfl)
      rw [hd]
      simp
      omega

/-- What waits for outcomes is what the outcomes count. -/
theorem stats_eq_outcomeCount {k : CorrCounter} (hk : k ∉ callCounters) :
    (poolRun fp (.new shared caps prog) schedule).engine.stats k =
      (shared.rules.flatMap rejectIncs).count k +
        outcomeCount k (poolRun fp (.new shared caps prog) schedule).history := by
  induction schedule using List.reverseRecOn with
  | nil => rfl
  | append_singleton schedule w ih =>
    have hok := (poolOk_run fp shared caps prog schedule).engine
    obtain ⟨d, hbooks, hremaining⟩ := (workerStep_move fp _ w).tallied hok k
    rw [remaining_eq_zero _ hk, remaining_eq_zero _ hk] at hremaining
    rw [poolRun_concat]
    rw [Books] at hbooks
    omega

/-- **Decisions balance**, whatever the schedule: every input that met its condition has fired, or is
counted as suppressed. -/
theorem decisions_balance (shared : SharedRules) (caps : CorrCaps) (prog : W → List CorrCall)
    (schedule : List W) :
    let P := poolRun fp (.new shared caps prog) schedule
    let os := P.history.filterMap Acted.result
    os.countP (fun o => o.decided) =
      os.countP (fun o => o.fire.isSome) + P.engine.stats .firesSuppressed := by
  intro P os
  have hstats := stats_eq_outcomeCount fp shared caps prog schedule
    (k := .firesSuppressed) (by decide)
  have hrejected : (shared.rules.flatMap rejectIncs).count .firesSuppressed = 0 := by
    refine List.count_eq_zero.mpr fun hmem => ?_
    obtain ⟨r, -, hr⟩ := List.mem_flatMap.mp hmem
    unfold rejectIncs at hr
    split_ifs at hr <;> simp at hr
  rw [hrejected, Nat.zero_add] at hstats
  rw [hstats, outcomeCount]
  exact countP_decided fun o ho => poolRun_settled fp shared caps prog schedule ho

/-- **Counters balance.**  What calls count without an outcome, missing groups and truncated hits, is
at any time what the calls of all workers say, less what they have still to count; every other counter
is what the outcomes say, and the rejected rules. -/
theorem counters_balance [Fintype W] (shared : SharedRules) (caps : CorrCaps)
    (prog : W → List CorrCall) (schedule : List W) :
    let P := poolRun fp (.new shared caps prog) schedule
    (∀ k ∈ callCounters, P.engine.stats k + ∑ w, P.remaining (admittedRules shared.rules) k w =
        ∑ w, countedBy (admittedRules shared.rules) k (prog w)) ∧
      ∀ k ∉ callCounters, P.engine.stats k =
        (shared.rules.flatMap rejectIncs).count k + outcomeCount k P.history := by
  refine ⟨fun k hk => ?_, fun k hk => stats_eq_outcomeCount fp shared caps prog schedule hk⟩
  have hapart : ∀ k ∈ callCounters,
      k ∉ CorrCounter.groupsEvicted :: CorrCounter.firesSuppressed :: evalCounters := by decide
  have hnone : ∀ H : List (Acted W CorrAct (Option GroupOutcome)),
      (∀ o ∈ H.filterMap Acted.result, o.Settled) → outcomeCount k H = 0 := by
    intro H hsettled
    refine List.sum_eq_zero fun n hn => ?_
    obtain ⟨o, ho, rfl⟩ := List.mem_map.mp hn
    exact List.count_eq_zero.mpr fun hmem => hapart k hk ((hsettled o ho).incs hmem)
  induction schedule using List.reverseRecOn with
  | nil =>
    show (shared.rules.flatMap rejectIncs).count k + _ = _
    rw [count_rejectIncs_callCounters _ hk, Nat.zero_add]
    rfl
  | append_singleton schedule w ih =>
    have hok := (poolOk_run fp shared caps prog schedule).engine
    obtain ⟨d, hbooks, hremaining⟩ := (workerStep_move fp _ w).tallied hok k
    have hframe := (workerStep_move fp (poolRun fp (.new shared caps prog) schedule) w).frame
    have hall := sum_eq_of_one hremaining fun v hv => by
      rw [CorrPool.remaining, CorrPool.remaining, hframe.pc v hv, hframe.calls v hv]
    have hsettled := fun o ho => poolRun_settled fp shared caps prog (schedule ++ [w]) (o := o) ho
    rw [poolRun_concat] at hsettled ⊢
    rw [Books, hnone _ hsettled,
      hnone _ fun o ho => poolRun_settled fp shared caps prog schedule ho] at hbooks
    omega

end Run

end LibSigma
