import Mathlib.Tactic.FinCases
import Mathlib.Tactic.Linarith
import Mathlib.Tactic.NormNum
import LibSigma.Corr.Seen

/-!
# temporal

A temporal rule fires when the base rules seen in the window satisfy its condition, and without a
condition when all of them were seen.

## Conditions

With a condition the rule has at most 64 base rules, by its admission, and so the table, the mask
and the condition all have room for them.  A life is then followed by one invariant,
`Life.live_iff`: an id is live in the table if and only if some step of the life hit it in the
window.  The decision is the condition over the hits in the window, for runs in order of time
without evictions of the group.

## All base rules

Without a condition there is no bound on the number of base rules, and the code compares the first
64 only.  A decision then says that those were hit, and nothing about the rest.  When can the rest
not be missed?  An event that hits the first 64 also hits those that are listed among them a second
time; and that is the only way: if some base rule beyond the first 64 is a different one, there is
an event that hits exactly the first 64 (`exists_decided_alone`).  This is why the result is an
equivalence in the rule.

* `temporal_condition_exact`: **a condition is read over exactly the base rules hit in the window.**
* `temporal_all_sound_iff`: **without a condition a decision means that all base rules were hit,
  exactly when none of them is beyond the 64 the mask has room for.**
-/

namespace LibSigma

open Library

/-! ## One evaluation -/

theorem seen_evalTemporal (r : CorrRule) (g : Group) (hits : List UInt32) (now ws : ℚ) :
    (evalTemporal r g hits now ws).group.seen =
      (seenRecords now g.seen hits).1.filter fun e => ws ≤ e.2 := rfl

/-- **Bit `i` of the mask after an event**: the `i`-th base rule is live in the table. -/
theorem maskBit_evalTemporal (r : CorrRule) (g : Group) (hits : List UInt32) (now ws : ℚ)
    (hmerge : g.mergeSeen = 0) (j : ℕ) :
    (corrSeenMask r (evalTemporal r g hits now ws).group).toNat.testBit j = true ↔
      ∃ rid, (r.baseRuleIds.take 64)[j]? = some rid ∧ Live (seenRecords now g.seen hits).1 rid ws := by
  have hzero : (evalTemporal r g hits now ws).group.mergeSeen.toNat.testBit j = false := by
    have hsame := (sameFrame_evalTemporal r g hits now ws).mergeSeen
    rw [hsame, hmerge]
    exact Nat.zero_testBit j
  rw [testBit_corrSeenMask, hzero]
  simp only [Bool.false_eq_true, false_or, seen_evalTemporal, seenAny_filter]

/-- A condition is read over the live entries. -/
theorem evalTemporal_cond {r : CorrRule} (hcond : r.cond ≠ []) (g : Group) (hits : List UInt32)
    (now ws : ℚ) (hmerge : g.mergeSeen = 0) :
    (evalTemporal r g hits now ws).fired = true ↔
      ∃ e, CondSpells r.cond e ∧ e.Holds fun a =>
        ∃ rid, (r.baseRuleIds.take 64)[a.toNat]? = some rid ∧
          Live (seenRecords now g.seen hits).1 rid ws := by
  have hfired : (evalTemporal r g hits now ws).fired =
      corrCondEval r.cond (corrSeenMask r (evalTemporal r g hits now ws).group) := by
    have hne : r.cond.isEmpty = false := by simpa using hcond
    simp only [evalTemporal, hne]
    rfl
  rw [hfired, corrCondEval_iff]
  refine exists_congr fun e => and_congr_right fun _ => ?_
  exact BoolExpr.eval_iff_holds_of_args fun a _ => maskBit_evalTemporal r g hits now ws hmerge a.toNat

/-- Without a condition the first 64 base rules have to be live. -/
theorem evalTemporal_all {r : CorrRule} (hcond : r.cond = []) (g : Group) (hits : List UInt32)
    (now ws : ℚ) (hmerge : g.mergeSeen = 0) :
    (evalTemporal r g hits now ws).fired = true ↔
      ∀ rid ∈ r.baseRuleIds.take 64, Live (seenRecords now g.seen hits).1 rid ws := by
  have hfired : (evalTemporal r g hits now ws).fired =
      (List.range (min r.baseRuleIds.length 64)).all fun i =>
        corrSeenMask r (evalTemporal r g hits now ws).group &&& (1 <<< UInt64.ofNat i) != 0 := by
    simp only [evalTemporal, hcond, List.isEmpty_nil, if_true]
  have hlen : (r.baseRuleIds.take 64).length = min r.baseRuleIds.length 64 := by
    rw [List.length_take, Nat.min_comm]
  rw [hfired, List.all_eq_true]
  constructor
  · intro hall rid hrid
    obtain ⟨i, hi⟩ := List.mem_iff_getElem?.mp hrid
    obtain ⟨hlt, -⟩ := List.getElem?_eq_some_iff.mp hi
    rw [hlen] at hlt
    have hbit := hall i (List.mem_range.mpr hlt)
    rw [and_shift_ne_zero _ (by omega), maskBit_evalTemporal r g hits now ws hmerge] at hbit
    obtain ⟨rid', hrid', hlive⟩ := hbit
    cases hi.symm.trans hrid'
    exact hlive
  · intro hall i hi
    have hlt := List.mem_range.mp hi
    have hget := List.getElem?_eq_getElem (hlen ▸ hlt)
    rw [and_shift_ne_zero _ (by omega), maskBit_evalTemporal r g hits now ws hmerge]
    exact ⟨_, hget, hall _ (List.mem_of_getElem? hget)⟩

/-! ## The table of a life

The table records the last hit of each rule id.  If it has room for all base rules no live hit is
lost in a life, and what is live in it at a step are the hits in the window.  That its entries come
from hits holds in any case. -/

section Life

variable {fp : Doubles} {caps : CorrCaps} {r : CorrRule}

/-- An event of a temporal rule on its group. -/
theorem groupInput_temporal (htype : r.type = some .temporal) (g : Group) {ev : CorrEvent}
    (hhits : hitBuf r ev.rids ≠ []) :
    groupInput fp caps r g (ev.input r) =
      settle r ev.ts (evalTemporal r { g with lastUpdate := ev.ts } (hitBuf r ev.rids) ev.ts
        (ev.ts - r.timespanS)) := by
  rw [CorrEvent.input, groupInput_event fp caps r g hhits, evaluate, htype]

/-- Whether an input records its hits and ages the table: an event, or a partial with seen bits. -/
def GroupInput.refreshes (i : GroupInput) : Bool :=
  i.isEvent || decide (i.contribKind = some .seen)

/-- Only events have hits. -/
theorem GroupInput.hits_eq_nil {i : GroupInput} (h : i.refreshes = false) : i.hits = [] := by
  rw [GroupInput.refreshes, Bool.or_eq_false_iff] at h
  cases i with
  | event hits value ts => simpa [GroupInput.isEvent, GroupInput.hits] using h.1
  | contrib c => rfl

variable (fp caps) in
/-- **The table after an input** of a temporal rule. -/
theorem seen_groupInput (htype : r.type = some .temporal) (g : Group) (i : GroupInput) :
    (groupInput fp caps r g i).group.seen =
      if i.refreshes then
        (seenRecords i.ts g.seen i.hits).1.filter fun e => i.ts - r.timespanS ≤ e.2
      else g.seen := by
  cases i with
  | event hits value ts =>
    by_cases hnil : hits = []
    · rw [groupInput, if_pos hnil, hnil]
      rfl
    · have hrefreshes : (GroupInput.event hits value ts).refreshes = true := by
        rw [GroupInput.refreshes, isEvent_event hnil, Bool.true_or]
      rw [groupInput_event fp caps r g hnil, settle_group, evaluate, htype, if_pos hrefreshes]
      rfl
  | contrib c =>
    have hrefreshes : (GroupInput.contrib c).refreshes = true ↔ c.kind = some .seen := by
      rw [GroupInput.refreshes, GroupInput.isEvent, Bool.false_or, decide_eq_true_iff]
      rfl
    rw [groupInput, settle_group]
    by_cases hkind : c.kind = some .seen
    · rw [if_pos (hrefreshes.mpr hkind), evalContrib, hkind]
      dsimp only
      rw [if_pos htype]
      rfl
    · rw [if_neg (mt hrefreshes.mp hkind)]
      unfold evalContrib
      split
      · rfl
      · dsimp only
        split <;> rfl
      · rw [htype, if_neg (by decide)]
      · exact absurd ‹_› hkind
      · rfl
      · rfl

variable (fp caps) in
theorem seen_groupInput_temporal (htype : r.type = some .temporal) (g : Group) {ev : CorrEvent}
    (hhits : hitBuf r ev.rids ≠ []) :
    (groupInput fp caps r g (ev.input r)).group.seen =
      (seenRecords ev.ts g.seen (hitBuf r ev.rids)).1.filter
        fun e => ev.ts - r.timespanS ≤ e.2 := by
  have hrefreshes : (ev.input r).refreshes = true := by
    rw [GroupInput.refreshes, CorrEvent.input, isEvent_event hhits, Bool.true_or]
  rw [seen_groupInput fp caps htype, if_pos hrefreshes]
  rfl

/-- The entries of the table come from the hits. -/
theorem Life.seen_sound (htype : r.type = some .temporal) {H : List GroupStep} {s : Option Group}
    (h : Life fp caps r H s) :
    ∀ e ∈ (s.getD (groupNew caps.maxEventsPerGroup)).seen, ∃ x ∈ H, e.1 ∈ x.hits ∧ x.ts = e.2 := by
  induction h with
  | unborn => exact fun e he => absurd he List.not_mem_nil
  | @input H s i h ih =>
    intro e he
    have hold : e ∈ (s.getD (groupNew caps.maxEventsPerGroup)).seen ∨ e.1 ∈ i.hits ∧ e.2 = i.ts := by
      rw [Option.getD_some, groupApply, seen_groupInput fp caps htype] at he
      split at he
      · exact mem_seenRecords (List.mem_of_mem_filter he)
      · exact Or.inl he
    rcases hold with he | ⟨hmem, hts⟩
    · obtain ⟨x, hx, hand⟩ := ih e he
      exact ⟨x, List.mem_append_left _ hx, hand⟩
    · exact ⟨_, List.mem_append_right _ List.mem_cons_self, hmem, hts.symm⟩

/-- The table has room for the base rules. -/
theorem Life.seenOk (htype : r.type = some .temporal)
    (hbase : r.baseRuleIds.length ≤ corrMaxSeenRules) {H : List GroupStep} {s : Option Group}
    (h : Life fp caps r H s) (hhits : ∀ x ∈ H, ∀ rid ∈ x.hits, rid ∈ r.baseRuleIds) :
    SeenOk r.baseRuleIds (s.getD (groupNew caps.maxEventsPerGroup)).seen := by
  induction h with
  | unborn => exact ⟨.nil, fun e he => absurd he List.not_mem_nil⟩
  | @input H s i h ih =>
    have ih := ih fun x hx => hhits x (List.mem_append_left _ hx)
    rw [Option.getD_some, groupApply, seen_groupInput fp caps htype]
    split
    · exact ((ih.records i.ts hbase
        (hhits _ (List.mem_append_right _ List.mem_cons_self))).1).filter _
    · exact ih

/-- **The live entries of a group are the hits in the window.** -/
theorem Life.live_iff (htype : r.type = some .temporal)
    (hbase : r.baseRuleIds.length ≤ corrMaxSeenRules) {H : List GroupStep} {s : Option Group}
    (h : Life fp caps r H s) (hhits : ∀ x ∈ H, ∀ rid ∈ x.hits, rid ∈ r.baseRuleIds)
    (hsorted : (H.map GroupStep.ts).Pairwise (· ≤ ·)) {ws : ℚ}
    (hws : ∀ x ∈ H, x.ts - r.timespanS ≤ ws) (rid : UInt32) :
    Live (s.getD (groupNew caps.maxEventsPerGroup)).seen rid ws ↔
      ∃ x ∈ H, rid ∈ x.hits ∧ ws ≤ x.ts := by
  induction h with
  | unborn =>
    constructor
    · intro hl
      obtain ⟨e, he, -⟩ := hl
      exact absurd he List.not_mem_nil
    · intro hex
      obtain ⟨x, hx, -⟩ := hex
      exact absurd hx List.not_mem_nil
  | @input H s i h ih =>
    have hhits' := fun x hx => hhits x (List.mem_append_left _ hx)
    have hle := le_of_sorted_concat hsorted
    rw [List.map_append, List.pairwise_append] at hsorted
    have ih := ih hhits' hsorted.1 fun x hx => hws x (List.mem_append_left _ hx)
    have hold : ∀ e ∈ (s.getD (groupNew caps.maxEventsPerGroup)).seen, e.2 ≤ i.ts := by
      intro e he
      obtain ⟨x, hx, -, hts⟩ := h.seen_sound htype e he
      exact hts ▸ hle x hx
    have hnow : i.ts - r.timespanS ≤ ws := hws _ (List.mem_append_right _ List.mem_cons_self)
    have hbased : ∀ rid ∈ i.hits, rid ∈ r.baseRuleIds :=
      hhits _ (List.mem_append_right _ List.mem_cons_self)
    have hrecords : Live (groupApply fp caps r s i).group.seen rid ws ↔
        Live (s.getD (groupNew caps.maxEventsPerGroup)).seen rid ws ∨ rid ∈ i.hits ∧ ws ≤ i.ts := by
      rw [groupApply, seen_groupInput fp caps htype]
      split
      · rw [live_filter _ hnow, (h.seenOk htype hbase hhits').live_records hbase hbased hold]
      · rename_i hrefreshes
        rw [GroupInput.hits_eq_nil (eq_false_of_ne_true hrefreshes)]
        simp
    rw [Option.getD_some, hrecords, ih]
    simp only [List.mem_append, List.mem_singleton, or_and_right, exists_or, exists_eq_left]
    rfl

/-- **The live entries at a step**: the hits in the window, its own among them. -/
theorem StepOf.live_iff (htype : r.type = some .temporal)
    (hbase : r.baseRuleIds.length ≤ corrMaxSeenRules) {H : List GroupStep} {s : Option Group}
    {ev : CorrEvent} {x : GroupStep} (h : StepOf fp caps r H s ev x)
    (hsorted : ((H ++ [x]).map GroupStep.ts).Pairwise (· ≤ ·)) (rid : UInt32) :
    Live (seenRecords ev.ts (s.getD (groupNew caps.maxEventsPerGroup)).seen
        (hitBuf r ev.rids)).1 rid (ev.ts - r.timespanS) ↔
      ∃ y ∈ H ++ [x], rid ∈ y.hits ∧ x.ts - r.timespanS ≤ y.ts := by
  have hlife := h.life.input (ev.input r)
  rw [← h.eq] at hlife
  have hhits : ∀ y ∈ H ++ [x], ∀ rid ∈ y.hits, rid ∈ r.baseRuleIds := by
    intro y hy rid hrid
    rcases List.mem_append.mp hy with hy | hy
    · exact (h.isLocal y hy).mem_base hrid
    · rw [List.mem_singleton.mp hy, h.eq] at hrid
      exact (mem_base_of_mem_hitBuf hrid).1
  have hws : ∀ y ∈ H ++ [x], y.ts - r.timespanS ≤ x.ts - r.timespanS := by
    intro y hy
    rcases List.mem_append.mp hy with hy | hy
    · exact sub_le_sub_right (le_of_sorted_concat hsorted y hy) _
    · rw [List.mem_singleton.mp hy]
  have hiff := hlife.live_iff htype hbase hhits hsorted hws rid
  rw [Option.getD_some, groupApply, seen_groupInput_temporal fp caps htype _ h.hits, h.ts_eq,
    live_filter _ le_rfl] at hiff
  rw [hiff, h.ts_eq]

end Life

/-! ## Conditions

A rule with a condition has at most 64 base rules, as the loader sees to, so the mask has a bit for
each, and the condition reads exactly the base rules hit in the window.  Base rules may be listed
twice; both bits are then the same. -/

section Condition

variable {fp : Doubles} {rules : List CorrRule} {caps : CorrCaps} {ci : ℕ}
  {r : CorrRule} {key : List CStr}

/-- Some event of `E` matched a rule id at a time in `[lo, hi]`. -/
def HitIn (E : List CorrEvent) (rid : UInt32) (lo hi : ℚ) : Prop :=
  ∃ ev ∈ E, rid ∈ ev.rids ∧ lo ≤ ev.ts ∧ ev.ts ≤ hi

/-- The tokens of a rule spell an expression, and it holds when selection `i` is whether the `i`-th
base rule is `seen`. -/
def CorrRule.ConditionHolds (r : CorrRule) (seen : UInt32 → Prop) : Prop :=
  ∃ e, CondSpells r.cond e ∧ e.Holds fun a => ∃ rid, r.baseRuleIds[a.toNat]? = some rid ∧ seen rid

/-- A rule with a condition has at most 64 base rules. -/
theorem length_base_of_admitted (hr : (admittedRules rules)[ci]? = some r) (hcond : r.cond ≠ []) :
    r.baseRuleIds.length ≤ corrMaxSeenRules := by
  have hadm := (List.mem_filter.mp (List.mem_of_getElem? hr)).2
  have hne : r.cond.isEmpty = false := by simpa using hcond
  by_contra hlong
  simp [CorrRule.admitted, hne, not_le.mp hlong] at hadm

/-- The hits of the steps are those of the events. -/
theorem hits_iff {H : List GroupStep} {E : List CorrEvent}
    (hinputs : H.map GroupStep.input = E.map (CorrEvent.input r)) (rid : UInt32) (lo : ℚ) :
    (∃ y ∈ H, rid ∈ y.hits ∧ lo ≤ y.ts) ↔ ∃ ev ∈ E, rid ∈ hitBuf r ev.rids ∧ lo ≤ ev.ts := by
  have hsteps : (∃ y ∈ H, rid ∈ y.hits ∧ lo ≤ y.ts) ↔
      ∃ i ∈ H.map GroupStep.input, rid ∈ i.hits ∧ lo ≤ i.ts := by
    simp only [List.mem_map, exists_exists_and_eq_and]
    rfl
  rw [hsteps, hinputs]
  simp only [List.mem_map, exists_exists_and_eq_and, CorrEvent.input, GroupInput.hits,
    GroupInput.ts]

/-- The steps up to one on event `ev`, and the events up to it. -/
structure StepsOf (r : CorrRule) (H : List GroupStep) (x : GroupStep) (E : List CorrEvent)
    (ev : CorrEvent) : Prop where
  inputs : H.map GroupStep.input = E.map (CorrEvent.input r)
  input : x.input = ev.input r
  sorted : ((H ++ [x]).map GroupStep.ts).Pairwise (· ≤ ·)

theorem StepsOf.inputs_concat {H : List GroupStep} {x : GroupStep} {E : List CorrEvent}
    {ev : CorrEvent} (h : StepsOf r H x E ev) :
    (H ++ [x]).map GroupStep.input = (E ++ [ev]).map (CorrEvent.input r) := by
  rw [List.map_append, List.map_append, h.inputs, List.map_singleton, List.map_singleton, h.input]

theorem StepsOf.ts_eq {H : List GroupStep} {x : GroupStep} {E : List CorrEvent} {ev : CorrEvent}
    (h : StepsOf r H x E ev) : x.ts = ev.ts := by
  rw [GroupStep.ts, h.input]
  rfl

/-- The events up to one are not later. -/
theorem StepsOf.le {H : List GroupStep} {x : GroupStep} {E : List CorrEvent} {ev : CorrEvent}
    (h : StepsOf r H x E ev) : ∀ ev' ∈ E ++ [ev], ev'.ts ≤ ev.ts := by
  have htimes := congrArg (List.map GroupInput.ts) h.inputs_concat
  rw [List.map_map, List.map_map] at htimes
  have hsorted : ((E ++ [ev]).map CorrEvent.ts).Pairwise (· ≤ ·) := htimes ▸ h.sorted
  rw [List.map_append, List.pairwise_append] at hsorted
  intro ev' hev'
  rcases List.mem_append.mp hev' with hev' | hev'
  · exact hsorted.2.2 _ (List.mem_map_of_mem hev') _ List.mem_cons_self
  · rw [List.mem_singleton.mp hev']

/-- A hit in the window of a step is that of an event in its window. -/
theorem StepsOf.hitIn {H : List GroupStep} {x : GroupStep} {E : List CorrEvent} {ev : CorrEvent}
    (h : StepsOf r H x E ev) {rid : UInt32}
    (hhit : ∃ y ∈ H ++ [x], rid ∈ y.hits ∧ x.ts - r.timespanS ≤ y.ts) :
    HitIn (E ++ [ev]) rid (ev.ts - r.timespanS) ev.ts := by
  rw [hits_iff h.inputs_concat, h.ts_eq] at hhit
  obtain ⟨ev', hev', hmem, hlo⟩ := hhit
  exact ⟨ev', hev', (mem_base_of_mem_hitBuf hmem).2, hlo, h.le ev' hev'⟩

/-- The hits in the window of a step are those of the events in its window. -/
theorem StepsOf.hitIn_iff {H : List GroupStep} {x : GroupStep} {E : List CorrEvent}
    {ev : CorrEvent} (h : StepsOf r H x E ev) (hbase : r.baseRuleIds.length ≤ corrMaxSeenRules)
    {rid : UInt32} (hrid : rid ∈ r.baseRuleIds) :
    (∃ y ∈ H ++ [x], rid ∈ y.hits ∧ x.ts - r.timespanS ≤ y.ts) ↔
      HitIn (E ++ [ev]) rid (ev.ts - r.timespanS) ev.ts := by
  constructor
  · exact h.hitIn
  · intro hhit
    obtain ⟨ev', hev', hmem, hlo, -⟩ := hhit
    rw [hits_iff h.inputs_concat, h.ts_eq]
    exact ⟨ev', hev', (mem_hitBuf hbase hrid ev'.rids).mpr hmem, hlo⟩

/-- A condition reads its base rules only. -/
theorem CorrRule.conditionHolds_congr {seen seen' : UInt32 → Prop}
    (h : ∀ rid ∈ r.baseRuleIds, (seen rid ↔ seen' rid)) :
    r.ConditionHolds seen ↔ r.ConditionHolds seen' := by
  refine exists_congr fun e => and_congr_right fun _ => ?_
  have hsel : (fun a : UInt32 => ∃ rid, r.baseRuleIds[a.toNat]? = some rid ∧ seen rid) =
      fun a : UInt32 => ∃ rid, r.baseRuleIds[a.toNat]? = some rid ∧ seen' rid := by
    funext a
    refine propext (exists_congr fun rid => and_congr_right fun hrid => ?_)
    exact h rid (List.mem_of_getElem? hrid)
  rw [hsel]

/-- **The decision at a step** of a rule with a condition. -/
theorem StepOf.condition_decided (htype : r.type = some .temporal) (hcond : r.cond ≠ [])
    (hbase : r.baseRuleIds.length ≤ corrMaxSeenRules) {H : List GroupStep} {s : Option Group}
    {ev : CorrEvent} {x : GroupStep} (h : StepOf fp caps r H s ev x)
    (hsorted : ((H ++ [x]).map GroupStep.ts).Pairwise (· ≤ ·)) :
    x.decided = true ↔ r.ConditionHolds fun rid =>
      ∃ y ∈ H ++ [x], rid ∈ y.hits ∧ x.ts - r.timespanS ≤ y.ts := by
  have hmerge := (h.life.unmerged h.isLocal).mergeSeen
  have hlive := h.live_iff htype hbase hsorted
  have hdecided : x.decided = (groupApply fp caps r s (ev.input r)).decided :=
    congrArg GroupStep.decided h.eq
  have htake : r.baseRuleIds.take 64 = r.baseRuleIds := List.take_of_length_le hbase
  have hcondition := evalTemporal_cond hcond
    { s.getD (groupNew caps.maxEventsPerGroup) with lastUpdate := ev.ts } (hitBuf r ev.rids) ev.ts
    (ev.ts - r.timespanS) hmerge
  simp only [htake, hlive] at hcondition
  rw [hdecided, groupApply, groupInput_temporal htype _ h.hits, settle_decided]
  exact hcondition

/-- **temporal with a condition is exact.**  On each event of a group the decision is the condition
over the base rules hit in the window, and the table of seen rules never overflows. -/
theorem temporal_condition_exact (hr : (admittedRules rules)[ci]? = some r)
    (htype : r.type = some .temporal) (hcond : r.cond ≠ []) {evs : List CorrEvent}
    (hsorted : TimeOrdered (localCalls evs))
    (hspared : spared fp ci r key (corrEngineNew rules caps) (localCalls evs) = true) :
    (∀ E ev E', groupEvents (admittedRules rules) ci r key evs = E ++ ev :: E' →
      (((groupTrace fp ci r key (corrEngineNew rules caps) (localCalls evs)).map
          GroupStep.decided)[E.length]? = some true ↔
        r.ConditionHolds fun rid => HitIn (E ++ [ev]) rid (ev.ts - r.timespanS) ev.ts)) ∧
      ∀ g, (corrRun fp (corrEngineNew rules caps) (localCalls evs)).slot ci key = some g →
        ∀ (hits : List UInt32) (now ws : ℚ), (∀ rid ∈ hits, rid ∈ r.baseRuleIds) →
          (temporalRecordSeen g hits now ws).2 = [] := by
  have hbase := length_base_of_admitted hr hcond
  constructor
  · intro E ev E' hsplit
    obtain ⟨H, x, H', htrace, hlen, hinputs, hx⟩ := exists_step_of_event fp caps hr hsplit
    obtain ⟨H₁, H₂, s, ev', hH, hstep, hall, hpast⟩ := exists_stepOf hr htrace
    have hpast : ∀ y ∈ H₁, y.ts < x.ts - r.timespanS := fun y hy =>
      hpast hsorted hspared y hy x (List.mem_append_right _ List.mem_cons_self)
    have hsorted₂ : ((H₂ ++ [x]).map GroupStep.ts).Pairwise (· ≤ ·) := by
      refine (hall hsorted).sublist (List.Sublist.map _ ?_)
      rw [hH, List.append_assoc]
      exact List.sublist_append_right _ _
    have hget : ((groupTrace fp ci r key (corrEngineNew rules caps) (localCalls evs)).map
        GroupStep.decided)[E.length]? = some x.decided := by
      rw [htrace, List.getElem?_map, ← hlen]
      simp
    rw [hget, Option.some_inj, hstep.condition_decided htype hcond hbase hsorted₂]
    refine r.conditionHolds_congr fun rid hrid => ?_
    rw [← StepsOf.hitIn_iff ⟨hinputs, hx, hall hsorted⟩ hbase hrid, hH]
    constructor
    · intro hex
      obtain ⟨y, hy, hand⟩ := hex
      rw [List.append_assoc]
      exact ⟨y, List.mem_append_right _ hy, hand⟩
    · intro hex
      obtain ⟨y, hy, hhit, hlive⟩ := hex
      rw [List.append_assoc] at hy
      rcases List.mem_append.mp hy with hy | hy
      · exact absurd (hpast y hy) (not_lt.mpr hlive)
      · exact ⟨y, hy, hhit, hlive⟩
  · intro g hg hits now ws hhits
    obtain ⟨H₁, htrace, hlife, -⟩ := lifeRun_life fp caps key hr (localCalls evs)
    rw [hg] at hlife
    have hok := hlife.seenOk htype hbase fun y hy rid hrid =>
      (isLocal_of_mem_groupTrace hr (htrace ▸ List.mem_append_right _ hy)).mem_base hrid
    exact (hok.records now hbase hhits).2

end Condition

/-- Base rule 1 and not base rule 2, for a user within a minute. -/
def unlessRule : CorrRule :=
  { burstRule with
    type := some .temporal
    baseRuleIds := [1, 2]
    cond := [⟨corrCSel, 0⟩, ⟨corrCSel, 1⟩, ⟨corrCNot, 0⟩, ⟨corrCAnd, 0⟩] }

/-- The second base rule comes and goes. -/
def unlessEvents : List CorrEvent :=
  [⟨[1], userField, 0⟩, ⟨[2], userField, 10⟩, ⟨[1], userField, 70⟩, ⟨[1], userField, 80⟩]

theorem temporal_condition_exact_sample :
    (groupTrace .bare 0 unlessRule [cstr "a"] (corrEngineNew [unlessRule] capsZero)
        (localCalls unlessEvents)).map GroupStep.decided = [true, false, false, true] ∧
      unlessRule.ConditionHolds fun rid => HitIn unlessEvents rid (80 - 60) 80 := by
  have htrace : (groupTrace .bare 0 unlessRule [cstr "a"]
      (corrEngineNew [unlessRule] capsZero) (localCalls unlessEvents)).map GroupStep.decided =
        [true, false, false, true] := by
    decide +kernel
  have hgroup : groupEvents (admittedRules [unlessRule]) 0 unlessRule [cstr "a"] unlessEvents =
      [⟨[1], userField, 0⟩, ⟨[2], userField, 10⟩, ⟨[1], userField, 70⟩] ++
        ⟨[1], userField, 80⟩ :: [] := by
    refine List.filter_eq_self.mpr fun ev hev => ?_
    fin_cases hev <;> decide +kernel
  have hspared : spared .bare 0 unlessRule [cstr "a"] (corrEngineNew [unlessRule] capsZero)
      (localCalls unlessEvents) = true := by
    decide +kernel
  have hexact := (temporal_condition_exact (by decide) rfl (by decide)
    (by norm_num [TimeOrdered, localCalls, unlessEvents, CorrCall.ts]) hspared).1 _ _ _ hgroup
  refine ⟨htrace, hexact.mp ?_⟩
  rw [htrace]
  rfl

/-! ## All base rules

Without a condition the mask is compared with that of all base rules, of which the first 64 have a
bit.  Those beyond are never waited for.  Whether that can be noticed depends on the run: an event
has to carry all of the first 64 and not the others, and the field names of the rule decide whether
such an event can reach a group. -/

/-- No field name that rule id `a` selects is missing. -/
def CorrRule.Selects (r : CorrRule) (a : UInt32) : Prop :=
  ∀ i < r.groupBy.length, ((corrGroupFields r a).getD i none).isSome = true

theorem isSome_mapM {α β : Type} (f : α → Option β) (xs : List α) :
    (xs.mapM f).isSome = true ↔ ∀ x ∈ xs, (f x).isSome = true := by
  induction xs with
  | nil => simp
  | cons x xs ih =>
    rw [List.mapM_cons, List.forall_mem_cons, ← ih]
    cases f x <;> cases xs.mapM f <;> simp

/-- A key needs every field name. -/
theorem resolveGroup_selects {r : CorrRule} {ev : CorrEvent} {a : UInt32}
    (h : (resolveGroup r ev a).isSome = true) : r.Selects a := by
  rw [resolveGroup, isSome_mapM] at h
  intro i hi
  obtain ⟨v, hv⟩ := Option.isSome_iff_exists.mp (h i (List.mem_range.mpr hi))
  obtain ⟨name, hname, -⟩ := Option.bind_eq_some_iff.mp hv
  rw [hname]
  rfl

/-- Field names are enough when every field is there. -/
theorem resolveGroup_of_selects {r : CorrRule} {ev : CorrEvent} {a : UInt32} (h : r.Selects a)
    (hfield : ∀ name, (ev.field name).isSome = true) : (resolveGroup r ev a).isSome = true := by
  rw [resolveGroup, isSome_mapM]
  intro i hi
  obtain ⟨name, hname⟩ := Option.isSome_iff_exists.mp (h i (List.mem_range.mp hi))
  rw [hname, Option.bind_some]
  exact hfield name

section All

variable {fp : Doubles} {rules : List CorrRule} {caps : CorrCaps} {ci : ℕ}
  {r : CorrRule} {key : List CStr}

/-- An event that reaches a group carries a base rule id that selects it. -/
theorem exists_selects_of_inputFor {ev : CorrEvent}
    (h : ((CorrCall.event ev none).inputFor rules ci r key).isSome = true) :
    ∃ a ∈ r.baseRuleIds, a ∈ ev.rids ∧ r.Selects a := by
  obtain ⟨i, hi⟩ := Option.isSome_iff_exists.mp h
  obtain ⟨p, htarget, -⟩ := Option.bind_eq_some_iff.mp hi
  obtain ⟨a, ha, htarget⟩ := Option.bind_eq_some_iff.mp htarget
  obtain ⟨key', hkey, -⟩ := Option.bind_eq_some_iff.mp htarget
  have hbase := List.find?_some ha
  refine ⟨a, of_decide_eq_true hbase, List.mem_of_find?_eq_some ha, ?_⟩
  exact resolveGroup_selects (by rw [hkey]; rfl)

/-- **The decision at a step** of a rule without a condition. -/
theorem StepOf.all_decided (htype : r.type = some .temporal) (hcond : r.cond = [])
    {H : List GroupStep} {s : Option Group} {ev : CorrEvent} {x : GroupStep}
    (h : StepOf fp caps r H s ev x) :
    x.decided = true ↔ ∀ rid ∈ r.baseRuleIds.take 64,
      Live (seenRecords ev.ts (s.getD (groupNew caps.maxEventsPerGroup)).seen
        (hitBuf r ev.rids)).1 rid (ev.ts - r.timespanS) := by
  have hmerge := (h.life.unmerged h.isLocal).mergeSeen
  have hdecided : x.decided = (groupApply fp caps r s (ev.input r)).decided :=
    congrArg GroupStep.decided h.eq
  rw [hdecided, groupApply, groupInput_temporal htype _ h.hits, settle_decided]
  exact evalTemporal_all hcond
    { s.getD (groupNew caps.maxEventsPerGroup) with lastUpdate := ev.ts } _ _ _ hmerge

/-- What is live at a step was hit in the window. -/
theorem StepOf.live_sound (htype : r.type = some .temporal) {H : List GroupStep}
    {s : Option Group} {ev : CorrEvent} {x : GroupStep} (h : StepOf fp caps r H s ev x)
    {rid : UInt32}
    (hlive : Live (seenRecords ev.ts (s.getD (groupNew caps.maxEventsPerGroup)).seen
      (hitBuf r ev.rids)).1 rid (ev.ts - r.timespanS)) :
    ∃ y ∈ H ++ [x], rid ∈ y.hits ∧ x.ts - r.timespanS ≤ y.ts := by
  obtain ⟨e, he, rfl, hws⟩ := hlive
  rw [h.ts_eq]
  rcases mem_seenRecords he with he | ⟨hmem, hts⟩
  · obtain ⟨y, hy, hhit, hts⟩ := h.life.seen_sound htype e he
    exact ⟨y, List.mem_append_left _ hy, hhit, hws.trans hts.ge⟩
  · refine ⟨x, List.mem_append_right _ List.mem_cons_self, ?_, ?_⟩
    · rw [h.eq]
      exact hmem
    · rw [h.ts_eq]
      exact hws.trans hts.le

/-- An event whose hits are the first 64 base rules. -/
theorem hitBuf_take (a : UInt32) (hlong : 64 ≤ r.baseRuleIds.length) :
    hitBuf r (a :: r.baseRuleIds.take 64) = r.baseRuleIds.take 64 := by
  have hall : (r.baseRuleIds.take 64).filter (· ∈ a :: r.baseRuleIds.take 64) =
      r.baseRuleIds.take 64 :=
    List.filter_eq_self.mpr fun rid hrid => decide_eq_true (List.mem_cons_of_mem _ hrid)
  have hlen : (r.baseRuleIds.take 64).length = 64 := by
    rw [List.length_take]
    omega
  have hfilter : r.baseRuleIds.filter (· ∈ a :: r.baseRuleIds.take 64) =
      r.baseRuleIds.take 64 ++
        (r.baseRuleIds.drop 64).filter (· ∈ a :: r.baseRuleIds.take 64) := by
    calc r.baseRuleIds.filter (· ∈ a :: r.baseRuleIds.take 64)
        = (r.baseRuleIds.take 64 ++ r.baseRuleIds.drop 64).filter
            (· ∈ a :: r.baseRuleIds.take 64) := by rw [List.take_append_drop]
      _ = _ := by rw [List.filter_append, hall]
  rw [hitBuf, hfilter]
  exact List.take_left' hlen

variable (fp caps) in
/-- **Some event is decided on its own** by the first 64 base rules, and hits no other than the one
that selects the group. -/
theorem exists_decided_alone (hadm : r.admitted = true) (htype : r.type = some .temporal)
    (hcond : r.cond = []) (hlong : 64 ≤ r.baseRuleIds.length) {a : UInt32}
    (ha : a ∈ r.baseRuleIds) (hsel : r.Selects a) :
    ∃ ev key, ev.rids = a :: r.baseRuleIds.take 64 ∧
      groupEvents (admittedRules [r]) 0 r key [ev] = [ev] ∧
      ((groupTrace fp 0 r key (corrEngineNew [r] caps) (localCalls [ev])).map
        GroupStep.decided)[0]? = some true := by
  have hr : (admittedRules [r])[0]? = some r := by
    rw [admittedRules, List.filter_cons_of_pos hadm]
    rfl
  obtain ⟨ev, hev⟩ : ∃ ev : CorrEvent,
      ev = ⟨a :: r.baseRuleIds.take 64, fun _ => some [], 0⟩ := ⟨_, rfl⟩
  have hrids : ev.rids = a :: r.baseRuleIds.take 64 := by rw [hev]
  have hfield : ∀ name, (ev.field name).isSome = true := fun name => by
    rw [hev]
    rfl
  obtain ⟨key, hkey⟩ := Option.isSome_iff_exists.mp (resolveGroup_of_selects hsel hfield)
  have hgroup : groupEvents (admittedRules [r]) 0 r key [ev] = [ev] := by
    have hfind : ev.rids.find? (fun rid => decide (rid ∈ r.baseRuleIds)) = some a := by
      simp [hrids, ha]
    refine List.filter_eq_self.mpr fun ev' hev' => ?_
    rw [List.mem_singleton.mp hev', CorrCall.inputFor, CorrCall.target, eventTarget, hfind]
    simp [hkey]
  refine ⟨ev, key, hrids, hgroup, ?_⟩
  have hsplit : groupEvents (admittedRules [r]) 0 r key [ev] = [] ++ ev :: [] := hgroup
  obtain ⟨H, x, H', htrace, hlen, -, hx⟩ := exists_step_of_event fp caps hr hsplit
  rw [List.length_eq_zero_iff.mp hlen] at htrace
  obtain ⟨H₁, H₂, s, ev', hH, hstep, -, -⟩ := exists_stepOf hr htrace
  have hstep := hstep.of_input hx
  obtain ⟨-, rfl⟩ := List.append_eq_nil_iff.mp hH.symm
  have hnone := hstep.life.eq_none
  subst hnone
  have hdecided : x.decided = true := by
    rw [hstep.all_decided htype hcond]
    have hok : SeenOk (r.baseRuleIds.take 64) ([] : List (UInt32 × ℚ)) :=
      ⟨.nil, fun e he => absurd he List.not_mem_nil⟩
    have hspan := timespanS_pos (ruleValid_of_admitted hr)
    have hws : ev.ts - (r.timespanS : ℚ) ≤ ev.ts := by
      have hcast : (0 : ℚ) < r.timespanS := by exact_mod_cast hspan
      linarith
    have hshort : (r.baseRuleIds.take 64).length ≤ corrMaxSeenRules := by
      rw [List.length_take]
      exact Nat.min_le_left _ _
    intro rid hrid
    rw [hrids, hitBuf_take a hlong]
    exact (hok.live_records hshort (fun _ h => h) (fun e he => absurd he List.not_mem_nil) rid
      _).mpr (Or.inr ⟨hrid, hws⟩)
  rw [htrace]
  exact congrArg some hdecided

end All

/-- A decision on an event of a group means that every base rule was hit in its window. -/
def TemporalAllSound (fp : Doubles) (rules : List CorrRule) (caps : CorrCaps) (ci : ℕ)
    (r : CorrRule) (key : List CStr) (evs : List CorrEvent) : Prop :=
  ∀ E ev E', groupEvents (admittedRules rules) ci r key evs = E ++ ev :: E' →
    ((groupTrace fp ci r key (corrEngineNew rules caps) (localCalls evs)).map
      GroupStep.decided)[E.length]? = some true →
    ∀ rid ∈ r.baseRuleIds, HitIn (E ++ [ev]) rid (ev.ts - r.timespanS) ev.ts

/-- **Without a condition a decision means that all base rules were hit** in every run exactly when
those beyond the first 64 cannot be missed: an event without one of them reaches no group. -/
theorem temporal_all_sound_iff {r : CorrRule} (hadm : r.admitted = true)
    (htype : r.type = some .temporal) (hcond : r.cond = []) :
    (∀ (fp : Doubles) (rules : List CorrRule) (caps : CorrCaps) (ci : ℕ)
      (key : List CStr) (evs : List CorrEvent), (admittedRules rules)[ci]? = some r →
      TimeOrdered (localCalls evs) → TemporalAllSound fp rules caps ci r key evs) ↔
      ∀ b ∈ r.baseRuleIds, b ∉ r.baseRuleIds.take 64 →
        ∀ a ∈ r.baseRuleIds, a ≠ b → ¬ r.Selects a := by
  constructor
  · intro hsound b hb hbeyond a ha hab hsel
    have hlong : 64 ≤ r.baseRuleIds.length := by
      by_contra hshort
      rw [List.take_of_length_le (by omega)] at hbeyond
      exact hbeyond hb
    obtain ⟨ev, key, hrids, hgroup, hdecided⟩ :=
      exists_decided_alone .bare capsZero hadm htype hcond hlong ha hsel
    have hr : (admittedRules [r])[0]? = some r := by
      rw [admittedRules, List.filter_cons_of_pos hadm]
      rfl
    obtain ⟨ev', hev', hhit, -⟩ := hsound _ [r] capsZero 0 key [ev] hr (List.pairwise_singleton _ _)
      [] ev [] hgroup hdecided b hb
    rw [List.mem_singleton.mp hev', hrids] at hhit
    rcases List.mem_cons.mp hhit with heq | hmem
    · exact hab heq.symm
    · exact hbeyond hmem
  · intro hbeyond fp rules caps ci key evs hr hsorted E ev E' hsplit hdecided rid hrid
    obtain ⟨H, x, H', htrace, hlen, hinputs, hx⟩ := exists_step_of_event fp caps hr hsplit
    obtain ⟨H₁, H₂, s, ev', hH, hstep, hall, -⟩ := exists_stepOf hr htrace
    have hstep := hstep.of_input hx
    by_cases htake : rid ∈ r.baseRuleIds.take 64
    · have hget : x.decided = true := by
        rw [htrace, List.getElem?_map, ← hlen] at hdecided
        simpa using hdecided
      obtain ⟨y, hy, hand⟩ :=
        hstep.live_sound htype ((hstep.all_decided htype hcond).mp hget rid htake)
      refine StepsOf.hitIn ⟨hinputs, hx, hall hsorted⟩ ⟨y, ?_, hand⟩
      rw [hH, List.append_assoc]
      exact List.mem_append_right _ hy
    · -- the event carries a rule id that selects its group: there is no other
      have hmem : ev ∈ groupEvents (admittedRules rules) ci r key evs :=
        hsplit ▸ List.mem_append_right _ List.mem_cons_self
      obtain ⟨a, ha, hrids, hsel⟩ := exists_selects_of_inputFor (List.mem_filter.mp hmem).2
      have heq : a = rid := by
        by_contra hne
        exact hbeyond rid hrid htake a ha hne hsel
      have hspan : (0 : ℚ) < r.timespanS := by
        exact_mod_cast timespanS_pos (ruleValid_of_admitted hr)
      exact ⟨ev, List.mem_append_right _ List.mem_cons_self, heq ▸ hrids, by linarith, le_rfl⟩

/-- Two base rules. -/
def bothRule : CorrRule := { burstRule with type := some .temporal, baseRuleIds := [1, 2] }

theorem temporal_all_sound_iff_sample :
    TemporalAllSound .bare [bothRule] capsZero 0 bothRule [cstr "a"]
      [⟨[1], userField, 0⟩, ⟨[2], userField, 30⟩] :=
  (temporal_all_sound_iff (by decide) rfl rfl).mpr (fun _ hb hbeyond => absurd hb hbeyond) _ _ _ _ _ _
    (by decide) (by norm_num [TimeOrdered, localCalls, CorrCall.ts])

/-- 65 base rules. -/
def wideRule : CorrRule :=
  { burstRule with type := some .temporal, baseRuleIds := (List.range 65).map UInt32.ofNat }

/-- An event with all but the last. -/
def wideEvent : CorrEvent := ⟨(List.range 64).map UInt32.ofNat, userField, 0⟩

/-- The decision does not wait for the last base rule of `wideRule`. -/
theorem temporal_all_misses_base :
    ¬ ∀ (fp : Doubles) (rules : List CorrRule) (caps : CorrCaps) (ci : ℕ)
      (r : CorrRule) (key : List CStr) (evs : List CorrEvent),
      (admittedRules rules)[ci]? = some r → r.type = some .temporal → r.cond = [] →
      TimeOrdered (localCalls evs) → TemporalAllSound fp rules caps ci r key evs := by
  intro hclaim
  have hgroup : groupEvents (admittedRules [wideRule]) 0 wideRule [cstr "a"] [wideEvent] =
      [] ++ wideEvent :: [] := by
    refine List.filter_eq_self.mpr fun ev hev => ?_
    rw [List.mem_singleton.mp hev]
    decide +kernel
  obtain ⟨ev, hev, hhit, -⟩ := hclaim .bare [wideRule] capsZero 0 wideRule [cstr "a"]
    [wideEvent] (by decide) rfl rfl (List.pairwise_singleton _ _) [] wideEvent [] hgroup
    (by decide +kernel) 64 (by decide)
  rw [List.mem_singleton.mp hev] at hhit
  exact absurd hhit (by decide)

end LibSigma
