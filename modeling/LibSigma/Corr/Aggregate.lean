import Mathlib.Data.Rat.Floor
import LibSigma.Corr.Scratch

/-!
# Aggregates over a window

The rules over numeric values: a sum, an average, a percentile, a median.

## What an aggregate is

`CorrRule.aggregate` says what the rules mean, of any list of numbers: the sum, the sum by the
number, the nearest rank.  It is defined in exact numbers, and the evaluators are compared with it
for the engine that computes exactly.  What the engine of the program makes of a sum of doubles is
another number; `LibSigma.Corr.Merge` speaks of that one.  Percentiles and medians choose a number
and round nothing.

The code of the percentile clamps its rank at both ends.  For an admitted rule neither clamp ever
acts (`rankIdx_eq`), and the index is that of the `⌈p * n / 100⌉`-th smallest number.

## Which numbers

Those of the last numeric events, as far as the ring holds them and the window reaches
(`Life.entries_window`).  An event without a value, or with one that is not a number, ages the
window but appends nothing, and it is decided on all the same.

## A scratch

Percentiles are sorted in an array that belongs to the engine, `LibSigma.Corr.Scratch`.  Alone, an
evaluation finds there what it has put there.

* `rankIdx_eq`: the clamps of the percentile never act; its rank is the nearest rank.
* `evaluate_aggregate`: an event is decided on the aggregate of the live values.
* `Life.entries_window`: **the live entries are the last numeric events, those of the window.**
* `value_aggregate_exact`: **numeric aggregation is exact over the window.**
-/

namespace LibSigma

open Library

variable {fp : Doubles} {caps : CorrCaps} {r : CorrRule}

/-! ## The aggregates

What is to be computed, from a list of numbers: a sum, an average, a nearest rank.  The code's
clamps on the rank never act: the percentage of an admitted rule is between 0 and 100, and 0 stands
for 95. -/

/-- The `⌈p * n / 100⌉`-th smallest of `n` numbers. -/
def nearestRank (p : ℚ) (xs : List ℚ) : Option ℚ :=
  (sortAsc xs)[⌈p * xs.length / 100⌉₊ - 1]?

/-- What a rule aggregates the values of its window to; an empty window has no average and no
percentile. -/
def CorrRule.aggregate (r : CorrRule) (fp : Doubles) (xs : List ℚ) : Option ℚ :=
  match r.type with
  | some .valueSum => some (fp.sum 0 xs)
  | some .valueAvg => if xs = [] then none else some (fp.mean xs)
  | some .valuePercentile =>
    nearestRank (if r.valuePercentile = 0 then 95 else r.valuePercentile) xs
  | some .valueMedian => nearestRank 50 xs
  | _ => none

/-- With exact numbers, a sum and an average. -/
theorem aggregate_exact (strtod : CStr → Option ℚ) (xs : List ℚ) :
    (r.type = some .valueSum → r.aggregate (.exact strtod) xs = some xs.sum) ∧
      (r.type = some .valueAvg → r.aggregate (.exact strtod) xs =
        if xs = [] then none else some (xs.sum / xs.length)) := by
  constructor <;> intro htype <;> rw [CorrRule.aggregate, htype]
  · rw [Doubles.exact_sum, zero_add]
  · rw [Doubles.mean, Doubles.exact_sum, Doubles.exact_round, zero_add]

/-- The percentile of a valid rule. -/
theorem percentileOf_eq (hvalid : ruleValid r = true) :
    (1 ≤ percentileOf r ∧ percentileOf r ≤ 100) ∧
      (r.type = some .valueMedian → percentileOf r = 50) ∧
      (r.type = some .valuePercentile → (percentileOf r : ℚ) =
        if r.valuePercentile = 0 then 95 else (r.valuePercentile : ℚ)) := by
  have hrange : r.type = some .valuePercentile →
      0 ≤ r.valuePercentile ∧ r.valuePercentile ≤ 100 := by
    intro htype
    unfold ruleValid at hvalid
    rw [htype] at hvalid
    simp only [Bool.and_eq_true, Bool.not_eq_true', Bool.and_eq_false_iff, Bool.or_eq_false_iff,
      decide_eq_false_iff_not, not_lt, beq_self_eq_true, Bool.true_eq_false, false_or] at hvalid
    tauto
  rw [percentileOf]
  refine ⟨?_, fun htype => ?_, fun htype => ?_⟩
  · split_ifs <;> omega
  · rw [if_pos htype]
    rfl
  · obtain ⟨hnonneg, hle⟩ := hrange htype
    have hmedian : ¬ some CorrType.valuePercentile = some CorrType.valueMedian := by decide
    rw [htype, if_neg hmedian]
    by_cases hzero : r.valuePercentile = 0
    · rw [hzero]
      rfl
    · have hpos : 0 < r.valuePercentile := by omega
      rw [if_neg hzero, if_neg (not_le.mpr hpos), if_neg (not_lt.mpr hle)]
      exact_mod_cast Int.toNat_of_nonneg hnonneg

/-- The nearest rank, in integers. -/
theorem ceil_rank (p n : ℕ) : ⌈(p : ℚ) * n / 100⌉₊ = (p * n + 99) / 100 := by
  have hcast : (p : ℚ) * n / 100 = ((p * n : ℕ) : ℚ) / (100 : ℕ) := by push_cast; rfl
  refine le_antisymm (Nat.ceil_le.mpr ?_) (Nat.le_of_lt_succ ?_)
  · rw [hcast, div_le_iff₀ (by norm_num)]
    have h : p * n ≤ (p * n + 99) / 100 * 100 := by omega
    exact_mod_cast h
  · have hle := Nat.le_ceil ((p : ℚ) * n / 100)
    rw [hcast, div_le_iff₀ (by norm_num)] at hle
    have h : p * n ≤ ⌈((p * n : ℕ) : ℚ) / (100 : ℕ)⌉₊ * 100 := by exact_mod_cast hle
    rw [hcast]
    omega

/-- **The clamps never act**: the index is that of the nearest rank. -/
theorem rankIdx_eq (hvalid : ruleValid r = true) {n : ℕ} (hn : 0 < n) :
    rankIdx r n = ⌈(percentileOf r : ℚ) * n / 100⌉₊ - 1 := by
  obtain ⟨⟨hpos, hle⟩, -⟩ := percentileOf_eq hvalid
  have hlow : 1 ≤ percentileOf r * n := Nat.one_le_iff_ne_zero.mpr (by positivity)
  have hhigh : percentileOf r * n ≤ 100 * n := Nat.mul_le_mul_right n hle
  unfold rankIdx
  rw [ceil_rank]
  simp only
  split_ifs <;> omega

/-! ## One event

An evaluation that pushes its number, prunes, and computes from what the ring holds.  With the
numbers of the ring as a list, each type computes its aggregate of that list. -/

/-- The values of a group are as many as its entries. -/
theorem Group.ValsOk.length_evVals {g : Group} (h : g.ValsOk) :
    (LibSigma.evVals g).length = g.evIdx.len := by
  rw [h.evVals, List.length_map, length_entries]

/-- The percentile of the live values. -/
theorem nearestRank_evVals (hvalid : ruleValid r = true) {g : Group} (hok : g.ValsOk) {p : ℚ}
    (hp : (percentileOf r : ℚ) = p) :
    nearestRank p (evVals g) =
      if g.evIdx.len = 0 then none
      else some ((sortAsc (evVals g)).getD (rankIdx r g.evIdx.len) 0) := by
  have hlen : (sortAsc (evVals g)).length = g.evIdx.len := by
    rw [length_sortAsc, hok.length_evVals]
  rw [nearestRank, ← hp, hok.length_evVals]
  by_cases hzero : g.evIdx.len = 0
  · rw [if_pos hzero]
    exact List.getElem?_eq_none (by omega)
  · have hpos : 0 < g.evIdx.len := by omega
    have hlt := rankIdx_lt r hpos
    rw [if_neg hzero, ← rankIdx_eq hvalid hpos, List.getD_eq_getElem?_getD,
      List.getElem?_eq_getElem (by omega), Option.getD_some]

/-- An evaluation aggregates `xs`, and decides on the aggregate. -/
structure AggregatesTo (fp : Doubles) (r : CorrRule) (e : Evaluated) (xs : List ℚ) : Prop where
  values : evVals e.group = xs
  vagg : ∀ v, r.aggregate fp xs = some v → e.vagg = v
  fired : e.fired = (r.aggregate fp xs).any fun v => condSatisfiedF r.condOp v (fp.round r.condCount)

theorem AggregatesTo.of_some {e : Evaluated} {xs : List ℚ} {v : ℚ} (hvalues : evVals e.group = xs)
    (haggregate : r.aggregate fp xs = some v) (hvagg : e.vagg = v)
    (hfired : e.fired = condSatisfiedF r.condOp v (fp.round r.condCount)) : AggregatesTo fp r e xs where
  values := hvalues
  vagg v' hv' := by
    cases haggregate.symm.trans hv'
    exact hvagg
  fired := by rw [haggregate, Option.any_some, hfired]

theorem AggregatesTo.of_none {e : Evaluated} {xs : List ℚ} (hvalues : evVals e.group = xs)
    (haggregate : r.aggregate fp xs = none) (hfired : e.fired = false) : AggregatesTo fp r e xs where
  values := hvalues
  vagg v hv := by cases haggregate.symm.trans hv
  fired := by rw [haggregate, Option.any_none, hfired]

/-- A percentile or a median of the live values. -/
theorem evalValuePercentile_aggregate (hvalid : ruleValid r = true)
    (htype : r.type = some .valuePercentile ∨ r.type = some .valueMedian) (g : Group)
    (value : Option CStr) (cap : ℕ) (now ws : ℚ)
    (hok : (evObserve fp g value now ws).1.ValsOk)
    (hcap : (evObserve fp g value now ws).1.evIdx.len ≤ cap) :
    AggregatesTo fp r (evalValuePercentile fp r g value cap now ws)
      (evVals (evObserve fp g value now ws).1) := by
  have haggregate : r.aggregate fp (evVals (evObserve fp g value now ws).1) =
      if (evObserve fp g value now ws).1.evIdx.len = 0 then none
      else some ((sortAsc (evVals (evObserve fp g value now ws).1)).getD
        (rankIdx r (evObserve fp g value now ws).1.evIdx.len) 0) := by
    obtain ⟨-, hmedian, hpercentile⟩ := percentileOf_eq hvalid
    rcases htype with htype | htype
    · rw [CorrRule.aggregate, htype]
      exact nearestRank_evVals hvalid hok (hpercentile htype)
    · rw [CorrRule.aggregate, htype]
      exact nearestRank_evVals hvalid hok (by rw [hmedian htype]; rfl)
  have hskip : PctSkips cap (evObserve fp g value now ws).1 ↔
      (evObserve fp g value now ws).1.evIdx.len = 0 := by
    refine ⟨fun h => ?_, Or.inl⟩
    rcases h with h | h | h
    · exact h
    · rcases hok with hsome | hnil
      · rw [Option.isNone_iff_eq_none] at h
        rw [h] at hsome
        cases hsome
      · rw [← length_entries, hnil]
        rfl
    · omega
  have hvalues : evVals (evalValuePercentile fp r g value cap now ws).group =
      evVals (evObserve fp g value now ws).1 := by
    rw [group_evalValuePercentile]
  by_cases hzero : (evObserve fp g value now ws).1.evIdx.len = 0
  · rw [if_pos hzero] at haggregate
    refine .of_none hvalues haggregate ?_
    rw [evalValuePercentile]
    dsimp only
    rw [if_pos (Or.inl hzero)]
  · rw [if_neg hzero] at haggregate
    refine .of_some hvalues haggregate ?_ ?_
    · rw [evalValuePercentile_vagg, if_neg (mt hskip.mp hzero)]
    · rw [evalValuePercentile]
      dsimp only
      rw [if_neg (by exact mt hskip.mp hzero)]
      rfl

/-- A sum or an average of the live values, in a group that merged nothing. -/
theorem evalValueSumAvg_aggregate (isAvg : Bool)
    (htype : r.type = if isAvg then some .valueAvg else some .valueSum) (g : Group)
    (value : Option CStr) (now ws : ℚ) (hok : (evObserve fp g value now ws).1.ValsOk)
    (hsum : (evObserve fp g value now ws).1.mergeSum = 0)
    (hn : (evObserve fp g value now ws).1.mergeN = 0)
    (hlen : (evObserve fp g value now ws).1.evIdx.len < 2 ^ 32) :
    AggregatesTo fp r (evalValueSumAvg fp r g value isAvg now ws)
      (evVals (evObserve fp g value now ws).1) := by
  have hcount : ((evObserve fp g value now ws).1.evIdx.len +
      (evObserve fp g value now ws).1.mergeN.toNat) % 2 ^ 32 =
        (evVals (evObserve fp g value now ws).1).length := by
    rw [hn, hok.length_evVals]
    exact Nat.mod_eq_of_lt hlen
  have hvalues : evVals (evalValueSumAvg fp r g value isAvg now ws).group =
      evVals (evObserve fp g value now ws).1 := by
    rw [group_evalValueSumAvg]
  cases isAvg with
  | false =>
    have hguard : ¬ (false = true ∧ (evVals (evObserve fp g value now ws).1).length = 0) :=
      fun h => absurd h.1 (by decide)
    refine .of_some (v := fp.sum 0 (evVals (evObserve fp g value now ws).1)) hvalues ?_ ?_ ?_
    · rw [CorrRule.aggregate, htype]
      rfl
    · rw [evalValueSumAvg]
      dsimp only
      rw [hcount, hsum, if_neg hguard]
      rfl
    · rw [evalValueSumAvg]
      dsimp only
      rw [hcount, hsum, if_neg hguard]
      rfl
  | true =>
    by_cases hnil : evVals (evObserve fp g value now ws).1 = []
    · refine .of_none hvalues ?_ ?_
      · rw [CorrRule.aggregate, htype]
        exact if_pos hnil
      · rw [evalValueSumAvg]
        dsimp only
        rw [hcount, if_pos ⟨rfl, List.length_eq_zero_iff.mpr hnil⟩]
    · have hguard : ¬ (true = true ∧ (evVals (evObserve fp g value now ws).1).length = 0) :=
        fun h => hnil (List.length_eq_zero_iff.mp h.2)
      refine .of_some (v := fp.mean (evVals (evObserve fp g value now ws).1)) hvalues ?_ ?_ ?_
      · rw [CorrRule.aggregate, htype]
        exact if_neg hnil
      · rw [evalValueSumAvg]
        dsimp only
        rw [hcount, hsum, if_neg hguard]
        rfl
      · rw [evalValueSumAvg]
        dsimp only
        rw [hcount, hsum, if_neg hguard]
        rfl

/-- **An event is decided on the aggregate of the live values.** -/
theorem evaluate_aggregate (hvalid : ruleValid r = true) (hagg : r.Aggregates) (g : Group)
    (hits : List UInt32) (value : Option CStr) (now ws : ℚ)
    (hok : (evObserve fp g value now ws).1.ValsOk)
    (hunmerged : Unmerged caps (evObserve fp g value now ws).1)
    (hlen : (evObserve fp g value now ws).1.evIdx.len ≤ caps.maxEventsPerGroup)
    (hcap : caps.maxEventsPerGroup < 2 ^ 32) :
    AggregatesTo fp r (evaluate fp caps r g hits value now ws)
      (evVals (evObserve fp g value now ws).1) := by
  have hsum := hunmerged.mergeSum
  have hn := hunmerged.mergeN
  rcases hagg with (htype | htype) | htype | htype <;> rw [evaluate, htype]
  · exact evalValueSumAvg_aggregate false htype g value now ws hok hsum hn
      (lt_of_le_of_lt hlen hcap)
  · exact evalValueSumAvg_aggregate true htype g value now ws hok hsum hn
      (lt_of_le_of_lt hlen hcap)
  · exact evalValuePercentile_aggregate hvalid (Or.inl htype) g value _ now ws hok hlen
  · exact evalValuePercentile_aggregate hvalid (Or.inr htype) g value _ now ws hok hlen

/-! ## The window

Which numbers are in the ring: those of the last numeric events, as many as there is room for, as
far as they are in the window.  An event without a number is evaluated as well and pushes nothing.
-/

/-- The number an event carries in the value field of a rule. -/
def CorrEvent.number (fp : Doubles) (r : CorrRule) (ev : CorrEvent) : Option ℚ :=
  (r.valueField.bind ev.field).bind (sgToF64 fp)

/-- The numeric events among some events, each with its time and its number. -/
def numericEvents (fp : Doubles) (r : CorrRule) (E : List CorrEvent) : List (ℚ × ℚ) :=
  E.filterMap fun ev => (ev.number fp r).map (ev.ts, ·)

/-- The numbers of the last `cap` numeric events, as far as they are in the window of `t`. -/
def windowNumbers (fp : Doubles) (r : CorrRule) (cap : ℕ) (E : List CorrEvent) (t : ℚ) :
    List ℚ :=
  (((numericEvents fp r E).rtake cap).filter fun e =>
    decide (t - r.timespanS ≤ e.1) && decide (e.1 ≤ t)).map Prod.snd

theorem newEntry_input {ev : CorrEvent} (hhits : hitBuf r ev.rids ≠ []) :
    (ev.input r).newEntry fp = (ev.number fp r).map (ev.ts, ·) := by
  have hempty : (hitBuf r ev.rids).isEmpty = false := by simpa using hhits
  rw [GroupInput.newEntry, CorrEvent.input, GroupInput.number, hempty]
  rfl

/-- What the inputs of a group of local events append. -/
theorem newEntry_inputs {E : List CorrEvent} (hhits : ∀ ev ∈ E, hitBuf r ev.rids ≠ []) :
    (E.map (CorrEvent.input r)).filterMap (GroupInput.newEntry fp) =
      numericEvents fp r E := by
  rw [List.filterMap_map, numericEvents]
  exact List.filterMap_congr fun ev hev => newEntry_input (hhits ev hev)

/-- Entries of before the window are not among the live ones. -/
theorem live_append {es es' : List (ℚ × ℚ)} {ws : ℚ} (h : ∀ e ∈ es, e.1 < ws)
    (hsorted : ((es ++ es').map Prod.fst).Pairwise (· ≤ ·)) (cap : ℕ) :
    (((es ++ es').rtake cap).dropWhile fun e => before ws e.1) =
      (es'.rtake cap).dropWhile fun e => before ws e.1 := by
  have hnil : es.filter (fun e => !before ws e.1) = [] := by
    refine List.filter_eq_nil_iff.mpr fun e he => ?_
    rw [before, decide_eq_true (h e he)]
    decide
  have hsub : (es'.map Prod.fst).Pairwise (· ≤ ·) :=
    hsorted.sublist ((List.sublist_append_right es es').map Prod.fst)
  rw [dropWhile_rtake hsorted, dropWhile_rtake hsub, List.filter_append, hnil, List.nil_append]

/-- **The live entries are the last numeric events, those of the window.** -/
theorem Life.entries_window (hagg : r.Aggregates) (hcap : 0 < caps.maxEventsPerGroup)
    {H : List GroupStep} {s : Option Group} (h : Life fp caps r H s) {ev : CorrEvent}
    (hhits : hitBuf r ev.rids ≠ []) (hle : ∀ x ∈ H, x.ts ≤ ev.ts) :
    (groupApply fp caps r s (ev.input r)).group.ValsOk ∧
      (groupApply fp caps r s (ev.input r)).group.entries =
        (((H.map GroupStep.input ++ [ev.input r]).filterMap (GroupInput.newEntry fp)).rtake
          caps.maxEventsPerGroup).dropWhile fun e => before (ev.ts - r.timespanS) e.1 := by
  have hinputs : (H ++ [(groupApply fp caps r s (ev.input r)).step (ev.input r)]).map
      GroupStep.input = H.map GroupStep.input ++ [ev.input r] := by
    rw [List.map_append]
    rfl
  obtain ⟨hok, hcovers⟩ := (h.input (ev.input r)).covers (queued_entries hagg) hcap (T := ev.ts)
    (fun x hx => by
      rcases List.mem_append.mp hx with hx | hx
      · exact hle x hx
      · rw [List.mem_singleton.mp hx]
        rfl)
  rw [hinputs, Option.getD_some] at hcovers
  refine ⟨hok, ?_⟩
  -- the evaluation has dropped the expired entries already
  have hpruned : ((groupApply fp caps r s (ev.input r)).group.entries.dropWhile fun e =>
      before (ev.ts - r.timespanS) e.1) =
        (groupApply fp caps r s (ev.input r)).group.entries := by
    obtain ⟨hok₀, -⟩ := h.covers (queued_entries hagg) hcap hle
    have hstep := (entries_groupInput fp caps hagg hok₀ (ev.input r)).2
    have hprunes : (ev.input r).prunes = true := prunes_event hhits _ _
    rw [if_pos hprunes] at hstep
    rw [groupApply, hstep]
    exact dropWhile_dropWhile_of_imp (fun e he => he) _
  rw [← hpruned]
  exact hcovers _ le_rfl

/-- **An event of a life is decided on the numbers of its window.** -/
theorem Life.aggregates (hvalid : ruleValid r = true) (hagg : r.Aggregates)
    (hcap : 0 < caps.maxEventsPerGroup) (hcaps : caps.maxEventsPerGroup < 2 ^ 32)
    {H : List GroupStep} {s : Option Group} (h : Life fp caps r H s)
    (hlocal : ∀ x ∈ H, x.IsLocal r) {ev : CorrEvent} (hhits : hitBuf r ev.rids ≠ [])
    (hle : ∀ x ∈ H, x.ts ≤ ev.ts) :
    let g := s.getD (groupNew caps.maxEventsPerGroup)
    let e := evaluate fp caps r { g with lastUpdate := ev.ts } (hitBuf r ev.rids)
      (r.valueField.bind ev.field) ev.ts (ev.ts - r.timespanS)
    (groupApply fp caps r s (ev.input r)).decided = e.fired ∧
      AggregatesTo fp r e (((((H.map GroupStep.input ++ [ev.input r]).filterMap
        (GroupInput.newEntry fp)).rtake caps.maxEventsPerGroup).dropWhile
          fun e => before (ev.ts - r.timespanS) e.1).map Prod.snd) := by
  intro g e
  have hsettle : groupApply fp caps r s (ev.input r) = settle r ev.ts e :=
    groupInput_event fp caps r g hhits _ ev.ts
  -- the group after the event is the one the evaluation leaves, its deadline apart
  have hgroup : (groupApply fp caps r s (ev.input r)).group =
      { e.group with firedUntil := (settle r ev.ts e).group.firedUntil } := by
    rw [hsettle]
    exact settle_group r ev.ts e
  obtain ⟨hok, hentries⟩ := h.entries_window hagg hcap hhits hle
  have hmerged : Unmerged caps e.group :=
    (show Unmerged caps { g with lastUpdate := ev.ts } from
      ⟨(h.unmerged hlocal).mergeSum, (h.unmerged hlocal).mergeN, (h.unmerged hlocal).mergeSeen,
        (h.unmerged hlocal).mergeRemote, (h.unmerged hlocal).cap⟩).of_sameFrame
      (sameFrame_evaluate fp caps r _ _ _ _ _)
  rw [hgroup] at hok hentries
  have hok : e.group.ValsOk := hok
  have hentries : e.group.entries = _ := hentries
  have hobserve : e.group = (evObserve fp { g with lastUpdate := ev.ts }
      (r.valueField.bind ev.field) ev.ts (ev.ts - r.timespanS)).1 :=
    group_evaluate_aggregates fp caps hagg _ _ _ _ _
  have hlen : e.group.evIdx.len ≤ caps.maxEventsPerGroup := by
    have hle := e.group.evIdx.len_le
    rw [hmerged.cap, if_neg hcap.ne'] at hle
    exact hle
  refine ⟨by rw [hsettle, settle_decided], ?_⟩
  rw [← hentries, ← hok.evVals, hobserve]
  rw [hobserve] at hok hmerged hlen
  exact evaluate_aggregate hvalid hagg _ _ _ _ _ hok hmerged hlen hcaps

/-- The numeric events come in order of time if the events do. -/
theorem numericEvents_sorted {E : List CorrEvent}
    (hsorted : (E.map CorrEvent.ts).Pairwise (· ≤ ·)) :
    ((numericEvents fp r E).map Prod.fst).Pairwise (· ≤ ·) := by
  rw [List.pairwise_map, numericEvents, List.pairwise_filterMap]
  refine (List.pairwise_map.mp hsorted).imp fun hle e he e' he' => ?_
  obtain ⟨v, -, rfl⟩ := Option.map_eq_some_iff.mp he
  obtain ⟨v', -, rfl⟩ := Option.map_eq_some_iff.mp he'
  exact hle

/-- The numbers of the window are those of the live entries. -/
theorem windowNumbers_eq {E : List CorrEvent} {t : ℚ} (cap : ℕ)
    (hsorted : (E.map CorrEvent.ts).Pairwise (· ≤ ·)) (hle : ∀ ev ∈ E, ev.ts ≤ t) :
    windowNumbers fp r cap E t =
      (((numericEvents fp r E).rtake cap).dropWhile
        fun e => before (t - r.timespanS) e.1).map Prod.snd := by
  have hsub : (((numericEvents fp r E).rtake cap).map Prod.fst).Pairwise (· ≤ ·) :=
    (numericEvents_sorted hsorted).sublist ((List.drop_sublist _ _).map Prod.fst)
  rw [windowNumbers, (dropWhile_before hsub).2]
  refine congrArg (List.map Prod.snd) (List.filter_congr fun e he => ?_)
  obtain ⟨ev, hev, hentry⟩ := List.mem_filterMap.mp (List.mem_of_mem_drop he)
  obtain ⟨v, -, rfl⟩ := Option.map_eq_some_iff.mp hentry
  rw [decide_eq_true (hle ev hev), Bool.and_true, before, ← decide_not, decide_eq_decide, not_lt]

section Run

variable {rules : List CorrRule} {ci : ℕ} {key : List CStr}

theorem withDefaults_maxEvents_lt (h : caps.maxEventsPerGroup < 2 ^ 32) :
    caps.withDefaults.maxEventsPerGroup < 2 ^ 32 := by
  rw [CorrCaps.withDefaults]
  simp only
  split <;> omega

theorem groupEvents_concat {evs : List CorrEvent} {ev : CorrEvent}
    (hreach : ((CorrCall.event ev none).inputFor rules ci r key).isSome = true) :
    groupEvents rules ci r key (evs ++ [ev]) = groupEvents rules ci r key evs ++ [ev] := by
  have hlast : [ev].filter (fun ev => ((CorrCall.event ev none).inputFor rules ci r key).isSome) =
      [ev] := by
    rw [List.filter_cons, if_pos hreach, List.filter_nil]
  rw [groupEvents, List.filter_append, hlast]
  rfl

/-- **Numeric aggregation is exact over the window.**  On each event of a group the evaluator
aggregates the numbers of the last numeric events, those in the window, and decides on the aggregate;
an event without a number adds none.  A sum is the sum of the doubles in their order, with exact
numbers the sum (`aggregate_exact`). -/
theorem value_aggregate_exact (hr : (admittedRules rules)[ci]? = some r) (hagg : r.Aggregates)
    (hcaps : caps.maxEventsPerGroup < 2 ^ 32) {evs : List CorrEvent} {ev : CorrEvent}
    (hsorted : TimeOrdered (localCalls (evs ++ [ev])))
    (hspared : spared fp ci r key (corrEngineNew rules caps) (localCalls (evs ++ [ev])) = true)
    (hreach : ((CorrCall.event ev none).inputFor (admittedRules rules) ci r key).isSome = true) :
    let E := groupEvents (admittedRules rules) ci r key
    let W := windowNumbers fp r caps.withDefaults.maxEventsPerGroup (E (evs ++ [ev])) ev.ts
    let g := (((corrRun fp (corrEngineNew rules caps) (localCalls evs)).sweepIfDue ev.ts).slot ci
      key).getD (groupNew caps.withDefaults.maxEventsPerGroup)
    let e := evaluate fp caps.withDefaults r { g with lastUpdate := ev.ts } (hitBuf r ev.rids)
      (r.valueField.bind ev.field) ev.ts (ev.ts - r.timespanS)
    AggregatesTo fp r e W ∧
      ((groupTrace fp ci r key (corrEngineNew rules caps) (localCalls (evs ++ [ev]))).map
        GroupStep.decided).getLast? = some e.fired ∧
      (ev.number fp r = none →
        W = windowNumbers fp r caps.withDefaults.maxEventsPerGroup (E evs) ev.ts) := by
  intro E W g e
  obtain ⟨i, hi⟩ := Option.isSome_iff_exists.mp hreach
  obtain ⟨rfl, hhits⟩ := inputFor_event hi
  have hinputs := groupTrace_localCalls fp caps key hr (evs ++ [ev])
  rw [localCalls_concat] at hsorted hspared hinputs ⊢
  obtain ⟨H₁, L, s, hin⟩ := exists_lastInput hr hsorted hspared hi
  have hlocal : ∀ y ∈ L, y.IsLocal r := fun y hy =>
    isLocal_of_mem_groupTrace hr (hin.trace ▸ List.mem_append_right H₁ hy)
  have hE : E (evs ++ [ev]) = E evs ++ [ev] := groupEvents_concat hreach
  have hEsorted : ((E evs ++ [ev]).map CorrEvent.ts).Pairwise (· ≤ ·) := by
    rw [← hE]
    exact groupEvents_sorted (localCalls_concat evs ev ▸ hsorted)
  have hEle : ∀ ev' ∈ E evs ++ [ev], ev'.ts ≤ ev.ts := by
    rw [List.map_append, List.pairwise_append] at hEsorted
    intro ev' hev'
    rcases List.mem_append.mp hev' with hev' | hev'
    · exact hEsorted.2.2 _ (List.mem_map_of_mem hev') _ List.mem_cons_self
    · exact (congrArg CorrEvent.ts (List.mem_singleton.mp hev')).le
  have hEhits : ∀ ev' ∈ E evs ++ [ev], hitBuf r ev'.rids ≠ [] := by
    intro ev' hev'
    rw [← hE] at hev'
    exact hitBuf_ne_nil_of_mem_groupEvents hev'
  rw [hin.trace_concat] at hinputs ⊢
  obtain ⟨hdecided, haggregates⟩ := hin.life.aggregates (ruleValid_of_admitted hr) hagg
    (withDefaults_maxEvents_pos caps) (withDefaults_maxEvents_lt hcaps) hlocal hhits hin.le
  rw [hin.found] at hdecided haggregates
  -- what came before the life has left the window
  have hW : W = ((((L.map GroupStep.input ++ [ev.input r]).filterMap
      (GroupInput.newEntry fp)).rtake caps.withDefaults.maxEventsPerGroup).dropWhile
        fun e => before (ev.ts - r.timespanS) e.1).map Prod.snd := by
    have hentries : numericEvents fp r (E evs ++ [ev]) =
        (H₁.map GroupStep.input).filterMap (GroupInput.newEntry fp) ++
          (L.map GroupStep.input ++ [ev.input r]).filterMap (GroupInput.newEntry fp) := by
      rw [← newEntry_inputs hEhits, ← List.filterMap_append]
      refine congrArg _ ?_
      rw [← hE, ← hinputs, List.map_append, List.map_append]
      rfl
    have hold : ∀ p ∈ (H₁.map GroupStep.input).filterMap (GroupInput.newEntry fp),
        p.1 < ev.ts - r.timespanS := by
      intro p hp
      obtain ⟨j, hj, hentry⟩ := List.mem_filterMap.mp hp
      obtain ⟨y, hy, rfl⟩ := List.mem_map.mp hj
      obtain ⟨v, -, rfl⟩ := Option.map_eq_some_iff.mp hentry
      exact hin.past y hy
    have hnumeric := @numericEvents_sorted fp r _ hEsorted
    show windowNumbers fp r caps.withDefaults.maxEventsPerGroup (E (evs ++ [ev])) ev.ts = _
    rw [hE, windowNumbers_eq _ hEsorted hEle]
    rw [hentries] at hnumeric ⊢
    rw [live_append hold hnumeric]
  refine ⟨hW ▸ haggregates, ?_, fun hnone => ?_⟩
  · rw [← List.append_assoc, List.map_append, List.map_singleton, List.getLast?_concat, hin.found]
    exact congrArg some hdecided
  · show windowNumbers fp r caps.withDefaults.maxEventsPerGroup (E (evs ++ [ev])) ev.ts = _
    rw [hE, windowNumbers, numericEvents, List.filterMap_append,
      List.filterMap_cons_none (by rw [hnone]; rfl), List.filterMap_nil, List.append_nil]
    rfl

end Run

/-- The median of the lengths of a user's words. -/
def lengthRule : CorrRule :=
  { burstRule with type := some .valueMedian, valueField := some (cstr "word"), condCount := 2 }

/-- An event of user `a` with a word. -/
def wordEvent (word : String) (ts : ℚ) : CorrEvent :=
  ⟨[7], fun name => if name = cstr "word" then some (cstr word) else userField name, ts⟩

/-- Three words in the last minute, and one before: the median of three lengths. -/
theorem value_aggregate_exact_sample :
    (∃ e, AggregatesTo lengthNumber lengthRule e [3, 1, 2] ∧
      ((groupTrace lengthNumber 0 lengthRule [cstr "a"] (corrEngineNew [lengthRule] capsZero)
        (localCalls ([wordEvent "abcd" 0, wordEvent "abc" 30, wordEvent "" 40, wordEvent "a" 50] ++
          [wordEvent "ab" 70]))).map GroupStep.decided).getLast? = some e.fired) ∧
      lengthRule.aggregate lengthNumber [3, 1, 2] = some 2 := by
  have hwindow : windowNumbers lengthNumber lengthRule capsZero.withDefaults.maxEventsPerGroup
      (groupEvents (admittedRules [lengthRule]) 0 lengthRule [cstr "a"]
        ([wordEvent "abcd" 0, wordEvent "abc" 30, wordEvent "" 40, wordEvent "a" 50] ++
          [wordEvent "ab" 70])) 70 = [3, 1, 2] := by
    decide +kernel
  obtain ⟨haggregates, hdecided, -⟩ := @value_aggregate_exact lengthNumber capsZero lengthRule
    [lengthRule] 0 [cstr "a"]
    (by decide) (Or.inr (Or.inr rfl)) (by decide)
    [wordEvent "abcd" 0, wordEvent "abc" 30, wordEvent "" 40, wordEvent "a" 50] (wordEvent "ab" 70)
    (by norm_num [TimeOrdered, localCalls, wordEvent, CorrCall.ts]) (by decide +kernel)
    (by decide +kernel)
  have hts : (wordEvent "ab" 70).ts = 70 := rfl
  rw [hts] at haggregates
  rw [hwindow] at haggregates
  exact ⟨⟨_, haggregates, hdecided⟩, by decide +kernel⟩

end LibSigma
