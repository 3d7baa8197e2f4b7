import LibSigma.Corr.Temporal
import LibSigma.Corr.Values

/-!
# Partials of peers

A group that local events and partials reach: the partials go into accumulators, the events into the
ring and the seen table.

## Two memories

What comes from local events is pruned with every event.  What comes from peers is added up: a
count, a sum, 64 bits. Nothing is ever taken out of these accumulators; they go when the group is
dropped. So after any inputs the accumulators hold every partial of the present life of the group
(`Life.merged`), and the ring and the table hold its window.

A decision reads both. It is the threshold of the group that the input leaves
(`decided_groupInput`), and it is the threshold of the window if the partials of the life happen to
lie in it. That is a condition on what the group holds before the decision, `HoldsWindow`, together
with room for the window: on the ring, in 32 bits for the merged count, in 64 bits for the mask.

## Sums of doubles

The code adds doubles, first those of the partials in the order of their arrival, then those of the
ring from the oldest to the newest. `ReachedBy` does the same with the numbers of the window, so
that the statement holds with whatever the additions round. Where none of them rounds (`Unrounded`),
it is the sum or the average of the exact numbers.

* `merged_groupInput`: what an input adds to the accumulators.
* `decided_groupInput`: a decision is the threshold of the group the input leaves.
* `Life.merged`: **the accumulators hold every partial of the life.**
* `merged_window_exact`: **a decision counts what is in its window** if no partial of the life is
  older than the window.
* `stale_partial_counts`: a partial that is older and counts.
-/

namespace LibSigma

open Library

/-! ## What an input carries

A partial goes into one of three accumulators, by its kind.  The three functions give what an input
adds to each, and are zero for all other inputs, so that the accumulators after a life are sums over
all of it. -/

/-- What an input adds to the merged count. -/
def GroupInput.addend : GroupInput → UInt32
  | .event _ _ _ => 0
  | .contrib c => if c.kind = some .count ∨ c.kind = some .sum then contribAdd c else 0

/-- What an input adds to the merged sum. -/
def GroupInput.summand : GroupInput → ℚ
  | .event _ _ _ => 0
  | .contrib c => if c.kind = some .sum then c.numeric else 0

/-- What an input adds to the merged bits. -/
def GroupInput.bits : GroupInput → UInt64
  | .event _ _ _ => 0
  | .contrib c => if c.kind = some .seen then c.seenMask else 0

/-! ## One input -/

section Input

variable (fp : Doubles) (caps : CorrCaps) (r : CorrRule)

/-- **What an input adds to the accumulators**, whatever the rule. -/
theorem merged_groupInput {g : Group} (hsum : fp.round g.mergeSum = g.mergeSum) (i : GroupInput) :
    (groupInput fp caps r g i).group.mergeN = g.mergeN + i.addend ∧
      (groupInput fp caps r g i).group.mergeSum = fp.round (g.mergeSum + i.summand) ∧
      (groupInput fp caps r g i).group.mergeSeen = g.mergeSeen ||| i.bits := by
  cases i with
  | event hits value ts =>
    have hkeep : (groupInput fp caps r g (.event hits value ts)).group.mergeN = g.mergeN ∧
        (groupInput fp caps r g (.event hits value ts)).group.mergeSum = g.mergeSum ∧
        (groupInput fp caps r g (.event hits value ts)).group.mergeSeen = g.mergeSeen := by
      rw [groupInput]
      split
      · exact ⟨rfl, rfl, rfl⟩
      · have hframe := sameFrame_evaluate fp caps r { g with lastUpdate := ts } hits value ts
          (ts - r.timespanS)
        rw [settle_group]
        exact ⟨hframe.mergeN, hframe.mergeSum, hframe.mergeSeen⟩
    rw [hkeep.1, hkeep.2.1, hkeep.2.2]
    simp [GroupInput.addend, GroupInput.summand, GroupInput.bits, hsum]
  | contrib c =>
    rw [groupInput, settle_group]
    simp only [evalContrib, GroupInput.addend, GroupInput.summand, GroupInput.bits]
    split
    · simp_all [evPrune]
    · split <;> simp_all [evPrune]
    · split
      · have hframe := sameFrame_evalValueCount r { g with lastUpdate := c.ts, mergeRemote := true }
          c.value caps.maxDistinct c.ts (c.ts - r.timespanS)
        rw [hframe.mergeN, hframe.mergeSum, hframe.mergeSeen]
        simp_all
      · simp_all
    · split
      · have hframe := sameFrame_evalTemporal r
          { g with lastUpdate := c.ts, mergeRemote := true, mergeSeen := g.mergeSeen ||| c.seenMask }
          [] c.ts (c.ts - r.timespanS)
        rw [hframe.mergeN, hframe.mergeSum, hframe.mergeSeen]
        simp_all
      · simp_all
    · simp_all
    · simp_all

/-! ## The decision

The code decides at several places: at the end of the evaluation of an event and inside the merge of
a partial, for each type on its own.  All of them compare the same numbers of the group that is
left.  `Group.reaches` is that comparison, and `decided_groupInput` says that every decision is it.
-/

/-- Whether a rule decides on an input: on each event, and on the partials of its kind. -/
def GroupInput.decides (r : CorrRule) (i : GroupInput) : Bool :=
  i.isEvent || (i.contribKind.isSome && i.contribKind == corrContribKindFor r.type)

theorem GroupInput.event_or_kind {r : CorrRule} {i : GroupInput} (h : i.decides r = true)
    {kind : CorrContribKind} (hkind : corrContribKindFor r.type = some kind) :
    i.isEvent = true ∨ i.contribKind = some kind := by
  rw [GroupInput.decides, hkind, Bool.or_eq_true, Bool.and_eq_true, beq_iff_eq] at h
  exact h.imp_right And.right

/-- The types whose partials go into an accumulator. -/
def CorrType.mergeable : CorrType → Bool
  | .eventCount | .valueSum | .valueAvg | .temporal => true
  | _ => false

/-- The threshold of a rule, on its group. -/
def Group.reaches (fp : Doubles) (r : CorrRule) (g : Group) : Bool :=
  match r.type with
  | some .eventCount => cmpThreshold (g.evIdx.len + g.mergeN.toNat) r.condOp r.condCount
  | some .valueSum => condSatisfiedF r.condOp (fp.sum g.mergeSum (evVals g)) (fp.round r.condCount)
  | some .valueAvg =>
    let n : ℕ := (g.evIdx.len + g.mergeN.toNat) % 2 ^ 32
    n != 0 && condSatisfiedF r.condOp (fp.round (fp.sum g.mergeSum (evVals g) / n))
      (fp.round r.condCount)
  | some .temporal =>
    if r.cond.isEmpty then
      (List.range (min r.baseRuleIds.length 64)).all fun i =>
        corrSeenMask r g &&& (1 <<< UInt64.ofNat i) != 0
    else corrCondEval r.cond (corrSeenMask r g)
  | _ => false

/-- The deadline does not matter for the threshold. -/
theorem reaches_settle (ts : ℚ) (e : Evaluated) :
    (settle r ts e).group.reaches fp r = e.group.reaches fp r := by
  rw [settle_group]
  rfl

/-- An event of a rule that merges: the threshold of the group it leaves. -/
theorem evaluate_fired {type : CorrType} (htype : r.type = some type)
    (hmerge : type.mergeable = true) (g : Group) (hits : List UInt32) (value : Option CStr)
    (now ws : ℚ) :
    (evaluate fp caps r g hits value now ws).fired =
      (evaluate fp caps r g hits value now ws).group.reaches fp r := by
  unfold evaluate Group.reaches
  rw [htype]
  cases type with
  | eventCount => rfl
  | valueSum =>
    dsimp only
    rw [group_evalValueSumAvg]
    simp [evalValueSumAvg]
  | valueAvg =>
    dsimp only
    rw [group_evalValueSumAvg, evalValueSumAvg]
    dsimp only
    split <;> simp_all
  | temporal => rfl
  | valueCount | temporalOrdered | beaconing | valuePercentile | valueMedian => cases hmerge

/-- A partial of the kind of a rule: the threshold of the group it leaves. -/
theorem evalContrib_fired {type : CorrType} (htype : r.type = some type)
    (hmerge : type.mergeable = true) (g : Group) (c : CorrContrib) (ws : ℚ) :
    (evalContrib fp caps r g c ws).fired =
      ((GroupInput.contrib c).decides r && (evalContrib fp caps r g c ws).group.reaches fp r) := by
  have hdecides : (GroupInput.contrib c).decides r =
      (c.kind.isSome && c.kind == corrContribKindFor r.type) := Bool.false_or _
  have htypes : ∀ a b : CorrType, (a == b) = decide (a = b) := fun a b => rfl
  have hkinds : ∀ a b : CorrContribKind, (a == b) = decide (a = b) := fun a b => rfl
  rw [hdecides, htype]
  cases type with
  | eventCount =>
    rcases hkind : c.kind with _ | _ | _ | _ | _ | _ <;>
      simp [evalContrib, Group.reaches, corrContribKindFor, hkind, htype, htypes, hkinds]
  | valueSum =>
    rcases hkind : c.kind with _ | _ | _ | _ | _ | _ <;>
      simp [evalContrib, Group.reaches, corrContribKindFor, hkind, htype, htypes, hkinds]
  | valueAvg =>
    rcases hkind : c.kind with _ | _ | _ | _ | _ | _ <;>
      simp [evalContrib, Group.reaches, corrContribKindFor, hkind, htype, htypes, hkinds]
    split <;> simp_all
  | temporal =>
    rcases hkind : c.kind with _ | _ | _ | _ | _ | _ <;>
      simp [evalContrib, Group.reaches, evalTemporal, corrContribKindFor, hkind, htype, hkinds]
  | valueCount | temporalOrdered | beaconing | valuePercentile | valueMedian => cases hmerge

/-- **The decision on an input** is the threshold of the group it leaves. -/
theorem decided_groupInput {type : CorrType} (htype : r.type = some type)
    (hmerge : type.mergeable = true) (g : Group) (i : GroupInput) :
    (groupInput fp caps r g i).decided =
      (i.decides r && (groupInput fp caps r g i).group.reaches fp r) := by
  cases i with
  | event hits value ts =>
    by_cases hnil : hits = []
    · have hnever : (GroupInput.event [] value ts).decides r = false := by
        rw [GroupInput.decides, htype]
        cases type <;> rfl
      rw [groupInput, if_pos hnil, hnil, hnever]
      rfl
    · rw [groupInput_event fp caps r g hnil, settle_decided, reaches_settle,
        evaluate_fired fp caps r htype hmerge, GroupInput.decides, isEvent_event hnil,
        Bool.true_or, Bool.true_and]
  | contrib c =>
    rw [groupInput, settle_decided, reaches_settle, evalContrib_fired fp caps r htype hmerge]

end Input

/-! ## A life

What the group holds after a life.  The ring has the local events of the window, once an input has
aged it; the accumulators have every partial of the life, however old.  This asymmetry is the
finding. -/

/-- The counts the partials of some inputs carry. -/
def countsIn (is : List GroupInput) : ℕ := (is.map fun i => i.addend.toNat).sum

/-- The sums the partials of some inputs carry. -/
def sumsIn (is : List GroupInput) : List ℚ := (is.map GroupInput.summand).filter (· ≠ 0)

/-- The numbers the events of some inputs carry. -/
def numbersIn (fp : Doubles) (is : List GroupInput) : List ℚ :=
  is.filterMap (GroupInput.number fp)

/-- The inputs in the window of a decision at `t`. -/
def windowOf (r : CorrRule) (t : ℚ) (is : List GroupInput) : List GroupInput :=
  is.filter fun i => decide (t - r.timespanS ≤ i.ts) && decide (i.ts ≤ t)

/-- Inputs that have left a window. -/
theorem windowOf_past {r : CorrRule} {t : ℚ} {is is' : List GroupInput}
    (h : ∀ i ∈ is, i.ts < t - r.timespanS) : windowOf r t (is ++ is') = windowOf r t is' := by
  have hnil : windowOf r t is = [] := by
    refine List.filter_eq_nil_iff.mpr fun i hi hin => ?_
    rw [Bool.and_eq_true, decide_eq_true_eq] at hin
    exact absurd (h i hi) (not_lt.mpr hin.1)
  rw [windowOf, List.filter_append, ← windowOf, hnil, List.nil_append]
  rfl

section Life

variable {fp : Doubles} {caps : CorrCaps} {r : CorrRule}

/-- **The accumulators hold every partial of the life.** -/
theorem Life.merged {H : List GroupStep} {s : Option Group} (h : Life fp caps r H s) :
    (s.getD (groupNew caps.maxEventsPerGroup)).mergeN.toNat =
        countsIn (H.map GroupStep.input) % 2 ^ 32 ∧
      (s.getD (groupNew caps.maxEventsPerGroup)).mergeSum =
        fp.sum 0 ((H.map GroupStep.input).map GroupInput.summand) ∧
      ∀ j, (s.getD (groupNew caps.maxEventsPerGroup)).mergeSeen.toNat.testBit j = true ↔
        ∃ i ∈ H.map GroupStep.input, i.bits.toNat.testBit j = true := by
  induction h with
  | unborn =>
    refine ⟨rfl, rfl, fun j => ?_⟩
    have hzero : (groupNew caps.maxEventsPerGroup).mergeSeen.toNat.testBit j = false :=
      Nat.zero_testBit j
    simp [hzero]
  | @input H s i h ih =>
    obtain ⟨hn, hsum, hseen⟩ := ih
    obtain ⟨hn', hsum', hseen'⟩ := merged_groupInput fp caps r
      (g := s.getD (groupNew caps.maxEventsPerGroup)) (hsum ▸ fp.round_sum fp.round_zero _) i
    rw [Option.getD_some, groupApply, hn', hsum', hseen', List.map_append, List.map_singleton,
      GroupOutcome.step]
    refine ⟨?_, ?_, fun j => ?_⟩
    · rw [UInt32.toNat_add, hn, countsIn, countsIn, List.map_append, List.sum_append,
        List.map_singleton, List.sum_singleton, Nat.mod_add_mod]
    · rw [hsum, List.map_append, fp.sum_append]
      rfl
    · rw [UInt64.toNat_or, Nat.testBit_or, Bool.or_eq_true, hseen]
      simp only [List.mem_append, List.mem_singleton, or_and_right, exists_or, exists_eq_left]

/-- Inputs outside a window that carry nothing do not count. -/
theorem sum_map_filter {α M : Type} [AddMonoid M] {p : α → Bool} {f : α → M} {xs : List α}
    (h : ∀ x ∈ xs, p x = false → f x = 0) : ((xs.filter p).map f).sum = (xs.map f).sum := by
  induction xs with
  | nil => rfl
  | cons x xs ih =>
    have ih := ih fun y hy => h y (List.mem_cons_of_mem _ hy)
    rw [List.map_cons, List.sum_cons, ← ih]
    cases hp : p x with
    | true => rw [List.filter_cons_of_pos hp, List.map_cons, List.sum_cons]
    | false =>
      rw [List.filter_cons_of_neg (by rw [hp]; exact Bool.false_ne_true),
        h x List.mem_cons_self hp, zero_add]

/-- **The queue of a group after an input that ages it**: what the window appended, if it fits. -/
theorem Life.live_window {α : Type} {Ok : Group → Prop} {live : Group → List α} {time : α → ℚ}
    {app : GroupInput → Option α} (hq : Queued fp caps r Ok live time app)
    (htime : ∀ i x, app i = some x → time x = i.ts) (hcap : 0 < caps.maxEventsPerGroup)
    {H : List GroupStep} {s : Option Group} (h : Life fp caps r H s) {i : GroupInput}
    (hsorted : ((H.map GroupStep.input ++ [i]).map GroupInput.ts).Pairwise (· ≤ ·))
    (hprunes : i.prunes = true)
    (hfits : ((windowOf r i.ts (H.map GroupStep.input ++ [i])).filterMap app).length ≤
      caps.maxEventsPerGroup) :
    Ok (groupApply fp caps r s i).group ∧
      live (groupApply fp caps r s i).group =
        (windowOf r i.ts (H.map GroupStep.input ++ [i])).filterMap app := by
  have hinputs : (H ++ [(groupApply fp caps r s i).step i]).map GroupStep.input =
      H.map GroupStep.input ++ [i] := by
    rw [List.map_append]
    rfl
  have hle : ∀ j ∈ H.map GroupStep.input ++ [i], j.ts ≤ i.ts := by
    rw [List.map_append, List.pairwise_append] at hsorted
    intro j hj
    rcases List.mem_append.mp hj with hj | hj
    · exact hsorted.2.2 _ (List.mem_map_of_mem hj) _ List.mem_cons_self
    · rw [List.mem_singleton.mp hj]
  obtain ⟨hok, hcovers⟩ := (h.input i).covers hq hcap (T := i.ts) fun x hx =>
    hle x.input (hinputs ▸ List.mem_map_of_mem hx)
  rw [hinputs, Option.getD_some] at hcovers
  refine ⟨hok, ?_⟩
  -- what is left are the entries that have not expired
  have hwindow : (((H.map GroupStep.input ++ [i]).filterMap app).filter fun x =>
      !before (i.ts - r.timespanS) (time x)) =
        (windowOf r i.ts (H.map GroupStep.input ++ [i])).filterMap app := by
    rw [List.filter_filterMap, windowOf, List.filterMap_filter]
    refine List.filterMap_congr fun j hj => ?_
    cases happ : app j with
    | none => simp
    | some x => simp [Option.filter, before, htime j x happ, hle j hj, ← not_lt]
  have hlive : (live (groupApply fp caps r s i).group).dropWhile
      (fun x => before (i.ts - r.timespanS) (time x)) = _ :=
    hcovers.live_eq ?_ le_rfl (hwindow ▸ hfits)
  · rw [hwindow] at hlive
    obtain ⟨hok', -⟩ := h.covers hq hcap (T := i.ts) fun x hx =>
      hle x.input (List.mem_append_left _ (List.mem_map_of_mem hx))
    rw [groupApply, hq.step _ i hok', if_pos hprunes] at hlive ⊢
    rw [← hlive, dropWhile_dropWhile_of_imp fun x hx => hx]
  · rw [List.pairwise_map] at hsorted ⊢
    refine List.pairwise_filterMap.mpr (hsorted.imp fun {j j'} hjj' x hx x' hx' => ?_)
    rw [htime j x hx, htime j' x' hx']
    exact hjj'

end Life

/-! ## The window

The threshold on the inputs of a window, in the arithmetic of the code: the sum of the partials
first, then the numbers of the ring in their order.  In exact numbers the order and the grouping
would not matter, and with doubles they do; `Unrounded` is the case in which no operation rounds,
and there the two agree.  A step is fresh when the partials that its group holds are in its window.
The lemmas on fresh steps are one for each type. -/

/-- An input of `is` has the `j`-th bit: it hit the `j`-th base rule or carries the bit. -/
def SeenIn (r : CorrRule) (is : List GroupInput) (j : ℕ) : Prop :=
  ∃ i ∈ is, i.bits.toNat.testBit j = true ∨ ∃ rid, r.baseRuleIds[j]? = some rid ∧ rid ∈ i.hits

/-- The threshold of a rule, on the inputs of a window.  Where it is on a sum, the sums of the partials
are added up first, then the numbers of the events. -/
def ReachedBy (fp : Doubles) (r : CorrRule) (is : List GroupInput) : Prop :=
  match r.type with
  | some .eventCount =>
    cmpThreshold ((is.countP GroupInput.isEvent + countsIn is : ℕ) : Int) r.condOp r.condCount = true
  | some .valueSum =>
    condSatisfiedF r.condOp (fp.sum 0 (sumsIn is ++ numbersIn fp is)) (fp.round r.condCount) = true
  | some .valueAvg =>
    let n : ℕ := (numbersIn fp is).length + countsIn is
    0 < n ∧ condSatisfiedF r.condOp (fp.round (fp.sum 0 (sumsIn is ++ numbersIn fp is) / n))
      (fp.round r.condCount) = true
  | some .temporal =>
    if r.cond.isEmpty then ∀ j < r.baseRuleIds.length, SeenIn r is j
    else ∃ e, CondSpells r.cond e ∧ e.Holds fun a => SeenIn r is a.toNat
  | _ => False

/-- Nothing is rounded on the way to the threshold. -/
def Unrounded (fp : Doubles) (r : CorrRule) (is : List GroupInput) : Prop :=
  match r.type with
  | some .valueSum =>
    fp.Adds 0 (sumsIn is ++ numbersIn fp is) ∧ fp.round r.condCount = r.condCount
  | some .valueAvg =>
    let avg := (sumsIn is ++ numbersIn fp is).sum / ((numbersIn fp is).length + countsIn is : ℕ)
    fp.Adds 0 (sumsIn is ++ numbersIn fp is) ∧ fp.round avg = avg ∧
      fp.round r.condCount = r.condCount
  | _ => True

theorem numbersIn_exact (fp : Doubles) (is : List GroupInput) :
    numbersIn (.exact fp.strtod) is = numbersIn fp is := rfl

/-- Where nothing is rounded, the threshold is that of the exact numbers. -/
theorem reachedBy_exact {fp : Doubles} {r : CorrRule} {is : List GroupInput}
    (h : Unrounded fp r is) : ReachedBy (.exact fp.strtod) r is ↔ ReachedBy fp r is := by
  unfold ReachedBy
  unfold Unrounded at h
  split
  · exact Iff.rfl
  · rename_i htype
    rw [htype] at h
    rw [h.1.sum_eq, h.2, Doubles.exact_sum, numbersIn_exact, Doubles.exact_round]
  · rename_i htype
    rw [htype] at h
    dsimp only at h ⊢
    rw [h.1.sum_eq, zero_add, h.2.1, h.2.2, Doubles.exact_sum, numbersIn_exact, zero_add,
      Doubles.exact_round, Doubles.exact_round]
  · exact Iff.rfl
  · exact Iff.rfl

/-- Whether an input goes into an accumulator that the threshold reads. -/
def GroupInput.merges (r : CorrRule) (i : GroupInput) : Bool :=
  match r.type with
  | some .eventCount | some .valueAvg => i.addend != 0
  | some .valueSum => i.summand != 0
  | some .temporal => i.bits != 0
  | _ => false

/-- There is room for a window: its entries fit the ring, its counts 32 bits and the base rules the
mask. -/
def WindowFits (fp : Doubles) (caps : CorrCaps) (r : CorrRule)
    (is : List GroupInput) : Prop :=
  match r.type with
  | some .eventCount => is.countP GroupInput.isEvent ≤ caps.maxEventsPerGroup ∧ countsIn is < 2 ^ 32
  | some .valueSum => (numbersIn fp is).length ≤ caps.maxEventsPerGroup
  | some .valueAvg =>
    (numbersIn fp is).length ≤ caps.maxEventsPerGroup ∧
      (numbersIn fp is).length + countsIn is < 2 ^ 32
  | some .temporal => r.baseRuleIds.length ≤ corrMaxSeenRules
  | _ => True

section Window

variable {fp : Doubles} {caps : CorrCaps} {r : CorrRule}

/-- An input `i` that decides after a life whose partials are in its window. -/
structure FreshStep (fp : Doubles) (caps : CorrCaps) (r : CorrRule)
    (H : List GroupStep) (s : Option Group) (i : GroupInput) : Prop where
  life : Life fp caps r H s
  sorted : ((H.map GroupStep.input ++ [i]).map GroupInput.ts).Pairwise (· ≤ ·)
  decides : i.decides r = true
  fresh : ∀ j ∈ H.map GroupStep.input ++ [i], j.merges r = true → i.ts - r.timespanS ≤ j.ts

theorem FreshStep.le {H : List GroupStep} {s : Option Group} {i : GroupInput}
    (h : FreshStep fp caps r H s i) : ∀ j ∈ H.map GroupStep.input ++ [i], j.ts ≤ i.ts := by
  have hsorted := h.sorted
  rw [List.map_append, List.pairwise_append] at hsorted
  intro j hj
  rcases List.mem_append.mp hj with hj | hj
  · exact hsorted.2.2 _ (List.mem_map_of_mem hj) _ List.mem_cons_self
  · rw [List.mem_singleton.mp hj]

/-- What the partials of the life add is what those of the window add. -/
theorem FreshStep.sum_eq {M : Type} [AddMonoid M] {H : List GroupStep} {s : Option Group}
    {i : GroupInput} (h : FreshStep fp caps r H s i) {f : GroupInput → M}
    (hf : ∀ j, j.merges r = false → f j = 0) :
    ((H.map GroupStep.input ++ [i]).map f).sum =
      ((windowOf r i.ts (H.map GroupStep.input ++ [i])).map f).sum := by
  refine (sum_map_filter fun j hj hout => hf j (eq_false_of_ne_true fun hmerges => ?_)).symm
  simp [h.fresh j hj hmerges, h.le j hj] at hout

variable {H : List GroupStep} {s : Option Group} {i : GroupInput}

/-- The sums that the partials of the life carry are those of the window. -/
theorem FreshStep.sumsIn_eq (h : FreshStep fp caps r H s i)
    (hadd : ∀ j : GroupInput, j.merges r = false → j.summand = 0) :
    sumsIn (H.map GroupStep.input ++ [i]) =
      sumsIn (windowOf r i.ts (H.map GroupStep.input ++ [i])) := by
  rw [sumsIn, sumsIn, windowOf, List.filter_map, List.filter_map, List.filter_filter]
  refine congrArg _ (List.filter_congr fun j hj => ?_)
  cases hmerges : j.merges r with
  | true => simp [h.fresh j hj hmerges, h.le j hj]
  | false => simp [hadd j hmerges]

/-- The accumulators after a decision hold the partials of its window. -/
theorem FreshStep.merged (h : FreshStep fp caps r H s i) :
    ((∀ j : GroupInput, j.merges r = false → j.addend = 0) →
        (groupApply fp caps r s i).group.mergeN.toNat =
          countsIn (windowOf r i.ts (H.map GroupStep.input ++ [i])) % 2 ^ 32) ∧
      ((∀ j : GroupInput, j.merges r = false → j.summand = 0) →
        (groupApply fp caps r s i).group.mergeSum =
          fp.sum 0 (sumsIn (windowOf r i.ts (H.map GroupStep.input ++ [i])))) ∧
      ((∀ j : GroupInput, j.merges r = false → j.bits = 0) →
        ∀ n, (groupApply fp caps r s i).group.mergeSeen.toNat.testBit n = true ↔
          ∃ j ∈ windowOf r i.ts (H.map GroupStep.input ++ [i]), j.bits.toNat.testBit n = true) := by
  have hinputs : (H ++ [(groupApply fp caps r s i).step i]).map GroupStep.input =
      H.map GroupStep.input ++ [i] := by
    rw [List.map_append]
    rfl
  obtain ⟨hn, hsum, hseen⟩ := (h.life.input i).merged
  rw [hinputs, Option.getD_some] at hn hsum
  refine ⟨fun hadd => ?_, fun hadd => ?_, fun hbits n => ?_⟩
  · have hzero : ∀ j : GroupInput, j.merges r = false → j.addend.toNat = 0 := fun j hj => by
      rw [hadd j hj]
      rfl
    rw [hn, countsIn, h.sum_eq hzero, countsIn]
  · rw [hsum, ← fp.sum_filter_ne_zero fp.round_zero, ← h.sumsIn_eq hadd]
    rfl
  · have hiff := hseen n
    rw [hinputs, Option.getD_some] at hiff
    rw [hiff]
    constructor
    · intro hex
      obtain ⟨j, hj, hbit⟩ := hex
      have hmerges : j.merges r = true := by
        by_contra hnot
        rw [hbits j (eq_false_of_ne_true hnot)] at hbit
        exact absurd hbit (by simp)
      refine ⟨j, List.mem_filter.mpr ⟨hj, ?_⟩, hbit⟩
      simp [h.fresh j hj hmerges, h.le j hj]
    · intro hex
      obtain ⟨j, hj, hbit⟩ := hex
      exact ⟨j, List.mem_of_mem_filter hj, hbit⟩

/-- **event_count** on the events and counts of the window. -/
theorem FreshStep.reaches_eventCount (h : FreshStep fp caps r H s i)
    (htype : r.type = some .eventCount) (hcap : 0 < caps.maxEventsPerGroup)
    (hfits : WindowFits fp caps r (windowOf r i.ts (H.map GroupStep.input ++ [i]))) :
    (groupApply fp caps r s i).group.reaches fp r = true ↔
      ReachedBy fp r (windowOf r i.ts (H.map GroupStep.input ++ [i])) := by
  have hadd : ∀ j : GroupInput, j.merges r = false → j.addend = 0 := by
    intro j hj
    simpa [GroupInput.merges, htype] using hj
  have hprunes : i.prunes = true := by
    rw [GroupInput.prunes, Bool.or_eq_true, decide_eq_true_iff]
    exact (GroupInput.event_or_kind h.decides (by rw [htype]; rfl)).imp_right Or.inl
  have hevents : ∀ is : List GroupInput,
      (is.filterMap GroupInput.eventTime?).length = is.countP GroupInput.isEvent := by
    intro is
    rw [List.length_filterMap_eq_countP]
    refine List.countP_congr fun j _ => ?_
    simp [GroupInput.eventTime?]
  rw [WindowFits, htype] at hfits
  obtain ⟨-, hlive⟩ := h.life.live_window (queued_times htype)
    (fun j x hx => by simp_all [GroupInput.eventTime?]) hcap h.sorted hprunes
    ((hevents _).trans_le hfits.1)
  have hlen : (groupApply fp caps r s i).group.evIdx.len =
      (windowOf r i.ts (H.map GroupStep.input ++ [i])).countP GroupInput.isEvent := by
    rw [← length_times, hlive, hevents]
  have hn := h.merged.1 hadd
  rw [Nat.mod_eq_of_lt hfits.2] at hn
  rw [Group.reaches, ReachedBy, htype]
  dsimp only
  rw [hlen, hn, Nat.cast_add]

/-- The values after a decision are the numbers of the window. -/
theorem FreshStep.evVals_eq (h : FreshStep fp caps r H s i)
    (htype : r.type = some .valueSum ∨ r.type = some .valueAvg) (hcap : 0 < caps.maxEventsPerGroup)
    (hfits : (numbersIn fp (windowOf r i.ts (H.map GroupStep.input ++ [i]))).length ≤
      caps.maxEventsPerGroup) :
    evVals (groupApply fp caps r s i).group =
        numbersIn fp (windowOf r i.ts (H.map GroupStep.input ++ [i])) ∧
      (groupApply fp caps r s i).group.evIdx.len =
        (numbersIn fp (windowOf r i.ts (H.map GroupStep.input ++ [i]))).length := by
  have hprunes : i.prunes = true := by
    have hkind : corrContribKindFor r.type = some .sum := by
      rcases htype with htype | htype <;> rw [htype] <;> rfl
    rw [GroupInput.prunes, Bool.or_eq_true, decide_eq_true_iff]
    exact (GroupInput.event_or_kind h.decides hkind).imp_right Or.inr
  have hnumbers : ∀ is : List GroupInput,
      (is.filterMap (GroupInput.newEntry fp)).map Prod.snd = numbersIn fp is := by
    intro is
    rw [List.map_filterMap, numbersIn]
    refine List.filterMap_congr fun j _ => ?_
    rw [GroupInput.newEntry, Option.map_map]
    exact Option.map_id'
  have hlength : ∀ is : List GroupInput,
      (is.filterMap (GroupInput.newEntry fp)).length = (numbersIn fp is).length := by
    intro is
    rw [← hnumbers, List.length_map]
  have htime : ∀ (j : GroupInput) (x : ℚ × ℚ), j.newEntry fp = some x → x.1 = j.ts := by
    intro j x hx
    obtain ⟨v, -, rfl⟩ := Option.map_eq_some_iff.mp hx
    rfl
  obtain ⟨hok, hlive⟩ := h.life.live_window (queued_entries (Or.inl htype)) htime hcap h.sorted hprunes
    ((hlength _).trans_le hfits)
  refine ⟨?_, ?_⟩
  · rw [hok.evVals, hlive, hnumbers]
  · rw [← length_entries, hlive, hlength]

/-- **value_sum** on the numbers and sums of the window. -/
theorem FreshStep.reaches_valueSum (h : FreshStep fp caps r H s i)
    (htype : r.type = some .valueSum) (hcap : 0 < caps.maxEventsPerGroup)
    (hfits : WindowFits fp caps r (windowOf r i.ts (H.map GroupStep.input ++ [i]))) :
    (groupApply fp caps r s i).group.reaches fp r = true ↔
      ReachedBy fp r (windowOf r i.ts (H.map GroupStep.input ++ [i])) := by
  have hadd : ∀ j : GroupInput, j.merges r = false → j.summand = 0 := by
    intro j hj
    simpa [GroupInput.merges, htype] using hj
  rw [WindowFits, htype] at hfits
  rw [Group.reaches, ReachedBy, htype]
  dsimp only
  rw [(h.evVals_eq (Or.inl htype) hcap hfits).1, h.merged.2.1 hadd, fp.sum_append]

/-- **value_avg** on the numbers, counts and sums of the window. -/
theorem FreshStep.reaches_valueAvg (h : FreshStep fp caps r H s i)
    (htype : r.type = some .valueAvg) (hcap : 0 < caps.maxEventsPerGroup)
    (hfits : WindowFits fp caps r (windowOf r i.ts (H.map GroupStep.input ++ [i]))) :
    (groupApply fp caps r s i).group.reaches fp r = true ↔
      ReachedBy fp r (windowOf r i.ts (H.map GroupStep.input ++ [i])) := by
  have hadd : ∀ j : GroupInput, j.merges r = false → j.addend = 0 := by
    intro j hj
    simpa [GroupInput.merges, htype] using hj
  -- a partial with a sum carries a count
  have hsum : ∀ j : GroupInput, j.merges r = false → j.summand = 0 := by
    intro j hj
    have hzero := hadd j hj
    cases j with
    | event hits value ts => rfl
    | contrib c =>
      have hpos : contribAdd c ≠ 0 := by
        unfold contribAdd
        split
        · assumption
        · decide
      rw [GroupInput.addend] at hzero
      rw [GroupInput.summand, if_neg]
      intro hkind
      rw [if_pos (Or.inr hkind)] at hzero
      exact hpos hzero
  rw [WindowFits, htype] at hfits
  obtain ⟨hvals, hlen⟩ := h.evVals_eq (Or.inr htype) hcap hfits.1
  have hlt : countsIn (windowOf r i.ts (H.map GroupStep.input ++ [i])) < 2 ^ 32 :=
    lt_of_le_of_lt (Nat.le_add_left _ _) hfits.2
  have hn := h.merged.1 hadd
  rw [Nat.mod_eq_of_lt hlt] at hn
  rw [Group.reaches, ReachedBy, htype]
  dsimp only
  rw [hvals, hlen, hn, h.merged.2.1 hsum, Nat.mod_eq_of_lt hfits.2, fp.sum_append,
    Bool.and_eq_true, bne_iff_ne, Nat.pos_iff_ne_zero]

/-- **Bit `n` of the mask after a decision**: an input of the window has it. -/
theorem FreshStep.maskBit (h : FreshStep fp caps r H s i) (htype : r.type = some .temporal)
    (hbase : r.baseRuleIds.length ≤ corrMaxSeenRules)
    (hhits : ∀ j ∈ H.map GroupStep.input ++ [i], ∀ rid ∈ j.hits, rid ∈ r.baseRuleIds) (n : ℕ) :
    (corrSeenMask r (groupApply fp caps r s i).group).toNat.testBit n = true ↔
      SeenIn r (windowOf r i.ts (H.map GroupStep.input ++ [i])) n := by
  have hinputs : (H ++ [(groupApply fp caps r s i).step i]).map GroupStep.input =
      H.map GroupStep.input ++ [i] := by
    rw [List.map_append]
    rfl
  have hbits : ∀ j : GroupInput, j.merges r = false → j.bits = 0 := by
    intro j hj
    simpa [GroupInput.merges, htype] using hj
  have hrefreshes : i.refreshes = true := by
    rw [GroupInput.refreshes, Bool.or_eq_true, decide_eq_true_iff]
    exact GroupInput.event_or_kind h.decides (by rw [htype]; rfl)
  have htake : r.baseRuleIds.take 64 = r.baseRuleIds := List.take_of_length_le hbase
  have hsorted := h.sorted
  rw [← hinputs, List.map_map] at hsorted
  have hgroup : (groupApply fp caps r s i).group.seen = (seenRecords i.ts
      (s.getD (groupNew caps.maxEventsPerGroup)).seen i.hits).1.filter
        fun e => i.ts - r.timespanS ≤ e.2 := by
    rw [groupApply, seen_groupInput fp caps htype, if_pos hrefreshes]
  -- the entries that are left are the hits of the window
  have hseen : ∀ rid, seenAny (groupApply fp caps r s i).group.seen rid = true ↔
      ∃ j ∈ windowOf r i.ts (H.map GroupStep.input ++ [i]), rid ∈ j.hits := by
    intro rid
    have hlive := @Life.live_iff _ _ _ htype hbase _ _ (h.life.input i)
      (fun x hx => hhits x.input (hinputs ▸ List.mem_map_of_mem hx)) hsorted (i.ts - r.timespanS)
      (fun x hx => sub_le_sub_right (h.le x.input (hinputs ▸ List.mem_map_of_mem hx)) _) rid
    rw [Option.getD_some, hgroup, live_filter _ le_rfl] at hlive
    rw [hgroup, seenAny_filter, hlive]
    constructor
    · intro hex
      obtain ⟨x, hx, hhit, hts⟩ := hex
      have hmem : x.input ∈ H.map GroupStep.input ++ [i] := hinputs ▸ List.mem_map_of_mem hx
      refine ⟨x.input, List.mem_filter.mpr ⟨hmem, ?_⟩, hhit⟩
      rw [Bool.and_eq_true, decide_eq_true_eq, decide_eq_true_eq]
      exact ⟨hts, h.le _ hmem⟩
    · intro hex
      obtain ⟨j, hj, hhit⟩ := hex
      obtain ⟨hmem, hin⟩ := List.mem_filter.mp hj
      rw [← hinputs] at hmem
      obtain ⟨x, hx, rfl⟩ := List.mem_map.mp hmem
      rw [Bool.and_eq_true, decide_eq_true_eq] at hin
      exact ⟨x, hx, hhit, hin.1⟩
  rw [testBit_corrSeenMask, h.merged.2.2 hbits, htake]
  simp only [hseen]
  constructor
  · intro hor
    rcases hor with ⟨j, hj, hbit⟩ | ⟨rid, hrid, j, hj, hhit⟩
    · exact ⟨j, hj, Or.inl hbit⟩
    · exact ⟨j, hj, Or.inr ⟨rid, hrid, hhit⟩⟩
  · intro hex
    obtain ⟨j, hj, hbit | ⟨rid, hrid, hhit⟩⟩ := hex
    · exact Or.inl ⟨j, hj, hbit⟩
    · exact Or.inr ⟨rid, hrid, j, hj, hhit⟩

/-- **temporal** on the hits and bits of the window. -/
theorem FreshStep.reaches_temporal (h : FreshStep fp caps r H s i)
    (htype : r.type = some .temporal)
    (hhits : ∀ j ∈ H.map GroupStep.input ++ [i], ∀ rid ∈ j.hits, rid ∈ r.baseRuleIds)
    (hfits : WindowFits fp caps r (windowOf r i.ts (H.map GroupStep.input ++ [i]))) :
    (groupApply fp caps r s i).group.reaches fp r = true ↔
      ReachedBy fp r (windowOf r i.ts (H.map GroupStep.input ++ [i])) := by
  rw [WindowFits, htype] at hfits
  have hbit := h.maskBit htype hfits hhits
  rw [Group.reaches, ReachedBy, htype]
  dsimp only
  by_cases hcond : r.cond.isEmpty = true
  · have hlen : min r.baseRuleIds.length 64 = r.baseRuleIds.length := Nat.min_eq_left hfits
    rw [if_pos hcond, if_pos hcond, hlen, List.all_eq_true]
    refine forall_congr' fun n => ?_
    rw [List.mem_range]
    refine imp_congr_right fun hn => ?_
    rw [and_shift_ne_zero _ (lt_of_lt_of_le hn hfits), hbit]
  · rw [if_neg hcond, if_neg hcond, corrCondEval_iff]
    refine exists_congr fun e => and_congr_right fun _ => ?_
    exact BoolExpr.eval_iff_holds_of_args fun a _ => hbit a.toNat

/-- **A decision is the threshold of its window**, if the partials of the life are in it and it
fits. -/
theorem FreshStep.reaches_iff (h : FreshStep fp caps r H s i) {type : CorrType}
    (htype : r.type = some type) (hmerge : type.mergeable = true)
    (hcap : 0 < caps.maxEventsPerGroup)
    (hhits : ∀ j ∈ H.map GroupStep.input ++ [i], ∀ rid ∈ j.hits, rid ∈ r.baseRuleIds)
    (hfits : WindowFits fp caps r (windowOf r i.ts (H.map GroupStep.input ++ [i]))) :
    (groupApply fp caps r s i).group.reaches fp r = true ↔
      ReachedBy fp r (windowOf r i.ts (H.map GroupStep.input ++ [i])) := by
  cases type with
  | eventCount => exact h.reaches_eventCount htype hcap hfits
  | valueSum => exact h.reaches_valueSum htype hcap hfits
  | valueAvg => exact h.reaches_valueAvg htype hcap hfits
  | temporal => exact h.reaches_temporal htype hhits hfits
  | valueCount | temporalOrdered | beaconing | valuePercentile | valueMedian => cases hmerge

end Window

/-! ## Runs

From steps to runs of the engine.  The condition is on the state before each deciding call, the
partials that the group holds and their times, and on the sizes; what is concluded is about the
call's decision. -/

section Run

variable {fp : Doubles} {rules : List CorrRule} {caps : CorrCaps} {ci : ℕ}
  {r : CorrRule} {key : List CStr}

/-- Step `x` after `H` decides on its window: the local events and the partials whose times are
in it. -/
def DecidesOnWindow (fp : Doubles) (r : CorrRule) (H : List GroupStep)
    (x : GroupStep) : Prop :=
  x.decided = true ↔ x.input.decides r = true ∧
    ReachedBy fp r (windowOf r x.ts ((H ++ [x]).map GroupStep.input))

variable (fp ci r key) in
/-- What call `c` needs to be decided on its window: the partials that its group holds are in the
window, and the window fits. -/
structure HoldsWindow (rules : List CorrRule) (caps : CorrCaps) (cs : List CorrCall)
    (c : CorrCall) : Prop where
  fresh : ∀ y ∈ lifeFound ci key (corrRun fp (corrEngineNew rules caps) cs)
      (lifeRun fp ci r key (corrEngineNew rules caps) cs).2 c,
    y.input.merges r = true → c.ts - r.timespanS ≤ y.ts
  fits : WindowFits fp caps.withDefaults r (windowOf r c.ts
    ((cs ++ [c]).filterMap (CorrCall.inputFor (admittedRules rules) ci r key)))

/-- Where nothing is rounded, a decision on the window is one in exact numbers. -/
theorem DecidesOnWindow.exact {H : List GroupStep} {x : GroupStep} (h : DecidesOnWindow fp r H x)
    (hround : Unrounded fp r (windowOf r x.ts ((H ++ [x]).map GroupStep.input))) :
    DecidesOnWindow (.exact fp.strtod) r H x := by
  rw [DecidesOnWindow, reachedBy_exact hround]
  exact h

variable (fp rules caps ci r key) in
/-- In every run in which no group holds a partial longer than its window, the decisions are on the
windows. -/
theorem decidesOnWindow_of_holds (hr : (admittedRules rules)[ci]? = some r) {type : CorrType}
    (htype : r.type = some type) (hmerge : type.mergeable = true) {cs : List CorrCall}
    (hsorted : TimeOrdered cs)
    (hspared : spared fp ci r key (corrEngineNew rules caps) cs = true)
    (hholds : ∀ cs₁ c cs₂, cs = cs₁ ++ c :: cs₂ →
      (c.inputFor (admittedRules rules) ci r key).isSome = true →
      HoldsWindow fp ci r key rules caps cs₁ c) :
    ∀ H x H', groupTrace fp ci r key (corrEngineNew rules caps) cs = H ++ x :: H' →
      DecidesOnWindow fp r H x := by
  intro H x H' hsplit
  obtain ⟨cs₁, c, cs₂, hcs, rfl, hstep⟩ := exists_call_of_step hsplit
  obtain ⟨i, hi, -⟩ := Option.bind_eq_some_iff.mp hstep
  have hok := (engineOk_new rules caps).corrRun fp hr cs₁
  rw [hok.states] at hstep hi
  have hcs' : cs = (cs₁ ++ [c]) ++ cs₂ := by
    rw [hcs, List.append_assoc]
    rfl
  obtain ⟨hfresh, hfits⟩ := hholds cs₁ c cs₂ hcs (Option.isSome_of_eq_some hi)
  have hts := CorrCall.ts_of_inputFor hi
  rw [hcs', spared_append, Bool.and_eq_true] at hspared
  have hsorted' : TimeOrdered (cs₁ ++ [c]) := by
    refine hsorted.sublist (List.Sublist.map _ ?_)
    rw [hcs']
    exact List.sublist_append_left _ _
  obtain ⟨H₁, L, g, hin⟩ := exists_lastInput hr hsorted' hspared.1 hi
  cases hstep.symm.trans hin.step
  -- the inputs so far: those of past lives, and those of this one
  have hpast : ∀ j ∈ H₁.map GroupStep.input, j.ts < i.ts - r.timespanS := by
    intro j hj
    obtain ⟨y, hy, rfl⟩ := List.mem_map.mp hj
    exact hin.past y hy
  have hwindow : windowOf r i.ts ((groupTrace fp ci r key (corrEngineNew rules caps) cs₁ ++
      [(groupApply fp caps.withDefaults r g i).step i]).map GroupStep.input) =
        windowOf r i.ts (L.map GroupStep.input ++ [i]) := by
    rw [hin.trace, List.append_assoc, List.map_append, windowOf_past hpast, List.map_append]
    rfl
  have hhits : ∀ j ∈ L.map GroupStep.input ++ [i], ∀ rid ∈ j.hits, rid ∈ r.baseRuleIds := by
    intro j hj rid hrid
    have hmem := List.mem_append_right (H₁.map GroupStep.input) hj
    rw [hin.inputs] at hmem
    obtain ⟨c', -, hc'⟩ := List.mem_filterMap.mp hmem
    exact mem_base_of_inputFor hc' hrid
  have hwindowed : windowOf r c.ts ((cs₁ ++ [c]).filterMap
      (CorrCall.inputFor (admittedRules rules) ci r key)) =
        windowOf r i.ts (L.map GroupStep.input ++ [i]) := by
    rw [← hin.inputs, ← hts, windowOf_past hpast]
  show (groupApply fp caps.withDefaults r g i).decided = true ↔ i.decides r = true ∧
    ReachedBy fp r (windowOf r i.ts ((groupTrace fp ci r key (corrEngineNew rules caps) cs₁ ++
      [(groupApply fp caps.withDefaults r g i).step i]).map GroupStep.input))
  rw [hwindow, groupApply, decided_groupInput fp caps.withDefaults r htype hmerge,
    Bool.and_eq_true]
  refine and_congr_right fun hdecides => ?_
  have hspan : (0 : ℚ) < r.timespanS := by exact_mod_cast timespanS_pos (ruleValid_of_admitted hr)
  have hstep : FreshStep fp caps.withDefaults r L g i :=
    { life := hin.life
      sorted := hin.inputs_sorted
      decides := hdecides
      fresh := by
        intro j hj hmerges
        rcases List.mem_append.mp hj with hj | hj
        · obtain ⟨y, hy, rfl⟩ := List.mem_map.mp hj
          rw [hts]
          exact hfresh y (hin.steps ▸ hy) hmerges
        · rw [List.mem_singleton.mp hj]
          linarith }
  exact hstep.reaches_iff htype hmerge (withDefaults_maxEvents_pos caps) hhits (hwindowed ▸ hfits)

/-- **Partials live in the window of the events** in every run in which no group holds a partial
longer: a decision is the threshold on the events and partials of its window, computed with doubles,
and the threshold on the exact numbers where none of these operations rounds. -/
theorem merged_window_exact (hr : (admittedRules rules)[ci]? = some r) {type : CorrType}
    (htype : r.type = some type) (hmerge : type.mergeable = true) {cs : List CorrCall}
    (hsorted : TimeOrdered cs)
    (hspared : spared fp ci r key (corrEngineNew rules caps) cs = true)
    (hholds : ∀ cs₁ c cs₂, cs = cs₁ ++ c :: cs₂ →
      (c.inputFor (admittedRules rules) ci r key).isSome = true →
      HoldsWindow fp ci r key rules caps cs₁ c) :
    ∀ H x H', groupTrace fp ci r key (corrEngineNew rules caps) cs = H ++ x :: H' →
      DecidesOnWindow fp r H x ∧
        (Unrounded fp r (windowOf r x.ts ((H ++ [x]).map GroupStep.input)) →
          DecidesOnWindow (.exact fp.strtod) r H x) := by
  intro H x H' hsplit
  have hdecides := decidesOnWindow_of_holds fp rules caps ci r key hr htype hmerge hsorted hspared
    hholds H x H' hsplit
  exact ⟨hdecides, hdecides.exact⟩

end Run

/-- Two events of user `a` that a peer counted. -/
def peerCount (ts : ℚ) : CorrCall :=
  .contribution ⟨some .count, some (cstr "burst"), [], [some (cstr "a")], ts, none, 0, 2, 0⟩
    fun _ => none

/-- Two events of a peer and one of the user, within the minute. -/
def peerCalls : List CorrCall := [peerCount 0, .event (userEvent 7 50) none]

theorem merged_window_exact_sample :
    (groupTrace .bare 0 tripleRule [cstr "a"] (corrEngineNew [tripleRule] capsZero)
        peerCalls).map GroupStep.decided = [false, true] ∧
      ∀ H x H', groupTrace .bare 0 tripleRule [cstr "a"]
        (corrEngineNew [tripleRule] capsZero) peerCalls = H ++ x :: H' →
          DecidesOnWindow .bare tripleRule H x ∧
            (Unrounded .bare tripleRule (windowOf tripleRule x.ts ((H ++ [x]).map GroupStep.input)) →
              DecidesOnWindow (.exact Doubles.bare.strtod) tripleRule H x) := by
  refine ⟨by decide +kernel, merged_window_exact (by decide)
    (show _ = some CorrType.eventCount from rfl) rfl
    (by norm_num [TimeOrdered, peerCalls, peerCount, userEvent, CorrCall.ts]) (by decide +kernel) ?_⟩
  intro cs₁ c cs₂ hcs _
  rcases cs₁ with _ | ⟨a, _ | ⟨b, cs₁⟩⟩
  · obtain ⟨rfl, -⟩ := List.cons_eq_cons.mp hcs
    exact ⟨by decide +kernel, by show _ ∧ _; decide +kernel⟩
  · obtain ⟨rfl, htail⟩ := List.cons_eq_cons.mp hcs
    obtain ⟨rfl, -⟩ := List.cons_eq_cons.mp htail
    exact ⟨by decide +kernel, by show _ ∧ _; decide +kernel⟩
  · exact absurd (congrArg List.length hcs) (by simp [peerCalls])

/-- Another one of the user: the events of the peer are no longer within the minute. -/
def staleCalls : List CorrCall := peerCalls ++ [.event (userEvent 7 100) none]

/-- **A partial older than the window still counts**: two events in the window are taken for four. -/
theorem stale_partial_counts :
    ¬ ∀ (fp : Doubles) (rules : List CorrRule) (caps : CorrCaps) (ci : ℕ)
      (r : CorrRule) (type : CorrType) (key : List CStr) (cs : List CorrCall),
      (admittedRules rules)[ci]? = some r → r.type = some type → type.mergeable = true →
      TimeOrdered cs → spared fp ci r key (corrEngineNew rules caps) cs = true →
      ∀ H x H', groupTrace fp ci r key (corrEngineNew rules caps) cs = H ++ x :: H' →
        DecidesOnWindow fp r H x := by
  intro hclaim
  have htrace : groupTrace .bare 0 tripleRule [cstr "a"]
      (corrEngineNew [tripleRule] capsZero) staleCalls =
        [⟨.contrib ⟨some .count, some (cstr "burst"), [], [some (cstr "a")], 0, none, 0, 2, 0⟩,
            false, none⟩, ⟨.event [7] none 50, true, some ⟨3, true⟩⟩] ++
          ⟨.event [7] none 100, true, none⟩ :: [] := by
    decide +kernel
  have hfail := hclaim .bare [tripleRule] capsZero 0 tripleRule .eventCount [cstr "a"]
    staleCalls (by decide) rfl rfl
    (by norm_num [TimeOrdered, staleCalls, peerCalls, peerCount, userEvent, CorrCall.ts])
    (by decide +kernel) _ _ _ htrace
  have hreached := (hfail.mp rfl).2
  have hthree : cmpThreshold _ tripleRule.condOp tripleRule.condCount = true := hreached
  exact absurd hthree (by decide +kernel)

end LibSigma
