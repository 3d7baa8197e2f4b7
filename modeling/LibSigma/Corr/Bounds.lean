import LibSigma.Corr.Distinct
import LibSigma.Corr.Seen
import LibSigma.Corr.Values

/-!
# Bounds

Every list a group keeps has a bound that no input can push it over, and so has every map of groups.

## One argument for all the axes

An evaluator touches some of the lists of a group and leaves the others. `Group.KeepsBounds` says
what it may do to each of them: a list stays within its bound if it was, and the set of distinct
values becomes what some observations make of it. So the relation composes, an evaluator that
touches nothing has it by `rfl`, and the bounds of a group follow for every input at once. The same
relation tells `LibSigma.Corr.Linked` which operations the set of values has been through.

## From groups to engines

`states_corrCall` is the induction rule of this part of the development: what a sweep and an input
keep of every correlation, a call keeps. The state of one correlation is bounded if its map is and
each of its groups is.

## The tables

The maps are bounded with their tables: `HashLru.Fits.length_lt` shows that the 32-bit sizes of the
source never wrap while the caps are at most `3 * 2 ^ 28` entries, and up to these caps the maps are
those of the linked tables (`engine_linked`). The default caps are far below.

* `Group.Bounded.groupInput`: **no input breaks the bounds of its group.**
* `states_corrCall`: what a sweep and an input keep of every correlation, a call keeps.
* `memory_bounded`: **every reachable state is bounded and well linked.**
-/

namespace LibSigma

open Library

/-- The bounds of one group. -/
structure Group.Bounded (caps : CorrCaps) (g : Group) : Prop where
  cap_eq : g.evIdx.cap = caps.maxEventsPerGroup
  len_le : g.evIdx.len ≤ caps.maxEventsPerGroup
  distinct : g.distinct.Within fnv1a caps.maxDistinct
  seen_le : g.seen.length ≤ corrMaxSeenRules
  wm_le : g.wm.length ≤ corrWmCap
  buckets_le : ∀ bb, g.bbuckets = some bb → bb.length ≤ corrBeaconMaxBuckets

/-- What an observation makes of a set of values. -/
def ObservesValue (maxDistinct : ℕ) (d d' : HashLru CStr ℚ) : Prop :=
  ∃ val ts ws, d' = (dsetObserve d val ts ws maxDistinct).1

/-- What an evaluation of an event may do to the lists of a group. -/
structure Group.KeepsBounds (caps : CorrCaps) (g g' : Group) : Prop where
  distinct : Relation.ReflTransGen (ObservesValue caps.maxDistinct) g.distinct g'.distinct
  seen : g.seen.length ≤ corrMaxSeenRules → g'.seen.length ≤ corrMaxSeenRules
  wm : g.wm.length ≤ corrWmCap → g'.wm.length ≤ corrWmCap
  buckets : (∀ bb, g.bbuckets = some bb → bb.length ≤ corrBeaconMaxBuckets) →
    ∀ bb, g'.bbuckets = some bb → bb.length ≤ corrBeaconMaxBuckets

theorem Group.KeepsBounds.of_eq {caps : CorrCaps} {g g' : Group} (hdistinct : g'.distinct = g.distinct)
    (hseen : g'.seen = g.seen) (hwm : g'.wm = g.wm) (hbuckets : g'.bbuckets = g.bbuckets) :
    g.KeepsBounds caps g' where
  distinct := by rw [hdistinct]
  seen hle := by rw [hseen]; exact hle
  wm hle := by rw [hwm]; exact hle
  buckets hle := by rw [hbuckets]; exact hle

theorem Group.KeepsBounds.trans {caps : CorrCaps} {g g' g'' : Group} (h : g.KeepsBounds caps g')
    (h' : g'.KeepsBounds caps g'') : g.KeepsBounds caps g'' where
  distinct := h.distinct.trans h'.distinct
  seen hle := h'.seen (h.seen hle)
  wm hle := h'.wm (h.wm hle)
  buckets hle := h'.buckets (h.buckets hle)

/-! ## The evaluators

Each evaluator against one relation between the group before and after (`Group.KeepsBounds`).  It is
reflexive and transitive, so evaluations that are made of parts are treated part by part. -/

section Evaluators

variable {caps : CorrCaps} {r : CorrRule}

/-- An observation keeps the values within their cap. -/
theorem within_dsetObserve {d : HashLru CStr ℚ} {m : ℕ} (h : d.Within fnv1a m) (hm : 0 < m)
    (val : CStr) (ts ws : ℚ) : (dsetObserve d val ts ws m).1.Within fnv1a m := by
  have hlive := h.dropWhere fun t => decide (t < ws)
  unfold dsetObserve
  simp only
  split
  · rename_i t hget
    have hmem := hlive.wf.get_isSome_iff.mp (by rw [hget]; rfl)
    exact (hlive.set val ts).touch hmem
  · rename_i hget
    have hadmit := hlive.admit hm (hlive.wf.get_eq_none_iff.mp hget) ts
    split at hadmit <;> rename_i hfull
    · rw [if_pos hfull]
      exact hadmit
    · rw [if_neg hfull]
      exact hadmit

theorem within_of_observes {m : ℕ} (hm : 0 < m) {d d' : HashLru CStr ℚ}
    (hobs : Relation.ReflTransGen (ObservesValue m) d d') (h : d.Within fnv1a m) :
    d'.Within fnv1a m := by
  induction hobs with
  | refl => exact h
  | tail _ hone ih =>
    obtain ⟨val, ts, ws, rfl⟩ := hone
    exact within_dsetObserve ih hm val ts ws

theorem keepsBounds_evalValueCount (g : Group) (value : Option CStr) (now ws : ℚ) :
    g.KeepsBounds caps (evalValueCount r g value caps.maxDistinct now ws).group := by
  unfold evalValueCount
  cases value with
  | none => exact .of_eq rfl rfl rfl rfl
  | some val =>
    exact ⟨.single ⟨val, now, ws, rfl⟩, id, id, id⟩

/-- The hits of an event keep the table within its bound. -/
theorem length_seenRecords {now : ℚ} {seen : List (UInt32 × ℚ)}
    (hle : seen.length ≤ corrMaxSeenRules) (hits : List UInt32) :
    (seenRecords now seen hits).1.length ≤ corrMaxSeenRules := by
  have hstep : ∀ (acc : List (UInt32 × ℚ) × List CorrCounter) (rid : UInt32),
      acc.1.length ≤ corrMaxSeenRules → (seenRecord now acc rid).1.length ≤ corrMaxSeenRules := by
    intro acc rid hacc
    unfold seenRecord
    split_ifs with hany hroom
    · have hsame := congrArg List.length (map_fst_seenRefresh rid now acc.1)
      rw [List.length_map, List.length_map] at hsame
      exact hsame.trans_le hacc
    · rw [List.length_append, List.length_singleton]
      omega
    · exact hacc
  have hfold : ∀ (hits : List UInt32) (acc : List (UInt32 × ℚ) × List CorrCounter),
      acc.1.length ≤ corrMaxSeenRules →
      (hits.foldl (seenRecord now) acc).1.length ≤ corrMaxSeenRules := by
    intro hits
    induction hits with
    | nil => exact fun acc hacc => hacc
    | cons rid hits ih => exact fun acc hacc => ih _ (hstep acc rid hacc)
  exact hfold hits (seen, []) hle

theorem keepsBounds_temporalRecordSeen (g : Group) (hits : List UInt32) (now ws : ℚ) :
    g.KeepsBounds caps (temporalRecordSeen g hits now ws).1 :=
  ⟨.refl, fun hle => (List.length_filter_le _ _).trans (length_seenRecords hle hits), id, id⟩

/-- A full buffer loses an item. -/
theorem length_wmDropOldest (wm : List (ℚ × UInt32)) : (wmDropOldest wm).length = wm.length - 1 := by
  unfold wmDropOldest
  cases hlast : wm.getLast? with
  | none =>
    rw [List.getLast?_eq_none_iff.mp hlast]
    rfl
  | some last =>
    dsimp only
    rw [List.length_dropLast, List.length_set]

theorem keepsBounds_wmInsert (ts : ℚ) (acc : Group × List CorrCounter) (rid : UInt32) :
    acc.1.KeepsBounds caps (wmInsert ts acc rid).1 := by
  refine ⟨.refl, id, fun hle => ?_, id⟩
  rw [wm_wmInsert, Library.length_insertLast]
  by_cases hfull : corrWmCap ≤ acc.1.wm.length
  · have hpos : 0 < corrWmCap := by decide
    rw [if_pos hfull, length_wmDropOldest]
    omega
  · rw [if_neg hfull]
    omega

theorem keepsBounds_evalTemporalOrdered (g : Group) (hits : List UInt32) (now ws : ℚ)
    (eventTime : Bool) :
    g.KeepsBounds caps (evalTemporalOrdered r g hits now ws eventTime).2 := .of_eq rfl rfl rfl rfl

variable (caps r) in
/-- The items of a flush leave the buffer of the group as it is, and keep at most themselves. -/
theorem keepsBounds_wmFlush (ws cutoff : ℚ) (items : List (ℚ × UInt32))
    (acc : Bool × Group × List (ℚ × UInt32)) :
    acc.2.1.KeepsBounds caps (items.foldl (wmFlush r ws cutoff) acc).2.1 ∧
      (items.foldl (wmFlush r ws cutoff) acc).2.2.length ≤ acc.2.2.length + items.length := by
  induction items generalizing acc with
  | nil => exact ⟨.of_eq rfl rfl rfl rfl, le_rfl⟩
  | cons item items ih =>
    obtain ⟨hkeeps, hlen⟩ := ih (wmFlush r ws cutoff acc item)
    have hone : acc.2.1.KeepsBounds caps (wmFlush r ws cutoff acc item).2.1 ∧
        (wmFlush r ws cutoff acc item).2.2.length ≤ acc.2.2.length + 1 := by
      unfold wmFlush
      split
      · exact ⟨.of_eq rfl rfl rfl rfl, Nat.le_succ _⟩
      · exact ⟨.of_eq rfl rfl rfl rfl, by rw [List.length_append, List.length_singleton]⟩
    refine ⟨hone.1.trans hkeeps, hlen.trans ?_⟩
    have hlen' := hone.2
    rw [List.length_cons]
    omega

theorem keepsBounds_evalTemporalOrderedWm (g : Group) (hits : List UInt32) (now ws w : ℚ) :
    g.KeepsBounds caps (evalTemporalOrderedWm r g hits now ws w).2.1 := by
  unfold evalTemporalOrderedWm
  split
  · exact keepsBounds_evalTemporalOrdered g hits now ws true
  · have hinsert : ∀ (hits : List UInt32) (acc : Group × List CorrCounter),
        acc.1.KeepsBounds caps (hits.foldl (wmInsert now) acc).1 := by
      intro hits
      induction hits with
      | nil => exact fun acc => .of_eq rfl rfl rfl rfl
      | cons rid hits ih => exact fun acc => (keepsBounds_wmInsert now acc rid).trans (ih _)
    have hins := hinsert hits (g, [])
    cases hacc : hits.foldl (wmInsert now) (g, []) with
    | mk g₁ incs =>
      rw [hacc] at hins
      obtain ⟨hflush, hlen⟩ := keepsBounds_wmFlush caps r ws
        ((if g₁.wmMaxTs < now then now else g₁.wmMaxTs) - w) g₁.wm
        (false, { g₁ with wmMaxTs := if g₁.wmMaxTs < now then now else g₁.wmMaxTs }, [])
      have hmax : g₁.KeepsBounds caps
          { g₁ with wmMaxTs := if g₁.wmMaxTs < now then now else g₁.wmMaxTs } :=
        .of_eq rfl rfl rfl rfl
      have hgroup := (hins.trans hmax).trans hflush
      refine ⟨hgroup.distinct, hgroup.seen, fun hle => ?_, hgroup.buckets⟩
      rw [List.length_nil, Nat.zero_add] at hlen
      exact hlen.trans (hins.wm hle)

theorem keepsBounds_evalOrderedCase (g : Group) (hits : List UInt32) (now ws : ℚ) :
    g.KeepsBounds caps (evalOrderedCase caps r g hits now ws).group := by
  have hseen : g.KeepsBounds caps
      (if r.cond.isEmpty then (g, []) else temporalRecordSeen g hits now ws).1 := by
    split
    · exact .of_eq rfl rfl rfl rfl
    · exact keepsBounds_temporalRecordSeen g hits now ws
  unfold evalOrderedCase
  simp only
  split
  · exact hseen.trans (keepsBounds_evalTemporalOrderedWm _ hits now ws _)
  · exact hseen.trans (keepsBounds_evalTemporalOrdered _ hits now ws _)

/-- An admitted rule asks for few buckets. -/
theorem beaconNBuckets_le (hr : ruleValid r = true) (htype : r.type = some .beaconing)
    (hpos : 0 < r.beaconNBuckets) : r.beaconNBuckets.toNat ≤ corrBeaconMaxBuckets := by
  have hok : r.beaconingOk = true := by
    unfold ruleValid at hr
    simp only [htype, Bool.and_eq_true] at hr
    exact hr.2.2
  unfold CorrRule.beaconingOk at hok
  simp only [Bool.and_eq_true, Bool.not_eq_true', Bool.and_eq_false_iff, Bool.or_eq_false_iff,
    decide_eq_false_iff_not, not_lt] at hok
  have hle : r.beaconNBuckets ≤ corrBeaconMaxBuckets := by
    rcases hok.2 with hneg | hbounds
    · exact absurd hpos (not_lt.mpr hneg)
    · exact hbounds.1.2
  omega

theorem length_bucketBump (bb : List BeaconBucket) (nb e : ℕ) :
    (bucketBump bb nb e).length = bb.length := List.length_set

theorem keepsBounds_evalBeaconing (fp : Doubles) (hr : ruleValid r = true)
    (htype : r.type = some .beaconing) (g : Group) (now ws : ℚ) :
    g.KeepsBounds caps (evalBeaconing fp r g now ws).group := by
  unfold evalBeaconing
  split
  · rename_i hpos
    have hmany := beaconNBuckets_le hr htype hpos
    have hstart : (∀ bb, g.bbuckets = some bb → bb.length ≤ corrBeaconMaxBuckets) →
        (g.bbuckets.getD (List.replicate r.beaconNBuckets.toNat ⟨0, 0⟩)).length ≤
          corrBeaconMaxBuckets := by
      intro hle
      cases hbb : g.bbuckets with
      | none =>
        rw [Option.getD_none, List.length_replicate]
        exact hmany
      | some bb => exact hle bb hbb
    unfold evalBeaconingBucketed
    simp only
    split
    · refine ⟨.refl, id, id, fun hle bb hbb => ?_⟩
      cases hbb
      exact hstart hle
    · refine ⟨.refl, id, id, fun hle bb hbb => ?_⟩
      cases hbb
      rw [length_bucketBump]
      exact hstart hle
  · exact .of_eq rfl rfl rfl rfl

variable (fp : Doubles)

theorem keepsBounds_evObserve (g : Group) (value : Option CStr) (now ws : ℚ) :
    g.KeepsBounds caps (evObserve fp g value now ws).1 := by
  unfold evObserve
  split <;> exact .of_eq rfl rfl rfl rfl

/-- **An event keeps the bounds of its group.** -/
theorem keepsBounds_evaluate (hr : ruleValid r = true) (g : Group) (hits : List UInt32)
    (value : Option CStr) (now ws : ℚ) :
    g.KeepsBounds caps (evaluate fp caps r g hits value now ws).group := by
  unfold evaluate
  split
  · exact .of_eq rfl rfl rfl rfl
  · exact keepsBounds_evalValueCount g value now ws
  · rw [group_evalValueSumAvg]
    exact keepsBounds_evObserve fp g value now ws
  · rw [group_evalValueSumAvg]
    exact keepsBounds_evObserve fp g value now ws
  · unfold evalValuePercentile
    simp only
    split <;> exact keepsBounds_evObserve fp g value now ws
  · unfold evalValuePercentile
    simp only
    split <;> exact keepsBounds_evObserve fp g value now ws
  · exact keepsBounds_temporalRecordSeen g hits now ws
  · exact keepsBounds_evalOrderedCase g hits now ws
  · rename_i htype
    exact keepsBounds_evalBeaconing fp hr htype g now ws
  · exact .of_eq rfl rfl rfl rfl

/-- **A partial keeps the bounds of its group.** -/
theorem keepsBounds_evalContrib (g : Group) (c : CorrContrib) (ws : ℚ) :
    g.KeepsBounds caps (evalContrib fp caps r g c ws).group := by
  unfold evalContrib
  split
  · exact .of_eq rfl rfl rfl rfl
  · simp only
    split <;> exact .of_eq rfl rfl rfl rfl
  · split
    · exact keepsBounds_evalValueCount g c.value c.ts ws
    · exact .of_eq rfl rfl rfl rfl
  · simp only
    split
    · have hbits : g.KeepsBounds caps { g with mergeSeen := g.mergeSeen ||| c.seenMask } :=
        .of_eq rfl rfl rfl rfl
      exact hbits.trans (keepsBounds_temporalRecordSeen _ [] c.ts ws)
    · exact .of_eq rfl rfl rfl rfl
  · exact .of_eq rfl rfl rfl rfl
  · exact .of_eq rfl rfl rfl rfl

/-- **An input keeps the bounds of its group.** -/
theorem keepsBounds_groupInput (hr : ruleValid r = true) (g : Group) (i : GroupInput) :
    g.KeepsBounds caps (groupInput fp caps r g i).group := by
  cases i with
  | event hits value ts =>
    have hstart : g.KeepsBounds caps { g with lastUpdate := ts } := .of_eq rfl rfl rfl rfl
    by_cases hnil : hits = []
    · rw [groupInput, if_pos hnil]
      exact hstart
    · rw [groupInput_event fp caps r g hnil, settle_group]
      have heval := hstart.trans (keepsBounds_evaluate fp hr _ hits value ts (ts - r.timespanS))
      exact ⟨heval.distinct, heval.seen, heval.wm, heval.buckets⟩
  | contrib c =>
    have hstart : g.KeepsBounds caps { g with lastUpdate := c.ts, mergeRemote := true } :=
      .of_eq rfl rfl rfl rfl
    have heval := hstart.trans (@keepsBounds_evalContrib caps r fp
      { g with lastUpdate := c.ts, mergeRemote := true } c (c.ts - r.timespanS))
    rw [groupInput, settle_group]
    exact ⟨heval.distinct, heval.seen, heval.wm, heval.buckets⟩

/-- **No input breaks the bounds of its group.** -/
theorem Group.Bounded.groupInput (hr : ruleValid r = true) (hmax : 0 < caps.maxDistinct) {g : Group}
    (h : g.Bounded caps) (i : GroupInput) : (groupInput fp caps r g i).group.Bounded caps := by
  have hkeeps : g.KeepsBounds caps (LibSigma.groupInput fp caps r g i).group :=
    keepsBounds_groupInput fp hr g i
  have hcap := cap_groupInput fp caps r g i
  have hlen := (LibSigma.groupInput fp caps r g i).group.evIdx.len_le
  rw [h.cap_eq] at hcap
  exact ⟨hcap, hcap ▸ hlen, within_of_observes hmax hkeeps.distinct h.distinct,
    hkeeps.seen h.seen_le, hkeeps.wm h.wm_le, hkeeps.buckets h.buckets_le⟩

theorem Group.bounded_new (hcap : 0 < caps.maxEventsPerGroup) :
    (groupNew caps.maxEventsPerGroup).Bounded caps where
  cap_eq := if_neg hcap.ne'
  len_le := Nat.zero_le _
  distinct := HashLru.within_empty _
  seen_le := Nat.zero_le _
  wm_le := Nat.zero_le _
  buckets_le bb hbb := by cases hbb

end Evaluators

/-! ## One correlation -/

/-- The bounds of a correlation and of each of its groups. -/
structure CorrState.Bounded (caps : CorrCaps) (st : CorrState) : Prop where
  valid : ruleValid st.rule = true
  groups : st.groups.Within hashGroupKey caps.maxGroups
  group : ∀ key g, st.groups.get hashGroupKey key = some g → g.Bounded caps

variable {caps : CorrCaps} (fp : Doubles)

/-- The admission of a group stays within the cap. -/
theorem within_cstateGetOrCreate {groups : HashLru (List CStr) Group}
    (h : groups.Within hashGroupKey caps.maxGroups) (hmax : 0 < caps.maxGroups)
    (key : List CStr) :
    (cstateGetOrCreate caps groups key).1.Within hashGroupKey caps.maxGroups := by
  unfold cstateGetOrCreate
  cases hget : groups.get hashGroupKey key with
  | some g => exact h.touch (h.wf.get_isSome_iff.mp (by rw [hget]; rfl))
  | none =>
    have hadmit := h.admit hmax (h.wf.get_eq_none_iff.mp hget) (groupNew caps.maxEventsPerGroup)
    -- a full map is not empty
    have hfull : (decide (caps.maxGroups ≤ groups.count) && !groups.lru.isEmpty) =
        decide (caps.maxGroups ≤ groups.count) := by
      rw [Bool.and_eq_left_iff_imp]
      intro hle
      have hcount := h.wf.count_eq
      rw [Bool.not_eq_true', List.isEmpty_eq_false_iff, ← List.length_pos_iff]
      have hle' := of_decide_eq_true hle
      omega
    simp only [hfull, decide_eq_true_eq]
    exact hadmit

theorem CorrState.Bounded.input {st : CorrState} (h : st.Bounded caps) (hgroups : 0 < caps.maxGroups)
    (hevents : 0 < caps.maxEventsPerGroup) (hdistinct : 0 < caps.maxDistinct) (key : List CStr)
    (i : GroupInput) : (cstateInput fp caps st key i).1.Bounded caps := by
  obtain ⟨hrule, -, -, -, hget⟩ := cstateInput_spec fp caps h.groups.wf key i
  refine ⟨hrule ▸ h.valid, (within_cstateGetOrCreate h.groups hgroups key).set _ _,
    fun k g hk => ?_⟩
  rw [hget] at hk
  split_ifs at hk with hkey
  · cases hk
    have hfound : ((st.groups.get hashGroupKey key).getD (groupNew caps.maxEventsPerGroup)).Bounded
        caps := by
      cases hg : st.groups.get hashGroupKey key with
      | none => exact Group.bounded_new hevents
      | some g => exact h.group key g hg
    exact hfound.groupInput fp h.valid hdistinct i
  · exact h.group k g hk

theorem CorrState.Bounded.drop {st : CorrState} (h : st.Bounded caps) (horizon : ℚ) :
    (cstateDropExpired st horizon).Bounded caps := by
  refine ⟨h.valid, h.groups.dropWhere _, fun k g hk => ?_⟩
  have hk' : (st.groups.dropWhere hashGroupKey fun g => decide (g.lastUpdate < horizon)).get
      hashGroupKey k = some g := hk
  rw [(h.groups.wf.dropWhere _).2.2 k] at hk'
  exact h.group k g (Option.filter_eq_some_iff.mp hk').1

/-! ## Runs

What holds of every correlation, and is kept by a sweep and by an input, holds after any calls.  The
bounds are one such property; the linked tables of `LibSigma.Corr.Linked` are another. -/

section Kept

variable {P : CorrState → Prop}

/-- What a sweep keeps of a correlation, it keeps of all. -/
theorem states_sweepIfDue (hdrop : ∀ st horizon, P st → P (cstateDropExpired st horizon))
    {e : CorrEngine} (h : ∀ st ∈ e.states, P st) (now : ℚ) :
    ∀ st ∈ (e.sweepIfDue now).states, P st := by
  intro st hst
  rcases sweepIfDue_states e now with heq | heq
  · exact h st (heq ▸ hst)
  · rw [heq] at hst
    obtain ⟨st₀, hst₀, rfl⟩ := List.mem_map.mp hst
    split
    · exact hdrop _ _ (h st₀ hst₀)
    · exact h st₀ hst₀

/-- What an input keeps of its correlation, it keeps of all. -/
theorem states_set (hinput : ∀ st key i, P st → P (cstateInput fp caps st key i).1)
    {sts : List CorrState} {st : CorrState} {ci : ℕ} (h : ∀ st ∈ sts, P st)
    (hst : sts[ci]? = some st) (key : List CStr) (i : GroupInput) :
    ∀ st' ∈ sts.set ci (cstateInput fp caps st key i).1, P st' := by
  intro st' hst'
  rcases List.mem_or_eq_of_mem_set hst' with hmem | rfl
  · exact h st' hmem
  · exact hinput st key i (h st (List.mem_of_getElem? hst))

/-- The correlations that an event visits are given an input or left alone. -/
theorem states_visitFold (hinput : ∀ st key i, P st → P (cstateInput fp caps st key i).1)
    (ev : CorrEvent) (apply : Option (CorrRule → List CStr → Bool)) (ps : List (UInt32 × ℕ))
    {acc : VisitState} (h : ∀ st ∈ acc.states, P st) :
    ∀ st ∈ (ps.foldl (visitStep fp caps ev apply) acc).states, P st := by
  induction ps generalizing acc with
  | nil => exact h
  | cons p ps ih =>
    refine ih ?_
    unfold visitStep
    split
    · exact h
    · simp only
      split
      · exact h
      · rename_i st hst
        split
        · exact h
        · split
          · exact states_set fp hinput h hst _ _
          · exact h

variable (hdrop : ∀ st horizon, P st → P (cstateDropExpired st horizon))
  (hinput : ∀ st key i, P st → P (cstateInput fp caps st key i).1)

include hdrop hinput

theorem states_corrOnEventApply {e : CorrEngine} (hcaps : e.caps = caps)
    (h : ∀ st ∈ e.states, P st) (ev : CorrEvent)
    (apply : Option (CorrRule → List CStr → Bool)) :
    (corrOnEventApply fp e ev apply).1.caps = caps ∧
      ∀ st ∈ (corrOnEventApply fp e ev apply).1.states, P st := by
  unfold corrOnEventApply
  split
  · exact ⟨hcaps, h⟩
  · refine ⟨(sweepIfDue_caps e ev.ts).trans hcaps, ?_⟩
    dsimp only
    rw [sweepIfDue_caps, hcaps]
    exact states_visitFold fp hinput ev apply _ (states_sweepIfDue hdrop h ev.ts)

theorem states_corrOnContribution {e : CorrEngine} (hcaps : e.caps = caps)
    (h : ∀ st ∈ e.states, P st) (c : CorrContrib) (field : CStr → Option CStr) :
    (corrCall fp e (.contribution c field)).1.caps = caps ∧
      ∀ st ∈ (corrCall fp e (.contribution c field)).1.states, P st := by
  have hswept : (e.sweepIfDue c.ts).caps = caps ∧ ∀ st ∈ (e.sweepIfDue c.ts).states, P st :=
    ⟨(sweepIfDue_caps e c.ts).trans hcaps, states_sweepIfDue hdrop h c.ts⟩
  unfold corrCall corrOnContribution
  simp only
  split
  · exact states_corrOnEventApply fp hdrop hinput hcaps h _ _
  · split
    · exact ⟨hcaps, h⟩
    · exact ⟨hcaps, h⟩
    · -- of the calls that sweep, only the last merges its partial
      split
      · exact hswept
      · split
        · exact hswept
        · rename_i st hst
          split
          · exact hswept
          · split
            · exact hswept
            · refine ⟨hswept.1, ?_⟩
              dsimp only
              rw [hswept.1]
              exact states_set fp hinput hswept.2 hst _ _

/-- **What a sweep and an input keep of every correlation, a call keeps.** -/
theorem states_corrCall {e : CorrEngine} (hcaps : e.caps = caps) (h : ∀ st ∈ e.states, P st)
    (c : CorrCall) :
    (corrCall fp e c).1.caps = caps ∧ ∀ st ∈ (corrCall fp e c).1.states, P st := by
  cases c with
  | event ev apply => exact states_corrOnEventApply fp hdrop hinput hcaps h ev apply
  | contribution c field => exact states_corrOnContribution fp hdrop hinput hcaps h c field

/-- And so does a run. -/
theorem states_corrRun {e : CorrEngine} (hcaps : e.caps = caps) (h : ∀ st ∈ e.states, P st)
    (cs : List CorrCall) : ∀ st ∈ (corrRun fp e cs).states, P st := by
  induction cs generalizing e with
  | nil => exact h
  | cons c cs ih =>
    obtain ⟨hcaps', h'⟩ := states_corrCall fp hdrop hinput hcaps h c
    exact ih hcaps' h'

end Kept

theorem withDefaults_maxGroups_pos (caps : CorrCaps) : 0 < caps.withDefaults.maxGroups := by
  unfold CorrCaps.withDefaults
  dsimp only
  split <;> omega

theorem bounded_corrRun (rules : List CorrRule) (caps : CorrCaps) (cs : List CorrCall) :
    ∀ st ∈ (corrRun fp (corrEngineNew rules caps) cs).states, st.Bounded caps.withDefaults := by
  have hgroups := withDefaults_maxGroups_pos caps
  have hdistinct := withDefaults_maxDistinct_pos caps
  have hevents := withDefaults_maxEvents_pos caps
  have hcaps : (corrEngineNew rules caps).caps = caps.withDefaults := rfl
  refine states_corrRun fp (P := CorrState.Bounded caps.withDefaults)
    (fun st horizon hst => hst.drop horizon)
    (fun st key i hst => hst.input fp hgroups hevents hdistinct key i) hcaps (fun st hst => ?_) cs
  obtain ⟨r, hr, rfl⟩ := List.mem_map.mp hst
  have hadmitted := (List.mem_filter.mp hr).2
  rw [CorrRule.admitted, Bool.and_eq_true] at hadmitted
  refine ⟨hadmitted.2, HashLru.within_empty _, fun key g hg => ?_⟩
  rw [HashLru.get_empty] at hg
  cases hg

/-- **Memory is bounded on every axis.**  In every reachable state each correlation has at most
`max_groups` groups, its chains and its recency list hold the same ones, once each and as many as
the count, and every group is within its own bounds.  Up to a cap of `3 * 2 ^ 28` these maps are the
linked tables of the program (`LibSigma.Corr.Linked`). -/
theorem memory_bounded (rules : List CorrRule) (caps : CorrCaps) (cs : List CorrCall) :
    ∀ st ∈ (corrRun fp (corrEngineNew rules caps) cs).states,
      st.groups.Within hashGroupKey caps.withDefaults.maxGroups ∧
        ∀ nd ∈ st.groups.nodes, nd.val.Bounded caps.withDefaults := by
  intro st hst
  have h := bounded_corrRun fp rules caps cs st hst
  refine ⟨h.groups, fun nd hnd => h.group nd.key nd.val ?_⟩
  exact h.groups.wf.get_eq_some_iff.mpr ⟨nd, hnd, rfl, rfl⟩

/-- After one event the one correlation holds one bounded group. -/
theorem memory_bounded_sample :
    ∃ st ∈ (corrRun .bare (corrEngineNew [burstRule] capsZero)
        [.event (userEvent 1 0) none]).states,
      st.groups.Within hashGroupKey capsZero.withDefaults.maxGroups ∧
        ∀ nd ∈ st.groups.nodes, nd.val.Bounded capsZero.withDefaults := by
  obtain ⟨st, hst⟩ : ∃ st, st ∈ (corrRun .bare (corrEngineNew [burstRule] capsZero)
      [.event (userEvent 1 0) none]).states :=
    List.exists_mem_of_ne_nil _ (List.ne_nil_of_length_pos (by decide +kernel))
  exact ⟨st, hst, memory_bounded _ _ _ _ st hst⟩

end LibSigma
