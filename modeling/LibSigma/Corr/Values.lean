import LibSigma.Corr.EventCount

/-!
# The values of a group

The rings of times and of values share their indices, so that a group holds a list of entries, each
with its time and its value.

`ev_val` is allocated when the first number comes, while `ev_ts` is there from the beginning.
Before, the values are read as zeros, and `ValsOk` says that there are no entries then to which this
would matter: a rule over numeric values appends a time only together with a value.  So the two
rings stay in lockstep in every life, and what is pushed and pruned is a list of pairs.

* `entries_evPushVal`: **one value more, and the expired entries less.**
* `queued_entries`: the entries of a group are a queue of the numbers of the events, so that
  `CoversOn` applies to them.
-/

namespace LibSigma

open Library

/-- The values of a group; all zero before the first one. -/
def Group.vals (g : Group) : ℕ → ℚ := g.evVal.getD fun _ => 0

/-- The live entries, oldest first. -/
def Group.entries (g : Group) : List (ℚ × ℚ) := g.evIdx.read fun i => (g.evTs i, g.vals i)

@[simp] theorem length_entries (g : Group) : g.entries.length = g.evIdx.len := RingIdx.length_read _ _

/-- The live values are those of the entries, once there are values at all. -/
theorem evVals_eq {g : Group} (h : g.evVal.isSome = true) : evVals g = g.entries.map Prod.snd := by
  obtain ⟨vals, hvals⟩ := Option.isSome_iff_exists.mp h
  have hread : evVals g = g.evIdx.read vals := by
    rw [evVals, hvals]
  have hget : g.vals = vals := by
    rw [Group.vals, hvals]
    rfl
  rw [hread, Group.entries, hget, RingIdx.read, RingIdx.read, List.map_map]
  rfl

@[simp] theorem entries_evPrune (g : Group) (ws : ℚ) :
    (evPrune g ws).entries = g.entries.dropWhile fun e => before ws e.1 :=
  RingIdx.read_popWhile_pair _ _ _ _

/-- **One value more, and the expired entries less.** -/
@[simp] theorem entries_evPushVal (g : Group) (now val ws : ℚ) :
    (evPushVal g now val ws).entries =
      (pushCap g.evIdx.cap g.entries (now, val)).dropWhile fun e => before ws e.1 := by
  have hpush : (evAppend { g with evVal := some (Function.update g.vals g.evIdx.pushSlot val) }
      now).entries = pushCap g.evIdx.cap g.entries (now, val) := by
    have hpair : (fun i => (Function.update g.evTs g.evIdx.pushSlot now i,
        Function.update g.vals g.evIdx.pushSlot val i)) =
          Function.update (fun i => (g.evTs i, g.vals i)) g.evIdx.pushSlot (now, val) := by
      funext i
      by_cases hi : i = g.evIdx.pushSlot
      · rw [hi, Function.update_self, Function.update_self, Function.update_self]
      · rw [Function.update_of_ne hi, Function.update_of_ne hi, Function.update_of_ne hi]
    rw [Group.entries, Group.entries, ← RingIdx.read_push_eq_pushCap, ← hpair]
    rfl
  rw [← hpush]
  exact entries_evPrune _ ws

@[simp] theorem evVal_evPushVal (g : Group) (now val ws : ℚ) :
    (evPushVal g now val ws).evVal.isSome = true := rfl

/-- Once there are values, or no entries. -/
def Group.ValsOk (g : Group) : Prop := g.evVal.isSome = true ∨ g.entries = []

/-- The live values are those of the entries. -/
theorem Group.ValsOk.evVals {g : Group} (h : g.ValsOk) : evVals g = g.entries.map Prod.snd := by
  rcases h with h | h
  · exact evVals_eq h
  · have hlen : g.evIdx.len = 0 := by rw [← length_entries, h]; rfl
    have hnil : (LibSigma.evVals g).length = 0 := by
      unfold LibSigma.evVals
      split
      · rfl
      · rw [RingIdx.length_read, hlen]
    rw [h, List.length_eq_zero_iff.mp hnil]
    rfl

/-! ## One input -/

/-- The rules over numeric values: sums and averages, percentiles and medians. -/
def CorrRule.Aggregates (r : CorrRule) : Prop :=
  (r.type = some .valueSum ∨ r.type = some .valueAvg) ∨
    r.type = some .valuePercentile ∨ r.type = some .valueMedian

/-- The number an event carries. -/
def GroupInput.number (fp : Doubles) : GroupInput → Option ℚ
  | .event hits value _ => if hits.isEmpty then none else value.bind (sgToF64 fp)
  | .contrib _ => none

/-- The entry an event appends. -/
def GroupInput.newEntry (fp : Doubles) (i : GroupInput) : Option (ℚ × ℚ) :=
  (i.number fp).map (i.ts, ·)

section Input

variable (fp : Doubles) (caps : CorrCaps) (r : CorrRule)

/-- The ring after a partial. -/
theorem entries_groupInput_contrib (g : Group) (c : CorrContrib) :
    (groupInput fp caps r g (.contrib c)).group.evVal = g.evVal ∧
      (groupInput fp caps r g (.contrib c)).group.entries =
        if (GroupInput.contrib c).prunes then
          g.entries.dropWhile fun e => before (c.ts - r.timespanS) e.1
        else g.entries := by
  obtain ⟨hts, hval, hidx⟩ := evalContrib_ring fp caps r
    { g with lastUpdate := c.ts, mergeRemote := true } c (c.ts - r.timespanS)
  rw [groupInput, settle_group]
  refine ⟨hval, ?_⟩
  rw [Group.entries, Group.vals, hts, hval, hidx]
  by_cases hkind : c.kind = some .count ∨ c.kind = some .sum
  · rw [if_pos hkind, if_pos ((prunes_contrib c).mpr hkind)]
    exact RingIdx.read_popWhile_pair _ _ _ _
  · rw [if_neg hkind, if_neg (mt (prunes_contrib c).mp hkind)]
    rfl

variable {r}

/-- The group an event of a rule over values leaves. -/
@[simp] theorem group_evalValueSumAvg (r : CorrRule) (g : Group) (value : Option CStr) (isAvg : Bool)
    (now ws : ℚ) :
    (evalValueSumAvg fp r g value isAvg now ws).group =
      (evObserve fp g value now ws).1 := by
  unfold evalValueSumAvg
  dsimp only
  split <;> rfl

@[simp] theorem group_evalValuePercentile (r : CorrRule) (g : Group) (value : Option CStr) (cap : ℕ)
    (now ws : ℚ) :
    (evalValuePercentile fp r g value cap now ws).group =
      (evObserve fp g value now ws).1 := by
  unfold evalValuePercentile
  dsimp only
  split <;> rfl

/-- An event of a rule over values enters the window of its group. -/
theorem group_evaluate_aggregates (hagg : r.Aggregates) (g : Group) (hits : List UInt32)
    (value : Option CStr) (now ws : ℚ) :
    (evaluate fp caps r g hits value now ws).group = (evObserve fp g value now ws).1 := by
  rcases hagg with (htype | htype) | htype | htype <;> rw [evaluate, htype]
  · exact group_evalValueSumAvg fp r g value false now ws
  · exact group_evalValueSumAvg fp r g value true now ws
  · exact group_evalValuePercentile fp r g value caps.maxEventsPerGroup now ws
  · exact group_evalValuePercentile fp r g value caps.maxEventsPerGroup now ws

/-- The window after an event: the number it carries goes in, and the expired ones go out. -/
theorem entries_evObserve {g : Group} (hok : g.ValsOk) (value : Option CStr) (now ws : ℚ) :
    (evObserve fp g value now ws).1.ValsOk ∧
      (evObserve fp g value now ws).1.entries =
        (((value.bind (sgToF64 fp)).map (now, ·)).elim g.entries
          (pushCap g.evIdx.cap g.entries)).dropWhile fun e => before ws e.1 := by
  unfold evObserve
  cases value.bind (sgToF64 fp) with
  | none =>
    refine ⟨hok.imp_right fun hnil => ?_, entries_evPrune g ws⟩
    rw [entries_evPrune, hnil]
    rfl
  | some v => exact ⟨Or.inl (evVal_evPushVal g now v ws), entries_evPushVal g now v ws⟩

/-- An input of a rule over values. -/
theorem entries_groupInput (hagg : r.Aggregates) {g : Group} (hok : g.ValsOk) (i : GroupInput) :
    (groupInput fp caps r g i).group.ValsOk ∧
      (groupInput fp caps r g i).group.entries =
        if i.prunes then
          ((i.newEntry fp).elim g.entries (pushCap g.evIdx.cap g.entries)).dropWhile
            fun e => before (i.ts - r.timespanS) e.1
        else g.entries := by
  cases i with
  | event hits value ts =>
    by_cases hnil : hits = []
    · rw [groupInput, if_pos hnil, hnil]
      exact ⟨hok, rfl⟩
    · have hempty : hits.isEmpty = false := by simpa using hnil
      have hentry : (GroupInput.event hits value ts).newEntry fp =
          (value.bind (sgToF64 fp)).map (ts, ·) := by
        rw [GroupInput.newEntry, GroupInput.number, hempty]
        rfl
      have hgroup : (evaluate fp caps r { g with lastUpdate := ts } hits value ts
          (ts - r.timespanS)).group =
            (evObserve fp { g with lastUpdate := ts } value ts (ts - r.timespanS)).1 :=
        group_evaluate_aggregates fp caps hagg _ hits value ts _
      rw [groupInput_event fp caps r g hnil, settle_group, hgroup,
        if_pos (prunes_event hnil value ts), hentry]
      exact entries_evObserve fp (g := { g with lastUpdate := ts }) hok value ts _
  | contrib c =>
    obtain ⟨hval, hentries⟩ := entries_groupInput_contrib fp caps r g c
    refine ⟨?_, hentries⟩
    rw [Group.ValsOk, hval, hentries]
    refine hok.imp_right fun hnil => ?_
    rw [hnil]
    split <;> rfl

variable {fp caps} in
theorem queued_entries (hagg : r.Aggregates) :
    Queued fp caps r Group.ValsOk Group.entries Prod.fst (GroupInput.newEntry fp) where
  length_le g := (length_entries g).trans_le g.evIdx.len_le
  new_ok := Or.inr rfl
  new := rfl
  step_ok _ i hok := (entries_groupInput fp caps hagg hok i).1
  step _ i hok := (entries_groupInput fp caps hagg hok i).2
  app_prunes i hi := by
    rw [GroupInput.prunes, Bool.or_eq_false_iff] at hi
    cases i with
    | event hits value ts =>
      have hnil : hits = [] := by simpa [GroupInput.isEvent] using hi.1
      rw [GroupInput.newEntry, GroupInput.number, hnil]
      rfl
    | contrib c => rfl

end Input

end LibSigma
