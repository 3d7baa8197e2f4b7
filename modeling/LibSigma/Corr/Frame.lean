import LibSigma.Corr.Engine

/-!
# What the evaluators leave alone

A group has two kinds of fields.  The ring, the values, the seen table, the buckets and the progress
of a sequence belong to the evaluators, each type of rule having its own.  The rest is bookkeeping
that the engine does for every type: the last update, by which the sweep goes, the re-fire deadline,
the partials that were merged and the size of the ring.

The evaluation of an event does not touch the bookkeeping.  This is true of each evaluator for a
different reason and is proved for each of them, most of the time by `rfl`; after that it is one
lemma (`sameFrame_evaluate`), and no later proof opens an evaluator to find that a deadline is still
the same.

The last section says what the decision of `settle` adds to it: the deadline moves exactly when
something fires.
-/

namespace LibSigma

open Library

/-- Two groups with the same bookkeeping. -/
structure SameFrame (g g' : Group) : Prop where
  lastUpdate : g'.lastUpdate = g.lastUpdate
  firedUntil : g'.firedUntil = g.firedUntil
  mergeSum : g'.mergeSum = g.mergeSum
  mergeN : g'.mergeN = g.mergeN
  mergeSeen : g'.mergeSeen = g.mergeSeen
  mergeRemote : g'.mergeRemote = g.mergeRemote
  cap : g'.evIdx.cap = g.evIdx.cap

theorem SameFrame.refl (g : Group) : SameFrame g g := ⟨rfl, rfl, rfl, rfl, rfl, rfl, rfl⟩

theorem SameFrame.trans {g g' g'' : Group} (h : SameFrame g g') (h' : SameFrame g' g'') :
    SameFrame g g'' :=
  ⟨h'.lastUpdate.trans h.lastUpdate, h'.firedUntil.trans h.firedUntil,
    h'.mergeSum.trans h.mergeSum, h'.mergeN.trans h.mergeN, h'.mergeSeen.trans h.mergeSeen,
    h'.mergeRemote.trans h.mergeRemote, h'.cap.trans h.cap⟩

/-! ## The evaluators -/

theorem sameFrame_evPrune (g : Group) (ws : ℚ) : SameFrame g (evPrune g ws) :=
  ⟨rfl, rfl, rfl, rfl, rfl, rfl, RingIdx.cap_popWhile _ _ _⟩

theorem sameFrame_evAppend (g : Group) (now : ℚ) : SameFrame g (evAppend g now) :=
  ⟨rfl, rfl, rfl, rfl, rfl, rfl, RingIdx.cap_push _⟩

theorem sameFrame_evPushVal (g : Group) (now val ws : ℚ) :
    SameFrame g (evPushVal g now val ws) := by
  have happend := sameFrame_evAppend
    { g with evVal := some (Function.update (g.evVal.getD fun _ => 0) g.evIdx.pushSlot val) } now
  have hself : SameFrame g
      { g with evVal := some (Function.update (g.evVal.getD fun _ => 0) g.evIdx.pushSlot val) } :=
    ⟨rfl, rfl, rfl, rfl, rfl, rfl, rfl⟩
  exact (hself.trans happend).trans (sameFrame_evPrune _ ws)

theorem sameFrame_evObserve (fp : Doubles) (g : Group) (value : Option CStr)
    (now ws : ℚ) : SameFrame g (evObserve fp g value now ws).1 := by
  unfold evObserve
  split
  · exact sameFrame_evPushVal g now _ ws
  · exact sameFrame_evPrune g ws

theorem sameFrame_evalEventCount (r : CorrRule) (g : Group) (now ws : ℚ) :
    SameFrame g (evalEventCount r g now ws).group :=
  (sameFrame_evAppend g now).trans (sameFrame_evPrune _ ws)

theorem sameFrame_evalValueCount (r : CorrRule) (g : Group) (value : Option CStr) (m : ℕ)
    (now ws : ℚ) : SameFrame g (evalValueCount r g value m now ws).group := by
  unfold evalValueCount
  split <;> exact ⟨rfl, rfl, rfl, rfl, rfl, rfl, rfl⟩

theorem sameFrame_evalValueSumAvg (fp : Doubles) (r : CorrRule) (g : Group)
    (value : Option CStr) (isAvg : Bool) (now ws : ℚ) :
    SameFrame g (evalValueSumAvg fp r g value isAvg now ws).group := by
  unfold evalValueSumAvg
  simp only
  split <;> exact sameFrame_evObserve fp g value now ws

theorem sameFrame_evalValuePercentile (fp : Doubles) (r : CorrRule) (g : Group)
    (value : Option CStr) (n : ℕ) (now ws : ℚ) :
    SameFrame g (evalValuePercentile fp r g value n now ws).group := by
  unfold evalValuePercentile
  simp only
  split <;> exact sameFrame_evObserve fp g value now ws

theorem sameFrame_evalBeaconing (fp : Doubles) (r : CorrRule) (g : Group) (now ws : ℚ) :
    SameFrame g (evalBeaconing fp r g now ws).group := by
  unfold evalBeaconing
  split
  · unfold evalBeaconingBucketed
    simp only
    split <;> exact ⟨rfl, rfl, rfl, rfl, rfl, rfl, rfl⟩
  · exact (sameFrame_evAppend g now).trans (sameFrame_evPrune _ ws)

theorem sameFrame_temporalRecordSeen (g : Group) (hits : List UInt32) (now ws : ℚ) :
    SameFrame g (temporalRecordSeen g hits now ws).1 := ⟨rfl, rfl, rfl, rfl, rfl, rfl, rfl⟩

theorem sameFrame_evalTemporal (r : CorrRule) (g : Group) (hits : List UInt32) (now ws : ℚ) :
    SameFrame g (evalTemporal r g hits now ws).group := sameFrame_temporalRecordSeen g hits now ws

theorem sameFrame_evalTemporalOrdered (r : CorrRule) (g : Group) (hits : List UInt32)
    (now ws : ℚ) (eventTime : Bool) :
    SameFrame g (evalTemporalOrdered r g hits now ws eventTime).2 := ⟨rfl, rfl, rfl, rfl, rfl, rfl, rfl⟩

theorem sameFrame_wmInsert (ts : ℚ) (acc : Group × List CorrCounter) (rid : UInt32) :
    SameFrame acc.1 (wmInsert ts acc rid).1 := ⟨rfl, rfl, rfl, rfl, rfl, rfl, rfl⟩

theorem sameFrame_wmFlush (r : CorrRule) (ws cutoff : ℚ)
    (acc : Bool × Group × List (ℚ × UInt32)) (item : ℚ × UInt32) :
    SameFrame acc.2.1 (wmFlush r ws cutoff acc item).2.1 := by
  unfold wmFlush
  split
  · exact sameFrame_evalTemporalOrdered r acc.2.1 [item.2] item.1 ws true
  · exact .refl _

/-- A loop whose steps keep the bookkeeping keeps it. -/
theorem SameFrame.foldl {α β : Type} {s : β → α → β} {f : β → Group}
    (h : ∀ b a, SameFrame (f b) (f (s b a))) (as : List α) (b : β) :
    SameFrame (f b) (f (as.foldl s b)) := by
  induction as generalizing b with
  | nil => exact .refl _
  | cons a as ih => exact (h b a).trans (ih _)

theorem sameFrame_evalTemporalOrderedWm (r : CorrRule) (g : Group) (hits : List UInt32)
    (now ws w : ℚ) : SameFrame g (evalTemporalOrderedWm r g hits now ws w).2.1 := by
  unfold evalTemporalOrderedWm
  split
  · exact sameFrame_evalTemporalOrdered r g hits now ws true
  · have hinsert := SameFrame.foldl (f := Prod.fst) (sameFrame_wmInsert now) hits (g, [])
    cases hins : hits.foldl (wmInsert now) (g, []) with
    | mk g₁ incs =>
      rw [hins] at hinsert
      have hflush := SameFrame.foldl (f := fun acc => acc.2.1)
        (sameFrame_wmFlush r ws
          ({ g₁ with wmMaxTs := if g₁.wmMaxTs < now then now else g₁.wmMaxTs }.wmMaxTs - w))
        g₁.wm (false, { g₁ with wmMaxTs := if g₁.wmMaxTs < now then now else g₁.wmMaxTs }, [])
      have hmax : SameFrame g
          { g₁ with wmMaxTs := if g₁.wmMaxTs < now then now else g₁.wmMaxTs } :=
        hinsert.trans ⟨rfl, rfl, rfl, rfl, rfl, rfl, rfl⟩
      exact (hmax.trans hflush).trans ⟨rfl, rfl, rfl, rfl, rfl, rfl, rfl⟩

theorem sameFrame_evalOrderedCase (caps : CorrCaps) (r : CorrRule) (g : Group)
    (hits : List UInt32) (now ws : ℚ) : SameFrame g (evalOrderedCase caps r g hits now ws).group := by
  have hseen : SameFrame g
      (if r.cond.isEmpty then (g, []) else temporalRecordSeen g hits now ws).1 := by
    split
    · exact .refl g
    · exact sameFrame_temporalRecordSeen g hits now ws
  unfold evalOrderedCase
  simp only
  split
  · exact hseen.trans (sameFrame_evalTemporalOrderedWm r _ hits now ws _)
  · exact hseen.trans (sameFrame_evalTemporalOrdered r _ hits now ws _)

/-- **An evaluation keeps the bookkeeping.** -/
theorem sameFrame_evaluate (fp : Doubles) (caps : CorrCaps) (r : CorrRule) (g : Group)
    (hits : List UInt32) (value : Option CStr) (now ws : ℚ) :
    SameFrame g (evaluate fp caps r g hits value now ws).group := by
  unfold evaluate
  split
  · exact sameFrame_evalEventCount r g now ws
  · exact sameFrame_evalValueCount r g value _ now ws
  · exact sameFrame_evalValueSumAvg fp r g value _ now ws
  · exact sameFrame_evalValueSumAvg fp r g value _ now ws
  · exact sameFrame_evalValuePercentile fp r g value _ now ws
  · exact sameFrame_evalValuePercentile fp r g value _ now ws
  · exact sameFrame_evalTemporal r g hits now ws
  · exact sameFrame_evalOrderedCase caps r g hits now ws
  · exact sameFrame_evalBeaconing fp r g now ws
  · exact .refl g

/-- A contribution merges, but keeps the last update, the deadline and the size of the ring. -/
theorem evalContrib_frame (fp : Doubles) (caps : CorrCaps) (r : CorrRule) (g : Group)
    (c : CorrContrib) (ws : ℚ) :
    (evalContrib fp caps r g c ws).group.lastUpdate = g.lastUpdate ∧
      (evalContrib fp caps r g c ws).group.firedUntil = g.firedUntil ∧
      (evalContrib fp caps r g c ws).group.evIdx.cap = g.evIdx.cap := by
  unfold evalContrib
  split
  · exact ⟨rfl, rfl, RingIdx.cap_popWhile _ _ _⟩
  · simp only
    split <;> exact ⟨rfl, rfl, RingIdx.cap_popWhile _ _ _⟩
  · split
    · have h := sameFrame_evalValueCount r g c.value caps.maxDistinct c.ts ws
      exact ⟨h.lastUpdate, h.firedUntil, h.cap⟩
    · exact ⟨rfl, rfl, rfl⟩
  · simp only
    split <;> exact ⟨rfl, rfl, rfl⟩
  · exact ⟨rfl, rfl, rfl⟩
  · exact ⟨rfl, rfl, rfl⟩

/-! ## The decision -/

theorem settle_lastUpdate (r : CorrRule) (ts : ℚ) (e : Evaluated) :
    (settle r ts e).group.lastUpdate = e.group.lastUpdate := by
  unfold settle
  split_ifs <;> rfl

theorem settle_cap (r : CorrRule) (ts : ℚ) (e : Evaluated) :
    (settle r ts e).group.evIdx.cap = e.group.evIdx.cap := by
  unfold settle
  split_ifs <;> rfl

@[simp] theorem settle_decided (r : CorrRule) (ts : ℚ) (e : Evaluated) :
    (settle r ts e).decided = e.fired := by
  unfold settle
  split_ifs <;> simp_all

/-- The deadline moves exactly when there is a fire. -/
theorem settle_firedUntil (r : CorrRule) (ts : ℚ) (e : Evaluated) :
    (settle r ts e).group.firedUntil =
      if (settle r ts e).fire.isSome then ts + r.timespanS else e.group.firedUntil := by
  unfold settle
  split_ifs <;> simp_all

/-- There is a fire exactly when the evaluation decides for one and the deadline has passed. -/
theorem settle_fire (r : CorrRule) (ts : ℚ) (e : Evaluated) :
    (settle r ts e).fire =
      if e.fired = true ∧ e.group.firedUntil ≤ ts then
        some ⟨observedVal r e.group e.vagg, e.group.mergeRemote⟩
      else none := by
  simp only [← not_lt]
  unfold settle
  split_ifs <;> simp_all

/-- An input leaves its time in the group. -/
theorem groupInput_lastUpdate (fp : Doubles) (caps : CorrCaps) (r : CorrRule)
    (g : Group) (i : GroupInput) : (groupInput fp caps r g i).group.lastUpdate = i.ts := by
  cases i with
  | event hits value ts =>
    rw [groupInput]
    split
    · rfl
    · rw [settle_lastUpdate]
      exact (sameFrame_evaluate fp caps r _ hits value ts _).lastUpdate
  | contrib c =>
    rw [groupInput, settle_lastUpdate]
    exact (evalContrib_frame fp caps r _ c _).1

/-- An input keeps the size of the ring. -/
@[simp] theorem cap_groupInput (fp : Doubles) (caps : CorrCaps) (r : CorrRule) (g : Group)
    (i : GroupInput) : (groupInput fp caps r g i).group.evIdx.cap = g.evIdx.cap := by
  cases i with
  | event hits value ts =>
    rw [groupInput]
    split
    · rfl
    · rw [settle_cap]
      exact (sameFrame_evaluate fp caps r { g with lastUpdate := ts } hits value ts _).cap
  | contrib c =>
    rw [groupInput, settle_cap]
    exact (evalContrib_frame fp caps r { g with lastUpdate := c.ts, mergeRemote := true } c _).2.2

end LibSigma
