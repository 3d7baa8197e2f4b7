import LibSigma.Corr.Ordered
import LibSigma.Corr.Replay

/-!
# The watermark of temporal_ordered

With event times and a positive `watermark_s`, the events of a temporal_ordered group go through the
reorder buffer.  It replays a hit in the window of the event that flushes it, and the hits of one
event one by one.

`LibSigma.Corr.Replay` is about a buffer of any size.  The one of a group has room for 32 items,
drops the oldest when it is full, and is skipped by an event that comes more than the slack behind
the high-water mark.  In a run within the slack that has room for its hits (`PendingWithin`) none of
this happens, and the life of the group is a run of that buffer (`Life.buffered`).  The result is
then the one on the buffer, with its two conditions.

A new group has the high-water mark 0.  So events at or before `-w` are flushed as they come, and of
these the run must bring its own order (`EarlyInOrder`).

The last section has a run without any of these oddities in which the completion is lost: a sequence
within two seconds, complete and in order, flushed by an event that comes much later.

* `StepOf.buffered`: an event within the slack, with room for its hits, is a step of the buffer.
* `watermark_reports_iff_sorted`: **a run reports when its sorted events do**, where the windows
  agree and the hits of each event take the steps it takes at once.
* `watermark_loses_completion`: a run that reports nothing although its events, in order, complete
  the sequence.
-/

namespace LibSigma

open Library

/-! ## One event -/

/-- The part of a group that the buffer uses. -/
def Group.buffered (g : Group) : Buffered := ⟨g.ordered, g.wm, g.wmMaxTs⟩

section Event

variable {fp : Doubles} {caps : CorrCaps} {r : CorrRule}

/-- Hits that the buffer has room for wait behind those of their time. -/
theorem foldl_wmInsert (now : ℚ) (hits : List UInt32) (g : Group) (incs : List CorrCounter)
    (hroom : g.wm.length + hits.length ≤ corrWmCap) :
    ∃ m, max m now = max g.wmMaxTs now ∧ (hits.foldl (wmInsert now) (g, incs)).1 =
      { g with wm := pend g.wm ⟨now, hits⟩, wmMaxTs := m } := by
  induction hits generalizing g incs with
  | nil => exact ⟨g.wmMaxTs, rfl, rfl⟩
  | cons rid hits ih =>
    rw [List.length_cons] at hroom
    have hone : (wmInsert now (g, incs) rid).1 =
        { g with wm := insertLast Prod.fst (now, rid) g.wm, wmMaxTs := max g.wmMaxTs now } := by
      have hwm := wm_wmInsert now (g, incs) rid
      rw [if_neg (show ¬ corrWmCap ≤ g.wm.length by omega)] at hwm
      rw [← hwm, max_def_lt]
      rfl
    have hlen : (insertLast Prod.fst (now, rid) g.wm).length = g.wm.length + 1 :=
      length_insertLast _ _
    obtain ⟨m, hm, heq⟩ := ih (wmInsert now (g, incs) rid).1 (wmInsert now (g, incs) rid).2 (by
      rw [hone]
      dsimp only
      omega)
    refine ⟨m, ?_, ?_⟩
    · rw [hm, hone]
      exact max_assoc _ _ _ |>.trans (congrArg _ (max_self now))
    · rw [List.foldl_cons, heq, hone]
      rfl

/-- The flush replays what is due and keeps the rest. -/
theorem foldl_wmFlush (ws cutoff : ℚ) (items : List (ℚ × UInt32)) (fired : Bool) (g : Group)
    (acc : List (ℚ × UInt32)) :
    items.foldl (wmFlush r ws cutoff) (fired, g, acc) =
      let run := fun (o : Ordered) (x : ℚ × UInt32) => orderedStep r.order [x.2] x.1 ws true o
      let out := items.filter fun x => x.1 ≤ cutoff
      (fired || reports run g.ordered out, g.setOrdered (stateAfter run g.ordered out),
        acc ++ items.filter fun x => cutoff < x.1) := by
  induction items generalizing fired g acc with
  | nil => simp [reports, stateAfter, Group.setOrdered, Group.ordered]
  | cons x items ih =>
    rw [List.foldl_cons]
    by_cases hle : x.1 ≤ cutoff
    · have hflush : wmFlush r ws cutoff (fired, g, acc) x =
          (fired || (orderedStep r.order [x.2] x.1 ws true g.ordered).1,
            g.setOrdered (orderedStep r.order [x.2] x.1 ws true g.ordered).2, acc) := if_pos hle
      rw [hflush, ih]
      simp only [List.filter_cons, hle, not_lt.mpr hle, decide_true, decide_false, if_true,
        Bool.false_eq_true, if_false]
      simp [reports, stateAfter, Group.setOrdered, Group.ordered, Bool.or_assoc]
    · have hflush : wmFlush r ws cutoff (fired, g, acc) x = (fired, g, acc ++ [x]) := if_neg hle
      rw [hflush, ih]
      simp [hle, not_le.mp hle]

/-- An event within the slack of a buffer with room. -/
theorem evalTemporalOrderedWm_eq (g : Group) (hits : List UInt32) (now w : ℚ)
    (hslack : 0 < g.wmMaxTs → g.wmMaxTs ≤ now + w)
    (hroom : g.wm.length + hits.length ≤ corrWmCap) :
    (evalTemporalOrderedWm r g hits now (now - r.timespanS) w).1 =
        (bufferedStep r.order r.timespanS w g.buffered ⟨now, hits⟩).1 ∧
      (evalTemporalOrderedWm r g hits now (now - r.timespanS) w).2.1.buffered =
        (bufferedStep r.order r.timespanS w g.buffered ⟨now, hits⟩).2 := by
  have hon : ¬ (0 < g.wmMaxTs ∧ now + w < g.wmMaxTs) := fun h => not_lt.mpr (hslack h.1) h.2
  obtain ⟨m, hm, hins⟩ := foldl_wmInsert now hits g [] hroom
  have hmax : (if m < now then now else m) = max g.wmMaxTs now := (max_def_lt m now).symm.trans hm
  rcases hfold : hits.foldl (wmInsert now) (g, []) with ⟨g₁, incs⟩
  rw [hfold] at hins
  dsimp only at hins
  subst hins
  rw [evalTemporalOrderedWm, if_neg hon, hfold]
  dsimp only
  rw [hmax, foldl_wmFlush]
  have hflushed : flushedBy w g.buffered.maxTs g.buffered.wm ⟨now, hits⟩ =
      ((pend g.wm ⟨now, hits⟩).filter fun x => decide (x.1 ≤ max g.wmMaxTs now - w)).map
        fun x => (oneHit x, now) := rfl
  rw [bufferedStep, hflushed, reports_map, stateAfter_map]
  exact ⟨Bool.false_or _, rfl⟩

variable (fp) in
/-- An event within the slack of a group with room for its hits is a step of the buffer. -/
theorem groupInput_buffered (htype : r.type = some .temporalOrdered) (hcond : r.cond = [])
    (het : caps.eventTimeOrdering = true) (hw : 0 < caps.watermarkS) (g : Group) {ev : CorrEvent}
    (hhits : hitBuf r ev.rids ≠ []) (hslack : 0 < g.wmMaxTs → g.wmMaxTs ≤ ev.ts + caps.watermarkS)
    (hroom : g.wm.length + (hitBuf r ev.rids).length ≤ corrWmCap) :
    (groupInput fp caps r g (ev.input r)).decided =
        (bufferedStep r.order r.timespanS caps.watermarkS g.buffered
          ⟨ev.ts, hitBuf r ev.rids⟩).1 ∧
      (groupInput fp caps r g (ev.input r)).group.buffered =
        (bufferedStep r.order r.timespanS caps.watermarkS g.buffered
          ⟨ev.ts, hitBuf r ev.rids⟩).2 := by
  have hon : 0 < caps.watermarkS ∧ caps.eventTimeOrdering = true := ⟨hw, het⟩
  obtain ⟨hfired, hgroup⟩ := evalTemporalOrderedWm_eq (r := r) { g with lastUpdate := ev.ts }
    (hitBuf r ev.rids) ev.ts caps.watermarkS hslack hroom
  rw [CorrEvent.input, groupInput_event fp caps r g hhits, evaluate, htype, settle_decided,
    settle_group]
  simp only [evalOrderedCase, hcond, List.isEmpty_nil, if_true, if_pos hon, Bool.true_or,
    Bool.and_true]
  exact ⟨hfired, hgroup⟩

end Event

/-! ## A life -/

section Life

variable {fp : Doubles} {caps : CorrCaps} {r : CorrRule}

/-- The hits that wait in the group that the steps `H` leave. -/
def pendingHits (fp : Doubles) (caps : CorrCaps) (r : CorrRule) (H : List GroupStep) :
    ℕ :=
  ((groupAfter fp caps r (H.map GroupStep.input)).getD
    (groupNew caps.maxEventsPerGroup)).wm.length

/-- The buffer has room for the hits of every step. -/
def PendingWithin (fp : Doubles) (caps : CorrCaps) (r : CorrRule)
    (H : List GroupStep) : Prop :=
  ∀ H₁ x H₂, H = H₁ ++ x :: H₂ → pendingHits fp caps r H₁ + x.hits.length ≤ corrWmCap

/-- The high-water mark is 0 or the time of an event. -/
theorem maxTs_stateAfter (order : List UInt32) (span w : ℚ) (b : Buffered) (es : List Occ) :
    (stateAfter (bufferedStep order span w) b es).maxTs = b.maxTs ∨
      ∃ e ∈ es, (stateAfter (bufferedStep order span w) b es).maxTs = e.ts := by
  induction es generalizing b with
  | nil => exact .inl rfl
  | cons e es ih =>
    rcases ih (bufferedStep order span w b e).2 with hsame | ⟨e', he', heq⟩
    · rcases max_choice b.maxTs e.ts with hmax | hmax
      · exact .inl (hsame.trans hmax)
      · exact .inr ⟨e, List.mem_cons_self, hsame.trans hmax⟩
    · exact .inr ⟨e', List.mem_cons_of_mem _ he', heq⟩

/-- **The life of a group within the slack** is a run of the buffer. -/
theorem Life.buffered (htype : r.type = some .temporalOrdered) (hcond : r.cond = [])
    (het : caps.eventTimeOrdering = true) (hw : 0 < caps.watermarkS) {H : List GroupStep}
    {s : Option Group} (h : Life fp caps r H s) (hlocal : ∀ x ∈ H, x.IsLocal r)
    (hslack : InSlack caps.watermarkS (H.map GroupStep.occ))
    (hroom : PendingWithin fp caps r H) :
    (s.getD (groupNew caps.maxEventsPerGroup)).buffered =
        stateAfter (bufferedStep r.order r.timespanS caps.watermarkS) ⟨.none, [], 0⟩
          (H.map GroupStep.occ) ∧
      H.any GroupStep.decided =
        reports (bufferedStep r.order r.timespanS caps.watermarkS) ⟨.none, [], 0⟩
          (H.map GroupStep.occ) := by
  induction h with
  | unborn => exact ⟨rfl, rfl⟩
  | @input H s i h ih =>
    obtain ⟨ev, hev, hhits⟩ := hlocal _ (List.mem_append_right _ List.mem_cons_self)
    have hi : i = ev.input r := hev
    subst hi
    rw [List.map_append] at hslack
    obtain ⟨hslack₀, -, hcross⟩ := List.pairwise_append.mp hslack
    obtain ⟨hbuffered, hany⟩ := ih (fun x hx => hlocal x (List.mem_append_left _ hx)) hslack₀
      fun H₁ x H₂ heq => hroom H₁ x (H₂ ++ [_]) (by rw [heq, List.append_assoc, List.cons_append])
    have hmax : 0 < (s.getD (groupNew caps.maxEventsPerGroup)).wmMaxTs →
        (s.getD (groupNew caps.maxEventsPerGroup)).wmMaxTs ≤ ev.ts + caps.watermarkS := by
      intro hpos
      have hhigh := maxTs_stateAfter r.order r.timespanS caps.watermarkS ⟨.none, [], 0⟩
        (H.map GroupStep.occ)
      rw [← hbuffered] at hhigh
      rcases hhigh with hzero | ⟨e, he, heq⟩
      · exact absurd hpos (not_lt.mpr hzero.le)
      · exact heq.trans_le (hcross e he _ List.mem_cons_self)
    have hpending : (s.getD (groupNew caps.maxEventsPerGroup)).wm.length +
        (hitBuf r ev.rids).length ≤ corrWmCap := by
      have hfits := hroom H _ [] rfl
      rwa [pendingHits, ← h.eq_groupAfter] at hfits
    obtain ⟨hdecided, hgroup⟩ := groupInput_buffered fp htype hcond het hw
      (s.getD (groupNew caps.maxEventsPerGroup)) hhits hmax hpending
    rw [hbuffered] at hdecided hgroup
    rw [Option.getD_some, List.map_append, List.map_singleton, stateAfter_append, reports_append,
      List.any_append, hany]
    refine ⟨hgroup, congrArg (reports _ _ _ || ·) ?_⟩
    rw [List.any_cons, List.any_nil, Bool.or_false, reports, reports, Bool.or_false]
    exact hdecided

/-- **The watermark makes the order of arrival irrelevant**, where the replay is faithful: events
within the slack of each other report a completion, by the event that flushes them at the latest,
exactly when the sorted events do. -/
theorem watermark_reports_iff_sorted {rules : List CorrRule} {ci : ℕ}
    (hr : (admittedRules rules)[ci]? = some r) (htype : r.type = some .temporalOrdered)
    (hcond : r.cond = []) (het : caps.eventTimeOrdering = true) (hw : 0 < caps.watermarkS)
    {H : List GroupStep} {x : GroupStep} {s : Option Group}
    (hlife : Life fp caps r (H ++ [x]) s) (hlocal : ∀ y ∈ H ++ [x], y.IsLocal r)
    (hslack : InSlack caps.watermarkS (H.map GroupStep.occ))
    (hroom : PendingWithin fp caps r (H ++ [x]))
    (hflush : ∀ y ∈ H, y.ts + caps.watermarkS < x.ts)
    (hfaithful : ReplaysFaithfully r.order r.timespanS caps.watermarkS (H.map GroupStep.occ)
      x.occ) :
    (∃ y ∈ H ++ [x], y.decided = true) ↔
      reports (orderedOn r.order r.timespanS true) .none
        (sortBy Occ.ts (H.map GroupStep.occ)) = true := by
  have hspan : (0 : ℚ) ≤ r.timespanS := by
    exact_mod_cast (timespanS_pos (ruleValid_of_admitted hr)).le
  have hlt : ∀ e ∈ H.map GroupStep.occ, e.ts + caps.watermarkS < x.occ.ts := by
    intro e he
    obtain ⟨y, hy, rfl⟩ := List.mem_map.mp he
    exact hflush y hy
  have hhits : ∀ e ∈ H.map GroupStep.occ, e.hits ≠ [] := by
    intro e he
    obtain ⟨y, hy, rfl⟩ := List.mem_map.mp he
    obtain ⟨ev, hev, hne⟩ := hlocal y (List.mem_append_left _ hy)
    rw [GroupStep.occ, GroupStep.hits, hev]
    exact hne
  have hslack' : InSlack caps.watermarkS ((H ++ [x]).map GroupStep.occ) := by
    rw [List.map_append]
    refine List.pairwise_append.mpr ⟨hslack, List.pairwise_singleton _ _, fun a ha b hb => ?_⟩
    rw [List.mem_singleton.mp hb]
    have hb := hlt a ha
    linarith
  obtain ⟨-, hany⟩ := hlife.buffered htype hcond het hw hlocal hslack' hroom
  rw [List.map_append, List.map_singleton, reports_buffered_eq_sorted hspan (order_ne_nil hr) hw
    hhits hslack hlt hfaithful] at hany
  rw [← hany, List.any_eq_true]

end Life

/-! ## Small lives -/

section Small

variable (fp : Doubles) (caps : CorrCaps) (r : CorrRule)

/-- The steps of a new group on some events, and the group they leave. -/
def lifeOn (evs : List CorrEvent) : List GroupStep × Option Group :=
  evs.foldl (fun life ev =>
    (life.1 ++ [(groupApply fp caps r life.2 (ev.input r)).step (ev.input r)],
      some (groupApply fp caps r life.2 (ev.input r)).group)) ([], none)

/-- One more event is one more step, with the hits of the event. -/
theorem lifeOn_concat (evs : List CorrEvent) (ev : CorrEvent) :
    ∃ x : GroupStep, x.input = ev.input r ∧
      (lifeOn fp caps r (evs ++ [ev])).1 = (lifeOn fp caps r evs).1 ++ [x] := by
  rw [lifeOn, List.foldl_append]
  exact ⟨_, rfl, rfl⟩

theorem life_lifeOn (evs : List CorrEvent) :
    Life fp caps r (lifeOn fp caps r evs).1 (lifeOn fp caps r evs).2 := by
  induction evs using List.reverseRecOn with
  | nil => exact .unborn
  | append_singleton evs ev ih =>
    rw [lifeOn, List.foldl_append]
    exact .input (ev.input r) ih

@[simp] theorem map_input_lifeOn (evs : List CorrEvent) :
    (lifeOn fp caps r evs).1.map GroupStep.input = evs.map (CorrEvent.input r) := by
  induction evs using List.reverseRecOn with
  | nil => rfl
  | append_singleton evs ev ih =>
    obtain ⟨x, hx, hconcat⟩ := lifeOn_concat fp caps r evs ev
    rw [hconcat, List.map_append, ih, List.map_append, List.map_singleton, List.map_singleton, hx]

@[simp] theorem map_occ_lifeOn (evs : List CorrEvent) :
    (lifeOn fp caps r evs).1.map GroupStep.occ =
      evs.map fun ev => ⟨ev.ts, hitBuf r ev.rids⟩ := by
  have hinputs := congrArg (List.map fun i : GroupInput => (⟨i.ts, i.hits⟩ : Occ))
    (map_input_lifeOn fp caps r evs)
  rw [List.map_map, List.map_map] at hinputs
  exact hinputs

theorem isLocal_lifeOn {evs : List CorrEvent} (h : ∀ ev ∈ evs, hitBuf r ev.rids ≠ []) :
    ∀ x ∈ (lifeOn fp caps r evs).1, x.IsLocal r := by
  intro x hx
  have hinput := List.mem_map_of_mem (f := GroupStep.input) hx
  rw [map_input_lifeOn] at hinput
  obtain ⟨ev, hev, heq⟩ := List.mem_map.mp hinput
  exact ⟨ev, heq.symm, h ev hev⟩

/-- The room of every step, position by position. -/
theorem pendingWithin_iff (H : List GroupStep) : PendingWithin fp caps r H ↔
    ∀ n < H.length, pendingHits fp caps r (H.take n) +
      (H[n]?.elim 0 fun x => x.hits.length) ≤ corrWmCap := by
  constructor
  · intro h n hn
    rw [List.getElem?_eq_getElem hn]
    exact h _ _ _ (by rw [List.cons_getElem_drop_succ, List.take_append_drop])
  · rintro h H₁ x H₂ rfl
    have hn := h H₁.length (by simp)
    rwa [List.take_left, List.getElem?_append_right le_rfl, Nat.sub_self] at hn

end Small

/-- Caps with event times and a slack. -/
def capsWatermark (w : ℚ) : CorrCaps := ⟨0, 0, 0, 0, true, w⟩

/-- Base rule 2 arrives first. -/
def swappedEvents : List CorrEvent := [userEvent 2 5, userEvent 1 4]

theorem sortBy_swapped : sortBy Occ.ts [⟨5, [2]⟩, ⟨4, [1]⟩] = [⟨4, [1]⟩, ⟨5, [2]⟩] := by
  refine (eq_sortBy (by norm_num [InOrder]) fun k => ?_).symm
  simp only [keyed_cons, keyed_nil]
  split_ifs with h4 h5
  · exact absurd (h4.trans h5.symm) (by norm_num)
  · rfl
  · rfl
  · rfl

theorem watermark_reports_iff_sorted_sample :
    (∃ y ∈ (lifeOn .bare (capsWatermark 2) stepsRule
        (swappedEvents ++ [userEvent 1 8])).1, y.decided = true) ↔
      reports (orderedOn stepsRule.order stepsRule.timespanS true) .none
        (sortBy Occ.ts ((lifeOn .bare (capsWatermark 2) stepsRule
          swappedEvents).1.map GroupStep.occ)) = true := by
  have hr : (admittedRules [stepsRule])[0]? = some stepsRule := rfl
  have hhits : ∀ ev ∈ swappedEvents ++ [userEvent 1 8], hitBuf stepsRule ev.rids ≠ [] := by
    intro ev hev
    fin_cases hev <;> decide
  have hlife := life_lifeOn .bare (capsWatermark 2) stepsRule
    (swappedEvents ++ [userEvent 1 8])
  have hlocal := isLocal_lifeOn .bare (capsWatermark 2) stepsRule hhits
  have hroom := (pendingWithin_iff .bare (capsWatermark 2) stepsRule (lifeOn .bare
    (capsWatermark 2) stepsRule (swappedEvents ++ [userEvent 1 8])).1).mpr (by decide +kernel)
  have hoccs : (lifeOn .bare (capsWatermark 2) stepsRule swappedEvents).1.map
      GroupStep.occ = [⟨5, [2]⟩, ⟨4, [1]⟩] := map_occ_lifeOn _ _ _ _
  obtain ⟨x, hx, hconcat⟩ := lifeOn_concat .bare (capsWatermark 2) stepsRule swappedEvents
    (userEvent 1 8)
  rw [hconcat] at hlife hlocal hroom ⊢
  have hocc : x.occ = ⟨8, [1]⟩ := by
    rw [GroupStep.occ, GroupStep.ts, GroupStep.hits, hx]
    rfl
  refine watermark_reports_iff_sorted hr rfl rfl rfl (by norm_num [capsWatermark]) hlife hlocal ?_
    hroom (fun y hy => ?_) ?_
  · rw [hoccs]
    norm_num [InSlack, capsWatermark]
  · have hmem : y.occ ∈ ([⟨5, [2]⟩, ⟨4, [1]⟩] : List Occ) := hoccs ▸ List.mem_map_of_mem hy
    have hxts : x.ts = 8 := congrArg Occ.ts hocc
    rw [hxts]
    rcases List.mem_pair.mp hmem with heq | heq
    · rw [show y.ts = 5 from congrArg Occ.ts heq]
      norm_num [capsWatermark]
    · rw [show y.ts = 4 from congrArg Occ.ts heq]
      norm_num [capsWatermark]
  · rw [hoccs, hocc]
    refine ⟨by norm_num [EarlyInOrder, capsWatermark], by decide +kernel, by decide +kernel, ?_⟩
    rw [sortBy_swapped]
    decide +kernel

/-- A sequence within two seconds. -/
def shortStepsRule : CorrRule := { stepsRule with timespanS := 2 }

/-- The sequence completes at once. -/
def promptEvents : List CorrEvent := [userEvent 1 0, userEvent 2 1]

/-- **A completion is lost**: the event that flushes the sequence comes long after it. -/
theorem watermark_loses_completion :
    ¬ ∀ (fp : Doubles) (rules : List CorrRule) (caps : CorrCaps) (ci : ℕ)
      (r : CorrRule) (H : List GroupStep) (x : GroupStep) (s : Option Group),
      (admittedRules rules)[ci]? = some r → r.type = some .temporalOrdered → r.cond = [] →
      caps.eventTimeOrdering = true → 0 < caps.watermarkS → Life fp caps r (H ++ [x]) s →
      (∀ y ∈ H ++ [x], y.IsLocal r) → InSlack caps.watermarkS (H.map GroupStep.occ) →
      PendingWithin fp caps r (H ++ [x]) → (∀ y ∈ H, y.ts + caps.watermarkS < x.ts) →
      ((∃ y ∈ H ++ [x], y.decided = true) ↔
        reports (orderedOn r.order r.timespanS true) .none
          (sortBy Occ.ts (H.map GroupStep.occ)) = true) := by
  intro hclaim
  have hhits : ∀ ev ∈ promptEvents ++ [userEvent 1 20], hitBuf shortStepsRule ev.rids ≠ [] := by
    intro ev hev
    fin_cases hev <;> decide
  have hlife := life_lifeOn .bare (capsWatermark 10) shortStepsRule
    (promptEvents ++ [userEvent 1 20])
  have hlocal := isLocal_lifeOn .bare (capsWatermark 10) shortStepsRule hhits
  have hroom := (pendingWithin_iff .bare (capsWatermark 10) shortStepsRule
    (lifeOn .bare (capsWatermark 10) shortStepsRule
      (promptEvents ++ [userEvent 1 20])).1).mpr (by decide +kernel)
  have hquiet : ((lifeOn .bare (capsWatermark 10) shortStepsRule
      (promptEvents ++ [userEvent 1 20])).1.any GroupStep.decided) = false := by decide +kernel
  have hoccs : (lifeOn .bare (capsWatermark 10) shortStepsRule promptEvents).1.map
      GroupStep.occ = [⟨0, [1]⟩, ⟨1, [2]⟩] := map_occ_lifeOn _ _ _ _
  obtain ⟨x, hx, hconcat⟩ := lifeOn_concat .bare (capsWatermark 10) shortStepsRule
    promptEvents (userEvent 1 20)
  rw [hconcat] at hlife hlocal hroom hquiet
  have hxts : x.ts = 20 := by
    rw [GroupStep.ts, hx]
    rfl
  have hiff := hclaim _ [shortStepsRule] _ 0 _ _ x _ rfl rfl rfl rfl (by norm_num [capsWatermark])
    hlife hlocal (by rw [hoccs]; norm_num [InSlack, capsWatermark]) hroom (fun y hy => by
      have hmem : y.occ ∈ ([⟨0, [1]⟩, ⟨1, [2]⟩] : List Occ) := hoccs ▸ List.mem_map_of_mem hy
      rw [hxts]
      rcases List.mem_pair.mp hmem with heq | heq
      · rw [show y.ts = 0 from congrArg Occ.ts heq]
        norm_num [capsWatermark]
      · rw [show y.ts = 1 from congrArg Occ.ts heq]
        norm_num [capsWatermark])
  rw [hoccs, sortBy_of_inOrder (by norm_num [InOrder])] at hiff
  obtain ⟨y, hy, hdecided⟩ := hiff.mpr (by decide +kernel)
  rw [List.any_eq_false] at hquiet
  exact hquiet y hy hdecided

end LibSigma
