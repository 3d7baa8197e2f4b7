import Mathlib.Tactic.FinCases
import Mathlib.Tactic.NormNum
import LibSigma.Corr.Local
import LibSigma.Corr.Sequence

/-!
# temporal_ordered

A temporal_ordered rule decides when `eval_temporal_ordered` completes its sequence.  Here the
results about lists of occurrences are read for the events of a group in a run of the engine.

There are two clocks.  By default the engine goes by its own order and compares no times of events,
so that the results ask for a run in order of time.  With `event_time_ordering` an occurrence older
than the last step is not taken (`Ordered.Blocked`), and any order of arrival will do for soundness.
`Clocked` is the disjunction, and both are covered by the same proofs.

An event with no positive `watermark_s` is evaluated at once.  With one it goes through a buffer;
that is `LibSigma.Corr.Watermark`.

* `ordered_completion_sound`: **a completion means that the required ids occurred in order in the
  window**, since the completion before.
* `ordered_completion_iff`: **a sequence in order completes exactly when some such sequence begins
  while no other is in progress.**
-/

namespace LibSigma

open Library

/-! ## One event

What an event is as an occurrence: its time and the ids it hit that the buffer holds.  The progress
of a group is that of the occurrences of its life. -/

/-- An event as a sequence sees it. -/
def CorrEvent.occ (ev : CorrEvent) : Occ := ⟨ev.ts, ev.rids⟩

/-- A step as a sequence sees it. -/
def GroupStep.occ (x : GroupStep) : Occ := ⟨x.ts, x.hits⟩

section Event

variable {fp : Doubles} {caps : CorrCaps} {r : CorrRule}

/-- Without a condition and a watermark the decision is that of `eval_temporal_ordered`. -/
theorem evalOrderedCase_eq (hcond : r.cond = []) (hwm : caps.watermarkS ≤ 0) (g : Group)
    (hits : List UInt32) (now ws : ℚ) :
    (evalOrderedCase caps r g hits now ws).fired =
        (orderedStep r.order hits now ws caps.eventTimeOrdering g.ordered).1 ∧
      (evalOrderedCase caps r g hits now ws).group.ordered =
        (orderedStep r.order hits now ws caps.eventTimeOrdering g.ordered).2 := by
  have hoff : ¬ (0 < caps.watermarkS ∧ caps.eventTimeOrdering = true) :=
    fun h => not_lt.mpr hwm h.1
  simp only [evalOrderedCase, hcond, List.isEmpty_nil, if_true, if_neg hoff]
  exact ⟨Bool.and_true _, rfl⟩

/-- An event of a temporal_ordered rule on its group. -/
theorem groupInput_ordered (htype : r.type = some .temporalOrdered) (hcond : r.cond = [])
    (hwm : caps.watermarkS ≤ 0) (g : Group) {ev : CorrEvent} (hhits : hitBuf r ev.rids ≠ []) :
    (groupInput fp caps r g (ev.input r)).decided =
        (orderedOn r.order r.timespanS caps.eventTimeOrdering g.ordered
          ⟨ev.ts, hitBuf r ev.rids⟩).1 ∧
      (groupInput fp caps r g (ev.input r)).group.ordered =
        (orderedOn r.order r.timespanS caps.eventTimeOrdering g.ordered
          ⟨ev.ts, hitBuf r ev.rids⟩).2 := by
  obtain ⟨hfired, hgroup⟩ := evalOrderedCase_eq hcond hwm { g with lastUpdate := ev.ts }
    (hitBuf r ev.rids) ev.ts (ev.ts - r.timespanS)
  rw [CorrEvent.input, groupInput_event fp caps r g hhits, evaluate, htype, settle_decided,
    settle_group]
  exact ⟨hfired, hgroup⟩

/-- **The progress of a group** is that of the steps of its life. -/
theorem Life.ordered (htype : r.type = some .temporalOrdered) (hcond : r.cond = [])
    (hwm : caps.watermarkS ≤ 0) {H : List GroupStep} {s : Option Group}
    (h : Life fp caps r H s) (hlocal : ∀ x ∈ H, x.IsLocal r) :
    (s.getD (groupNew caps.maxEventsPerGroup)).ordered =
      orderedAfter r.order r.timespanS caps.eventTimeOrdering (H.map GroupStep.occ) := by
  induction h with
  | unborn => rfl
  | @input H s i h ih =>
    have ih := ih fun x hx => hlocal x (List.mem_append_left _ hx)
    obtain ⟨ev, hev, hhits⟩ := hlocal _ (List.mem_append_right _ List.mem_cons_self)
    have hi : i = ev.input r := hev
    subst hi
    rw [Option.getD_some, groupApply, (groupInput_ordered htype hcond hwm _ hhits).2, ih,
      List.map_append, List.map_singleton, orderedAfter_concat]
    rfl

/-- **The decision at a step** is whether it completes the sequence. -/
theorem StepOf.completes (htype : r.type = some .temporalOrdered) (hcond : r.cond = [])
    (hwm : caps.watermarkS ≤ 0) {H : List GroupStep} {s : Option Group} {ev : CorrEvent}
    {x : GroupStep} (h : StepOf fp caps r H s ev x) :
    x.decided =
      LibSigma.completes r.order r.timespanS caps.eventTimeOrdering (H.map GroupStep.occ) x.occ := by
  rw [LibSigma.completes, ← h.life.ordered htype hcond hwm h.isLocal, h.eq]
  exact (groupInput_ordered htype hcond hwm _ h.hits).1

/-- The decisions of a life are those of its steps. -/
theorem Life.completes (htype : r.type = some .temporalOrdered) (hcond : r.cond = [])
    (hwm : caps.watermarkS ≤ 0) {H : List GroupStep} {s : Option Group}
    (h : Life fp caps r H s) (hlocal : ∀ x ∈ H, x.IsLocal r) (j : ℕ) (x : GroupStep)
    (hx : H[j]? = some x) :
    x.decided = LibSigma.completes r.order r.timespanS caps.eventTimeOrdering
      ((H.map GroupStep.occ).take j) x.occ := by
  induction h with
  | unborn => cases hx
  | @input H s i h ih =>
    have hlocal' := fun x hx => hlocal x (List.mem_append_left _ hx)
    rw [List.map_append]
    rcases getElem?_concat_cases hx with ⟨hlt, hold⟩ | ⟨rfl, rfl⟩
    · rw [List.take_append_of_le_length (by rw [List.length_map]; exact hlt.le)]
      exact ih hlocal' hold
    · obtain ⟨ev, hev, hhits⟩ := hlocal _ (List.mem_append_right _ List.mem_cons_self)
      have hi : i = ev.input r := hev
      subst hi
      rw [List.take_left' (List.length_map _)]
      exact StepOf.completes htype hcond hwm ⟨h, hlocal', hhits, rfl⟩

end Event

/-! ## Runs of events

The statements are about the events of a group in a run, with the positions of a sequence among all
of them.  The steps of the last life are the last ones of these, and what is before has left the
window; so positions found in a life are shifted, and a sequence in the window lies in the life. -/

section Run

variable {fp : Doubles} {rules : List CorrRule} {caps : CorrCaps} {ci : ℕ}
  {r : CorrRule} {key : List CStr} {evs E E' : List CorrEvent} {ev : CorrEvent}

/-- What the group of `key` decides on each of its events. -/
def decisions (fp : Doubles) (rules : List CorrRule) (caps : CorrCaps) (ci : ℕ)
    (r : CorrRule) (key : List CStr) (evs : List CorrEvent) : List Bool :=
  (groupTrace fp ci r key (corrEngineNew rules caps) (localCalls evs)).map GroupStep.decided

/-- An admitted rule requires some rule id. -/
theorem order_ne_nil (hr : (admittedRules rules)[ci]? = some r) : r.order ≠ [] := by
  unfold CorrRule.order
  split
  · exact baseRuleIds_ne_nil (ruleValid_of_admitted hr)
  · rename_i hne
    simpa using hne

theorem map_ts_occ (H : List GroupStep) : (H.map GroupStep.occ).map Occ.ts = H.map GroupStep.ts := by
  rw [List.map_map]
  rfl

theorem forall₂_input {H : List GroupStep} {E : List CorrEvent}
    (hinputs : H.map GroupStep.input = E.map (CorrEvent.input r)) :
    List.Forall₂ (fun x ev => x.input = CorrEvent.input r ev) H E := by
  have heq : List.Forall₂ (· = ·) (H.map GroupStep.input) (E.map (CorrEvent.input r)) :=
    hinputs ▸ List.forall₂_same.mpr fun _ _ => rfl
  rwa [List.forall₂_map_left_iff, List.forall₂_map_right_iff] at heq

/-- A step sees at most what its event hit. -/
theorem occ_le {x : GroupStep} (hx : x.input = ev.input r) : x.occ.Le ev.occ := by
  refine ⟨?_, fun id hid => ?_⟩
  · rw [GroupStep.occ, GroupStep.ts, hx]
    rfl
  · rw [GroupStep.occ, GroupStep.hits, hx] at hid
    exact (mem_base_of_mem_hitBuf hid).2

/-- **A completion means that the required ids occurred in order in the window**, on events after
those of earlier completions: events in order of time, or event times in any order. -/
theorem ordered_completion_sound (hr : (admittedRules rules)[ci]? = some r)
    (htype : r.type = some .temporalOrdered) (hcond : r.cond = []) (hwm : caps.watermarkS ≤ 0)
    (hclock : caps.eventTimeOrdering = true ∨ TimeOrdered (localCalls evs))
    (hsplit : groupEvents (admittedRules rules) ci r key evs = E ++ ev :: E')
    (hdone : (decisions fp rules caps ci r key evs)[E.length]? = some true) :
    ∃ pos, EndsSequence r.order r.timespanS (E.map CorrEvent.occ) ev.occ pos ∧
      ∀ i ∈ pos, ∀ j < E.length,
        (decisions fp rules caps ci r key evs)[j]? = some true → j < i := by
  have horder := order_ne_nil hr
  have hspan : (0 : ℚ) ≤ r.timespanS := by
    exact_mod_cast (timespanS_pos (ruleValid_of_admitted hr)).le
  obtain ⟨H, x, H', htrace, hlen, hinputs, hx⟩ := exists_step_of_event fp caps hr hsplit
  obtain ⟨H₁, H₂, s, ev', hH, hstep, hall, -⟩ := exists_stepOf hr htrace
  have hstep := hstep.of_input hx
  have hwm' : caps.withDefaults.watermarkS ≤ 0 := hwm
  have hdecided : completes r.order r.timespanS caps.eventTimeOrdering (H₂.map GroupStep.occ)
      x.occ = true := by
    rw [decisions, htrace, List.getElem?_map, ← hlen] at hdone
    refine (hstep.completes htype hcond hwm').symm.trans ?_
    simpa using hdone
  have hclock₂ : Clocked caps.eventTimeOrdering (H₂.map GroupStep.occ ++ [x.occ]) := by
    refine hclock.imp_right fun hsorted => ?_
    have hsub : (H₂ ++ [x]).Sublist (H ++ [x]) := by
      rw [hH, List.append_assoc]
      exact List.sublist_append_right _ _
    have htimes := (hall hsorted).sublist (hsub.map GroupStep.ts)
    rwa [← map_ts_occ, List.map_append] at htimes
  obtain ⟨pos, hends, -, hquiet⟩ := completes_sound horder hspan hclock₂ hdecided
  refine ⟨pos.map ((H₁.map GroupStep.occ).length + ·), ?_, fun i hi j hj hjdone => ?_⟩
  · have hle : List.Forall₂ Occ.Le (H.map GroupStep.occ) (E.map CorrEvent.occ) := by
      rw [List.forall₂_map_left_iff, List.forall₂_map_right_iff]
      exact (forall₂_input hinputs).imp fun _ _ h => occ_le h
    rw [hH, List.map_append] at hle
    exact (hends.shift (H₁.map GroupStep.occ)).mono hle (occ_le hx)
  · obtain ⟨i', hi', rfl⟩ := List.mem_map.mp hi
    rw [List.length_map]
    by_contra hle
    -- a completion in the life, from the first occurrence of the sequence on
    obtain ⟨j', rfl⟩ := Nat.exists_eq_add_of_le ((Nat.le_add_right _ i').trans (not_lt.mp hle))
    obtain ⟨y, hy⟩ : ∃ y, H₂[j']? = some y := by
      refine ⟨_, List.getElem?_eq_getElem ?_⟩
      rw [← hlen, hH, List.length_append] at hj
      omega
    have hydone : y.decided = true := by
      have hlt := (List.getElem?_eq_some_iff.mp hy).1
      rw [decisions, htrace, hH, List.append_assoc, List.getElem?_map,
        List.getElem?_append_right (Nat.le_add_right _ _), Nat.add_sub_cancel_left,
        List.getElem?_append_left hlt, hy] at hjdone
      simpa using hjdone
    obtain ⟨i₀, tl, hpos⟩ := List.exists_cons_of_ne_nil (List.ne_nil_of_mem hi')
    have hhead : pos.head? = some i₀ := by rw [hpos]; rfl
    have hfirst := (hends.occurs.head_le hhead i' hi').1
    have hnot := hquiet i₀ j' y.occ hhead (by omega) (by rw [List.getElem?_map, hy]; rfl)
    have hyes := hstep.life.completes htype hcond hwm' hstep.isLocal j' y hy
    rw [hydone] at hyes
    exact Bool.false_ne_true (hnot.symm.trans hyes.symm)

/-- Few base rules: the steps see the required ids that the events hit. -/
theorem occ_same (hbase : r.baseRuleIds.length ≤ corrMaxSeenRules)
    (horder : ∀ id ∈ r.order, id ∈ r.baseRuleIds) {x : GroupStep} (hx : x.input = ev.input r) :
    Occ.Same r.order x.occ ev.occ := by
  refine ⟨?_, fun id hid => ?_⟩
  · rw [GroupStep.occ, GroupStep.ts, hx]
    rfl
  · rw [GroupStep.occ, GroupStep.hits, hx]
    exact mem_hitBuf hbase (horder id hid) ev.rids

/-- **The decision on an event**, in order of time: whether it completes the sequence after all
earlier events of the group, however often the sweep dropped the group in between. -/
theorem decisions_ordered (hr : (admittedRules rules)[ci]? = some r)
    (htype : r.type = some .temporalOrdered) (hcond : r.cond = []) (hwm : caps.watermarkS ≤ 0)
    (hbase : r.baseRuleIds.length ≤ corrMaxSeenRules)
    (horder : ∀ id ∈ r.order, id ∈ r.baseRuleIds) (hsorted : TimeOrdered (localCalls evs))
    (hspared : spared fp ci r key (corrEngineNew rules caps) (localCalls evs) = true)
    (hsplit : groupEvents (admittedRules rules) ci r key evs = E ++ ev :: E') :
    (decisions fp rules caps ci r key evs)[E.length]? =
      some (completes r.order r.timespanS caps.eventTimeOrdering (E.map CorrEvent.occ)
        ev.occ) := by
  have hspan : (0 : ℚ) ≤ r.timespanS := by
    exact_mod_cast (timespanS_pos (ruleValid_of_admitted hr)).le
  obtain ⟨H, x, H', htrace, hlen, hinputs, hx⟩ := exists_step_of_event fp caps hr hsplit
  obtain ⟨H₁, H₂, s, ev', hH, hstep, hall, hpast⟩ := exists_stepOf hr htrace
  have hwm' : caps.withDefaults.watermarkS ≤ 0 := hwm
  have hdecided := hstep.completes htype hcond hwm'
  have hsorted₁ : ((H₁.map GroupStep.occ).map Occ.ts).Pairwise (· ≤ ·) := by
    rw [map_ts_occ]
    refine (hall hsorted).sublist (List.Sublist.map _ ?_)
    rw [hH, List.append_assoc]
    exact List.sublist_append_left _ _
  have hgone : ∀ a ∈ H₁.map GroupStep.occ, ∀ b ∈ H₂.map GroupStep.occ ++ [x.occ],
      a.ts < b.ts - r.timespanS := by
    intro a ha b hb
    obtain ⟨y, hy, rfl⟩ := List.mem_map.mp ha
    rw [← List.map_singleton, ← List.map_append] at hb
    obtain ⟨z, hz, rfl⟩ := List.mem_map.mp hb
    exact hpast hsorted hspared y hy z hz
  have hsame : List.Forall₂ (Occ.Same r.order) (H.map GroupStep.occ) (E.map CorrEvent.occ) := by
    rw [List.forall₂_map_left_iff, List.forall₂_map_right_iff]
    exact (forall₂_input hinputs).imp fun _ _ h => occ_same hbase horder h
  rw [decisions, htrace, List.getElem?_map, ← hlen,
    ← completes_congr hsame (occ_same hbase horder hx), hH, List.map_append,
    completes_past (order_ne_nil hr) hspan hsorted₁ hgone]
  simp [hdecided]
  rfl

/-- The events at `pos`, the last of which is `ev`, are a sequence in the window of `ev`, and the
decisions `D` report no completion since the first of them. -/
structure OpenSequence (r : CorrRule) (D : List Bool) (E : List CorrEvent) (ev : CorrEvent)
    (pos : List ℕ) : Prop where
  ends : EndsSequence r.order r.timespanS (E.map CorrEvent.occ) ev.occ pos
  undecided : ∀ i j, pos.head? = some i → i ≤ j → j < E.length → D[j]? = some false

/-- The decisions report no completion exactly when the events complete none. -/
theorem quiet_iff (hr : (admittedRules rules)[ci]? = some r)
    (htype : r.type = some .temporalOrdered) (hcond : r.cond = []) (hwm : caps.watermarkS ≤ 0)
    (hbase : r.baseRuleIds.length ≤ corrMaxSeenRules)
    (horder : ∀ id ∈ r.order, id ∈ r.baseRuleIds) (hsorted : TimeOrdered (localCalls evs))
    (hspared : spared fp ci r key (corrEngineNew rules caps) (localCalls evs) = true)
    (hsplit : groupEvents (admittedRules rules) ci r key evs = E ++ ev :: E') (pos : List ℕ) :
    Quiet r.order r.timespanS caps.eventTimeOrdering (E.map CorrEvent.occ) pos ↔
      ∀ i j, pos.head? = some i → i ≤ j → j < E.length →
        (decisions fp rules caps ci r key evs)[j]? = some false := by
  have hget : ∀ j a, E[j]? = some a → (decisions fp rules caps ci r key evs)[j]? =
      some (completes r.order r.timespanS caps.eventTimeOrdering ((E.map CorrEvent.occ).take j)
        a.occ) := by
    intro j a ha
    obtain ⟨hlt, hja⟩ := List.getElem?_eq_some_iff.mp ha
    have hcut : E = E.take j ++ a :: E.drop (j + 1) := by
      rw [← hja, List.cons_getElem_drop_succ, List.take_append_drop]
    rw [hcut, List.append_assoc, List.cons_append] at hsplit
    have hdec := decisions_ordered hr htype hcond hwm hbase horder hsorted hspared hsplit
    rw [List.length_take_of_le hlt.le, List.map_take] at hdec
    exact hdec
  constructor
  · intro hquiet i j hi hij hj
    have ha := List.getElem?_eq_getElem hj
    rw [hget j _ ha, hquiet i j E[j].occ hi hij (by rw [List.getElem?_map, ha]; rfl)]
  · intro hfalse i j a hi hij ha
    rw [List.getElem?_map] at ha
    obtain ⟨b, hb, rfl⟩ := Option.map_eq_some_iff.mp ha
    have hdec := hfalse i j hi hij (List.getElem?_eq_some_iff.mp hb).1
    rw [hget j b hb] at hdec
    exact Option.some.inj hdec

/-- **A sequence in order completes exactly when some such sequence begins while none is in
progress**: an earlier first step keeps the later ones from beginning, also when it leaves the window
before the rest comes. -/
theorem ordered_completion_iff (hr : (admittedRules rules)[ci]? = some r)
    (htype : r.type = some .temporalOrdered) (hcond : r.cond = []) (hwm : caps.watermarkS ≤ 0)
    (hbase : r.baseRuleIds.length ≤ corrMaxSeenRules)
    (horder : ∀ id ∈ r.order, id ∈ r.baseRuleIds) (hsorted : TimeOrdered (localCalls evs))
    (hspared : spared fp ci r key (corrEngineNew rules caps) (localCalls evs) = true)
    (hsplit : groupEvents (admittedRules rules) ci r key evs = E ++ ev :: E') :
    ((∃ pos, OpenSequence r (decisions fp rules caps ci r key evs) E ev pos) →
        (decisions fp rules caps ci r key evs)[E.length]? = some true) ↔
      ((∃ pos, OpenSequence r (decisions fp rules caps ci r key evs) E ev pos) →
        ∃ pos, OpenSequence r (decisions fp rules caps ci r key evs) E ev pos ∧
          BeginsIdle r.order r.timespanS caps.eventTimeOrdering ((E ++ [ev]).map CorrEvent.occ)
            pos) := by
  have hspan : (0 : ℚ) ≤ r.timespanS := by
    exact_mod_cast (timespanS_pos (ruleValid_of_admitted hr)).le
  have hne := order_ne_nil hr
  have hdec := decisions_ordered hr htype hcond hwm hbase horder hsorted hspared hsplit
  have hquiet := quiet_iff hr htype hcond hwm hbase horder hsorted hspared hsplit
  have htimes : ((E.map CorrEvent.occ ++ [ev.occ]).map Occ.ts).Pairwise (· ≤ ·) := by
    have hall : ((groupEvents (admittedRules rules) ci r key evs).map CorrEvent.ts).Pairwise
        (· ≤ ·) := groupEvents_sorted hsorted
    rw [hsplit] at hall
    have hsub : (E ++ [ev]).Sublist (E ++ ev :: E') :=
      (List.Sublist.refl E).append ((List.nil_sublist E').cons_cons ev)
    have hpre := hall.sublist (hsub.map CorrEvent.ts)
    rw [← List.map_singleton, ← List.map_append, List.map_map]
    exact hpre
  rw [List.map_append, List.map_singleton, hdec, Option.some_inj]
  refine imp_congr_right fun _ => ⟨fun hdone => ?_, fun hex => ?_⟩
  · obtain ⟨pos, hends, hidle, hq⟩ := completes_sound hne hspan (Or.inr htimes) hdone
    exact ⟨pos, ⟨hends, (hquiet pos).mp hq⟩, hidle⟩
  · obtain ⟨pos, ⟨hends, hfalse⟩, hidle⟩ := hex
    exact completes_of_idle hne hspan htimes hends hidle ((hquiet pos).mpr hfalse)

end Run

/-! ## Small runs -/

/-- Base rule 1, then base rule 2, for a user within ten seconds. -/
def stepsRule : CorrRule :=
  { burstRule with type := some .temporalOrdered, baseRuleIds := [1, 2], timespanS := 10 }

/-- A sequence of two events. -/
theorem openSequence_pair {r : CorrRule} {D : List Bool} {E : List CorrEvent} {ev a : CorrEvent}
    {i : ℕ} {x y : UInt32} (hi : E[i]? = some a) (horder : r.order = [x, y]) (hx : x ∈ a.rids)
    (hy : y ∈ ev.rids) (hlo : ev.ts - r.timespanS ≤ a.ts) (hle : a.ts ≤ ev.ts)
    (hspan : (0 : ℚ) ≤ r.timespanS)
    (hD : ∀ j, i ≤ j → j < E.length → D[j]? = some false) :
    OpenSequence r D E ev [i, E.length] := by
  have hlt := (List.getElem?_eq_some_iff.mp hi).1
  have hfirst : (E.map CorrEvent.occ ++ [ev.occ])[i]? = some a.occ := by
    rw [List.getElem?_append_left (by rwa [List.length_map]), List.getElem?_map, hi]
    rfl
  have hlast : (E.map CorrEvent.occ ++ [ev.occ])[E.length]? = some ev.occ := by
    rw [List.getElem?_append_right (by rw [List.length_map]), List.length_map, Nat.sub_self]
    rfl
  refine ⟨⟨⟨?_, ?_, ?_⟩, ?_, fun j hj b hb => ?_⟩, fun i' j hi' hij hj => ?_⟩
  · rw [horder]
    exact .cons ⟨_, hfirst, hx⟩ (.cons ⟨_, hlast, hy⟩ .nil)
  · exact List.pairwise_pair.mpr hlt.le
  · refine List.pairwise_pair.mpr fun b c hb hc => ?_
    rw [hfirst] at hb
    rw [hlast] at hc
    cases hb
    cases hc
    exact hle
  · rw [List.length_map]
    rfl
  · rcases List.mem_pair.mp hj with rfl | rfl
    · rw [hfirst] at hb
      cases hb
      exact ⟨hlo, hle⟩
    · rw [hlast] at hb
      cases hb
      exact ⟨sub_le_self _ hspan, le_rfl⟩
  · cases hi'
    exact hD j hij hj

theorem ordered_completion_sound_sample :
    ∃ pos, EndsSequence stepsRule.order stepsRule.timespanS [(userEvent 1 0).occ]
        (userEvent 2 5).occ pos ∧
      ∀ i ∈ pos, ∀ j < 1, (decisions .bare [stepsRule] capsZero 0 stepsRule [cstr "a"]
        [userEvent 1 0, userEvent 2 5])[j]? = some true → j < i := by
  have hgroup : groupEvents (admittedRules [stepsRule]) 0 stepsRule [cstr "a"]
      [userEvent 1 0, userEvent 2 5] = [userEvent 1 0] ++ userEvent 2 5 :: [] := by
    refine List.filter_eq_self.mpr fun ev hev => ?_
    fin_cases hev <;> decide +kernel
  have hdone : (decisions .bare [stepsRule] capsZero 0 stepsRule [cstr "a"]
      [userEvent 1 0, userEvent 2 5])[[userEvent 1 0].length]? = some true := by
    decide +kernel
  refine ordered_completion_sound (by decide) rfl rfl (by decide) (Or.inr ?_) hgroup hdone
  norm_num [TimeOrdered, localCalls, CorrCall.ts, userEvent]

theorem ordered_completion_iff_sample :
    (∃ pos, OpenSequence stepsRule (decisions .bare [stepsRule] capsZero 0 stepsRule
        [cstr "a"] [userEvent 1 0, userEvent 2 5]) [userEvent 1 0] (userEvent 2 5) pos) ∧
      (decisions .bare [stepsRule] capsZero 0 stepsRule [cstr "a"]
        [userEvent 1 0, userEvent 2 5])[1]? = some true := by
  have hgroup : groupEvents (admittedRules [stepsRule]) 0 stepsRule [cstr "a"]
      [userEvent 1 0, userEvent 2 5] = [userEvent 1 0] ++ userEvent 2 5 :: [] := by
    refine List.filter_eq_self.mpr fun ev hev => ?_
    fin_cases hev <;> decide +kernel
  have hspared : spared .bare 0 stepsRule [cstr "a"] (corrEngineNew [stepsRule] capsZero)
      (localCalls [userEvent 1 0, userEvent 2 5]) = true := by
    decide +kernel
  have hopen : OpenSequence stepsRule (decisions .bare [stepsRule] capsZero 0 stepsRule
      [cstr "a"] [userEvent 1 0, userEvent 2 5]) [userEvent 1 0] (userEvent 2 5) [0, 1] := by
    refine openSequence_pair rfl rfl (by decide) (by decide) (by decide +kernel) (by decide +kernel)
      (by decide +kernel) fun j _ hj => ?_
    rw [Nat.lt_one_iff.mp hj]
    decide +kernel
  refine ⟨⟨_, hopen⟩, (ordered_completion_iff (by decide) rfl rfl (by decide) (by decide)
    (fun _ hid => hid) (by norm_num [TimeOrdered, localCalls, CorrCall.ts, userEvent]) hspared
    hgroup).mpr (fun _ => ⟨_, hopen, fun i e hi he => ?_⟩) ⟨_, hopen⟩⟩
  cases hi
  cases he
  decide +kernel

/-- A first step, a second one, and the rest after the first has left the window. -/
def missedEvents : List CorrEvent := [userEvent 1 0, userEvent 1 9, userEvent 2 12]

/-- The sequence of the last two events does not complete. -/
theorem ordered_sequence_missed :
    ¬ ∀ (fp : Doubles) (rules : List CorrRule) (caps : CorrCaps) (ci : ℕ)
      (r : CorrRule) (key : List CStr) (evs E E' : List CorrEvent) (ev : CorrEvent),
      (admittedRules rules)[ci]? = some r → r.type = some .temporalOrdered → r.cond = [] →
      caps.watermarkS ≤ 0 → r.baseRuleIds.length ≤ corrMaxSeenRules →
      (∀ id ∈ r.order, id ∈ r.baseRuleIds) → TimeOrdered (localCalls evs) →
      spared fp ci r key (corrEngineNew rules caps) (localCalls evs) = true →
      groupEvents (admittedRules rules) ci r key evs = E ++ ev :: E' →
      (∃ pos, OpenSequence r (decisions fp rules caps ci r key evs) E ev pos) →
      (decisions fp rules caps ci r key evs)[E.length]? = some true := by
  intro hclaim
  have hgroup : groupEvents (admittedRules [stepsRule]) 0 stepsRule [cstr "a"] missedEvents =
      [userEvent 1 0, userEvent 1 9] ++ userEvent 2 12 :: [] := by
    refine List.filter_eq_self.mpr fun ev hev => ?_
    fin_cases hev <;> decide +kernel
  have hD : decisions .bare [stepsRule] capsZero 0 stepsRule [cstr "a"] missedEvents =
      [false, false, false] := by
    decide +kernel
  have hopen : OpenSequence stepsRule (decisions .bare [stepsRule] capsZero 0 stepsRule
      [cstr "a"] missedEvents) [userEvent 1 0, userEvent 1 9] (userEvent 2 12) [1, 2] := by
    refine openSequence_pair rfl rfl (by decide) (by decide) (by decide +kernel) (by decide +kernel)
      (by decide +kernel) fun j hij hj => ?_
    rw [hD, show j = 1 from Nat.le_antisymm (Nat.lt_succ_iff.mp hj) hij]
    rfl
  have hdone := hclaim .bare [stepsRule] capsZero 0 stepsRule [cstr "a"] missedEvents
    _ _ _ (by decide) rfl rfl (by decide) (by decide) (fun _ hid => hid)
    (by norm_num [TimeOrdered, localCalls, CorrCall.ts, userEvent, missedEvents])
    (by decide +kernel) hgroup ⟨_, hopen⟩
  rw [hD] at hdone
  exact absurd hdone (by decide)

end LibSigma
