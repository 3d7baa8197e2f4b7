import Mathlib.Data.List.Dedup
import LibSigma.Corr.Machine
import LibSigma.Corr.Order

/-!
# Groups are isolated

The fires of a group are those of a new group that is fed the events that reach it, and nothing
else: the sweep and the other groups cannot be observed.

Other groups of the same correlation act on a group in three ways. Their events trigger sweeps,
which may drop it. They fill the map, which may evict it. And they share with it the counters, which
no decision reads. The first is harmless since a group is a machine that forgets
(`LibSigma.Corr.Machine`): the answers of a run with gaps are those of a run without, as long as
each gap is longer than the window, and a gap that the sweep makes is. The second is excluded where
the rule sees no more groups than `max_groups` (`spared_of_few`).

So the fires of a group are a function of its own events (`firesBy_eq`). Two runs with the same
events for a group have the same fires for it, and one of the two can be a run of an engine with one
rule that sees no other events at all.

* `firesBy_eq`: **the fires of a group are a function of its events.**
* `spared_of_few`: a rule that sees few groups loses none.
* `group_isolation`: **an engine that holds one rule and sees the events of one group fires the
  same.**
-/

namespace LibSigma

open Library

/-! ## Replaying a group

A group that was dropped and created again is a machine that was started anew.  By
`LibSigma.Library.Forgetting` nobody can tell, as long as it was dropped when its content had left
the window; that the rule's memory satisfies what is asked there is `LibSigma.Corr.Machine`. -/

section Replay

variable {fp : Doubles} {caps : CorrCaps} {r : CorrRule}

/-- What a step answers. -/
def GroupStep.answer (x : GroupStep) : Bool × Option Int :=
  (x.decided, x.fire.map CorrFired.observed)

variable (fp caps r) in
/-- The answers of a new group. -/
def replay (is : List GroupInput) : List (Bool × Option Int) :=
  answers (groupMachine fp caps r) (groupNew caps.maxEventsPerGroup) is

/-- A life is a run of the machine. -/
theorem getD_groupAfter (is : List GroupInput) :
    (groupAfter fp caps r is).getD (groupNew caps.maxEventsPerGroup) =
      runFrom (groupMachine fp caps r) (groupNew caps.maxEventsPerGroup) is := by
  induction is using List.reverseRecOn with
  | nil => rfl
  | append_singleton is i ih =>
    rw [groupAfter_concat, Option.getD_some, runFrom_concat, ← ih]
    rfl

/-- Steps that answer as the machine fed the events before them. -/
theorem answers_of_split {xs : List GroupStep}
    (h : ∀ H x H', xs = H ++ x :: H' → x.input.isEvent = true →
      x.answer = (groupMachine fp caps r (runFrom (groupMachine fp caps r)
        (groupNew caps.maxEventsPerGroup) ((H.map GroupStep.input).filter GroupInput.isEvent))
        x.input).2) :
    (xs.filter fun x => x.input.isEvent).map GroupStep.answer =
      replay fp caps r ((xs.map GroupStep.input).filter GroupInput.isEvent) := by
  induction xs using List.reverseRecOn with
  | nil => rfl
  | append_singleton xs x ih =>
    have hxs := ih fun H y H' hxs => h H y (H' ++ [x]) (by rw [hxs, List.append_assoc]; rfl)
    rw [List.map_append, List.map_singleton, List.filter_append, List.filter_append, List.map_append,
      hxs]
    cases hactive : x.input.isEvent with
    | false =>
      rw [List.filter_cons_of_neg (by rw [hactive]; decide),
        List.filter_cons_of_neg (by rw [hactive]; decide), List.filter_nil, List.filter_nil,
        List.map_nil, List.append_nil, List.append_nil]
    | true =>
      rw [List.filter_cons_of_pos (by exact hactive), List.filter_cons_of_pos hactive,
        List.filter_nil, List.filter_nil, List.map_singleton, replay, replay, answers_concat,
        h xs x [] rfl hactive]

end Replay

section Run

variable {fp : Doubles} {rules : List CorrRule} {caps : CorrCaps} {ci : ℕ}
  {r : CorrRule} {key : List CStr} {base : List UInt32} {times : Set ℚ}
  {Agree : ℚ → Group → Group → Prop} {Held : ℚ → Group → Prop} {cs : List CorrCall}

/-- **The answers of a group are those of a new group to its events.** -/
theorem groupTrace_replay (hr : (admittedRules rules)[ci]? = some r)
    (hm : Memory fp caps.withDefaults r base times Agree Held) (hsorted : TimeOrdered cs)
    (hspared : spared fp ci r key (corrEngineNew rules caps) cs = true)
    (hok : ∀ x ∈ groupTrace fp ci r key (corrEngineNew rules caps) cs, InputOk r base times x.input) :
    ((groupTrace fp ci r key (corrEngineNew rules caps) cs).filter
        fun x => x.input.isEvent).map GroupStep.answer =
      replay fp caps.withDefaults r
        (((groupTrace fp ci r key (corrEngineNew rules caps) cs).map GroupStep.input).filter
          GroupInput.isEvent) := by
  refine answers_of_split fun H x H' hsplit hactive => ?_
  obtain ⟨H₁, H₂, g, rfl, hlife, hx, hpast⟩ := groupTrace_life hr hsplit
  have hsub : (H₁ ++ H₂ ++ [x]).Sublist (H₁ ++ H₂ ++ x :: H') :=
    (List.Sublist.refl _).append ((List.nil_sublist H').cons_cons x)
  have htimes := (hsplit ▸ hsorted.groupTrace fp ci r key (corrEngineNew rules caps)).sublist
    (hsub.map GroupStep.ts)
  have hoks : ∀ i ∈ H₁.map GroupStep.input ++ H₂.map GroupStep.input ++ [x.input],
      InputOk r base times i := by
    intro i hi
    have hi' : i ∈ (H₁ ++ H₂ ++ [x]).map GroupStep.input := by
      rw [List.map_append, List.map_append]
      exact hi
    obtain ⟨y, hy, rfl⟩ := List.mem_map.mp hi'
    exact hok y (hsplit ▸ hsub.mem hy)
  have hts : (H₁.map GroupStep.input ++ H₂.map GroupStep.input ++ [x.input]).map GroupInput.ts =
      (H₁ ++ H₂ ++ [x]).map GroupStep.ts := by
    rw [List.map_append, List.map_append, List.map_append, List.map_append, List.map_map,
      List.map_map]
    rfl
  have hgone : ∀ i ∈ H₁.map GroupStep.input, ∀ j ∈ H₂.map GroupStep.input ++ [x.input],
      i.ts < j.ts - r.timespanS := by
    intro i hi j hj
    have hj' : j ∈ (H₂ ++ [x]).map GroupStep.input := by
      rw [List.map_append]
      exact hj
    obtain ⟨y, hy, rfl⟩ := List.mem_map.mp hi
    obtain ⟨z, hz, rfl⟩ := List.mem_map.mp hj'
    exact hpast hsorted hspared y hy z hz
  have hforget := hm.forgetful (timespanS_pos (ruleValid_of_admitted hr)).le
  have hanswer := hforget.answer hoks (hts ▸ htimes) hgone hactive
  have hmachine : x.answer = (groupMachine fp caps.withDefaults r
      (g.getD (groupNew caps.withDefaults.maxEventsPerGroup)) x.input).2 :=
    congrArg GroupStep.answer hx
  rw [hmachine, hlife.eq_groupAfter, getD_groupAfter, hanswer, List.map_append]

/-- A step of a partial that decides nothing fires nothing. -/
theorem fire_of_inert (hr : (admittedRules rules)[ci]? = some r) {x : GroupStep}
    (hx : x ∈ groupTrace fp ci r key (corrEngineNew rules caps) cs) (hok : InputOk r base times x.input)
    (hinert : x.input.isEvent = false) : x.fire = none := by
  obtain ⟨H, H', hsplit⟩ := List.append_of_mem hx
  obtain ⟨-, -, g, -, -, heq, -⟩ := groupTrace_life hr hsplit
  cases hi : x.input with
  | event hits value ts =>
    rw [hi] at hinert hok
    rw [isEvent_event hok.2.1] at hinert
    cases hinert
  | contrib c =>
    rw [hi] at hok heq
    rw [heq]
    have hfired := (Harmless.evalContrib hok fp caps.withDefaults
      { g.getD (groupNew caps.withDefaults.maxEventsPerGroup) with
        lastUpdate := c.ts, mergeRemote := true } (c.ts - r.timespanS)).1
    exact congrArg GroupOutcome.fire (if_pos hfired)

end Run

/-! ## The fires of a group

A fire is a decision that is not suppressed, and the deadline is part of the group; it goes with the
group when that is dropped.  A deadline lies at most one window after the fire, so it has passed by
then. -/

section Fires

variable (fp : Doubles) (ci : ℕ) (r : CorrRule) (key : List CStr)

/-- The steps of the group of `key` under correlation `ci`, each with its call. -/
def stepsBy : CorrEngine → List CorrCall → List (CorrCall × GroupStep)
  | _, [] => []
  | e, c :: cs =>
    ((c.stepFor ci r key (e.states.map CorrState.rule) (corrCall fp e c).2).toList.map (c, ·)) ++
      stepsBy (corrCall fp e c).1 cs

/-- The fires of the group of `key` under correlation `ci`, each with its call. -/
def firesBy : CorrEngine → List CorrCall → List (CorrCall × CorrFire)
  | _, [] => []
  | e, c :: cs =>
    ((corrCall fp e c).2.filter fun o => o.corr == ci && o.key == key).filterMap
        (fun o => (o.record (e.states.map CorrState.rule)).map (c, ·)) ++
      firesBy (corrCall fp e c).1 cs

/-- The record of a fire of the group. -/
def groupRecord (f : CorrFired) : CorrFire :=
  corrFire r (if 0 < r.groupBy.length then some key else none) f

/-- The events that reach the group of `key`, each with its call. -/
def eventsBy (rules : List CorrRule) (cs : List CorrCall) : List (CorrCall × GroupInput) :=
  (cs.filterMap fun c => (c.inputFor rules ci r key).map (c, ·)).filter fun p => p.2.isEvent

variable {fp ci r key} {rules : List CorrRule} {caps : CorrCaps} {e : CorrEngine}

theorem map_snd_stepsBy (e : CorrEngine) (cs : List CorrCall) :
    (stepsBy fp ci r key e cs).map Prod.snd = groupTrace fp ci r key e cs := by
  induction cs generalizing e with
  | nil => rfl
  | cons c cs ih =>
    rw [stepsBy, groupTrace, List.map_append, List.map_map, ih]
    exact congrArg (· ++ _) (List.map_id _)

/-- The inputs of the steps are those of the calls. -/
theorem map_input_stepsBy (h : EngineOk rules caps e) (hr : (admittedRules rules)[ci]? = some r)
    (cs : List CorrCall) :
    (stepsBy fp ci r key e cs).map (fun p => (p.1, p.2.input)) =
      cs.filterMap fun c => (c.inputFor (admittedRules rules) ci r key).map (c, ·) := by
  induction cs generalizing e with
  | nil => rfl
  | cons c cs ih =>
    obtain ⟨g, -, hinput, -⟩ := slot_corrCall fp h hr key c
    rw [stepsBy, h.states, List.map_append, ih (corrCall_effect fp h hr c).1]
    cases hi : c.inputFor (admittedRules rules) ci r key with
    | none =>
      rw [List.filterMap_cons_none (by rw [hi]; rfl), CorrCall.stepFor, hi]
      rfl
    | some i =>
      rw [List.filterMap_cons_some (by rw [hi]; rfl), (hinput i hi).2.2]
      rfl

/-- The fires of a run are those of the steps. -/
theorem firesBy_steps (h : EngineOk rules caps e) (hr : (admittedRules rules)[ci]? = some r)
    (cs : List CorrCall) :
    firesBy fp ci key e cs =
      (stepsBy fp ci r key e cs).filterMap fun p =>
        p.2.fire.map fun f => (p.1, groupRecord r key f) := by
  induction cs generalizing e with
  | nil => rfl
  | cons c cs ih =>
    have hrecord : ∀ o ∈ (corrCall fp e c).2.filter fun o => o.corr == ci && o.key == key,
        (o.record (e.states.map CorrState.rule)).map (c, ·) =
          o.fire.map fun f => (c, groupRecord r key f) := by
      intro o ho
      have hand := (List.mem_filter.mp ho).2
      rw [Bool.and_eq_true, beq_iff_eq, beq_iff_eq] at hand
      rw [CorrOutcome.record, CorrOutcome.fired, h.states, hand.1, hr, hand.2]
      cases o.fire <;> rfl
    have hcall : ((corrCall fp e c).2.filter fun o => o.corr == ci && o.key == key).filterMap
          (fun o => o.fire.map (c.ts, ·)) =
        (c.stepFor ci r key (admittedRules rules) (corrCall fp e c).2).toList.filterMap
          GroupStep.fired := outcomes_stepFor h hr c
    have hfires := congrArg (List.map fun p => (c, groupRecord r key p.2)) hcall
    rw [List.map_filterMap, List.map_filterMap] at hfires
    simp only [Option.map_map, GroupStep.fired] at hfires
    rw [firesBy, stepsBy, List.filterMap_append, ih (corrCall_effect fp h hr c).1, h.states,
      List.filterMap_map]
    refine congrArg (· ++ _) ?_
    rw [← h.states, List.filterMap_congr hrecord, h.states]
    exact hfires

/-- Steps that only fire on events fire what those answer. -/
theorem fires_of_inert {S : List (CorrCall × GroupStep)}
    (hinert : ∀ p ∈ S, p.2.input.isEvent = false → p.2.fire = none) :
    (S.filterMap fun p => p.2.fire.map fun f => (p.1, groupRecord r key f)).map
        (fun p => (p.1, p.2.observed)) =
      (S.filter fun p => p.2.input.isEvent).filterMap fun p => p.2.answer.2.map (p.1, ·) := by
  have hanswer : ∀ p : CorrCall × GroupStep,
      (p.2.fire.map fun f => (p.1, groupRecord r key f)).map (fun p => (p.1, p.2.observed)) =
        p.2.answer.2.map (p.1, ·) := by
    intro p
    rw [GroupStep.answer, Option.map_map, Option.map_map]
    rfl
  rw [List.map_filterMap, List.filterMap_filter]
  refine List.filterMap_congr fun p hp => ?_
  rw [hanswer]
  split
  · rfl
  · rename_i hfalse
    rw [GroupStep.answer, hinert p hp (eq_false_of_ne_true hfalse)]
    rfl

/-- **The fires of a group are a function of its events.** -/
theorem firesBy_eq {base : List UInt32} {times : Set ℚ} {Agree : ℚ → Group → Group → Prop}
    {Held : ℚ → Group → Prop} {cs : List CorrCall} (hr : (admittedRules rules)[ci]? = some r)
    (hm : Memory fp caps.withDefaults r base times Agree Held) (hsorted : TimeOrdered cs)
    (hspared : spared fp ci r key (corrEngineNew rules caps) cs = true)
    (hok : ∀ c ∈ cs, ∀ i, c.inputFor (admittedRules rules) ci r key = some i → InputOk r base times i) :
    (firesBy fp ci key (corrEngineNew rules caps) cs).map (fun p => (p.1, p.2.observed)) =
      (((eventsBy ci r key (admittedRules rules) cs).map Prod.fst).zip
        (replay fp caps.withDefaults r
          ((eventsBy ci r key (admittedRules rules) cs).map Prod.snd))).filterMap fun p =>
        p.2.2.map (p.1, ·) := by
  have hengine := engineOk_new rules caps
  have hsteps : (stepsBy fp ci r key (corrEngineNew rules caps) cs).map
        (fun p => (p.1, p.2.input)) =
      cs.filterMap fun c => (c.inputFor (admittedRules rules) ci r key).map (c, ·) :=
    map_input_stepsBy hengine hr cs
  have htrace : (stepsBy fp ci r key (corrEngineNew rules caps) cs).map Prod.snd =
      groupTrace fp ci r key (corrEngineNew rules caps) cs := map_snd_stepsBy _ cs
  have hfires : firesBy fp ci key (corrEngineNew rules caps) cs =
      (stepsBy fp ci r key (corrEngineNew rules caps) cs).filterMap fun p =>
        p.2.fire.map fun f => (p.1, groupRecord r key f) := firesBy_steps hengine hr cs
  have hoks : ∀ x ∈ groupTrace fp ci r key (corrEngineNew rules caps) cs,
      InputOk r base times x.input := by
    intro x hx
    obtain ⟨p, hp, rfl⟩ := List.mem_map.mp (htrace ▸ hx)
    have hmem := List.mem_map_of_mem (f := fun p : CorrCall × GroupStep => (p.1, p.2.input)) hp
    rw [hsteps] at hmem
    obtain ⟨c, hc, hi⟩ := List.mem_filterMap.mp hmem
    obtain ⟨i, hi, heq⟩ := Option.map_eq_some_iff.mp hi
    exact hok c hc p.2.input (hi.trans (congrArg (fun q => some q.2) heq))
  have hreplay := groupTrace_replay hr hm hsorted hspared hoks
  have hinert : ∀ p ∈ stepsBy fp ci r key (corrEngineNew rules caps) cs,
      p.2.input.isEvent = false → p.2.fire = none := by
    intro p hp hfalse
    have hx : p.2 ∈ groupTrace fp ci r key (corrEngineNew rules caps) cs :=
      htrace ▸ List.mem_map_of_mem hp
    exact fire_of_inert hr hx (hoks p.2 hx) hfalse
  generalize hS : stepsBy fp ci r key (corrEngineNew rules caps) cs = S at *
  have hevents : eventsBy ci r key (admittedRules rules) cs =
      (S.filter fun p => p.2.input.isEvent).map fun p => (p.1, p.2.input) := by
    rw [eventsBy, ← hsteps, List.filter_map]
    rfl
  have hanswers : replay fp caps.withDefaults r
        ((eventsBy ci r key (admittedRules rules) cs).map Prod.snd) =
      (S.filter fun p => p.2.input.isEvent).map fun p => p.2.answer := by
    rw [hevents, List.map_map]
    rw [← htrace, List.filter_map, List.map_map, List.map_map, List.filter_map] at hreplay
    exact hreplay.symm
  rw [hfires, fires_of_inert hinert, hanswers, hevents, List.map_map, List.zip_map',
    List.filterMap_map]
  rfl

end Fires

/-! ## The inputs of a group -/

section Inputs

variable {rules : List CorrRule} {ci : ℕ} {r : CorrRule} {key : List CStr} {c : CorrCall}
  {i : GroupInput}

/-- What a call is for a group: an event that hit a base rule, or a partial sent to the rule. -/
theorem inputFor_cases (hr : rules[ci]? = some r) (h : c.inputFor rules ci r key = some i) :
    (∃ ev : CorrEvent, i = ev.input r ∧ hitBuf r ev.rids ≠ []) ∨
      ∃ p field, c = .contribution p field ∧ i = .contrib p ∧ p.kind ≠ some .event ∧
        p.corrId = r.id := by
  have htarget := target_of_inputFor h
  cases c with
  | event ev apply => exact Or.inl ⟨ev, input_of_eventTarget htarget⟩
  | contribution p field =>
    rw [CorrCall.target] at htarget
    split at htarget
    · exact Or.inl ⟨_, input_of_eventTarget htarget⟩
    · rename_i hkind
      unfold contribTarget at htarget
      split at htarget
      · cases htarget
      · cases htarget
      · rename_i id _ hid
        split at htarget
        · rename_i hfound
          obtain ⟨k, -, hk⟩ := Option.map_eq_some_iff.mp htarget
          cases hk
          obtain ⟨hlt, hat, -⟩ := List.findIdx?_eq_some_iff_getElem.mp hfound.1
          obtain ⟨hlt', hget⟩ := List.getElem?_eq_some_iff.mp hr
          rw [hget, beq_iff_eq] at hat
          exact Or.inr ⟨p, field, rfl, rfl, hkind, hid.trans hat.symm⟩
        · cases htarget

/-- An input of the machine. -/
theorem inputOk_of_inputFor (hr : rules[ci]? = some r) (h : c.inputFor rules ci r key = some i)
    {base : List UInt32} {times : Set ℚ} (htime : c.ts ∈ times) (hbase : ∀ rid ∈ i.hits, rid ∈ base)
    (hpart : ∀ p field, c = .contribution p field → p.kind ≠ some .event → p.corrId = r.id →
      Harmless r p) : InputOk r base times i := by
  rcases inputFor_cases hr h with ⟨ev, rfl, hhits⟩ | ⟨p, field, rfl, rfl, hkind, hid⟩
  · have hts : ev.ts = c.ts := CorrCall.ts_of_inputFor h
    exact ⟨hts ▸ htime, hhits, hbase⟩
  · exact hpart p field rfl hkind hid

variable (rules ci r) in
/-- The groups that some calls reach, one key a call. -/
def keysSeen (cs : List CorrCall) : List (List CStr) :=
  cs.filterMap fun c => (c.target rules ci r).map Prod.fst

theorem mem_keysSeen {cs : List CorrCall} (hc : c ∈ cs) (h : c.inputFor rules ci r key = some i) :
    key ∈ keysSeen rules ci r cs := by
  refine List.mem_filterMap.mpr ⟨c, hc, ?_⟩
  rw [target_of_inputFor h]
  rfl

end Inputs

/-! ## Few groups

Isolation is stated for a rule that sees at most as many groups as it may hold, and this is the part
that uses it: an eviction needs a full map, and a full map holds every group there is but the new
one. -/

section Few

variable {fp : Doubles} {rules : List CorrRule} {caps : CorrCaps} {ci : ℕ}
  {r : CorrRule} {key : List CStr} {cs : List CorrCall}

/-- A group that exists was reached by a call. -/
theorem mem_keysSeen_of_slot (hr : (admittedRules rules)[ci]? = some r)
    (h : ((corrRun fp (corrEngineNew rules caps) cs).slot ci key).isSome = true) :
    key ∈ keysSeen (admittedRules rules) ci r cs := by
  obtain ⟨g, hg⟩ := Option.isSome_iff_exists.mp h
  obtain ⟨H₁, htrace, hlife, -⟩ := lifeRun_life fp caps key hr cs
  rw [hg] at hlife
  obtain ⟨x, hx, -⟩ := hlife.getLast?
  have hmem : x ∈ groupTrace fp ci r key (corrEngineNew rules caps) cs := by
    rw [htrace]
    exact List.mem_append_right _ (List.mem_of_getLast? hx)
  have hinput := List.mem_map_of_mem (f := GroupStep.input) hmem
  rw [groupTrace_inputs (engineOk_new rules caps) hr cs] at hinput
  obtain ⟨c, hc, hi⟩ := List.mem_filterMap.mp hinput
  exact mem_keysSeen hc hi

/-- The groups a rule has after a sweep were reached by calls. -/
theorem mem_keysSeen_of_lru (hr : (admittedRules rules)[ci]? = some r) {now : ℚ} {st : CorrState}
    (hst : ((corrRun fp (corrEngineNew rules caps) cs).sweepIfDue now).states[ci]? = some st)
    (hkey : key ∈ st.groups.lru) : key ∈ keysSeen (admittedRules rules) ci r cs := by
  have hengine := (engineOk_new rules caps).corrRun fp hr cs
  have hwf := (hengine.sweepIfDue now).wf st (List.mem_of_getElem? hst)
  have hget : (((corrRun fp (corrEngineNew rules caps) cs).sweepIfDue now).slot ci
      key).isSome = true := by
    rw [CorrEngine.slot, hst, Option.bind_some]
    exact hwf.get_isSome_iff.mpr hkey
  have hslot : ((corrRun fp (corrEngineNew rules caps) cs).slot ci key).isSome = true := by
    rcases hengine.slot_sweepIfDue hr now key with heq | heq
    · exact heq ▸ hget
    · rw [heq] at hget
      cases hslot : (corrRun fp (corrEngineNew rules caps) cs).slot ci key with
      | none =>
        rw [hslot] at hget
        cases hget
      | some g => rfl
  exact mem_keysSeen_of_slot hr hslot

/-- **A rule that sees few groups loses none.** -/
theorem spared_of_few (hr : (admittedRules rules)[ci]? = some r)
    (hfew : (keysSeen (admittedRules rules) ci r cs).toFinset.card ≤ caps.withDefaults.maxGroups) :
    spared fp ci r key (corrEngineNew rules caps) cs = true := by
  induction cs using List.reverseRecOn with
  | nil => rfl
  | append_singleton cs c ih =>
    have hkeys : keysSeen (admittedRules rules) ci r (cs ++ [c]) =
        keysSeen (admittedRules rules) ci r cs ++ keysSeen (admittedRules rules) ci r [c] :=
      List.filterMap_append
    have hsub : (keysSeen (admittedRules rules) ci r cs).toFinset ⊆
        (keysSeen (admittedRules rules) ci r (cs ++ [c])).toFinset := by
      rw [hkeys, List.toFinset_append]
      exact Finset.subset_union_left
    have hengine := (engineOk_new rules caps).corrRun fp hr cs
    rw [spared_append, ih ((Finset.card_le_card hsub).trans hfew), Bool.true_and, spared, spared,
      Bool.and_true, decide_eq_true_eq]
    intro hvictim
    obtain ⟨p, htarget, hvictim⟩ := Option.bind_eq_some_iff.mp hvictim
    obtain ⟨st, hst, hvictim⟩ := Option.bind_eq_some_iff.mp hvictim
    rw [hengine.states] at htarget
    have hwf := (hengine.sweepIfDue c.ts).wf st (List.mem_of_getElem? hst)
    unfold cstateVictim at hvictim
    split at hvictim
    · -- the group to be created would be one more than there may be
      rename_i hfull
      rw [Bool.and_eq_true, Option.isNone_iff_eq_none, hwf.get_eq_none_iff, decide_eq_true_eq,
        hengine.caps_eq, hwf.count_eq] at hfull
      have hnew : p.1 ∈ keysSeen (admittedRules rules) ci r [c] := by
        refine List.mem_filterMap.mpr ⟨c, List.mem_cons_self, ?_⟩
        rw [htarget]
        rfl
      have hall : (p.1 :: st.groups.lru).toFinset ⊆
          (keysSeen (admittedRules rules) ci r (cs ++ [c])).toFinset := by
        intro k hk
        rw [List.mem_toFinset, List.mem_cons] at hk
        rw [List.mem_toFinset, hkeys, List.mem_append]
        rcases hk with rfl | hk
        · exact Or.inr hnew
        · exact Or.inl (mem_keysSeen_of_lru hr hst hk)
      have hnodup : (p.1 :: st.groups.lru).Nodup :=
        List.nodup_cons.mpr ⟨hfull.1, hwf.lru_perm.nodup_iff.mpr hwf.nodup⟩
      have hcard := (Finset.card_le_card hall).trans hfew
      rw [List.toFinset_card_of_nodup hnodup, List.length_cons] at hcard
      omega
    · cases hvictim

end Few

/-! ## Isolation -/

section Isolation

variable {fp : Doubles} {rules : List CorrRule} {caps : CorrCaps} {ci : ℕ}
  {r : CorrRule} {key : List CStr} {evs : List CorrEvent}

variable (fp rules caps ci key) in
/-- The fires of the group of `key` under correlation `ci` in a run of local events: the event, the
observed number and the threshold of each. -/
def groupFires (evs : List CorrEvent) : List (CorrCall × Int × Int) :=
  (firesBy fp ci key (corrEngineNew rules caps) (localCalls evs)).map fun p =>
    (p.1, p.2.observed, p.2.threshold)

theorem firesBy_threshold (hr : (admittedRules rules)[ci]? = some r) (cs : List CorrCall) :
    (firesBy fp ci key (corrEngineNew rules caps) cs).map
        (fun p => (p.1, p.2.observed, p.2.threshold)) =
      ((firesBy fp ci key (corrEngineNew rules caps) cs).map
        (fun p => (p.1, p.2.observed))).map fun p => (p.1, p.2, r.condCount) := by
  rw [List.map_map]
  refine List.map_congr_left fun p hp => ?_
  rw [firesBy_steps (engineOk_new rules caps) hr] at hp
  obtain ⟨x, -, hx⟩ := List.mem_filterMap.mp hp
  obtain ⟨f, -, rfl⟩ := Option.map_eq_some_iff.mp hx
  rfl

variable (rules ci r key evs) in
/-- The events of a group reach no other. -/
theorem keysSeen_groupEvents :
    (keysSeen [r] 0 r (localCalls (groupEvents rules ci r key evs))).toFinset ⊆ {key} := by
  intro k hk
  obtain ⟨c, hc, htarget⟩ := List.mem_filterMap.mp (List.mem_toFinset.mp hk)
  obtain ⟨ev, hev, rfl⟩ := List.mem_map.mp hc
  obtain ⟨i, hi⟩ := Option.isSome_iff_exists.mp (List.mem_filter.mp hev).2
  have htarget' : (CorrCall.event ev none).target [r] 0 r = some (key, i) := target_of_inputFor hi
  rw [htarget'] at htarget
  exact Finset.mem_singleton.mpr (Option.some.inj htarget).symm

theorem maxGroups_pos (caps : CorrCaps) : 1 ≤ caps.withDefaults.maxGroups := by
  rw [CorrCaps.withDefaults]
  dsimp only
  split <;> omega

/-- The other events do not count for a group. -/
theorem filterMap_groupEvents {α : Type} (f : CorrCall → Option α)
    (hf : ∀ ev, (CorrCall.event ev none).inputFor rules ci r key = none →
      f (.event ev none) = none) (evs : List CorrEvent) :
    (localCalls (groupEvents rules ci r key evs)).filterMap f = (localCalls evs).filterMap f := by
  rw [localCalls, localCalls, List.filterMap_map, List.filterMap_map, groupEvents,
    List.filterMap_filter]
  refine List.filterMap_congr fun ev _ => ?_
  split
  · rfl
  · rename_i hnone
    rw [Option.not_isSome_iff_eq_none] at hnone
    exact (hf ev hnone).symm

/-- **Group isolation**: the fires of a group are those of an engine that holds its rule alone and
sees the events of the group alone. -/
theorem group_isolation (strtod : CStr → Option ℚ) (hr : (admittedRules rules)[ci]? = some r)
    (hbase : r.baseRuleIds.length ≤ corrMaxSeenRules) (hsorted : TimeOrdered (localCalls evs))
    (hwm : caps.watermarkS ≤ 0)
    (hfew : (keysSeen (admittedRules rules) ci r (localCalls evs)).toFinset.card ≤
      caps.withDefaults.maxGroups) :
    groupFires (.exact strtod) rules caps ci key evs =
      groupFires (.exact strtod) [r] caps 0 key (groupEvents (admittedRules rules) ci r key evs) := by
  have hrule : admittedRules [r] = [r] :=
    List.filter_cons_of_pos (List.mem_filter.mp (List.mem_of_getElem? hr)).2
  have hr' : (admittedRules [r])[0]? = some r := by rw [hrule, List.getElem?_cons_zero]
  obtain ⟨Agree, Held, hm⟩ : ∃ Agree Held,
      Memory (.exact strtod) caps.withDefaults r r.baseRuleIds Set.univ Agree Held :=
    exists_memory hr hwm (fun _ => hbase) fun hb =>
      epochsExpire_exact strtod hb (timespanS_pos (ruleValid_of_admitted hr))
  have hok : ∀ {rules' : List CorrRule} {ci' : ℕ} {evs' : List CorrEvent},
      rules'[ci']? = some r → ∀ c ∈ localCalls evs', ∀ i, c.inputFor rules' ci' r key = some i →
        InputOk r r.baseRuleIds Set.univ i := by
    intro rules' ci' evs' hr' c hc i hi
    obtain ⟨ev, -, rfl⟩ := List.mem_map.mp hc
    exact inputOk_of_inputFor hr' hi (Set.mem_univ _) (fun rid hrid => mem_base_of_inputFor hi hrid)
      fun p field heq => by cases heq
  have hsorted' : TimeOrdered (localCalls (groupEvents (admittedRules rules) ci r key evs)) :=
    hsorted.sublist ((List.filter_sublist.map _).map _)
  have hfew' : (keysSeen (admittedRules [r]) 0 r (localCalls (groupEvents (admittedRules rules) ci r
      key evs))).toFinset.card ≤ caps.withDefaults.maxGroups := by
    have hcard := Finset.card_le_card (keysSeen_groupEvents (admittedRules rules) ci r key evs)
    rw [hrule]
    exact hcard.trans (maxGroups_pos caps)
  have hevents : eventsBy 0 r key (admittedRules [r])
        (localCalls (groupEvents (admittedRules rules) ci r key evs)) =
      eventsBy ci r key (admittedRules rules) (localCalls evs) := by
    have hcalls := filterMap_groupEvents
      (fun c => (c.inputFor (admittedRules [r]) 0 r key).map (c, ·))
      (fun ev hnone => congrArg (Option.map _) (hnone : (CorrCall.event ev none).inputFor
        (admittedRules rules) ci r key = none)) evs
    rw [eventsBy, eventsBy, hcalls, localCalls, List.filterMap_map, List.filterMap_map]
    rfl
  rw [groupFires, groupFires, firesBy_threshold hr, firesBy_threshold hr',
    firesBy_eq hr hm hsorted (spared_of_few hr hfew) (hok hr),
    firesBy_eq hr' hm hsorted' (spared_of_few hr' hfew') (hok hr'), hevents]

end Isolation

/-- An event of user `b`. -/
def otherEvent (rid : UInt32) (ts : ℚ) : CorrEvent :=
  ⟨[rid], fun name => if name = cstr "user" then some (cstr "b") else none, ts⟩

/-- An event of one user does not show in the fires of another. -/
theorem group_isolation_sample :
    groupFires (.exact fun _ => none) [tripleRule, burstRule] capsZero 1 [cstr "a"]
        [userEvent 7 0, otherEvent 7 50, userEvent 7 70] =
      groupFires (.exact fun _ => none) [burstRule] capsZero 0 [cstr "a"]
        (groupEvents (admittedRules [tripleRule, burstRule]) 1 burstRule [cstr "a"]
          [userEvent 7 0, otherEvent 7 50, userEvent 7 70]) := by
  refine group_isolation (fun _ => none) rfl (by decide) ?_ (by decide) ?_
  · norm_num [TimeOrdered, localCalls, CorrCall.ts, userEvent, otherEvent]
  · decide +kernel

end LibSigma
