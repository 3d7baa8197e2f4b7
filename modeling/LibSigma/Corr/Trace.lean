import LibSigma.Corr.Index

/-!
# Calls, and what one call does to one group

The engine serves many correlations with many groups each, and most of what one wants to know is
about one group.  This module begins to take the engine apart: it says which group of a correlation
a call reaches, and what the call does to the rest.

## Targets

A call reaches at most one group of a correlation.  For an event it is found through the first
matched rule id that is among the base rules, by the group-by fields that this id has; for a partial
it is addressed by its `corr_id` and its values.  `CorrCall.target` computes it from the call and
the rule alone: no state is involved, so that the inputs of a group can be read off the calls
(`CorrCall.inputFor`).

The source finds the correlations of an event through an index of rule ids instead, and a
correlation may stand in it under several ids of one event.  That every target is found, and once,
is `LibSigma.Corr.Index`.

## Effects

To one correlation, a call does nothing but a sweep, or a sweep and one input (`CallEffect`).  An
input replaces the group that it reaches.  It can cost another group its place, if the map is full
(`cstateVictim`).  Everything else stays, and `EngineOk` is what an engine keeps all along: its
rules are the admitted ones, its maps are well formed, its index is that of the rules.

* `cstateInput_spec`: **one input of a correlation**.
* `corrCall_effect`: **what one call does to one correlation**.
-/

namespace LibSigma

open Library

/-! ## Calls

A call is for a group when its target is that group.  The target of an event under a correlation is
found without the engine: the first matched rule id among the base rules of the correlation says
from which fields the key is read.  So which calls are for a group is known from the calls alone. -/

/-- A call of `corr_on_event_apply` or of `corr_on_contribution`. -/
inductive CorrCall where
  | event (ev : CorrEvent) (apply : Option (CorrRule → List CStr → Bool))
  | contribution (c : CorrContrib) (field : CStr → Option CStr)

/-- The time of a call. -/
def CorrCall.ts : CorrCall → ℚ
  | .event ev _ => ev.ts
  | .contribution c _ => c.ts

/-- One call. -/
def corrCall (fp : Doubles) (e : CorrEngine) :
    CorrCall → CorrEngine × List CorrOutcome
  | .event ev apply => corrOnEventApply fp e ev apply
  | .contribution c field => corrOnContribution fp e c field

/-- The engine after some calls. -/
def corrRun (fp : Doubles) (e : CorrEngine) (cs : List CorrCall) : CorrEngine :=
  cs.foldl (fun e c => (corrCall fp e c).1) e

/-- The group an event reaches under a correlation, and the input it is there: the first matched
rule id among the base rules selects the fields of the key. -/
def eventTarget (r : CorrRule) (ev : CorrEvent) (apply : Option (CorrRule → List CStr → Bool)) :
    Option (List CStr × GroupInput) :=
  (ev.rids.find? fun rid => decide (rid ∈ r.baseRuleIds)).bind fun rid =>
    (resolveGroup r ev rid).bind fun key =>
      if apply.all fun f => f r key then some (key, ev.input r) else none

/-- The group a partial is addressed to. -/
def contribTarget (rules : List CorrRule) (ci : ℕ) (r : CorrRule) (c : CorrContrib) :
    Option (List CStr × GroupInput) :=
  match c.corrId with
  | none | some [] => none
  | some id =>
    if rules.findIdx? (fun r => r.id == some id) = some ci ∧ c.groupVals.length = r.groupBy.length
    then (c.groupVals.mapM fun v => v).map fun key => (key, .contrib c)
    else none

/-- The group of correlation `ci` that a call reaches. -/
def CorrCall.target (rules : List CorrRule) (ci : ℕ) (r : CorrRule) :
    CorrCall → Option (List CStr × GroupInput)
  | .event ev apply => eventTarget r ev apply
  | .contribution c field =>
    if c.kind = some .event then eventTarget r ⟨c.rids, field, c.ts⟩ none
    else contribTarget rules ci r c

/-- The input a call is for the group of `key`. -/
def CorrCall.inputFor (rules : List CorrRule) (ci : ℕ) (r : CorrRule) (key : List CStr)
    (c : CorrCall) : Option GroupInput :=
  (c.target rules ci r).bind fun p => if p.1 = key then some p.2 else none

section Target

variable {rules : List CorrRule} {ci : ℕ} {r : CorrRule} {key : List CStr} {i : GroupInput}

/-- What an event is for a group it reaches: it hit a base rule. -/
theorem input_of_eventTarget {ev : CorrEvent} {apply : Option (CorrRule → List CStr → Bool)}
    (h : eventTarget r ev apply = some (key, i)) :
    i = ev.input r ∧ hitBuf r ev.rids ≠ [] := by
  obtain ⟨rid, hrid, h⟩ := Option.bind_eq_some_iff.mp h
  obtain ⟨key', -, h⟩ := Option.bind_eq_some_iff.mp h
  split at h
  · cases h
    have hdec := List.find?_some hrid
    exact ⟨rfl, hitBuf_ne_nil (List.mem_of_find?_eq_some hrid) (of_decide_eq_true hdec)⟩
  · cases h

/-- A partial is addressed to a group as it is. -/
theorem contrib_of_contribTarget {c : CorrContrib}
    (h : contribTarget rules ci r c = some (key, i)) : i = .contrib c := by
  unfold contribTarget at h
  split at h
  · cases h
  · cases h
  · split at h
    · obtain ⟨k, -, hk⟩ := Option.map_eq_some_iff.mp h
      cases hk
      rfl
    · cases h

/-- A call is that of an event, or of a partial that carries none. -/
theorem CorrCall.event_or_partial (c : CorrCall) :
    (∃ ev apply, ev.ts = c.ts ∧ (∀ rules ci r, c.target rules ci r = eventTarget r ev apply) ∧
      ∀ fp e, corrCall fp e c = corrOnEventApply fp e ev apply) ∨
    ∃ c' field, c = .contribution c' field ∧ c'.kind ≠ some .event := by
  cases c with
  | event ev apply => exact .inl ⟨ev, apply, rfl, fun _ _ _ => rfl, fun _ _ => rfl⟩
  | contribution c' field =>
    by_cases hkind : c'.kind = some .event
    · exact .inl ⟨⟨c'.rids, field, c'.ts⟩, none, rfl, fun _ _ _ => if_pos hkind,
        fun _ _ => if_pos hkind⟩
    · exact .inr ⟨c', field, rfl, hkind⟩

/-- What a call is for a group it is addressed to: an event that hit a base rule, or the partial. -/
theorem input_of_target {c : CorrCall} (h : c.target rules ci r = some (key, i)) :
    (∃ ev : CorrEvent, ev.ts = c.ts ∧ i = ev.input r ∧ hitBuf r ev.rids ≠ []) ∨
      ∃ c' field, c = .contribution c' field ∧ i = .contrib c' := by
  rcases c.event_or_partial with ⟨ev, apply, hts, hevent, -⟩ | ⟨c', field, rfl, hkind⟩
  · rw [hevent] at h
    exact .inl ⟨ev, hts, input_of_eventTarget h⟩
  · rw [CorrCall.target, if_neg hkind] at h
    exact .inr ⟨c', field, rfl, contrib_of_contribTarget h⟩

/-- The input a call is for a group was addressed to it. -/
theorem target_of_inputFor {c : CorrCall}
    (h : c.inputFor rules ci r key = some i) : c.target rules ci r = some (key, i) := by
  obtain ⟨⟨key', i'⟩, htarget, hkey⟩ := Option.bind_eq_some_iff.mp h
  split at hkey
  · rename_i heq
    cases heq
    cases hkey
    exact htarget
  · cases hkey

end Target

/-! ## One correlation

What an input does to the map of groups: its own group is replaced, at the cap another one is
evicted, and no other is touched. -/

/-- The group that the admission of `key` evicts. -/
def cstateVictim (caps : CorrCaps) (groups : HashLru (List CStr) Group) (key : List CStr) :
    Option (List CStr) :=
  if (groups.get hashGroupKey key).isNone && decide (caps.maxGroups ≤ groups.count) then
    groups.lru.head?
  else none

/-- One input on a group that may not exist yet. -/
def groupApply (fp : Doubles) (caps : CorrCaps) (r : CorrRule) (g : Option Group)
    (i : GroupInput) : GroupOutcome :=
  groupInput fp caps r (g.getD (groupNew caps.maxEventsPerGroup)) i

section Input

variable (fp : Doubles) (caps : CorrCaps)

theorem cstateGetOrCreate_spec {groups : HashLru (List CStr) Group} (h : groups.Wf hashGroupKey)
    (key : List CStr) :
    (cstateGetOrCreate caps groups key).1.Wf hashGroupKey ∧
      (cstateGetOrCreate caps groups key).2.1 =
        (groups.get hashGroupKey key).getD (groupNew caps.maxEventsPerGroup) ∧
      ∀ k, (cstateGetOrCreate caps groups key).1.get hashGroupKey k =
        if k = key then some (cstateGetOrCreate caps groups key).2.1
        else if cstateVictim caps groups key = some k then none else groups.get hashGroupKey k := by
  unfold cstateGetOrCreate cstateVictim
  cases hget : groups.get hashGroupKey key with
  | some g =>
    have hmem : key ∈ groups.lru := h.get_isSome_iff.mp (by rw [hget]; rfl)
    refine ⟨h.touch hmem, rfl, fun k => ?_⟩
    rw [HashLru.get_touch]
    by_cases hk : k = key <;> simp [hk, hget]
  | none =>
    have hmem : key ∉ groups.lru := h.get_eq_none_iff.mp hget
    by_cases hfull : (decide (caps.maxGroups ≤ groups.count) && !groups.lru.isEmpty) = true
    · obtain ⟨hcap, -⟩ := (Bool.and_eq_true _ _ ▸ hfull)
      obtain ⟨hwf, hlru, -⟩ := h.evict
      have hmem' : key ∉ (groups.evict hashGroupKey).lru := fun hin =>
        hmem (List.mem_of_mem_tail (hlru ▸ hin))
      simp only [if_pos hfull]
      refine ⟨hwf.insert hmem' _, rfl, fun k => ?_⟩
      rw [hwf.get_insert hmem', h.get_evict]
      simp [hcap]
    · have hvictim : ∀ k, ¬ (if (Option.isNone (none : Option Group) &&
          decide (caps.maxGroups ≤ groups.count)) = true then groups.lru.head? else none) =
          some k := by
        intro k hk
        split at hk
        · rename_i hcap
          have hnil : groups.lru = [] := by
            have hle : caps.maxGroups ≤ groups.count := by simpa using hcap
            simpa [hle] using hfull
          rw [hnil] at hk
          exact absurd hk (by simp)
        · exact absurd hk (by simp)
      simp only [if_neg hfull]
      refine ⟨h.insert hmem _, rfl, fun k => ?_⟩
      rw [h.get_insert hmem, if_neg (hvictim k)]

/-- **One input of a correlation**: its group is replaced, a victim is lost, the rest stays. -/
theorem cstateInput_spec {st : CorrState} (h : st.groups.Wf hashGroupKey) (key : List CStr)
    (i : GroupInput) :
    let o := groupApply fp caps st.rule (st.groups.get hashGroupKey key) i
    (cstateInput fp caps st key i).1.rule = st.rule ∧
      (cstateInput fp caps st key i).1.groups.Wf hashGroupKey ∧
      (cstateInput fp caps st key i).2.decided = o.decided ∧
      (cstateInput fp caps st key i).2.fire = o.fire ∧
      ∀ k, (cstateInput fp caps st key i).1.groups.get hashGroupKey k =
        if k = key then some o.group
        else if cstateVictim caps st.groups key = some k then none
        else st.groups.get hashGroupKey k := by
  obtain ⟨hwf, hg, hget⟩ := cstateGetOrCreate_spec caps h key
  refine ⟨rfl, hwf.set _ _, ?_, ?_, fun k => ?_⟩
  · rw [groupApply, ← hg]
    rfl
  · rw [groupApply, ← hg]
    rfl
  · simp only [cstateInput]
    rw [hwf.get_set]
    by_cases hk : k = key
    · rw [if_pos hk, if_pos hk, hget, if_pos rfl, Option.map_some, hg]
      rfl
    · rw [if_neg hk, if_neg hk, hget, if_neg hk]

end Input

/-! ## One call

What a call does to one correlation, whatever it does to the others: a sweep or not, and then at
most one input.  `EngineOk` has what is needed for it and is kept by every call: the rules are those
the engine was built from, the maps are well formed, and the index has an entry for each rule id and
correlation. -/

/-- What an engine built from `rules` keeps. -/
structure EngineOk (rules : List CorrRule) (caps : CorrCaps) (e : CorrEngine) : Prop where
  states : e.states.map CorrState.rule = admittedRules rules
  wf : ∀ st ∈ e.states, st.groups.Wf hashGroupKey
  caps_eq : e.caps = caps.withDefaults
  index : e.ridBuckets = (corrEngineNew rules caps).ridBuckets

theorem engineOk_new (rules : List CorrRule) (caps : CorrCaps) :
    EngineOk rules caps (corrEngineNew rules caps) := by
  refine ⟨?_, ?_, rfl, rfl⟩
  · simp [corrEngineNew, admittedRules, Function.comp_def]
  · intro st hst
    obtain ⟨r, -, rfl⟩ := List.mem_map.mp hst
    exact HashLru.wf_empty (by decide)

section Call

variable {rules : List CorrRule} {caps : CorrCaps} {e : CorrEngine}

theorem EngineOk.rule_of_state (h : EngineOk rules caps e) {ci : ℕ} {st : CorrState}
    (hst : e.states[ci]? = some st) : (admittedRules rules)[ci]? = some st.rule := by
  rw [← h.states, List.getElem?_map, hst]
  rfl

theorem EngineOk.state_of_rule (h : EngineOk rules caps e) {ci : ℕ} {r : CorrRule}
    (hr : (admittedRules rules)[ci]? = some r) : ∃ st, e.states[ci]? = some st ∧ st.rule = r := by
  rw [← h.states, List.getElem?_map] at hr
  exact Option.map_eq_some_iff.mp hr

/-- An id is looked up among the states as among the rules. -/
theorem EngineOk.findIdx?_states (h : EngineOk rules caps e) (id : CStr) :
    (e.states.findIdx? fun st => st.rule.id == some id) =
      (admittedRules rules).findIdx? fun r => r.id == some id := by
  rw [← h.states, List.findIdx?_map]
  rfl

/-- An admitted rule is valid. -/
theorem ruleValid_of_admitted {ci : ℕ} {r : CorrRule} (hr : (admittedRules rules)[ci]? = some r) :
    ruleValid r = true := by
  have hadm := (List.mem_filter.mp (List.mem_of_getElem? hr)).2
  rw [CorrRule.admitted, Bool.and_eq_true] at hadm
  exact hadm.2

theorem timespanS_pos {r : CorrRule} (h : ruleValid r = true) : 0 < r.timespanS := by
  unfold ruleValid at h
  cases htype : r.type with
  | none => simp [htype] at h
  | some type =>
    simp only [htype, Bool.and_eq_true, decide_eq_true_eq] at h
    tauto

/-- A valid rule has base rules. -/
theorem baseRuleIds_ne_nil {r : CorrRule} (h : ruleValid r = true) : r.baseRuleIds ≠ [] := by
  unfold ruleValid at h
  cases htype : r.type with
  | none => simp [htype] at h
  | some type =>
    simp only [htype, Bool.and_eq_true, Bool.not_eq_true', List.isEmpty_eq_false_iff] at h
    tauto

/-- The sweep drops the expired groups of every correlation, or does nothing. -/
theorem sweepIfDue_states (e : CorrEngine) (now : ℚ) :
    (e.sweepIfDue now).states = e.states ∨
      (e.sweepIfDue now).states = e.states.map fun st =>
        if 0 < st.rule.timespanS then cstateDropExpired st (now - st.rule.timespanS) else st := by
  unfold CorrEngine.sweepIfDue
  split
  · exact Or.inl rfl
  · split
    · exact Or.inl rfl
    · exact Or.inr rfl

@[simp] theorem sweepIfDue_caps (e : CorrEngine) (now : ℚ) :
    (e.sweepIfDue now).caps = e.caps := by
  unfold CorrEngine.sweepIfDue
  split_ifs <;> rfl

@[simp] theorem sweepIfDue_ridBuckets (e : CorrEngine) (now : ℚ) :
    (e.sweepIfDue now).ridBuckets = e.ridBuckets := by
  unfold CorrEngine.sweepIfDue
  split_ifs <;> rfl

theorem EngineOk.sweepIfDue (h : EngineOk rules caps e) (now : ℚ) :
    EngineOk rules caps (e.sweepIfDue now) := by
  refine ⟨?_, ?_, by rw [sweepIfDue_caps, h.caps_eq], by rw [sweepIfDue_ridBuckets, h.index]⟩
  · rcases sweepIfDue_states e now with heq | heq
    · rw [heq, h.states]
    · rw [heq, List.map_map, ← h.states]
      refine List.map_congr_left fun st _ => ?_
      rw [Function.comp_apply]
      split <;> rfl
  · intro st hst
    rcases sweepIfDue_states e now with heq | heq
    · exact h.wf st (heq ▸ hst)
    · rw [heq] at hst
      obtain ⟨st₀, hst₀, rfl⟩ := List.mem_map.mp hst
      split
      · exact ((h.wf st₀ hst₀).dropWhere _).1
      · exact h.wf st₀ hst₀

/-- The group of `key` under correlation `ci`. -/
def CorrEngine.slot (e : CorrEngine) (ci : ℕ) (key : List CStr) : Option Group :=
  e.states[ci]?.bind fun st => st.groups.get hashGroupKey key

/-- A sweep at `now` drops the group if it is expired, or does nothing. -/
theorem EngineOk.slot_sweepIfDue (h : EngineOk rules caps e) {ci : ℕ} {r : CorrRule}
    (hr : (admittedRules rules)[ci]? = some r) (now : ℚ) (key : List CStr) :
    (e.sweepIfDue now).slot ci key = e.slot ci key ∨
      (e.sweepIfDue now).slot ci key =
        (e.slot ci key).filter fun g => !decide (g.lastUpdate < now - r.timespanS) := by
  obtain ⟨st, hst, hrule⟩ := h.state_of_rule hr
  rcases sweepIfDue_states e now with heq | heq
  · exact Or.inl (by rw [CorrEngine.slot, CorrEngine.slot, heq])
  · have hpos : 0 < st.rule.timespanS := by
      rw [hrule]
      exact timespanS_pos (ruleValid_of_admitted hr)
    right
    rw [CorrEngine.slot, CorrEngine.slot, heq, List.getElem?_map, hst, Option.map_some, if_pos hpos]
    exact hrule ▸ ((h.wf st (List.mem_of_getElem? hst)).dropWhere _).2.2 key

variable (fp : Doubles)

/-- A state with the same rule leaves the rules as they are. -/
theorem map_rule_set {sts : List CorrState} {ci : ℕ} {st st' : CorrState}
    (hst : sts[ci]? = some st) (hrule : st'.rule = st.rule) :
    (sts.set ci st').map CorrState.rule = sts.map CorrState.rule := by
  obtain ⟨hlt, hget⟩ := List.getElem?_eq_some_iff.mp hst
  have hlt' : ci < (sts.map CorrState.rule).length := by rwa [List.length_map]
  have hself : st.rule = (sts.map CorrState.rule)[ci] := by rw [List.getElem_map, hget]
  rw [List.map_set, hrule, hself, List.set_getElem_self]

/-- The loop keeps the rules and the maps well-formed. -/
theorem visitStep_ok {caps : CorrCaps} {ev : CorrEvent}
    {apply : Option (CorrRule → List CStr → Bool)} {acc : VisitState} (p : UInt32 × ℕ)
    (h : ∀ st ∈ acc.states, st.groups.Wf hashGroupKey) :
    (visitStep fp caps ev apply acc p).states.map CorrState.rule =
        acc.states.map CorrState.rule ∧
      ∀ st ∈ (visitStep fp caps ev apply acc p).states, st.groups.Wf hashGroupKey := by
  unfold visitStep
  split
  · exact ⟨rfl, h⟩
  · simp only
    split
    · exact ⟨rfl, h⟩
    · rename_i st hst
      split
      · exact ⟨rfl, h⟩
      · rename_i key _
        split
        · obtain ⟨hrule, hwf, -⟩ := cstateInput_spec fp caps (h st (List.mem_of_getElem? hst)) key
            (ev.input st.rule)
          refine ⟨map_rule_set hst hrule, fun st' hst' => ?_⟩
          rcases List.mem_or_eq_of_mem_set hst' with hmem | rfl
          · exact h st' hmem
          · exact hwf
        · exact ⟨rfl, h⟩

theorem visitFold_ok (caps : CorrCaps) (ev : CorrEvent)
    (apply : Option (CorrRule → List CStr → Bool)) (ps : List (UInt32 × ℕ)) (acc : VisitState)
    (h : ∀ st ∈ acc.states, st.groups.Wf hashGroupKey) :
    (ps.foldl (visitStep fp caps ev apply) acc).states.map CorrState.rule =
        acc.states.map CorrState.rule ∧
      ∀ st ∈ (ps.foldl (visitStep fp caps ev apply) acc).states,
        st.groups.Wf hashGroupKey := by
  induction ps generalizing acc with
  | nil => exact ⟨rfl, h⟩
  | cons p ps ih =>
    obtain ⟨hrule, hwf⟩ := visitStep_ok fp p h
    obtain ⟨hrules, hwfs⟩ := ih _ hwf
    exact ⟨hrules.trans hrule, hwfs⟩

/-- What one call does to correlation `ci`: nothing but a sweep, or an input for one group. -/
structure CallEffect (e e' : CorrEngine) (caps : CorrCaps) (ci : ℕ) (now : ℚ)
    (target : Option (List CStr × GroupInput)) (os : List CorrOutcome) : Prop where
  idle : target = none → (e'.states[ci]? = e.states[ci]? ∨
    e'.states[ci]? = (e.sweepIfDue now).states[ci]?) ∧ outcomesOf ci os = []
  input : ∀ key i, target = some (key, i) → ∃ st, (e.sweepIfDue now).states[ci]? = some st ∧
    e'.states[ci]? = some (cstateInput fp caps st key i).1 ∧
    outcomesOf ci os = [corrOutcome ci (key, (cstateInput fp caps st key i).2)]

/-- The first entry of the index for `ci`: the first matched rule id among its base rules. -/
theorem EngineOk.find_watch (h : EngineOk rules caps e) {ci : ℕ} {r : CorrRule}
    (hr : (admittedRules rules)[ci]? = some r) (rids : List UInt32) :
    (rids.flatMap fun rid => (ridIndexFind e.ridBuckets rid).map (rid, ·)).find?
        (fun p => p.2 == ci) =
      (rids.find? fun rid => decide (rid ∈ r.baseRuleIds)).map (·, ci) := by
  induction rids with
  | nil => rfl
  | cons rid rids ih =>
    have hwatch : ci ∈ ridIndexFind e.ridBuckets rid ↔ rid ∈ r.baseRuleIds := by
      rw [h.index, mem_ridIndexFind]
      constructor
      · intro hex
        obtain ⟨r', hr', hrid⟩ := hex
        cases hr.symm.trans hr'
        exact hrid
      · exact fun hrid => ⟨r, hr, hrid⟩
    rw [List.flatMap_cons, List.find?_append, ih, List.find?_cons]
    by_cases hrid : rid ∈ r.baseRuleIds
    · have hhead : ((ridIndexFind e.ridBuckets rid).map (rid, ·)).find? (fun p => p.2 == ci) =
          some (rid, ci) := by
        cases hfind : ((ridIndexFind e.ridBuckets rid).map (rid, ·)).find? fun p => p.2 == ci with
        | none =>
          have hmem := List.mem_map_of_mem (f := (rid, ·)) (hwatch.mpr hrid)
          exact absurd (beq_self_eq_true ci) (List.find?_eq_none.mp hfind _ hmem)
        | some p =>
          obtain ⟨c, -, rfl⟩ := List.mem_map.mp (List.mem_of_find?_eq_some hfind)
          have hc := List.find?_some hfind
          rw [beq_iff_eq] at hc
          exact congrArg (fun c => some (rid, c)) hc
      rw [hhead]
      simp [hrid]
    · have hhead : ((ridIndexFind e.ridBuckets rid).map (rid, ·)).find? (fun p => p.2 == ci) =
          none := by
        rw [List.find?_eq_none]
        intro p hp hci
        obtain ⟨c, hc, rfl⟩ := List.mem_map.mp hp
        exact hrid (hwatch.mp (beq_iff_eq.mp hci ▸ hc))
      rw [hhead]
      simp [hrid]

theorem corrOnEventApply_effect (h : EngineOk rules caps e) {ci : ℕ} {r : CorrRule}
    (hr : (admittedRules rules)[ci]? = some r) (ev : CorrEvent)
    (apply : Option (CorrRule → List CStr → Bool)) :
    EngineOk rules caps (corrOnEventApply fp e ev apply).1 ∧
      CallEffect fp e (corrOnEventApply fp e ev apply).1 caps.withDefaults ci ev.ts
        (eventTarget r ev apply) (corrOnEventApply fp e ev apply).2 := by
  unfold corrOnEventApply
  by_cases hempty : e.states.length = 0 ∨ ev.rids.length = 0
  · rw [if_pos hempty]
    refine ⟨h, fun _ => ⟨Or.inl rfl, rfl⟩, fun key i htarget => ?_⟩
    obtain ⟨st, hst, -⟩ := h.state_of_rule hr
    rcases hempty with hlen | hlen
    · rw [List.length_eq_zero_iff.mp hlen] at hst
      exact absurd hst (by simp)
    · rw [eventTarget, List.length_eq_zero_iff.mp hlen] at htarget
      exact absurd htarget (by simp)
  · rw [if_neg hempty]
    have hok := h.sweepIfDue ev.ts
    obtain ⟨st, hst, hrule⟩ := hok.state_of_rule hr
    simp only
    have hstart := visit_fold fp (e.sweepIfDue ev.ts).caps ev apply
      (ev.rids.flatMap fun rid => (ridIndexFind (e.sweepIfDue ev.ts).ridBuckets rid).map (rid, ·))
      ⟨(e.sweepIfDue ev.ts).states, [], [], []⟩ hst List.not_mem_nil
    obtain ⟨hstate, hout⟩ := hstart
    obtain ⟨hrules, hwf⟩ := visitFold_ok fp (e.sweepIfDue ev.ts).caps ev apply
      (ev.rids.flatMap fun rid => (ridIndexFind (e.sweepIfDue ev.ts).ridBuckets rid).map (rid, ·))
      ⟨(e.sweepIfDue ev.ts).states, [], [], []⟩ hok.wf
    rw [hok.find_watch hr] at hstate hout
    rw [hok.caps_eq] at hstate hout hrules hwf ⊢
    refine ⟨⟨hrules.trans hok.states, hwf, rfl, hok.index⟩, fun htarget => ?_,
      fun key i htarget => ?_⟩
    · cases hrid : ev.rids.find? fun rid => decide (rid ∈ r.baseRuleIds) with
      | none =>
        rw [hrid] at hstate hout
        exact ⟨Or.inr (hstate.trans hst.symm), hout⟩
      | some rid =>
        rw [eventTarget, hrid, Option.bind_some] at htarget
        have hvisit : visitOne fp caps.withDefaults ev apply st rid = (st, none) := by
          unfold visitOne
          rw [hrule]
          cases hkey : resolveGroup r ev rid with
          | none => rfl
          | some key =>
            rw [hkey, Option.bind_some] at htarget
            have happly : ¬ (apply.all fun f => f r key) = true := fun hall => by
              rw [if_pos hall] at htarget
              exact absurd htarget (by simp)
            simp only [if_neg happly]
        rw [hrid] at hstate hout
        simp only [Option.map_some, Option.getD_some, Option.bind_some, hvisit] at hstate hout
        exact ⟨Or.inr (hstate.trans hst.symm), hout⟩
    · rw [eventTarget] at htarget
      obtain ⟨rid, hrid, htarget⟩ := Option.bind_eq_some_iff.mp htarget
      obtain ⟨key', hkey, htarget⟩ := Option.bind_eq_some_iff.mp htarget
      split at htarget
      · rename_i hall
        cases htarget
        have hvisit : visitOne fp caps.withDefaults ev apply st rid =
            ((cstateInput fp caps.withDefaults st key (ev.input r)).1,
              some (key, (cstateInput fp caps.withDefaults st key (ev.input r)).2)) := by
          unfold visitOne
          rw [hrule, hkey]
          simp only [if_pos hall]
        rw [hrid] at hstate hout
        simp only [Option.map_some, Option.getD_some, Option.bind_some, hvisit] at hstate hout
        exact ⟨st, hst, hstate, hout⟩
      · exact absurd htarget (by simp)

theorem EngineOk.inc (h : EngineOk rules caps e) (incs : List CorrCounter) :
    EngineOk rules caps (e.inc incs) := ⟨h.states, h.wf, h.caps_eq, h.index⟩

/-- Replacing the groups of one correlation. -/
theorem EngineOk.set (h : EngineOk rules caps e) {ci : ℕ} {st st' : CorrState}
    (hst : e.states[ci]? = some st) (hrule : st'.rule = st.rule)
    (hwf : st'.groups.Wf hashGroupKey) :
    EngineOk rules caps { e with states := e.states.set ci st' } := by
  refine ⟨?_, fun st₀ hst₀ => ?_, h.caps_eq, h.index⟩
  · rw [← h.states]
    exact map_rule_set hst hrule
  · rcases List.mem_or_eq_of_mem_set hst₀ with hmem | rfl
    · exact h.wf st₀ hmem
    · exact hwf

theorem corrOnContribution_effect (h : EngineOk rules caps e) {ci : ℕ} {r : CorrRule}
    (hr : (admittedRules rules)[ci]? = some r) {c : CorrContrib} (hkind : c.kind ≠ some .event)
    (field : CStr → Option CStr) :
    EngineOk rules caps (corrOnContribution fp e c field).1 ∧
      CallEffect fp e (corrOnContribution fp e c field).1 caps.withDefaults ci c.ts
        (contribTarget (admittedRules rules) ci r c) (corrOnContribution fp e c field).2 := by
  have hok := h.sweepIfDue c.ts
  obtain ⟨st, hst, hrule⟩ := hok.state_of_rule hr
  unfold corrOnContribution contribTarget
  rw [if_neg hkind]
  cases hid : c.corrId with
  | none => exact ⟨h, fun _ => ⟨Or.inl rfl, rfl⟩, fun key i htarget => by cases htarget⟩
  | some id =>
    cases id with
    | nil => exact ⟨h, fun _ => ⟨Or.inl rfl, rfl⟩, fun key i htarget => by cases htarget⟩
    | cons b bs =>
      have hfind : ((e.sweepIfDue c.ts).states.findIdx? fun st => st.rule.id == some (b :: bs)) =
          (admittedRules rules).findIdx? fun r => r.id == some (b :: bs) := by
        rw [← hok.states, List.findIdx?_map]
        rfl
      -- a call that reaches no group, or that of another correlation
      have hidle : ∀ (e' : CorrEngine) (os : List CorrOutcome),
          e'.states[ci]? = (e.sweepIfDue c.ts).states[ci]? → outcomesOf ci os = [] →
          CallEffect fp e e' caps.withDefaults ci c.ts none os :=
        fun e' os hstates hos => ⟨fun _ => ⟨Or.inr hstates, hos⟩, fun key i htarget => by cases htarget⟩
      simp only [hfind]
      cases hcj : (admittedRules rules).findIdx? fun r => r.id == some (b :: bs) with
      | none =>
        rw [if_neg (fun hand => by cases hand.1)]
        exact ⟨hok, hidle _ _ rfl rfl⟩
      | some cj =>
        obtain ⟨hlt, -⟩ := List.findIdx?_eq_some_iff_getElem.mp hcj
        obtain ⟨st', hst', -⟩ := hok.state_of_rule (List.getElem?_eq_getElem hlt)
        have hinput := cstateInput_spec fp (e.sweepIfDue c.ts).caps
          (hok.wf st' (List.mem_of_getElem? hst'))
        simp only [hst']
        by_cases hci : cj = ci
        · subst hci
          cases hst.symm.trans hst'
          rw [hrule]
          by_cases hlen : c.groupVals.length = r.groupBy.length
          · rw [if_neg (fun hne => hne hlen), if_pos ⟨rfl, hlen⟩]
            cases hkey : c.groupVals.mapM fun v => v with
            | none => exact ⟨hok.inc _, hidle _ _ rfl rfl⟩
            | some key =>
              obtain ⟨hsame, hwf, -⟩ := hinput key (.contrib c)
              obtain ⟨hlt', -⟩ := List.getElem?_eq_some_iff.mp hst
              refine ⟨(hok.set hst hsame hwf).inc _, fun htarget => (by cases htarget), ?_⟩
              intro key' i htarget
              cases htarget
              rw [← hok.caps_eq]
              exact ⟨st, hst, List.getElem?_set_self hlt', by simp [outcomesOf, corrOutcome]⟩
          · rw [if_pos hlen, if_neg (fun hand => hlen hand.2)]
            exact ⟨hok.inc _, hidle _ _ rfl rfl⟩
        · have hnot : ¬ (some cj = some ci ∧ c.groupVals.length = r.groupBy.length) :=
            fun hand => hci (Option.some.inj hand.1)
          rw [if_neg hnot]
          split
          · exact ⟨hok.inc _, hidle _ _ rfl rfl⟩
          · split
            · exact ⟨hok.inc _, hidle _ _ rfl rfl⟩
            · rename_i _ key _
              obtain ⟨hsame, hwf, -⟩ := hinput key (.contrib c)
              exact ⟨(hok.set hst' hsame hwf).inc _,
                hidle _ _ (List.getElem?_set_ne hci) (by simp [outcomesOf, hci])⟩

/-- **What one call does to one correlation.** -/
theorem corrCall_effect (h : EngineOk rules caps e) {ci : ℕ} {r : CorrRule}
    (hr : (admittedRules rules)[ci]? = some r) (c : CorrCall) :
    EngineOk rules caps (corrCall fp e c).1 ∧
      CallEffect fp e (corrCall fp e c).1 caps.withDefaults ci c.ts
        (c.target (admittedRules rules) ci r) (corrCall fp e c).2 := by
  cases c with
  | event ev apply => exact corrOnEventApply_effect fp h hr ev apply
  | contribution c field =>
    by_cases hkind : c.kind = some .event
    · have hcall : corrCall fp e (.contribution c field) =
          corrOnEventApply fp e ⟨c.rids, field, c.ts⟩ none := by
        rw [corrCall, corrOnContribution, if_pos hkind, corrOnEvent]
      rw [hcall, CorrCall.target, if_pos hkind]
      exact corrOnEventApply_effect fp h hr _ none
    · rw [CorrCall.target, if_neg hkind]
      exact corrOnContribution_effect fp h hr hkind field

end Call

end LibSigma
