import LibSigma.Corr.Considered
import LibSigma.Corr.Life
import LibSigma.Library.Forgetting

/-!
# Correlations side by side

The correlations of an engine share the clock of the sweep, the index of rule ids and the calls.
None of them notices the others.

`Component` relates an engine in which a rule is one of many to an engine in which it is the only
one. The groups of the correlation are the same in both, and so is the clock of the sweep. The clock
is the delicate part: it is set by the first call that does not return early, and an engine with no
correlation for an event returns no earlier than one with many, because the test is on the number of
correlations of the engine and on the number of matched ids.

A partial names its correlation by an id, and the first correlation with this id takes it. That is
the one hypothesis: no admitted rule before has the id of the rule.

* `visitState_at`: the loop of `corr_on_event_apply`, as one correlation sees it, in terms of its
  rule.
* `Component`: an engine, and one with a single correlation.
* `Component.call`: **one call.**
* `engine_is_product`: **a correlation does in any engine what it does alone.**
-/

namespace LibSigma

open Library

/-- What is seen of correlation `ci`: for each of its outcomes the group, the decision and the fire. -/
def seenOf (ci : ℕ) (os : List CorrOutcome) : List (List CStr × Bool × Option CorrFired) :=
  (outcomesOf ci os).map fun o => (o.key, o.decided, o.fire)

section Event

variable {fp : Doubles} {rules : List CorrRule} {caps : CorrCaps} {e : CorrEngine}
  {ci : ℕ} {r : CorrRule} {st : CorrState}

variable (fp) in
/-- The loop, as one correlation sees it. -/
theorem visitState_at (h : EngineOk rules caps e) (hr : (admittedRules rules)[ci]? = some r)
    (ev : CorrEvent) (apply : Option (CorrRule → List CStr → Bool))
    (hst : (e.sweepIfDue ev.ts).states[ci]? = some st) :
    let visit := (ev.rids.find? fun rid => decide (rid ∈ r.baseRuleIds)).map
      (visitOne fp caps.withDefaults ev apply st)
    (visitState fp e ev apply).states[ci]? = some ((visit.map Prod.fst).getD st) ∧
      seenOf ci (visitState fp e ev apply).outcomes =
        ((visit.bind Prod.snd).map fun p => (p.1, p.2.decided, p.2.fire)).toList := by
  have hok := h.sweepIfDue ev.ts
  obtain ⟨hstate, hout⟩ := visit_fold fp (e.sweepIfDue ev.ts).caps ev apply
    (ev.rids.flatMap fun rid => (ridIndexFind (e.sweepIfDue ev.ts).ridBuckets rid).map (rid, ·))
    ⟨(e.sweepIfDue ev.ts).states, [], [], []⟩ hst List.not_mem_nil
  have hvisit : ∀ found : Option UInt32,
      (found.map fun rid => (rid, ci)).map
          (fun p => visitOne fp caps.withDefaults ev apply st p.1) =
        found.map (visitOne fp caps.withDefaults ev apply st) := by
    rintro (_ | rid) <;> rfl
  rw [hok.find_watch hr, hok.caps_eq, hvisit] at hstate hout
  refine ⟨?_, ?_⟩
  · rw [visitState, hok.caps_eq]
    exact hstate
  · rw [seenOf, visitState, hok.caps_eq, hout]
    generalize ((ev.rids.find? fun rid => decide (rid ∈ r.baseRuleIds)).map
      (visitOne fp caps.withDefaults ev apply st)).bind Prod.snd = out
    rcases out with _ | ⟨key, out⟩ <;> rfl

end Event

/-! ## Two engines -/

/-- An engine in which `r` is correlation `ci`, and one in which it is the only one. -/
structure Component (rules : List CorrRule) (caps : CorrCaps) (ci : ℕ) (r : CorrRule)
    (e e' : CorrEngine) : Prop where
  ok : EngineOk rules caps e
  ok' : EngineOk [r] caps e'
  state : e'.states[0]? = e.states[ci]?
  lastSweep : e'.lastSweep = e.lastSweep
  sweepSeen : e'.sweepSeen = e.sweepSeen

namespace Component

variable {rules : List CorrRule} {caps : CorrCaps} {e e' : CorrEngine} {ci : ℕ} {r : CorrRule}

/-- An admitted rule is admitted alone. -/
theorem admitted_singleton (hr : (admittedRules rules)[ci]? = some r) : admittedRules [r] = [r] := by
  have hadmitted : r.admitted = true := (List.mem_filter.mp (List.mem_of_getElem? hr)).2
  rw [admittedRules, List.filter_singleton, hadmitted]
  rfl

/-- Both engines are new. -/
theorem new (hr : (admittedRules rules)[ci]? = some r) :
    Component rules caps ci r (corrEngineNew rules caps) (corrEngineNew [r] caps) where
  ok := engineOk_new rules caps
  ok' := engineOk_new [r] caps
  state := by
    show ((admittedRules [r]).map _)[0]? = ((admittedRules rules).map _)[ci]?
    rw [admitted_singleton hr, (List.getElem?_map : ((admittedRules rules).map _)[ci]? = _), hr]
    rfl
  lastSweep := rfl
  sweepSeen := rfl

/-- Both sweep at the same time. -/
theorem sweepIfDue (h : Component rules caps ci r e e') (now : ℚ) :
    Component rules caps ci r (e.sweepIfDue now) (e'.sweepIfDue now) := by
  have hcaps : e'.caps = e.caps := h.ok'.caps_eq.trans h.ok.caps_eq.symm
  refine ⟨h.ok.sweepIfDue now, h.ok'.sweepIfDue now, ?_, ?_, ?_⟩ <;>
    unfold CorrEngine.sweepIfDue <;> rw [h.sweepSeen, h.lastSweep, hcaps]
  · split
    · exact h.state
    · split
      · exact h.state
      · rw [List.getElem?_map, List.getElem?_map, h.state]
  · split
    · rfl
    · split
      · exact h.lastSweep
      · rfl
  · split
    · rfl
    · split
      · exact h.sweepSeen
      · rfl

/-- One more counter. -/
theorem inc (h : Component rules caps ci r e e') (xs ys : List CorrCounter) :
    Component rules caps ci r (e.inc xs) (e'.inc ys) :=
  ⟨h.ok.inc xs, h.ok'.inc ys, h.state, h.lastSweep, h.sweepSeen⟩

/-- An engine with a correlation reads events. -/
theorem length_states_ne_zero (h : EngineOk rules caps e) (hr : (admittedRules rules)[ci]? = some r) :
    e.states.length ≠ 0 := by
  obtain ⟨st, hst, -⟩ := h.state_of_rule hr
  exact fun hzero => nomatch (List.length_eq_zero_iff.mp hzero ▸ hst :)

variable (fp : Doubles)

/-- **An event.** -/
theorem event (h : Component rules caps ci r e e') (hr : (admittedRules rules)[ci]? = some r)
    (ev : CorrEvent) (apply : Option (CorrRule → List CStr → Bool)) :
    Component rules caps ci r (corrOnEventApply fp e ev apply).1
        (corrOnEventApply fp e' ev apply).1 ∧
      seenOf 0 (corrOnEventApply fp e' ev apply).2 =
        seenOf ci (corrOnEventApply fp e ev apply).2 := by
  have hr' : (admittedRules [r])[0]? = some r := by
    rw [admitted_singleton hr]
    rfl
  have hok := (corrOnEventApply_effect fp h.ok hr ev apply).1
  have hok' := (corrOnEventApply_effect fp h.ok' hr' ev apply).1
  have hlen := length_states_ne_zero h.ok hr
  have hlen' := length_states_ne_zero h.ok' hr'
  by_cases hrids : ev.rids.length = 0
  · rw [corrOnEventApply, corrOnEventApply, if_pos (.inr hrids), if_pos (.inr hrids)]
    exact ⟨h, rfl⟩
  · have hsweep := h.sweepIfDue ev.ts
    obtain ⟨st, hst, -⟩ := hsweep.ok.state_of_rule hr
    have hst' : (e'.sweepIfDue ev.ts).states[0]? = some st := hsweep.state.trans hst
    obtain ⟨hstate, hseen⟩ := visitState_at fp h.ok hr ev apply hst
    obtain ⟨hstate', hseen'⟩ := visitState_at fp h.ok' hr' ev apply hst'
    rw [corrOnEventApply_eq fp e ev apply (not_or.mpr ⟨hlen, hrids⟩)] at hok ⊢
    rw [corrOnEventApply_eq fp e' ev apply (not_or.mpr ⟨hlen', hrids⟩)] at hok' ⊢
    exact ⟨⟨hok, hok', hstate'.trans hstate.symm, hsweep.lastSweep, hsweep.sweepSeen⟩,
      hseen'.trans hseen.symm⟩

/-- **A partial**: it names the correlation in both engines, or in neither. -/
theorem contribution (h : Component rules caps ci r e e') (hr : (admittedRules rules)[ci]? = some r)
    (hfirst : (admittedRules rules).findIdx? (fun r' => r'.id == r.id) = some ci) {c : CorrContrib}
    (hkind : c.kind ≠ some .event) (field : CStr → Option CStr) :
    Component rules caps ci r (corrOnContribution fp e c field).1
        (corrOnContribution fp e' c field).1 ∧
      seenOf 0 (corrOnContribution fp e' c field).2 =
        seenOf ci (corrOnContribution fp e c field).2 := by
  have hr' : (admittedRules [r])[0]? = some r := by
    rw [admitted_singleton hr]
    rfl
  have hok := (corrOnContribution_effect fp h.ok hr hkind field).1
  have hok' := (corrOnContribution_effect fp h.ok' hr' hkind field).1
  have hsweep := h.sweepIfDue c.ts
  have hcaps : (e'.sweepIfDue c.ts).caps = (e.sweepIfDue c.ts).caps :=
    hsweep.ok'.caps_eq.trans hsweep.ok.caps_eq.symm
  unfold corrOnContribution at hok hok' ⊢
  rw [if_neg hkind] at hok hok' ⊢
  rw [if_neg hkind]
  cases hid : c.corrId with
  | none => exact ⟨h, rfl⟩
  | some id =>
    cases id with
    | nil => exact ⟨h, rfl⟩
    | cons b bs =>
      rw [hid] at hok hok'
      dsimp only at hok hok' ⊢
      rw [hsweep.ok.findIdx?_states] at hok ⊢
      rw [hsweep.ok'.findIdx?_states, admitted_singleton hr] at hok' ⊢
      by_cases hname : r.id = some (b :: bs)
      · -- the partial is for this correlation
        rw [hname] at hfirst
        rw [hfirst] at hok ⊢
        rw [List.findIdx?_singleton, beq_iff_eq.mpr hname] at hok' ⊢
        obtain ⟨st, hst, hrule⟩ := hsweep.ok.state_of_rule hr
        have hst' : (e'.sweepIfDue c.ts).states[0]? = some st := hsweep.state.trans hst
        obtain ⟨hlt, -⟩ := List.getElem?_eq_some_iff.mp hst
        obtain ⟨hlt', -⟩ := List.getElem?_eq_some_iff.mp hst'
        rw [if_pos rfl] at hok' ⊢
        dsimp only at hok hok' ⊢
        rw [hst] at hok ⊢
        rw [hst'] at hok' ⊢
        dsimp only at hok hok' ⊢
        split
        · exact ⟨hsweep.inc _ _, rfl⟩
        · rename_i hlen
          rw [if_neg hlen] at hok hok'
          cases hkey : c.groupVals.mapM fun v => v with
          | none => exact ⟨hsweep.inc _ _, rfl⟩
          | some key =>
            rw [hkey] at hok hok'
            rw [hcaps] at hok' ⊢
            refine ⟨⟨hok, hok', ?_, hsweep.lastSweep, hsweep.sweepSeen⟩, ?_⟩
            · exact (List.getElem?_set_self hlt').trans (List.getElem?_set_self hlt).symm
            · simp [seenOf, outcomesOf]
      · -- it is for another, or for none
        have hne : (r.id == some (b :: bs)) = false := beq_eq_false_iff_ne.mpr hname
        rw [List.findIdx?_singleton, hne] at hok' ⊢
        rw [if_neg Bool.false_ne_true]
        cases hcj : (admittedRules rules).findIdx? fun r => r.id == some (b :: bs) with
        | none => exact ⟨hsweep, rfl⟩
        | some cj =>
          obtain ⟨hlt, hfound, -⟩ := List.findIdx?_eq_some_iff_getElem.mp hcj
          have hci : cj ≠ ci := by
            rintro rfl
            rw [List.getElem?_eq_getElem hlt] at hr
            exact hname (Option.some.inj hr ▸ beq_iff_eq.mp hfound)
          rw [hcj] at hok
          obtain ⟨st, hst, -⟩ := hsweep.ok.state_of_rule (List.getElem?_eq_getElem hlt)
          dsimp only at hok ⊢
          rw [hst] at hok ⊢
          dsimp only at hok ⊢
          split
          · exact ⟨hsweep.inc _ [], rfl⟩
          · rename_i hlen
            rw [if_neg hlen] at hok
            cases hkey : c.groupVals.mapM fun v => v with
            | none => exact ⟨hsweep.inc _ [], rfl⟩
            | some key =>
              rw [hkey] at hok
              refine ⟨⟨hok, hsweep.ok', ?_, hsweep.lastSweep, hsweep.sweepSeen⟩, ?_⟩
              · exact hsweep.state.trans (List.getElem?_set_ne hci).symm
              · simp [seenOf, outcomesOf, hci]

/-- **One call.** -/
theorem call (h : Component rules caps ci r e e') (hr : (admittedRules rules)[ci]? = some r)
    (hfirst : (admittedRules rules).findIdx? (fun r' => r'.id == r.id) = some ci) (c : CorrCall) :
    Component rules caps ci r (corrCall fp e c).1 (corrCall fp e' c).1 ∧
      seenOf 0 (corrCall fp e' c).2 = seenOf ci (corrCall fp e c).2 := by
  cases c with
  | event ev apply => exact h.event fp hr ev apply
  | contribution c field =>
    by_cases hkind : c.kind = some .event
    · rw [corrCall, corrCall, corrOnContribution, corrOnContribution, if_pos hkind, if_pos hkind]
      exact h.event fp hr _ none
    · exact h.contribution fp hr hfirst hkind field

end Component

/-- **A correlation does in any engine what it does alone.**  Whatever other correlations there are,
if none before it has its id: after any calls it has the groups that it would have in an engine of its
own, and in each call it decides and fires as it would there. -/
theorem engine_is_product (fp : Doubles) {rules : List CorrRule} (caps : CorrCaps) {ci : ℕ}
    {r : CorrRule} (hr : (admittedRules rules)[ci]? = some r)
    (hfirst : (admittedRules rules).findIdx? (fun r' => r'.id == r.id) = some ci)
    (cs : List CorrCall) :
    (corrRun fp (corrEngineNew rules caps) cs).states[ci]? =
        (corrRun fp (corrEngineNew [r] caps) cs).states[0]? ∧
      (answers (corrCall fp) (corrEngineNew rules caps) cs).map (seenOf ci) =
        (answers (corrCall fp) (corrEngineNew [r] caps) cs).map (seenOf 0) := by
  suffices hrun : ∀ {e e' : CorrEngine}, Component rules caps ci r e e' →
      (corrRun fp e cs).states[ci]? = (corrRun fp e' cs).states[0]? ∧
        (answers (corrCall fp) e cs).map (seenOf ci) =
          (answers (corrCall fp) e' cs).map (seenOf 0) from hrun (.new hr)
  induction cs with
  | nil => exact fun h => ⟨h.state.symm, rfl⟩
  | cons c cs ih =>
    intro e e' h
    obtain ⟨hcall, hseen⟩ := h.call fp hr hfirst c
    obtain ⟨hstate, hrest⟩ := ih hcall
    refine ⟨hstate, ?_⟩
    rw [answers, answers, List.map_cons, List.map_cons, hrest, hseen]

/-- `burstRule` behind another correlation of the same base rule. -/
def burstSecond : List CorrRule := [{ tripleRule with id := some (cstr "triple") }, burstRule]

theorem engine_is_product_sample :
    (corrRun .bare (corrEngineNew burstSecond capsZero)
        [.event (userEvent 7 10) none]).states[1]? =
      (corrRun .bare (corrEngineNew [burstRule] capsZero)
        [.event (userEvent 7 10) none]).states[0]? :=
  (@engine_is_product .bare burstSecond capsZero 1 burstRule rfl
    (by decide) [.event (userEvent 7 10) none]).1

end LibSigma
