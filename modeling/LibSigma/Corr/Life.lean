import LibSigma.Corr.Frame
import LibSigma.Corr.Trace

/-!
# The life of a group

`groupTrace` lists the inputs that reach one group in a run of the engine, with the decision and the
fire of each.  Other groups, other correlations and the sweep act on the group only by dropping it,
so that at each input it is what its inputs since some moment made of a new group.

## Lives

`Life` is that idea as a definition: the steps a new group takes, one input after the other, and
what they make of it.  It mentions no engine.  Whatever is to be said about a type of rule is proved
of lives, by induction on their steps, and holds of every group of every engine because of the
results here.

## What came before

A group that was dropped is created anew when the next input comes, and it has forgotten all that
happened before.  For the results that speak of the events of a window this must not matter, and in
a run in order of time it does not: the sweep drops a group only when its last update has left the
window, so that the steps before the present life are gone (`Gone`), for the present input and for
every later one.  An eviction by `max_groups` takes no such care.  It is excluded by a condition on
the run (`spared`) that can be computed.

`LastInput` puts this together for the last call of a run: `H` are the steps of past lives, `L`
those of the present one, and what the call finds is what `L` has made.

* `groupTrace_inputs`: the inputs are those the calls address to the group.
* `groupTrace_life`: **an input of a run is an input of a life**; without evictions, whatever came
  before that life has left the window.
* `undisturbed_life`: a group that nothing drops lives all along.
-/

namespace LibSigma

open Library

/-! ## Traces

Everything that is decided about a group is in the outcomes of the calls, mixed with what is decided
about others.  A trace picks the steps of one group, each with its input and what came of it.  What
a run evicts or sweeps is not in the trace, and is described by predicates on the calls (`spared`,
`undisturbed`). -/

/-- An input of a group, with what was decided and the fire. -/
structure GroupStep where
  input : GroupInput
  decided : Bool
  fire : Option CorrFired
  deriving DecidableEq

/-- The time of a step. -/
def GroupStep.ts (x : GroupStep) : ℚ := x.input.ts

/-- An input and its outcome. -/
def GroupOutcome.step (o : GroupOutcome) (i : GroupInput) : GroupStep := ⟨i, o.decided, o.fire⟩

section Trace

variable (fp : Doubles) (ci : ℕ) (r : CorrRule) (key : List CStr)

/-- What a call with the outcomes `os` is for the group of `key` under correlation `ci`. -/
def CorrCall.stepFor (rules : List CorrRule) (c : CorrCall) (os : List CorrOutcome) :
    Option GroupStep :=
  (c.inputFor rules ci r key).bind fun i =>
    (os.find? fun o => o.corr == ci && o.key == key).map fun o => ⟨i, o.decided, o.fire⟩

/-- The steps of the group of `key` under correlation `ci`, whose rule is `r`. -/
def groupTrace : CorrEngine → List CorrCall → List GroupStep
  | _, [] => []
  | e, c :: cs =>
    (c.stepFor ci r key (e.states.map CorrState.rule) (corrCall fp e c).2).toList ++
      groupTrace (corrCall fp e c).1 cs

/-- The group of correlation `ci` that a call evicts. -/
def CorrEngine.victim (e : CorrEngine) (c : CorrCall) : Option (List CStr) :=
  (c.target (e.states.map CorrState.rule) ci r).bind fun p =>
    (e.sweepIfDue c.ts).states[ci]?.bind fun st => cstateVictim e.caps st.groups p.1

/-- No call evicts the group of `key`. -/
def spared : CorrEngine → List CorrCall → Bool
  | _, [] => true
  | e, c :: cs => decide (e.victim ci r c ≠ some key) && spared (corrCall fp e c).1 cs

/-- The fires of the group of `key` under correlation `ci`, with their times. -/
def firesOf : CorrEngine → List CorrCall → List (ℚ × CorrFired)
  | _, [] => []
  | e, c :: cs =>
    ((corrCall fp e c).2.filter fun o => o.corr == ci && o.key == key).filterMap
        (fun o => o.fire.map (c.ts, ·)) ++
      firesOf (corrCall fp e c).1 cs

/-- The fire of a step, with its time. -/
def GroupStep.fired (x : GroupStep) : Option (ℚ × CorrFired) := x.fire.map (x.ts, ·)

variable {fp ci r key}

theorem groupTrace_append (e : CorrEngine) (cs cs' : List CorrCall) :
    groupTrace fp ci r key e (cs ++ cs') =
      groupTrace fp ci r key e cs ++ groupTrace fp ci r key (corrRun fp e cs) cs' := by
  induction cs generalizing e with
  | nil => rfl
  | cons c cs ih =>
    rw [List.cons_append, groupTrace, groupTrace, ih, List.append_assoc]
    rfl

@[simp] theorem spared_append (e : CorrEngine) (cs cs' : List CorrCall) :
    spared fp ci r key e (cs ++ cs') =
      (spared fp ci r key e cs && spared fp ci r key (corrRun fp e cs) cs') := by
  induction cs generalizing e with
  | nil => rfl
  | cons c cs ih =>
    rw [List.cons_append, spared, spared, ih, Bool.and_assoc]
    rfl

@[simp] theorem corrRun_append (e : CorrEngine) (cs cs' : List CorrCall) :
    corrRun fp e (cs ++ cs') = corrRun fp (corrRun fp e cs) cs' :=
  List.foldl_append

variable (fp) in
/-- A run keeps the engine's invariant. -/
theorem EngineOk.corrRun {rules : List CorrRule} {caps : CorrCaps} {e : CorrEngine}
    (h : EngineOk rules caps e) (hr : (admittedRules rules)[ci]? = some r) (cs : List CorrCall) :
    EngineOk rules caps (corrRun fp e cs) := by
  induction cs generalizing e with
  | nil => exact h
  | cons c cs ih => exact ih (corrCall_effect fp h hr c).1

/-- Calls keep an engine well-formed, with or without rules. -/
theorem EngineOk.run {rules : List CorrRule} {caps : CorrCaps} {e : CorrEngine}
    (h : EngineOk rules caps e) (cs : List CorrCall) :
    EngineOk rules caps (LibSigma.corrRun fp e cs) := by
  cases hrules : (admittedRules rules)[0]? with
  | some r => exact h.corrRun fp hrules cs
  | none =>
    have hnil : admittedRules rules = [] := by
      rw [List.getElem?_eq_none_iff] at hrules
      exact List.length_eq_zero_iff.mp (Nat.le_zero.mp hrules)
    induction cs generalizing e with
    | nil => exact h
    | cons c cs ih =>
      refine ih (show EngineOk rules caps (corrCall fp e c).1 from ?_)
      have hstates : ∀ {e : CorrEngine}, EngineOk rules caps e → e.states = [] := fun hok =>
        List.map_eq_nil_iff.mp (hok.states.trans hnil)
      rcases c.event_or_partial with ⟨ev, apply, -, -, hcall⟩ | ⟨c', field, rfl, hkind⟩
      · rw [hcall, corrOnEventApply, if_pos (Or.inl (by rw [hstates h]; rfl))]
        exact h
      · have hok := h.sweepIfDue c'.ts
        rw [corrCall, corrOnContribution, if_neg hkind]
        cases c'.corrId with
        | none => exact h
        | some id =>
          cases id with
          | nil => exact h
          | cons b bs =>
            dsimp only
            rw [hstates hok]
            exact hok

theorem mem_outcomesOf {os : List CorrOutcome} {o : CorrOutcome} :
    o ∈ outcomesOf ci os ↔ o ∈ os ∧ o.corr = ci := by
  rw [outcomesOf, List.mem_filter, beq_iff_eq]

/-- A call with one outcome of the correlation is a step of the group the outcome is for. -/
theorem CorrCall.stepFor_eq {rules : List CorrRule} {c : CorrCall} {os : List CorrOutcome}
    {i : GroupInput} (hi : c.inputFor rules ci r key = some i) {out : GroupOutcome}
    (hos : outcomesOf ci os = [corrOutcome ci (key, out)]) :
    c.stepFor ci r key rules os = some (out.step i) := by
  have hfind : (os.find? fun o => o.corr == ci && o.key == key) =
      (outcomesOf ci os).find? fun o => o.key == key := by
    rw [outcomesOf, List.find?_filter]
    refine congrArg (fun p => List.find? p _) (funext fun o => ?_)
    rw [Bool.eq_iff_iff, Bool.and_eq_true, decide_eq_true_eq]
  rw [CorrCall.stepFor, hi, Option.bind_some, hfind, hos]
  simp [corrOutcome, GroupOutcome.step]

/-- The input a call is for a group has the time of the call. -/
theorem CorrCall.ts_of_inputFor {rules : List CorrRule} {c : CorrCall} {i : GroupInput}
    (h : c.inputFor rules ci r key = some i) : i.ts = c.ts := by
  rcases input_of_target (target_of_inputFor h) with ⟨ev, hts, rfl, -⟩ | ⟨c', field, rfl, rfl⟩
  · exact hts
  · rfl

end Trace

/-! ## Lives

A group exists from the input that creates it to the sweep or the eviction that removes it, and may
be created again.  A life is the list of steps of one such stretch.  What the group holds is a
function of it (`groupAfter`), so every invariant of a group is an induction over a life, and knows
nothing about maps and locks. -/

/-- The steps a new group takes, and what they make of it. -/
inductive Life (fp : Doubles) (caps : CorrCaps) (r : CorrRule) :
    List GroupStep → Option Group → Prop
  | unborn : Life fp caps r [] none
  | input {H : List GroupStep} {g : Option Group} (i : GroupInput) (h : Life fp caps r H g) :
      Life fp caps r (H ++ [(groupApply fp caps r g i).step i])
        (some (groupApply fp caps r g i).group)

/-- What some inputs make of a new group. -/
def groupAfter (fp : Doubles) (caps : CorrCaps) (r : CorrRule)
    (is : List GroupInput) : Option Group :=
  is.foldl (fun g i => some (groupApply fp caps r g i).group) none

@[simp] theorem groupAfter_concat (fp : Doubles) (caps : CorrCaps) (r : CorrRule)
    (is : List GroupInput) (i : GroupInput) :
    groupAfter fp caps r (is ++ [i]) =
      some (groupApply fp caps r (groupAfter fp caps r is) i).group :=
  List.foldl_concat ..

/-- A life is a run of its inputs. -/
theorem Life.eq_groupAfter {fp : Doubles} {caps : CorrCaps} {r : CorrRule}
    {H : List GroupStep} {s : Option Group} (h : Life fp caps r H s) :
    s = groupAfter fp caps r (H.map GroupStep.input) := by
  induction h with
  | unborn => rfl
  | @input H s i h ih =>
    rw [List.map_append, List.map_singleton, groupAfter_concat, ← ih]
    rfl

section Step

variable (fp : Doubles) {rules : List CorrRule} {caps : CorrCaps} {e : CorrEngine}
  {ci : ℕ} {r : CorrRule}

/-- **What one call does to one group.** -/
theorem slot_corrCall (h : EngineOk rules caps e) (hr : (admittedRules rules)[ci]? = some r)
    (key : List CStr) (c : CorrCall) :
    ∃ g : Option Group,
      (g = e.slot ci key ∨ g = (e.sweepIfDue c.ts).slot ci key) ∧
      (∀ i, c.inputFor (admittedRules rules) ci r key = some i →
        g = (e.sweepIfDue c.ts).slot ci key ∧
          (corrCall fp e c).1.slot ci key =
            some (groupApply fp caps.withDefaults r g i).group ∧
          c.stepFor ci r key (admittedRules rules) (corrCall fp e c).2 =
            some ((groupApply fp caps.withDefaults r g i).step i)) ∧
      (c.inputFor (admittedRules rules) ci r key = none →
        ((corrCall fp e c).1.slot ci key = g ∨
          e.victim ci r c = some key ∧ (corrCall fp e c).1.slot ci key = none) ∧
        ∀ o ∈ (corrCall fp e c).2, ¬ (o.corr = ci ∧ o.key = key)) := by
  obtain ⟨hok, heffect⟩ := corrCall_effect fp h hr c
  obtain ⟨stS, hstS, hruleS⟩ := (h.sweepIfDue c.ts).state_of_rule hr
  cases htarget : c.target (admittedRules rules) ci r with
  | none =>
    obtain ⟨hstates, hos⟩ := heffect.idle htarget
    obtain ⟨g, hg, hslot⟩ : ∃ g, (g = e.slot ci key ∨ g = (e.sweepIfDue c.ts).slot ci key) ∧
        (corrCall fp e c).1.slot ci key = g := by
      rcases hstates with hstates | hstates
      · exact ⟨_, Or.inl rfl, by rw [CorrEngine.slot, CorrEngine.slot, hstates]⟩
      · exact ⟨_, Or.inr rfl, by rw [CorrEngine.slot, CorrEngine.slot, hstates]⟩
    refine ⟨g, hg, fun i hi => ?_, fun _ => ⟨Or.inl hslot, fun o ho hand => ?_⟩⟩
    · cases htarget.symm.trans (target_of_inputFor hi)
    · have hmem := mem_outcomesOf.mpr ⟨ho, hand.1⟩
      rw [hos] at hmem
      exact absurd hmem List.not_mem_nil
  | some p =>
    obtain ⟨key', i⟩ := p
    obtain ⟨st', hst', hstates, hos⟩ := heffect.input key' i htarget
    cases hstS.symm.trans hst'
    obtain ⟨-, -, hdecided, hfire, hget⟩ := cstateInput_spec fp caps.withDefaults
      ((h.sweepIfDue c.ts).wf stS (List.mem_of_getElem? hstS)) key' i
    have hslotS : (e.sweepIfDue c.ts).slot ci key = stS.groups.get hashGroupKey key := by
      rw [CorrEngine.slot, hstS, Option.bind_some]
    have hslot' : (corrCall fp e c).1.slot ci key =
        (cstateInput fp caps.withDefaults stS key' i).1.groups.get hashGroupKey key := by
      rw [CorrEngine.slot, hstates, Option.bind_some]
    refine ⟨(e.sweepIfDue c.ts).slot ci key, Or.inr rfl, fun i' hi' => ?_, fun hnone => ?_⟩
    · cases htarget.symm.trans (target_of_inputFor hi')
      refine ⟨rfl, ?_, ?_⟩
      · rw [hslot', hget, if_pos rfl, hslotS, hruleS]
      · rw [CorrCall.stepFor_eq hi' hos, hslotS, ← hruleS]
        simp only [GroupOutcome.step, hdecided, hfire]
    · have hne : key' ≠ key := by
        rintro rfl
        rw [CorrCall.inputFor, htarget, Option.bind_some, if_pos rfl] at hnone
        cases hnone
      refine ⟨?_, fun o ho hand => ?_⟩
      · rw [hslot', hget, if_neg (Ne.symm hne), hslotS]
        by_cases hvictim : cstateVictim caps.withDefaults stS.groups key' = some key
        · rw [if_pos hvictim]
          refine Or.inr ⟨?_, rfl⟩
          rw [CorrEngine.victim, h.states, htarget, Option.bind_some, hstS, Option.bind_some,
            h.caps_eq]
          exact hvictim
        · rw [if_neg hvictim]
          exact Or.inl rfl
      · have hmem := mem_outcomesOf.mpr ⟨ho, hand.1⟩
        rw [hos, List.mem_singleton] at hmem
        rw [hmem] at hand
        exact hne hand.2

/-- The group a call finds: a sweep may have dropped it. -/
theorem EngineOk.found_cases (h : EngineOk rules caps e) (hr : (admittedRules rules)[ci]? = some r)
    {key : List CStr} {c : CorrCall} {g : Option Group}
    (hg : g = e.slot ci key ∨ g = (e.sweepIfDue c.ts).slot ci key) :
    g = e.slot ci key ∨
      g = (e.slot ci key).filter fun g => !decide (g.lastUpdate < c.ts - r.timespanS) :=
  hg.elim Or.inl fun heq => heq ▸ h.slot_sweepIfDue hr c.ts key

end Step

/-! ## Runs

How a run of calls falls into lives.  In order of time a sweep removes a group only when all its
steps have left the window of anything that follows, so of a run without evictions there is the
current life and a past that is out of the window (`Past`).  The theorems on runs all have this
form: an input of the run is an input of a life, and what came before that life no longer matters.
For a group that is never disturbed there is only one life. -/

/-- The calls come in the order of their times. -/
def TimeOrdered (cs : List CorrCall) : Prop := (cs.map CorrCall.ts).Pairwise (· ≤ ·)

/-- The times of some calls. -/
def callTimes (cs : List CorrCall) : Set ℚ := {t | ∃ c ∈ cs, c.ts = t}

section Run

variable {fp : Doubles} {rules : List CorrRule} {caps : CorrCaps} {ci : ℕ}
  {r : CorrRule} {key : List CStr}

theorem TimeOrdered.of_concat {cs : List CorrCall} {c : CorrCall} (h : TimeOrdered (cs ++ [c])) :
    TimeOrdered cs ∧ ∀ c' ∈ cs, c'.ts ≤ c.ts := by
  rw [TimeOrdered, List.map_append, List.pairwise_append] at h
  exact ⟨h.1, fun c' hc' => h.2.2 _ (List.mem_map_of_mem hc') _ List.mem_cons_self⟩

/-- The steps of a group take their times from the calls. -/
theorem groupTrace_ts_sublist (e : CorrEngine) (cs : List CorrCall) :
    ((groupTrace fp ci r key e cs).map GroupStep.ts).Sublist (cs.map CorrCall.ts) := by
  induction cs generalizing e with
  | nil => exact .slnil
  | cons c cs ih =>
    rw [groupTrace, List.map_append, List.map_cons]
    cases hstep : c.stepFor ci r key (e.states.map CorrState.rule) (corrCall fp e c).2 with
    | none => exact (ih _).cons _
    | some x =>
      obtain ⟨i, hi, hx⟩ := Option.bind_eq_some_iff.mp hstep
      obtain ⟨o, -, rfl⟩ := Option.map_eq_some_iff.mp hx
      rw [← CorrCall.ts_of_inputFor hi]
      exact (ih _).cons_cons _

variable (fp ci r key) in
theorem TimeOrdered.groupTrace {cs : List CorrCall} (h : TimeOrdered cs) (e : CorrEngine) :
    ((groupTrace fp ci r key e cs).map GroupStep.ts).Pairwise (· ≤ ·) :=
  List.Pairwise.sublist (groupTrace_ts_sublist e cs) h

/-- **The inputs of a group are those the calls address to it.** -/
theorem groupTrace_inputs {e : CorrEngine} (h : EngineOk rules caps e)
    (hr : (admittedRules rules)[ci]? = some r) (cs : List CorrCall) :
    (groupTrace fp ci r key e cs).map GroupStep.input =
      cs.filterMap (CorrCall.inputFor (admittedRules rules) ci r key) := by
  induction cs generalizing e with
  | nil => rfl
  | cons c cs ih =>
    obtain ⟨g, -, hinput, -⟩ := slot_corrCall fp h hr key c
    rw [groupTrace, h.states, List.map_append, ih (corrCall_effect fp h hr c).1]
    cases hi : c.inputFor (admittedRules rules) ci r key with
    | none =>
      rw [List.filterMap_cons_none hi, CorrCall.stepFor, hi]
      rfl
    | some i =>
      rw [List.filterMap_cons_some hi, (hinput i hi).2.2]
      rfl

/-- A step of a run is that of one of its calls. -/
theorem exists_call_of_step {e : CorrEngine} {cs : List CorrCall} {H H' : List GroupStep}
    {x : GroupStep} (h : groupTrace fp ci r key e cs = H ++ x :: H') :
    ∃ cs₁ c cs₂, cs = cs₁ ++ c :: cs₂ ∧ groupTrace fp ci r key e cs₁ = H ∧
      c.stepFor ci r key ((corrRun fp e cs₁).states.map CorrState.rule)
        (corrCall fp (corrRun fp e cs₁) c).2 = some x := by
  induction cs generalizing e H with
  | nil => exact absurd h (by simp [groupTrace])
  | cons c cs ih =>
    rw [groupTrace] at h
    cases hstep : c.stepFor ci r key (e.states.map CorrState.rule) (corrCall fp e c).2 with
    | none =>
      rw [hstep, Option.toList_none, List.nil_append] at h
      obtain ⟨cs₁, c', cs₂, rfl, htrace, hx⟩ := ih h
      refine ⟨c :: cs₁, c', cs₂, rfl, ?_, hx⟩
      rw [groupTrace, hstep, htrace]
      rfl
    | some y =>
      rw [hstep, Option.toList_some, List.singleton_append] at h
      cases H with
      | nil =>
        obtain ⟨rfl, -⟩ := List.cons_eq_cons.mp h
        exact ⟨[], c, cs, rfl, rfl, hstep⟩
      | cons z H =>
        obtain ⟨rfl, htail⟩ := List.cons_eq_cons.mp h
        obtain ⟨cs₁, c', cs₂, rfl, htrace, hx⟩ := ih htail
        refine ⟨c :: cs₁, c', cs₂, rfl, ?_, hx⟩
        rw [groupTrace, hstep, htrace]
        rfl

/-- The outcomes of a call for a group are those of its step. -/
theorem outcomes_stepFor {e : CorrEngine} (h : EngineOk rules caps e)
    (hr : (admittedRules rules)[ci]? = some r) (c : CorrCall) :
    ((corrCall fp e c).2.filter fun o => o.corr == ci && o.key == key).filterMap
        (fun o => o.fire.map (c.ts, ·)) =
      (c.stepFor ci r key (admittedRules rules) (corrCall fp e c).2).toList.filterMap
        GroupStep.fired := by
  obtain ⟨g, -, hinput, hother⟩ := slot_corrCall fp h hr key c
  have hfilter : (corrCall fp e c).2.filter (fun o => o.corr == ci && o.key == key) =
      (outcomesOf ci (corrCall fp e c).2).filter fun o => o.key == key := by
    rw [outcomesOf, List.filter_filter]
    exact List.filter_congr fun o _ => Bool.and_comm _ _
  cases hi : c.inputFor (admittedRules rules) ci r key with
  | none =>
    have hnil : (corrCall fp e c).2.filter (fun o => o.corr == ci && o.key == key) = [] := by
      refine List.filter_eq_nil_iff.mpr fun o ho hand => (hother hi).2 o ho ?_
      simpa using hand
    rw [hnil, CorrCall.stepFor, hi]
    rfl
  | some i =>
    obtain ⟨⟨key', i'⟩, htarget, hkey⟩ := Option.bind_eq_some_iff.mp hi
    split at hkey
    · rename_i heq
      obtain ⟨st, -, -, hos⟩ := (corrCall_effect fp h hr c).2.input key' i' htarget
      have hts := CorrCall.ts_of_inputFor hi
      simp only at heq
      subst heq
      cases hkey
      rw [hfilter, CorrCall.stepFor, hi, Option.bind_some]
      have hfind : (corrCall fp e c).2.find? (fun o => o.corr == ci && o.key == key') =
          ((outcomesOf ci (corrCall fp e c).2).filter fun o => o.key == key').head? := by
        rw [← hfilter, List.head?_filter]
      have hself : [corrOutcome ci (key', (cstateInput fp caps.withDefaults st key' i').2)].filter
            (fun o => o.key == key') =
          [corrOutcome ci (key', (cstateInput fp caps.withDefaults st key' i').2)] := by
        simp [corrOutcome]
      rw [hfind, hos, hself, ← hts]
      rfl
    · cases hkey

/-- The fires of a run are those of the steps. -/
theorem firesOf_eq {e : CorrEngine} (h : EngineOk rules caps e)
    (hr : (admittedRules rules)[ci]? = some r) (cs : List CorrCall) :
    firesOf fp ci key e cs = (groupTrace fp ci r key e cs).filterMap GroupStep.fired := by
  induction cs generalizing e with
  | nil => rfl
  | cons c cs ih =>
    rw [firesOf, groupTrace, List.filterMap_append, ih (corrCall_effect fp h hr c).1, h.states,
      outcomes_stepFor h hr]

/-- The last step of a life has left its time in the group. -/
theorem Life.getLast? {caps : CorrCaps} {H : List GroupStep} {g : Group}
    (h : Life fp caps r H (some g)) : ∃ x, H.getLast? = some x ∧ g.lastUpdate = x.ts := by
  cases h with
  | input i h => exact ⟨_, List.getLast?_concat, groupInput_lastUpdate fp caps r _ i⟩

/-- A group that took a step exists. -/
theorem Life.exists_group {caps : CorrCaps} {H : List GroupStep} {s : Option Group}
    (h : Life fp caps r H s) {x : GroupStep} (hx : x ∈ H) : ∃ g, s = some g := by
  cases h with
  | unborn => exact absurd hx List.not_mem_nil
  | input i h => exact ⟨_, rfl⟩

/-- A sweep may end a life: in a run in order of time all of it has then left the window. -/
theorem Life.sweep {caps : CorrCaps} {H : List GroupStep} {s g : Option Group}
    (h : Life fp caps r H s) (horizon : ℚ)
    (hg : g = s ∨ g = s.filter fun g => !decide (g.lastUpdate < horizon)) :
    g = s ∨ g = none ∧
      ((H.map GroupStep.ts).Pairwise (· ≤ ·) → ∀ x ∈ H, x.ts < horizon) := by
  rcases hg with hg | hg
  · exact Or.inl hg
  · cases s with
    | none => exact Or.inl hg
    | some g₀ =>
      by_cases hexp : g₀.lastUpdate < horizon
      · refine Or.inr ⟨by rw [hg]; simp [Option.filter_some, hexp], fun hsorted x hx => ?_⟩
        obtain ⟨y, hlast, hy⟩ := h.getLast?
        obtain ⟨ys, hH⟩ := List.getLast?_eq_some_iff.mp hlast
        rw [hH, List.map_append, List.pairwise_append] at hsorted
        have hle : x.ts ≤ y.ts := by
          rw [hH, List.mem_append, List.mem_singleton] at hx
          rcases hx with hx | rfl
          · exact hsorted.2.2 _ (List.mem_map_of_mem hx) _ List.mem_cons_self
          · exact le_rfl
        exact lt_of_le_of_lt (hle.trans hy.ge) hexp
      · exact Or.inl (by rw [hg]; simp [Option.filter_some, hexp])

/-- The steps that came before a life have left the window, that of a call and that of each step of
the life. -/
structure Gone (r : CorrRule) (cs : List CorrCall) (H₁ H₂ : List GroupStep) : Prop where
  call : ∀ x ∈ H₁, ∃ c ∈ cs, x.ts < c.ts - r.timespanS
  step : ∀ x ∈ H₁, ∀ y ∈ H₂, x.ts < y.ts - r.timespanS

/-- In a run in order of time without evictions, the steps before a life are gone. -/
def Past (fp : Doubles) (ci : ℕ) (r : CorrRule) (key : List CStr) (e : CorrEngine)
    (cs : List CorrCall) (H₁ H₂ : List GroupStep) : Prop :=
  TimeOrdered cs → spared fp ci r key e cs = true → Gone r cs H₁ H₂

theorem Gone.mono {cs cs' : List CorrCall} {H₁ H₂ : List GroupStep} (h : Gone r cs H₁ H₂)
    (hsub : ∀ c ∈ cs, c ∈ cs') : Gone r cs' H₁ H₂ := by
  refine ⟨fun x hx => ?_, h.step⟩
  obtain ⟨c, hc, hlt⟩ := h.call x hx
  exact ⟨c, hsub c hc, hlt⟩

/-- A step taken on the last call of a run in order of time. -/
theorem Gone.concat {cs : List CorrCall} {c : CorrCall} {H₁ H₂ : List GroupStep}
    (h : Gone r (cs ++ [c]) H₁ H₂) (hsorted : TimeOrdered (cs ++ [c])) {x : GroupStep}
    (hx : x.ts = c.ts) : Gone r (cs ++ [c]) H₁ (H₂ ++ [x]) := by
  refine ⟨h.call, fun y hy z hz => ?_⟩
  rcases List.mem_append.mp hz with hz | hz
  · exact h.step y hy z hz
  · obtain ⟨c', hc', hlt⟩ := h.call y hy
    have hle : c'.ts ≤ c.ts := by
      rcases List.mem_append.mp hc' with hc' | hc'
      · exact hsorted.of_concat.2 c' hc'
      · rw [List.mem_singleton.mp hc']
    rw [List.mem_singleton.mp hz, hx]
    exact lt_of_lt_of_le hlt (sub_le_sub_right hle _)

/-- A group that does not exist has no steps. -/
theorem Life.eq_nil {caps : CorrCaps} {H : List GroupStep} (h : Life fp caps r H none) :
    H = [] := by
  generalize hs : (none : Option Group) = s at h
  cases h with
  | unborn => rfl
  | input i h => cases hs

/-- One more call: the life goes on, or it ends and all of it is in the past. -/
theorem Life.call {cs : List CorrCall} (c : CorrCall) {H₁ H₂ : List GroupStep}
    (htrace : groupTrace fp ci r key (corrEngineNew rules caps) cs = H₁ ++ H₂)
    (hlife : Life fp caps.withDefaults r H₂
      ((corrRun fp (corrEngineNew rules caps) cs).slot ci key))
    (hpast : Past fp ci r key (corrEngineNew rules caps) cs H₁ H₂) {g : Option Group}
    (hg : g = (corrRun fp (corrEngineNew rules caps) cs).slot ci key ∨
      g = ((corrRun fp (corrEngineNew rules caps) cs).slot ci key).filter
        fun g => !decide (g.lastUpdate < c.ts - r.timespanS)) :
    ∃ A, H₁ ++ H₂ = A ++ (if g.isSome then H₂ else []) ∧
      Life fp caps.withDefaults r (if g.isSome then H₂ else []) g ∧
      Past fp ci r key (corrEngineNew rules caps) (cs ++ [c]) A (if g.isSome then H₂ else []) := by
  have hgone : Past fp ci r key (corrEngineNew rules caps) (cs ++ [c]) H₁ H₂ := by
    intro hcs hspared
    rw [spared_append, Bool.and_eq_true] at hspared
    exact (hpast hcs.of_concat.1 hspared.1).mono fun c' hc' => List.mem_append_left _ hc'
  rcases hlife.sweep _ hg with rfl | ⟨rfl, hall⟩
  · cases hslot : (corrRun fp (corrEngineNew rules caps) cs).slot ci key with
    | none =>
      rw [hslot] at hlife
      cases hlife.eq_nil
      exact ⟨H₁, rfl, hlife, hgone⟩
    | some g =>
      rw [hslot] at hlife
      exact ⟨H₁, rfl, hlife, hgone⟩
  · refine ⟨H₁ ++ H₂, (List.append_nil _).symm, .unborn, fun hcs hspared => ⟨fun x hx => ?_,
      fun x _ y hy => absurd hy List.not_mem_nil⟩⟩
    rcases List.mem_append.mp hx with hx | hx
    · exact (hgone hcs hspared).call x hx
    · have hsorted := hcs.of_concat.1.groupTrace fp ci r key (corrEngineNew rules caps)
      rw [htrace, List.map_append, List.pairwise_append] at hsorted
      exact ⟨c, List.mem_append_right _ List.mem_cons_self, hall hsorted.2.1 x hx⟩

theorem groupTrace_concat (hr : (admittedRules rules)[ci]? = some r) (cs : List CorrCall)
    (c : CorrCall) :
    groupTrace fp ci r key (corrEngineNew rules caps) (cs ++ [c]) =
      groupTrace fp ci r key (corrEngineNew rules caps) cs ++
        (c.stepFor ci r key (admittedRules rules)
          (corrCall fp (corrRun fp (corrEngineNew rules caps) cs) c).2).toList := by
  rw [groupTrace_append, groupTrace, groupTrace, List.append_nil,
    ((engineOk_new rules caps).corrRun fp hr cs).states]

variable (fp ci r key) in
/-- The part of a life `L` that a call finds: nothing if a sweep has dropped the group. -/
def lifeFound (e : CorrEngine) (L : List GroupStep) (c : CorrCall) : List GroupStep :=
  if ((e.sweepIfDue c.ts).slot ci key).isSome then L else []

variable (fp ci r key) in
/-- A call in the life of a group. -/
def lifeStep (s : CorrEngine × List GroupStep) (c : CorrCall) : CorrEngine × List GroupStep :=
  ((corrCall fp s.1 c).1,
    match c.stepFor ci r key (s.1.states.map CorrState.rule) (corrCall fp s.1 c).2 with
    | some x => lifeFound ci key s.1 s.2 c ++ [x]
    | none => if ((corrCall fp s.1 c).1.slot ci key).isSome then s.2 else [])

variable (fp ci r key) in
/-- The engine after some calls, and the steps of the group since it was last created. -/
def lifeRun (e : CorrEngine) (cs : List CorrCall) : CorrEngine × List GroupStep :=
  cs.foldl (lifeStep fp ci r key) (e, [])

theorem lifeRun_fst (e : CorrEngine) (cs : List CorrCall) :
    (lifeRun fp ci r key e cs).1 = corrRun fp e cs := by
  induction cs using List.reverseRecOn with
  | nil => rfl
  | append_singleton cs c ih =>
    rw [corrRun_append, ← ih, lifeRun, List.foldl_concat]
    rfl

/-- A new engine has no groups. -/
@[simp] theorem slot_new (ci : ℕ) (key : List CStr) : (corrEngineNew rules caps).slot ci key = none := by
  rw [CorrEngine.slot]
  cases hst : (corrEngineNew rules caps).states[ci]? with
  | none => rfl
  | some st =>
    obtain ⟨r', -, rfl⟩ := List.mem_map.mp (List.mem_of_getElem? hst)
    exact HashLru.get_empty _ _

variable (fp caps key) in
/-- **The group after a run**: the life it is in, and a past before it. -/
theorem lifeRun_life (hr : (admittedRules rules)[ci]? = some r) (cs : List CorrCall) :
    ∃ H₁, groupTrace fp ci r key (corrEngineNew rules caps) cs =
        H₁ ++ (lifeRun fp ci r key (corrEngineNew rules caps) cs).2 ∧
      Life fp caps.withDefaults r (lifeRun fp ci r key (corrEngineNew rules caps) cs).2
        ((corrRun fp (corrEngineNew rules caps) cs).slot ci key) ∧
      Past fp ci r key (corrEngineNew rules caps) cs H₁
        (lifeRun fp ci r key (corrEngineNew rules caps) cs).2 := by
  induction cs using List.reverseRecOn with
  | nil =>
    refine ⟨[], rfl, ?_, fun _ _ => ⟨fun x hx => absurd hx List.not_mem_nil,
      fun x hx => absurd hx List.not_mem_nil⟩⟩
    have hslot : (corrEngineNew rules caps).slot ci key = none := slot_new ci key
    exact hslot ▸ .unborn
  | append_singleton cs c ih =>
    obtain ⟨H₁, htrace, hlife, hpast⟩ := ih
    have hok := (engineOk_new rules caps).corrRun fp hr cs
    obtain ⟨g, hg, hinput, hother⟩ := slot_corrCall fp hok hr key c
    obtain ⟨A, hA, hB, hgone⟩ := Life.call c htrace hlife hpast (hok.found_cases hr hg)
    have hrun : corrRun fp (corrEngineNew rules caps) (cs ++ [c]) =
        (corrCall fp (corrRun fp (corrEngineNew rules caps) cs) c).1 := by
      rw [corrRun_append]
      rfl
    have hnext : (lifeRun fp ci r key (corrEngineNew rules caps) (cs ++ [c])).2 =
        (lifeStep fp ci r key (lifeRun fp ci r key (corrEngineNew rules caps) cs) c).2 := by
      rw [lifeRun, List.foldl_concat]
      rfl
    rw [hnext, lifeStep, lifeRun_fst, groupTrace_concat hr, hrun, htrace, hA, hok.states]
    cases hi : c.inputFor (admittedRules rules) ci r key with
    | some i =>
      obtain ⟨hfound, hslot, hx⟩ := hinput i hi
      rw [hslot, hx, lifeFound, ← hfound]
      exact ⟨A, List.append_assoc _ _ _, .input i hB, fun hcs hspared =>
        (hgone hcs hspared).concat hcs (CorrCall.ts_of_inputFor hi)⟩
    | none =>
      obtain ⟨hslot, -⟩ := hother hi
      rw [CorrCall.stepFor, hi, Option.bind_none, Option.toList_none, List.append_nil]
      rcases hslot with hslot | ⟨hvictim, hslot⟩
      · rw [hslot]
        exact ⟨A, rfl, hB, hgone⟩
      · rw [hslot]
        refine ⟨_, (List.append_nil _).symm, .unborn, fun _ hspared => False.elim ?_⟩
        rw [spared_append, Bool.and_eq_true] at hspared
        simp [spared, hvictim] at hspared

variable (fp caps key) in
/-- **The last call of a run**, if it is an input of the group: a step of the life it finds. -/
theorem lifeFound_step (hr : (admittedRules rules)[ci]? = some r) (cs : List CorrCall)
    {c : CorrCall} {i : GroupInput} (hi : c.inputFor (admittedRules rules) ci r key = some i) :
    ∃ H₁ g, groupTrace fp ci r key (corrEngineNew rules caps) cs =
        H₁ ++ lifeFound ci key (corrRun fp (corrEngineNew rules caps) cs)
          (lifeRun fp ci r key (corrEngineNew rules caps) cs).2 c ∧
      Life fp caps.withDefaults r
        (lifeFound ci key (corrRun fp (corrEngineNew rules caps) cs)
          (lifeRun fp ci r key (corrEngineNew rules caps) cs).2 c) g ∧
      c.stepFor ci r key (admittedRules rules)
          (corrCall fp (corrRun fp (corrEngineNew rules caps) cs) c).2 =
        some ((groupApply fp caps.withDefaults r g i).step i) ∧
      (TimeOrdered (cs ++ [c]) →
        spared fp ci r key (corrEngineNew rules caps) (cs ++ [c]) = true →
        ∀ y ∈ H₁, ∀ z ∈ lifeFound ci key (corrRun fp (corrEngineNew rules caps) cs)
          (lifeRun fp ci r key (corrEngineNew rules caps) cs).2 c ++
            [(groupApply fp caps.withDefaults r g i).step i], y.ts < z.ts - r.timespanS) := by
  obtain ⟨H₁, htrace, hlife, hpast⟩ := lifeRun_life fp caps key hr cs
  have hok := (engineOk_new rules caps).corrRun fp hr cs
  obtain ⟨g, hg, hinput, -⟩ := slot_corrCall fp hok hr key c
  obtain ⟨A, hA, hB, hgone⟩ := Life.call c htrace hlife hpast (hok.found_cases hr hg)
  obtain ⟨hfound, -, hx⟩ := hinput i hi
  have hlf : lifeFound ci key (corrRun fp (corrEngineNew rules caps) cs)
      (lifeRun fp ci r key (corrEngineNew rules caps) cs).2 c =
      if g.isSome then (lifeRun fp ci r key (corrEngineNew rules caps) cs).2 else [] := by
    rw [lifeFound, ← hfound]
  rw [hlf]
  exact ⟨A, g, htrace.trans hA, hB, hx, fun hcs hspared =>
    ((hgone hcs hspared).concat hcs (CorrCall.ts_of_inputFor hi)).step⟩

variable (fp caps key) in
/-- The group a call finds is what its life made of it. -/
theorem lifeFound_life (hr : (admittedRules rules)[ci]? = some r) (cs : List CorrCall)
    (c : CorrCall) :
    Life fp caps.withDefaults r
      (lifeFound ci key (corrRun fp (corrEngineNew rules caps) cs)
        (lifeRun fp ci r key (corrEngineNew rules caps) cs).2 c)
      (((corrRun fp (corrEngineNew rules caps) cs).sweepIfDue c.ts).slot ci key) := by
  obtain ⟨-, -, hlife, -⟩ := lifeRun_life fp caps key hr cs
  have hok := (engineOk_new rules caps).corrRun fp hr cs
  rw [lifeFound]
  cases hfound : ((corrRun fp (corrEngineNew rules caps) cs).sweepIfDue c.ts).slot ci key with
  | none => exact .unborn
  | some g =>
    have hslot : (corrRun fp (corrEngineNew rules caps) cs).slot ci key = some g := by
      rcases hok.slot_sweepIfDue hr c.ts key with heq | heq
      · rw [← heq, hfound]
      · rw [heq] at hfound
        exact (Option.filter_eq_some_iff.mp hfound).1
    rw [Option.isSome_some, if_pos rfl, ← hslot]
    exact hlife

variable (fp caps) in
/-- The group after a call that is an input of it. -/
theorem slot_concat (hr : (admittedRules rules)[ci]? = some r) (cs : List CorrCall) {c : CorrCall}
    {i : GroupInput} (hi : c.inputFor (admittedRules rules) ci r key = some i) :
    (corrRun fp (corrEngineNew rules caps) (cs ++ [c])).slot ci key =
      groupAfter fp caps.withDefaults r
        ((lifeFound ci key (corrRun fp (corrEngineNew rules caps) cs)
          (lifeRun fp ci r key (corrEngineNew rules caps) cs).2 c).map GroupStep.input ++ [i]) := by
  obtain ⟨-, g, -, -, hx, -⟩ := lifeFound_step fp caps key hr cs hi
  obtain ⟨-, -, hlife, -⟩ := lifeRun_life fp caps key hr (cs ++ [c])
  have hnext : (lifeRun fp ci r key (corrEngineNew rules caps) (cs ++ [c])).2 =
      lifeFound ci key (corrRun fp (corrEngineNew rules caps) cs)
        (lifeRun fp ci r key (corrEngineNew rules caps) cs).2 c ++
          [(groupApply fp caps.withDefaults r g i).step i] := by
    rw [lifeRun, List.foldl_concat, lifeStep, ← lifeRun, lifeRun_fst,
      ((engineOk_new rules caps).corrRun fp hr cs).states, hx]
  rw [hlife.eq_groupAfter, hnext, List.map_append]
  rfl

/-- The last call `c` of a run is input `i` of the group, which it finds as `s`: `H` are the steps of
the past lives, and `L` those of the life it finds. -/
structure LastInput (fp : Doubles) (caps : CorrCaps) (rules : List CorrRule) (ci : ℕ)
    (r : CorrRule) (key : List CStr) (cs : List CorrCall) (c : CorrCall) (i : GroupInput)
    (H L : List GroupStep) (s : Option Group) : Prop where
  step : c.stepFor ci r key (admittedRules rules)
    (corrCall fp (corrRun fp (corrEngineNew rules caps) cs) c).2 =
      some ((groupApply fp caps.withDefaults r s i).step i)
  trace : groupTrace fp ci r key (corrEngineNew rules caps) cs = H ++ L
  trace_concat : groupTrace fp ci r key (corrEngineNew rules caps) (cs ++ [c]) =
    H ++ (L ++ [(groupApply fp caps.withDefaults r s i).step i])
  steps : L = lifeFound ci key (corrRun fp (corrEngineNew rules caps) cs)
    (lifeRun fp ci r key (corrEngineNew rules caps) cs).2 c
  life : Life fp caps.withDefaults r L s
  found : s = ((corrRun fp (corrEngineNew rules caps) cs).sweepIfDue c.ts).slot ci key
  left : (corrRun fp (corrEngineNew rules caps) (cs ++ [c])).slot ci key =
    some (groupApply fp caps.withDefaults r s i).group
  inputs : H.map GroupStep.input ++ (L.map GroupStep.input ++ [i]) =
    (cs ++ [c]).filterMap (CorrCall.inputFor (admittedRules rules) ci r key)
  past : ∀ y ∈ H, y.ts < i.ts - r.timespanS
  sorted : ((H ++ (L ++ [(groupApply fp caps.withDefaults r s i).step i])).map
    GroupStep.ts).Pairwise (· ≤ ·)

/-- In a run in order of time that does not evict the group, each input of it is one of a life. -/
theorem exists_lastInput (hr : (admittedRules rules)[ci]? = some r) {cs : List CorrCall}
    {c : CorrCall} {i : GroupInput} (hsorted : TimeOrdered (cs ++ [c]))
    (hspared : spared fp ci r key (corrEngineNew rules caps) (cs ++ [c]) = true)
    (hi : c.inputFor (admittedRules rules) ci r key = some i) :
    ∃ H L s, LastInput fp caps rules ci r key cs c i H L s := by
  obtain ⟨H, s, htrace, hlife, hx, hpast⟩ := lifeFound_step fp caps key hr cs hi
  have hslot := slot_concat fp caps hr cs hi
  have hfound := lifeFound_life fp caps key hr cs c
  have hpast := hpast hsorted hspared
  generalize hL : lifeFound ci key (corrRun fp (corrEngineNew rules caps) cs)
    (lifeRun fp ci r key (corrEngineNew rules caps) cs).2 c = L at *
  have hconcat : groupTrace fp ci r key (corrEngineNew rules caps) (cs ++ [c]) =
      H ++ (L ++ [(groupApply fp caps.withDefaults r s i).step i]) := by
    rw [groupTrace_concat hr, hx, htrace, Option.toList_some, List.append_assoc]
  refine ⟨H, L, s, hx, htrace, hconcat, hL.symm, hlife, ?_, ?_, ?_, fun y hy => ?_, ?_⟩
  · exact hlife.eq_groupAfter.trans hfound.eq_groupAfter.symm
  · rw [hslot, groupAfter_concat, ← hlife.eq_groupAfter]
  · rw [← groupTrace_inputs (engineOk_new rules caps) hr, hconcat, List.map_append,
      List.map_append]
    rfl
  · exact hpast y hy _ (List.mem_append_right _ List.mem_cons_self)
  · rw [← hconcat]
    exact hsorted.groupTrace fp ci r key _

section Last

variable {cs : List CorrCall} {c : CorrCall} {i : GroupInput} {H L : List GroupStep}
  {s : Option Group}

theorem LastInput.life_sorted (h : LastInput fp caps rules ci r key cs c i H L s) :
    ((L ++ [(groupApply fp caps.withDefaults r s i).step i]).map GroupStep.ts).Pairwise
      (· ≤ ·) :=
  h.sorted.sublist ((List.sublist_append_right H _).map _)

theorem LastInput.inputs_sorted (h : LastInput fp caps rules ci r key cs c i H L s) :
    ((L.map GroupStep.input ++ [i]).map GroupInput.ts).Pairwise (· ≤ ·) := by
  have hlife := h.life_sorted
  rw [List.map_append] at hlife ⊢
  rw [List.map_map]
  exact hlife

/-- Nothing is later than the last input. -/
theorem LastInput.le (h : LastInput fp caps rules ci r key cs c i H L s) :
    ∀ y ∈ L, y.ts ≤ i.ts := by
  have hlife := h.life_sorted
  rw [List.map_append, List.pairwise_append] at hlife
  exact fun y hy => hlife.2.2 _ (List.mem_map_of_mem hy) _ List.mem_cons_self

end Last

/-- **An input of a run is an input of a life**; in a run in order of time, whatever came before
that life has left the window of each of its steps, unless a call evicted the group. -/
theorem groupTrace_life (hr : (admittedRules rules)[ci]? = some r) {cs : List CorrCall}
    {H H' : List GroupStep} {x : GroupStep}
    (hsplit : groupTrace fp ci r key (corrEngineNew rules caps) cs = H ++ x :: H') :
    ∃ H₁ H₂ g, H = H₁ ++ H₂ ∧ Life fp caps.withDefaults r H₂ g ∧
      x = (groupApply fp caps.withDefaults r g x.input).step x.input ∧
      (TimeOrdered cs → spared fp ci r key (corrEngineNew rules caps) cs = true →
        ∀ y ∈ H₁, ∀ z ∈ H₂ ++ [x], y.ts < z.ts - r.timespanS) := by
  induction cs using List.reverseRecOn generalizing H' with
  | nil => exact absurd hsplit (by simp [groupTrace])
  | append_singleton cs c ih =>
    -- the step is one of the earlier calls
    have hearlier : ∀ H'', groupTrace fp ci r key (corrEngineNew rules caps) cs =
        H ++ x :: H'' → ∃ H₁ H₂ g, H = H₁ ++ H₂ ∧ Life fp caps.withDefaults r H₂ g ∧
          x = (groupApply fp caps.withDefaults r g x.input).step x.input ∧
          (TimeOrdered (cs ++ [c]) →
            spared fp ci r key (corrEngineNew rules caps) (cs ++ [c]) = true →
            ∀ y ∈ H₁, ∀ z ∈ H₂ ++ [x], y.ts < z.ts - r.timespanS) := by
      intro H'' hcs
      obtain ⟨H₁, H₂, g, hH, hlife, hx, hpast⟩ := ih hcs
      refine ⟨H₁, H₂, g, hH, hlife, hx, fun hsorted hspared => hpast hsorted.of_concat.1 ?_⟩
      rw [spared_append, Bool.and_eq_true] at hspared
      exact hspared.1
    rw [groupTrace_concat hr] at hsplit
    cases hi : c.inputFor (admittedRules rules) ci r key with
    | none =>
      rw [CorrCall.stepFor, hi, Option.bind_none, Option.toList_none, List.append_nil] at hsplit
      exact hearlier H' hsplit
    | some i =>
      obtain ⟨A, g', htrace', hB, hstep, hgone⟩ := lifeFound_step fp caps key hr cs hi
      rw [hstep, Option.toList_some] at hsplit
      rcases List.eq_nil_or_concat H' with rfl | ⟨H'', y, rfl⟩
      · obtain ⟨htrace, hx⟩ := List.append_inj' hsplit rfl
        have hxi := (List.cons_eq_cons.mp hx).1
        have hin : x.input = i := by rw [← hxi]; rfl
        refine ⟨A, _, g', by rw [← htrace, htrace'], hB, by rw [hin, hxi], hxi ▸ hgone⟩
      · have hsplit' : groupTrace fp ci r key (corrEngineNew rules caps) cs ++
            [(groupApply fp caps.withDefaults r g' i).step i] = (H ++ x :: H'') ++ [y] := by
          rw [hsplit]
          simp
        exact hearlier H'' (List.append_inj' hsplit' rfl).1

/-- No call evicts the group of `key`, and no sweep drops it. -/
def undisturbed (fp : Doubles) (ci : ℕ) (r : CorrRule) (key : List CStr) :
    CorrEngine → List CorrCall → Bool
  | _, [] => true
  | e, c :: cs => decide (e.victim ci r c ≠ some key) &&
      ((e.sweepIfDue c.ts).slot ci key).isSome == (e.slot ci key).isSome &&
      undisturbed fp ci r key (corrCall fp e c).1 cs

@[simp] theorem undisturbed_append (e : CorrEngine) (cs cs' : List CorrCall) :
    undisturbed fp ci r key e (cs ++ cs') =
      (undisturbed fp ci r key e cs &&
        undisturbed fp ci r key (corrRun fp e cs) cs') := by
  induction cs generalizing e with
  | nil => rfl
  | cons c cs ih =>
    rw [List.cons_append, undisturbed, undisturbed, ih, ← Bool.and_assoc]
    rfl

/-- **A group that is never disturbed lives all along.** -/
theorem undisturbed_life (hr : (admittedRules rules)[ci]? = some r) {cs : List CorrCall}
    (h : undisturbed fp ci r key (corrEngineNew rules caps) cs = true) :
    Life fp caps.withDefaults r (groupTrace fp ci r key (corrEngineNew rules caps) cs)
      ((corrRun fp (corrEngineNew rules caps) cs).slot ci key) := by
  induction cs using List.reverseRecOn with
  | nil =>
    obtain ⟨-, -, hlife, -⟩ := lifeRun_life fp caps key hr []
    exact hlife
  | append_singleton cs c ih =>
    rw [undisturbed_append, Bool.and_eq_true] at h
    have hlife := ih h.1
    have hok := (engineOk_new rules caps).corrRun fp hr cs
    obtain ⟨g, hg, hinput, hother⟩ := slot_corrCall fp hok hr key c
    obtain ⟨hvictim, hsweep⟩ : (corrRun fp (corrEngineNew rules caps) cs).victim ci r c ≠
        some key ∧ (((corrRun fp (corrEngineNew rules caps) cs).sweepIfDue c.ts).slot ci
          key).isSome = ((corrRun fp (corrEngineNew rules caps) cs).slot ci key).isSome := by
      simpa [undisturbed] using h.2
    have hsame : g = (corrRun fp (corrEngineNew rules caps) cs).slot ci key := by
      rcases hg with rfl | rfl
      · rfl
      · rcases hok.slot_sweepIfDue hr c.ts key with heq | heq
        · exact heq
        · rw [heq] at hsweep ⊢
          cases hslot : (corrRun fp (corrEngineNew rules caps) cs).slot ci key with
          | none => rfl
          | some g =>
            rw [hslot, Option.isSome_some] at hsweep
            obtain ⟨g', hg'⟩ := Option.isSome_iff_exists.mp hsweep
            rw [hg', (Option.filter_eq_some_iff.mp hg').1]
    have hrun : corrRun fp (corrEngineNew rules caps) (cs ++ [c]) =
        (corrCall fp (corrRun fp (corrEngineNew rules caps) cs) c).1 := by
      rw [corrRun_append]
      rfl
    rw [groupTrace_concat hr, hrun]
    cases hi : c.inputFor (admittedRules rules) ci r key with
    | some i =>
      obtain ⟨-, hslot, hx⟩ := hinput i hi
      rw [hslot, hx, hsame]
      exact .input i hlife
    | none =>
      obtain ⟨hslot, -⟩ := hother hi
      rw [CorrCall.stepFor, hi, Option.bind_none, Option.toList_none, List.append_nil]
      rcases hslot with hslot | ⟨hevict, -⟩
      · exact (hslot.trans hsame) ▸ hlife
      · exact absurd hevict hvictim

/-- A step of a life is a step of what came before. -/
theorem Life.of_split {caps : CorrCaps} {H H' : List GroupStep} {x : GroupStep} {s : Option Group}
    (h : Life fp caps r (H ++ x :: H') s) :
    x = (groupApply fp caps r (groupAfter fp caps r (H.map GroupStep.input))
      x.input).step x.input := by
  generalize hK : H ++ x :: H' = K at h
  induction h generalizing H' with
  | unborn => exact absurd hK (by simp)
  | @input K s i h ih =>
    rcases List.eq_nil_or_concat H' with rfl | ⟨H'', y, rfl⟩
    · obtain ⟨rfl, hx⟩ := List.append_inj' hK rfl
      obtain ⟨rfl, -⟩ := List.cons_eq_cons.mp hx
      rw [← h.eq_groupAfter]
      rfl
    · have hsplit : (H ++ x :: H'') ++ [y] = K ++ [(groupApply fp caps r s i).step i] := by
        rw [← hK]
        simp
      exact ih (List.append_inj' hsplit rfl).1

/-- A relation between each step and the later ones, one split at a time. -/
theorem pairwise_of_split {α : Type} {R : α → α → Prop} {xs : List α}
    (h : ∀ H x H', xs = H ++ x :: H' → ∀ y ∈ H, R y x) : xs.Pairwise R := by
  induction xs using List.reverseRecOn with
  | nil => exact .nil
  | append_singleton xs x ih =>
    refine List.pairwise_append.mpr ⟨ih ?_, List.pairwise_singleton R x, fun y hy z hz => ?_⟩
    · intro H y H' hxs
      exact h H y (H' ++ [x]) (by rw [hxs, List.append_assoc, List.cons_append])
    · rw [List.mem_singleton.mp hz]
      exact h xs x [] rfl y hy

end Run

/-! ## A small rule

Rules and events for the witnesses of this layer and of those above it. -/

/-- One event of a user, within a minute. -/
def burstRule : CorrRule where
  id := some (cstr "burst")
  title := none
  type := some .eventCount
  baseRuleIds := [7]
  orderedRuleIds := []
  groupBy := [some (cstr "user")]
  aliasGroupBy := []
  valueField := none
  condOp := some .gte
  condCount := 1
  timespanS := 60
  level := none
  mitre := none
  cond := []
  beaconCvPermille := 0
  beaconNBuckets := 0
  valuePercentile := 0

/-- Three events of a user, within a minute. -/
def tripleRule : CorrRule := { burstRule with condCount := 3 }

/-- Caps that ask for the defaults. -/
def capsZero : CorrCaps := ⟨0, 0, 0, 0, false, 0⟩

/-- The fields of an event of user `a`. -/
def userField (name : CStr) : Option CStr := if name = cstr "user" then some (cstr "a") else none

/-- An event of user `a`. -/
def userEvent (rid : UInt32) (ts : ℚ) : CorrEvent := ⟨[rid], userField, ts⟩

end LibSigma
