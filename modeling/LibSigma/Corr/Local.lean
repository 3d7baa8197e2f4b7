import LibSigma.Corr.Refire

/-!
# Runs of local events

In a run of `corr_on_event` calls every input of a group is an event that hit one of its base rules,
and nothing is ever merged.

Many of the results about single types of rules are about such runs, and they all begin in the same
way: take the run, find the inputs of one group, find the life of the group that the last of them
belongs to, and use that the group has no partials.  That beginning is here.

* `groupTrace_localCalls`: the inputs of a group are the events of the run that are addressed to it
  (`groupEvents`), in their order.
* `Unmerged`: what a group that only local events reached has not merged.
* `exists_stepOf`: **a step of a run of local events** is a step of a life, on an event of the run,
  with what came before that life out of the window.
-/

namespace LibSigma

open Library

/-- The calls of a run of local events. -/
def localCalls (evs : List CorrEvent) : List CorrCall := evs.map fun ev => .event ev none

/-- The events of a run that reach the group of `key`. -/
def groupEvents (rules : List CorrRule) (ci : ℕ) (r : CorrRule) (key : List CStr)
    (evs : List CorrEvent) : List CorrEvent :=
  evs.filter fun ev => ((CorrCall.event ev none).inputFor rules ci r key).isSome

@[simp] theorem localCalls_concat (evs : List CorrEvent) (ev : CorrEvent) :
    localCalls (evs ++ [ev]) = localCalls evs ++ [.event ev none] := by
  rw [localCalls, List.map_append]
  rfl

section Events

variable {fp : Doubles} {rules : List CorrRule} {caps : CorrCaps} {ci : ℕ}
  {r : CorrRule} {key : List CStr}

/-- An event that reaches a group hit a base rule. -/
theorem inputFor_event {ev : CorrEvent} {i : GroupInput}
    (h : (CorrCall.event ev none).inputFor rules ci r key = some i) :
    i = ev.input r ∧ hitBuf r ev.rids ≠ [] := input_of_eventTarget (target_of_inputFor h)

theorem hitBuf_ne_nil_of_mem_groupEvents {evs : List CorrEvent} {ev : CorrEvent}
    (h : ev ∈ groupEvents rules ci r key evs) : hitBuf r ev.rids ≠ [] := by
  obtain ⟨i, hi⟩ := Option.isSome_iff_exists.mp (List.mem_filter.mp h).2
  exact (inputFor_event hi).2

variable (fp caps key) in
/-- **The inputs of a group in a run of local events.** -/
theorem groupTrace_localCalls (hr : (admittedRules rules)[ci]? = some r) (evs : List CorrEvent) :
    (groupTrace fp ci r key (corrEngineNew rules caps) (localCalls evs)).map GroupStep.input =
      (groupEvents (admittedRules rules) ci r key evs).map (CorrEvent.input r) := by
  rw [groupTrace_inputs (engineOk_new rules caps) hr, localCalls, List.filterMap_map, groupEvents]
  induction evs with
  | nil => rfl
  | cons ev evs ih =>
    cases hi : (CorrCall.event ev none).inputFor (admittedRules rules) ci r key with
    | none =>
      rw [List.filterMap_cons_none (by exact hi), ih, List.filter_cons_of_neg (by simp [hi])]
    | some i =>
      rw [List.filterMap_cons_some (by exact hi), ih, List.filter_cons_of_pos (by simp [hi]),
        List.map_cons, (inputFor_event hi).1]

/-- The events of a group come in order of time if all events do. -/
theorem groupEvents_sorted {evs : List CorrEvent} (h : TimeOrdered (localCalls evs)) :
    ((groupEvents rules ci r key evs).map CorrEvent.ts).Pairwise (· ≤ ·) := by
  have hts : (localCalls evs).map CorrCall.ts = evs.map CorrEvent.ts := by
    rw [localCalls, List.map_map]
    rfl
  rw [TimeOrdered, hts] at h
  exact h.sublist (List.Sublist.map _ List.filter_sublist)

/-- The base rules an input hit, as far as the buffer holds them. -/
def GroupInput.hits : GroupInput → List UInt32
  | .event hits _ _ => hits
  | .contrib _ => []

/-- The base rules a step hit. -/
def GroupStep.hits (x : GroupStep) : List UInt32 := x.input.hits

/-- Whether an input is a local event. -/
def GroupInput.isEvent : GroupInput → Bool
  | .event hits _ _ => !hits.isEmpty
  | .contrib _ => false

/-- The kind of the partial an input is. -/
def GroupInput.contribKind : GroupInput → Option CorrContribKind
  | .event _ _ _ => none
  | .contrib c => c.kind

theorem isEvent_event {hits : List UInt32} (h : hits ≠ []) (value : Option CStr) (ts : ℚ) :
    (GroupInput.event hits value ts).isEvent = true := by
  simpa [GroupInput.isEvent] using h

theorem mem_base_of_mem_hitBuf {r : CorrRule} {rids : List UInt32} {rid : UInt32}
    (h : rid ∈ hitBuf r rids) : rid ∈ r.baseRuleIds ∧ rid ∈ rids := by
  have hmem := List.mem_filter.mp (List.mem_of_mem_take h)
  exact ⟨hmem.1, of_decide_eq_true hmem.2⟩

/-- Few base rules all find room in the hits of an event. -/
theorem mem_hitBuf {r : CorrRule} (hbase : r.baseRuleIds.length ≤ corrMaxSeenRules) {rid : UInt32}
    (hrid : rid ∈ r.baseRuleIds) (rids : List UInt32) : rid ∈ hitBuf r rids ↔ rid ∈ rids := by
  have hall : hitBuf r rids = r.baseRuleIds.filter (· ∈ rids) :=
    List.take_of_length_le ((List.length_filter_le _ _).trans hbase)
  rw [hall, List.mem_filter, decide_eq_true_eq]
  exact and_iff_right hrid

/-- A step that an event took. -/
def GroupStep.IsLocal (r : CorrRule) (x : GroupStep) : Prop :=
  ∃ ev : CorrEvent, x.input = ev.input r ∧ hitBuf r ev.rids ≠ []

/-- The hits of an input are base rules. -/
theorem mem_base_of_inputFor {c : CorrCall} {i : GroupInput}
    (h : c.inputFor rules ci r key = some i) {rid : UInt32} (hrid : rid ∈ i.hits) :
    rid ∈ r.baseRuleIds := by
  rcases input_of_target (target_of_inputFor h) with ⟨ev, -, rfl, -⟩ | ⟨c', field, -, rfl⟩
  · exact (mem_base_of_mem_hitBuf hrid).1
  · exact absurd hrid List.not_mem_nil

theorem GroupStep.IsLocal.mem_base {x : GroupStep} (h : x.IsLocal r) {rid : UInt32}
    (hrid : rid ∈ x.hits) : rid ∈ r.baseRuleIds := by
  obtain ⟨ev, hev, -⟩ := h
  rw [GroupStep.hits, hev] at hrid
  exact (mem_base_of_mem_hitBuf hrid).1

theorem isLocal_of_mem_groupTrace (hr : (admittedRules rules)[ci]? = some r)
    {evs : List CorrEvent} {x : GroupStep}
    (hx : x ∈ groupTrace fp ci r key (corrEngineNew rules caps) (localCalls evs)) :
    x.IsLocal r := by
  have hmem := List.mem_map_of_mem (f := GroupStep.input) hx
  rw [groupTrace_localCalls fp caps key hr] at hmem
  obtain ⟨ev, hev, hinput⟩ := List.mem_map.mp hmem
  exact ⟨ev, hinput.symm, hitBuf_ne_nil_of_mem_groupEvents hev⟩

end Events

/-! ## One local event on its group -/

section Input

variable (fp : Doubles) (caps : CorrCaps) (r : CorrRule)

theorem groupInput_event (g : Group) {hits : List UInt32} (h : hits ≠ []) (value : Option CStr)
    (ts : ℚ) : groupInput fp caps r g (.event hits value ts) =
      settle r ts (evaluate fp caps r { g with lastUpdate := ts } hits value ts
        (ts - r.timespanS)) := if_neg h

/-- The decision changes the deadline only. -/
@[simp] theorem settle_group (ts : ℚ) (e : Evaluated) :
    (settle r ts e).group =
      { e.group with firedUntil := (settle r ts e).group.firedUntil } := by
  unfold settle
  split_ifs <;> rfl

/-- What a group that only local events reached has not merged. -/
structure Unmerged (caps : CorrCaps) (g : Group) : Prop where
  mergeSum : g.mergeSum = 0
  mergeN : g.mergeN = 0
  mergeSeen : g.mergeSeen = 0
  mergeRemote : g.mergeRemote = false
  cap : g.evIdx.cap = if caps.maxEventsPerGroup = 0 then 1 else caps.maxEventsPerGroup

theorem unmerged_new : Unmerged caps (groupNew caps.maxEventsPerGroup) :=
  ⟨rfl, rfl, rfl, rfl, rfl⟩

variable {caps r} in
theorem Unmerged.of_sameFrame {g g' : Group} (h : Unmerged caps g) (hframe : SameFrame g g') :
    Unmerged caps g' :=
  ⟨hframe.mergeSum.trans h.mergeSum, hframe.mergeN.trans h.mergeN,
    hframe.mergeSeen.trans h.mergeSeen, hframe.mergeRemote.trans h.mergeRemote,
    hframe.cap.trans h.cap⟩

variable {caps r} in
theorem Unmerged.groupInput {g : Group} (h : Unmerged caps g) (ev : CorrEvent)
    (hhits : hitBuf r ev.rids ≠ []) :
    Unmerged caps (groupInput fp caps r g (ev.input r)).group := by
  have hframe := sameFrame_evaluate fp caps r { g with lastUpdate := ev.ts }
    (hitBuf r ev.rids) (r.valueField.bind ev.field) ev.ts (ev.ts - r.timespanS)
  have hstart : Unmerged caps { g with lastUpdate := ev.ts } :=
    ⟨h.mergeSum, h.mergeN, h.mergeSeen, h.mergeRemote, h.cap⟩
  have heval := hstart.of_sameFrame hframe
  rw [CorrEvent.input, groupInput_event fp caps r g hhits, settle_group]
  exact ⟨heval.mergeSum, heval.mergeN, heval.mergeSeen, heval.mergeRemote, heval.cap⟩

end Input

/-- The ring of a group has its size from the start. -/
theorem Life.cap {fp : Doubles} {caps : CorrCaps} {r : CorrRule}
    {H : List GroupStep} {s : Option Group} (h : Life fp caps r H s)
    (hcap : 0 < caps.maxEventsPerGroup) :
    (s.getD (groupNew caps.maxEventsPerGroup)).evIdx.cap = caps.maxEventsPerGroup := by
  induction h with
  | unborn => exact if_neg hcap.ne'
  | input i h ih =>
    rw [Option.getD_some, groupApply, cap_groupInput]
    exact ih

/-- A life of local events. -/
theorem Life.unmerged {fp : Doubles} {caps : CorrCaps} {r : CorrRule}
    {H : List GroupStep} {s : Option Group} (h : Life fp caps r H s)
    (hlocal : ∀ x ∈ H, x.IsLocal r) : Unmerged caps (s.getD (groupNew caps.maxEventsPerGroup)) := by
  induction h with
  | unborn => exact unmerged_new caps
  | @input H s i h ih =>
    obtain ⟨ev, hev, hhits⟩ := hlocal _ (List.mem_append_right _ List.mem_cons_self)
    have hi : i = ev.input r := hev
    subst hi
    exact (ih fun x hx => hlocal x (List.mem_append_left _ hx)).groupInput fp ev hhits

/-! ## One step of a run -/

/-- Step `x` of a group, taken on event `ev` in the life `H`. -/
structure StepOf (fp : Doubles) (caps : CorrCaps) (r : CorrRule) (H : List GroupStep)
    (s : Option Group) (ev : CorrEvent) (x : GroupStep) : Prop where
  life : Life fp caps r H s
  isLocal : ∀ y ∈ H, y.IsLocal r
  hits : hitBuf r ev.rids ≠ []
  eq : x = (groupApply fp caps r s (ev.input r)).step (ev.input r)

theorem StepOf.ts_eq {fp : Doubles} {caps : CorrCaps} {r : CorrRule}
    {H : List GroupStep} {s : Option Group} {ev : CorrEvent} {x : GroupStep}
    (h : StepOf fp caps r H s ev x) : x.ts = ev.ts := by
  rw [h.eq]
  rfl

/-- The input of a step tells all that matters of its event. -/
theorem StepOf.of_input {fp : Doubles} {caps : CorrCaps} {r : CorrRule}
    {H : List GroupStep} {s : Option Group} {ev ev' : CorrEvent} {x : GroupStep}
    (h : StepOf fp caps r H s ev x) (hx : x.input = ev'.input r) :
    StepOf fp caps r H s ev' x := by
  have hinput : ev.input r = ev'.input r := by
    rw [← hx, h.eq]
    rfl
  obtain ⟨hhits, -, -⟩ := GroupInput.event.inj hinput
  exact ⟨h.life, h.isLocal, hhits ▸ h.hits, hinput ▸ h.eq⟩

/-- A group without steps does not exist yet. -/
theorem Life.eq_none {fp : Doubles} {caps : CorrCaps} {r : CorrRule}
    {s : Option Group} (h : Life fp caps r [] s) : s = none := by
  generalize hH : ([] : List GroupStep) = H at h
  cases h with
  | unborn => rfl
  | input i h => exact absurd hH (by simp)

/-- **A step of a run of local events** is a step of a life; if the run is in order of time and the
group is never evicted, what came before that life has left the window. -/
theorem exists_stepOf {fp : Doubles} {rules : List CorrRule} {caps : CorrCaps} {ci : ℕ}
    {r : CorrRule} {key : List CStr} (hr : (admittedRules rules)[ci]? = some r)
    {evs : List CorrEvent} {H H' : List GroupStep} {x : GroupStep}
    (hsplit : groupTrace fp ci r key (corrEngineNew rules caps) (localCalls evs) =
      H ++ x :: H') :
    ∃ H₁ H₂ s ev, H = H₁ ++ H₂ ∧ StepOf fp caps.withDefaults r H₂ s ev x ∧
      (TimeOrdered (localCalls evs) → ((H ++ [x]).map GroupStep.ts).Pairwise (· ≤ ·)) ∧
      (TimeOrdered (localCalls evs) →
        spared fp ci r key (corrEngineNew rules caps) (localCalls evs) = true →
        ∀ y ∈ H₁, ∀ z ∈ H₂ ++ [x], y.ts < z.ts - r.timespanS) := by
  have hlocal : ∀ y ∈ H ++ x :: H', y.IsLocal r := fun y hy =>
    isLocal_of_mem_groupTrace hr (hsplit ▸ hy)
  obtain ⟨H₁, H₂, s, hH, hlife, hx, hpast⟩ := groupTrace_life hr hsplit
  obtain ⟨ev, hev, hhits⟩ := hlocal x (List.mem_append_right _ List.mem_cons_self)
  refine ⟨H₁, H₂, s, ev, hH, ⟨hlife, fun y hy => ?_, hhits, hev ▸ hx⟩, fun hsorted => ?_, hpast⟩
  · refine hlocal y (List.mem_append_left _ ?_)
    rw [hH]
    exact List.mem_append_right _ hy
  · have htimes := hsorted.groupTrace fp ci r key (corrEngineNew rules caps)
    rw [hsplit] at htimes
    refine htimes.sublist (List.Sublist.map _ ?_)
    exact (List.Sublist.refl H).append ((List.nil_sublist H').cons_cons x)

/-- The steps before the last one of a list in order of time. -/
theorem le_of_sorted_concat {H : List GroupStep} {x : GroupStep}
    (h : ((H ++ [x]).map GroupStep.ts).Pairwise (· ≤ ·)) : ∀ y ∈ H, y.ts ≤ x.ts := by
  rw [List.map_append, List.pairwise_append] at h
  exact fun y hy => h.2.2 _ (List.mem_map_of_mem hy) _ List.mem_cons_self

/-- The step an event of the group takes. -/
theorem exists_step_of_event (fp : Doubles) {rules : List CorrRule} (caps : CorrCaps)
    {ci : ℕ} {r : CorrRule} {key : List CStr} (hr : (admittedRules rules)[ci]? = some r)
    {evs E E' : List CorrEvent} {ev : CorrEvent}
    (hsplit : groupEvents (admittedRules rules) ci r key evs = E ++ ev :: E') :
    ∃ H x H', groupTrace fp ci r key (corrEngineNew rules caps) (localCalls evs) = H ++ x :: H' ∧
      H.length = E.length ∧ H.map GroupStep.input = E.map (CorrEvent.input r) ∧
      x.input = ev.input r := by
  have hinputs := groupTrace_localCalls fp caps key hr evs
  rw [hsplit, List.map_append, List.map_cons] at hinputs
  obtain ⟨H, T, htrace, hH, hT⟩ := List.map_eq_append_iff.mp hinputs
  obtain ⟨x, H', rfl, hx, -⟩ := List.map_eq_cons_iff.mp hT
  refine ⟨H, x, H', htrace, ?_, hH, hx⟩
  rw [← List.length_map (f := GroupStep.input), hH, List.length_map]

end LibSigma
