import LibSigma.Corr.Isolation

/-!
# Rules that stay local

Some types of correlation are never sent partials: `corr_contrib_kind_for` is -1 for them.  A
partial that reaches one all the same is merged into its group.

The engine does not check the type when a partial comes. A partial of a merge kind for a
temporal_ordered or beaconing rule finds its group, makes it if it is not there, and adds to
accumulators that no evaluator of these types reads. There are two ways in which it could still be
seen. It moves the last update of the group, so that a sweep keeps what it would have dropped; that
is invisible because groups forget (`LibSigma.Corr.Machine`). And its bits go into the mask that the
condition of an ordered rule is evaluated on. This one can be seen, and `Unread` excludes it.

* `merges_unobserved`: **partials of the merge kinds change no fire of such a rule**, as long as
  they carry no bit its condition reads.
* `merges_observed`: a `SEEN` partial whose bit the condition reads does.
-/

namespace LibSigma

open Library

/-! ## Runs with partials -/

/-- The second run is the first with partials of the merge kinds put in. -/
inductive MergesInto : List CorrCall → List CorrCall → Prop
  | nil : MergesInto [] []
  | keep (c : CorrCall) {cs cs' : List CorrCall} (h : MergesInto cs cs') :
      MergesInto (c :: cs) (c :: cs')
  | insert (p : CorrContrib) (field : CStr → Option CStr) {k : CorrContribKind}
      (hkind : p.kind = some k) (hmerge : k ≠ .event) {cs cs' : List CorrCall}
      (h : MergesInto cs cs') : MergesInto cs (.contribution p field :: cs')

section Merges

variable {rules : List CorrRule} {ci : ℕ} {r : CorrRule} {key : List CStr} {cs cs' : List CorrCall}

theorem MergesInto.sublist (h : MergesInto cs cs') : cs.Sublist cs' := by
  induction h with
  | nil => exact .slnil
  | keep c h ih => exact ih.cons_cons c
  | insert p field hkind hmerge h ih => exact ih.cons _

/-- A partial of a merge kind is no event for a group. -/
theorem isEvent_of_merge {p : CorrContrib} {field : CStr → Option CStr} {i : GroupInput}
    (hkind : p.kind ≠ some .event)
    (h : (CorrCall.contribution p field).inputFor rules ci r key = some i) : i.isEvent = false := by
  have htarget := target_of_inputFor h
  rw [CorrCall.target, if_neg hkind] at htarget
  unfold contribTarget at htarget
  split at htarget
  · cases htarget
  · cases htarget
  · split at htarget
    · obtain ⟨k, -, hk⟩ := Option.map_eq_some_iff.mp htarget
      cases hk
      rfl
    · cases htarget

/-- **The events of a group are those of before.** -/
theorem MergesInto.eventsBy (h : MergesInto cs cs') :
    eventsBy ci r key rules cs' = LibSigma.eventsBy ci r key rules cs := by
  induction h with
  | nil => rfl
  | @keep c cs cs' h ih =>
    unfold LibSigma.eventsBy at ih ⊢
    cases hi : c.inputFor rules ci r key with
    | none =>
      rw [List.filterMap_cons_none (by rw [hi]; rfl), List.filterMap_cons_none (by rw [hi]; rfl), ih]
    | some i =>
      rw [List.filterMap_cons_some (by rw [hi]; rfl), List.filterMap_cons_some (by rw [hi]; rfl),
        List.filter_cons, List.filter_cons, ih]
  | @insert p field k hkind hmerge cs cs' h ih =>
    unfold LibSigma.eventsBy at ih ⊢
    have hnot : p.kind ≠ some .event := fun heq => hmerge (Option.some.inj (hkind.symm.trans heq))
    cases hi : (CorrCall.contribution p field).inputFor rules ci r key with
    | none => rw [List.filterMap_cons_none (by rw [hi]; rfl), ih]
    | some i =>
      have hevent := isEvent_of_merge hnot hi
      rw [List.filterMap_cons_some (by rw [hi]; rfl),
        List.filter_cons_of_neg (by rw [hevent]; decide), ih]

end Merges

/-! ## Partials that are not observed -/

section Unobserved

variable {fp : Doubles} {rules : List CorrRule} {caps : CorrCaps} {ci : ℕ}
  {r : CorrRule} {key : List CStr} {cs cs' : List CorrCall}

/-- No partial sent to an ordered rule has seen an id its condition asks for. -/
def Unread (r : CorrRule) (cs : List CorrCall) : Prop :=
  r.type = some .temporalOrdered → ∀ p field, CorrCall.contribution p field ∈ cs →
    p.corrId = r.id → p.kind = some .seen →
    ∀ a, r.CondReads a → p.seenMask.toNat.testBit a.toNat = false

/-- **Partials of the merge kinds change no fire of a local rule**: not which calls fire it, and not
what they observe. -/
theorem merges_unobserved (hr : (admittedRules rules)[ci]? = some r)
    (hlocal : corrContribKindFor r.type = none) (hwm : caps.watermarkS ≤ 0)
    (hmerges : MergesInto cs cs') (hsorted : TimeOrdered cs')
    (hspared : spared fp ci r key (corrEngineNew rules caps) cs = true)
    (hspared' : spared fp ci r key (corrEngineNew rules caps) cs' = true)
    (hunread : Unread r cs') (hexpire : r.Bucketed → r.EpochsExpire fp (callTimes cs')) :
    (firesBy fp ci key (corrEngineNew rules caps) cs').map (fun p => (p.1, p.2.observed)) =
      (firesBy fp ci key (corrEngineNew rules caps) cs).map (fun p => (p.1, p.2.observed)) := by
  have hnot : r.type ≠ some .temporal := by
    intro htype
    rw [htype] at hlocal
    cases hlocal
  obtain ⟨Agree, Held, hm⟩ : ∃ Agree Held,
      Memory fp caps.withDefaults r r.baseRuleIds (callTimes cs') Agree Held :=
    exists_memory hr hwm (fun htype => absurd htype hnot) hexpire
  have hok : ∀ c ∈ cs', ∀ i, c.inputFor (admittedRules rules) ci r key = some i →
      InputOk r r.baseRuleIds (callTimes cs') i := by
    intro c hc i hi
    refine inputOk_of_inputFor hr hi ⟨c, hc, rfl⟩ (fun rid hrid => mem_base_of_inputFor hi hrid) ?_
    intro p field heq hkind hid
    exact ⟨hlocal, hkind, fun htype => hunread htype p field (heq ▸ hc) hid⟩
  have hsub := hmerges.sublist
  rw [firesBy_eq hr hm hsorted hspared' hok,
    firesBy_eq hr hm (hsorted.sublist (hsub.map CorrCall.ts)) hspared fun c hc => hok c (hsub.mem hc),
    hmerges.eventsBy]

end Unobserved

/-! ## A partial that is observed -/

/-- A sequence of two ids that counts if a third was seen. -/
def guardedRule : CorrRule :=
  { stepsRule with baseRuleIds := [1, 2, 3], orderedRuleIds := [1, 2], cond := [⟨corrCSel, 2⟩] }

/-- A peer has seen the third id. -/
def seenPartial : CorrContrib where
  kind := some .seen
  corrId := some (cstr "burst")
  rids := []
  groupVals := [some (cstr "a")]
  ts := 0
  value := none
  numeric := 0
  count := 0
  seenMask := 4

/-- The two steps of the sequence. -/
def guardedCalls : List CorrCall := [.event (userEvent 1 1) none, .event (userEvent 2 2) none]

/-- A partial whose bits the condition does not read changes nothing. -/
theorem merges_unobserved_sample :
    (firesBy .bare 0 [cstr "a"] (corrEngineNew [guardedRule] capsZero)
        (.contribution { seenPartial with seenMask := 3 } (fun _ => none) :: guardedCalls)).map
        (fun p => (p.1, p.2.observed)) =
      (firesBy .bare 0 [cstr "a"] (corrEngineNew [guardedRule] capsZero)
        guardedCalls).map (fun p => (p.1, p.2.observed)) := by
  refine merges_unobserved (r := guardedRule) (by decide) rfl (by decide)
    (.insert _ _ rfl (by decide) (.keep _ (.keep _ .nil))) ?_ (by decide +kernel)
    (by decide +kernel) ?_ (fun hb => absurd hb.1 (by decide))
  · norm_num [TimeOrdered, guardedCalls, CorrCall.ts, userEvent, seenPartial]
  · intro _ p field hp _ _ a ha
    have hmem : p = { seenPartial with seenMask := 3 } := by
      rcases List.mem_cons.mp hp with heq | hp
      · exact (CorrCall.contribution.inj heq).1
      · exact absurd hp (by simp [guardedCalls])
    obtain ⟨c, hc, htok⟩ := ha
    have hcell : c = ⟨corrCSel, 2⟩ := List.mem_singleton.mp hc
    rw [hcell] at htok
    have harg : a = 2 := RpnTok.arg.inj (Option.some.inj htok.symm)
    rw [hmem, harg]
    decide

/-- A partial whose bit the condition reads makes a local rule fire. -/
theorem merges_observed :
    ¬ ∀ (fp : Doubles) (rules : List CorrRule) (caps : CorrCaps) (ci : ℕ)
      (r : CorrRule) (key : List CStr) (cs cs' : List CorrCall),
      (admittedRules rules)[ci]? = some r → corrContribKindFor r.type = none →
      caps.watermarkS = 0 → MergesInto cs cs' → TimeOrdered cs' →
      spared fp ci r key (corrEngineNew rules caps) cs = true →
      spared fp ci r key (corrEngineNew rules caps) cs' = true →
      (firesBy fp ci key (corrEngineNew rules caps) cs').map (fun p => p.1.ts) =
        (firesBy fp ci key (corrEngineNew rules caps) cs).map (fun p => p.1.ts) := by
  intro hclaim
  have htimes := hclaim .bare [guardedRule] capsZero 0 guardedRule [cstr "a"] guardedCalls
    (.contribution seenPartial (fun _ => none) :: guardedCalls) (by decide) rfl rfl
    (.insert _ _ rfl (by decide) (.keep _ (.keep _ .nil)))
    (by norm_num [TimeOrdered, guardedCalls, CorrCall.ts, userEvent, seenPartial])
    (by decide +kernel) (by decide +kernel)
  revert htimes
  decide +kernel

end LibSigma
