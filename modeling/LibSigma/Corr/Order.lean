import LibSigma.Corr.Bounds

/-!
# The order of the matched rule ids

A call visits each correlation once, through the first matched rule id that leads to it.  The order
of the ids decides which one that is, and with it which fields the group is read from.

Apart from that a call does not depend on the order. The hits of an event are those base rules that
are among the matched ids, in the order of the rule. The visits of different correlations do not
touch each other, so the states they leave are the same in any order, and the outcomes are a
permutation. What the caller finds in its array is a permutation too, if there was room for all
fires: an array that is too short keeps the first fires, and which these are depends on the order.

* `visit_outcomes`: a call decides what the first entry of each correlation decides.
* `rids_order_free`: **where the matched ids of a correlation resolve the same group, their order
  does not matter**.
* `rids_order_matters`: with aliases it does.
-/

namespace LibSigma

open Library

/-! ## First entries

The list of index entries of an event, by matched id and then by watching correlation, may have
several entries of a correlation.  The loop acts on the first of them.  Permuting the ids permutes
the entries and may make another one the first. -/

/-- The first entry of each correlation that is not yet visited. -/
def firstEntries : List (UInt32 × ℕ) → List ℕ → List (UInt32 × ℕ)
  | [], _ => []
  | p :: ps, visited =>
    if p.2 ∈ visited then firstEntries ps visited else p :: firstEntries ps (p.2 :: visited)

theorem mem_firstEntries {ps : List (UInt32 × ℕ)} {visited : List ℕ} {p : UInt32 × ℕ}
    (h : p ∈ firstEntries ps visited) : p ∈ ps := by
  induction ps generalizing visited with
  | nil => exact absurd h List.not_mem_nil
  | cons q ps ih =>
    rw [firstEntries] at h
    split at h
    · exact List.mem_cons_of_mem _ (ih h)
    · rcases List.mem_cons.mp h with rfl | h
      · exact List.mem_cons_self
      · exact List.mem_cons_of_mem _ (ih h)

theorem mem_map_snd_firstEntries (ps : List (UInt32 × ℕ)) (visited : List ℕ) (c : ℕ) :
    c ∈ (firstEntries ps visited).map Prod.snd ↔ c ∈ ps.map Prod.snd ∧ c ∉ visited := by
  induction ps generalizing visited with
  | nil => simp [firstEntries]
  | cons p ps ih =>
    rw [firstEntries]
    split
    · rename_i hmem
      rw [ih, List.map_cons, List.mem_cons]
      constructor
      · exact fun h => ⟨Or.inr h.1, h.2⟩
      · rintro ⟨rfl | h, hnew⟩
        · exact absurd hmem hnew
        · exact ⟨h, hnew⟩
    · rename_i hnew
      rw [List.map_cons, List.mem_cons, ih, List.map_cons, List.mem_cons, List.mem_cons, not_or]
      constructor
      · rintro (rfl | ⟨h, -, hc⟩)
        · exact ⟨Or.inl rfl, hnew⟩
        · exact ⟨Or.inr h, hc⟩
      · rintro ⟨rfl | h, hc⟩
        · exact Or.inl rfl
        · by_cases heq : c = p.2
          · exact Or.inl heq
          · exact Or.inr ⟨h, heq, hc⟩

theorem nodup_firstEntries (ps : List (UInt32 × ℕ)) (visited : List ℕ) :
    ((firstEntries ps visited).map Prod.snd).Nodup := by
  induction ps generalizing visited with
  | nil => exact .nil
  | cons p ps ih =>
    rw [firstEntries]
    split
    · exact ih visited
    · rw [List.map_cons, List.nodup_cons, mem_map_snd_firstEntries]
      exact ⟨fun h => h.2 List.mem_cons_self, ih _⟩

/-- What the first entries give is the same up to order, if all entries of a correlation give the
same. -/
theorem flatMap_firstEntries_perm {α : Type} {ps ps' : List (UInt32 × ℕ)} (hperm : ps'.Perm ps)
    {f : UInt32 × ℕ → List α} (hf : ∀ p ∈ ps, ∀ q ∈ ps, p.2 = q.2 → f p = f q) :
    ((firstEntries ps' []).flatMap f).Perm ((firstEntries ps []).flatMap f) := by
  -- what a correlation gives, through any of its entries
  let give : ℕ → List α := fun c => ((ps.find? fun p => p.2 == c).map f).getD []
  have hgive : ∀ p ∈ ps, f p = give p.2 := by
    intro p hp
    cases hfind : ps.find? fun q => q.2 == p.2 with
    | none => exact absurd (beq_self_eq_true p.2) (List.find?_eq_none.mp hfind p hp)
    | some q =>
      have hq : q.2 = p.2 := by simpa using List.find?_some hfind
      show f p = ((ps.find? fun q => q.2 == p.2).map f).getD []
      rw [hfind, Option.map_some, Option.getD_some]
      exact hf p hp q (List.mem_of_find?_eq_some hfind) hq.symm
  have hmap : ∀ qs : List (UInt32 × ℕ), (∀ q ∈ qs, q ∈ ps) →
      qs.flatMap f = (qs.map Prod.snd).flatMap give := by
    intro qs hqs
    rw [List.flatMap_map]
    exact List.flatMap_congr fun q hq => hgive q (hqs q hq)
  rw [hmap _ fun q hq => hperm.mem_iff.mp (mem_firstEntries hq), hmap _ fun q hq => mem_firstEntries hq]
  refine List.Perm.flatMap_right _ ?_
  rw [List.perm_ext_iff_of_nodup (nodup_firstEntries _ _) (nodup_firstEntries _ _)]
  intro c
  rw [mem_map_snd_firstEntries, mem_map_snd_firstEntries, (hperm.map Prod.snd).mem_iff]

/-! ## One call

The visits of an event are to different correlations, so they do not disturb each other, and a call
decides, counts and leaves what its visits do one by one.  An order of the ids is then an order of
the visits, if the first entry of each correlation gives the same group. -/

section Visit

variable (fp : Doubles) (caps : CorrCaps) (ev : CorrEvent)
  (apply : Option (CorrRule → List CStr → Bool))

/-- What the visit through an entry adds to the outcomes and to the counters. -/
def visitGain (states : List CorrState) (p : UInt32 × ℕ) : List CorrOutcome × List CorrCounter :=
  let acc := visitStep fp caps ev apply ⟨states, [], [], []⟩ p
  (acc.outcomes, acc.incs)

/-- The gain depends on the state of the correlation only. -/
theorem visitGain_congr {states states' : List CorrState} {p : UInt32 × ℕ}
    (h : states[p.2]? = states'[p.2]?) :
    visitGain fp caps ev apply states p = visitGain fp caps ev apply states' p := by
  unfold visitGain visitStep
  rw [if_neg List.not_mem_nil, if_neg List.not_mem_nil]
  simp only [h]
  split
  · rfl
  · split
    · rfl
    · split <;> rfl

theorem visitStep_gain {acc : VisitState} {p : UInt32 × ℕ} (hnew : p.2 ∉ acc.visited) :
    let acc' := visitStep fp caps ev apply acc p
    acc'.visited = p.2 :: acc.visited ∧
      (∀ c, c ≠ p.2 → acc'.states[c]? = acc.states[c]?) ∧
      acc'.outcomes = acc.outcomes ++ (visitGain fp caps ev apply acc.states p).1 ∧
      acc'.incs = acc.incs ++ (visitGain fp caps ev apply acc.states p).2 := by
  unfold visitGain visitStep
  rw [if_neg hnew, if_neg List.not_mem_nil]
  simp only
  split
  · exact ⟨rfl, fun _ _ => rfl, by simp, by simp⟩
  · split
    · exact ⟨rfl, fun _ _ => rfl, by simp, by simp⟩
    · split
      · exact ⟨rfl, fun c hc => List.getElem?_set_ne (Ne.symm hc), by simp, by simp⟩
      · exact ⟨rfl, fun _ _ => rfl, by simp, by simp⟩

/-- **A call decides what the first entry of each correlation decides.** -/
theorem visit_outcomes (ps : List (UInt32 × ℕ)) (states : List CorrState) (acc : VisitState)
    (hstates : ∀ c, c ∉ acc.visited → acc.states[c]? = states[c]?) :
    let acc' := ps.foldl (visitStep fp caps ev apply) acc
    acc'.outcomes = acc.outcomes ++ (firstEntries ps acc.visited).flatMap
        (fun p => (visitGain fp caps ev apply states p).1) ∧
      acc'.incs = acc.incs ++ (firstEntries ps acc.visited).flatMap
        fun p => (visitGain fp caps ev apply states p).2 := by
  induction ps generalizing acc with
  | nil => simp [firstEntries]
  | cons p ps ih =>
    rw [firstEntries, List.foldl_cons]
    by_cases hp : p.2 ∈ acc.visited
    · have hsame : visitStep fp caps ev apply acc p = acc := if_pos hp
      rw [hsame, if_pos hp]
      exact ih acc hstates
    · obtain ⟨hvisited, hother, hout, hincs⟩ := visitStep_gain fp caps ev apply hp
      have hgain := visitGain_congr fp caps ev apply (hstates p.2 hp)
      obtain ⟨hout', hincs'⟩ := ih (visitStep fp caps ev apply acc p) fun c hc => by
        rw [hvisited, List.mem_cons, not_or] at hc
        rw [hother c hc.1, hstates c hc.2]
      rw [if_neg hp]
      simp only [hout', hincs', hout, hincs, hgain, hvisited, List.flatMap_cons, List.append_assoc,
        and_self]

/-- The loop keeps the correlations. -/
@[simp] theorem length_visitFold (ps : List (UInt32 × ℕ)) (acc : VisitState) :
    (ps.foldl (visitStep fp caps ev apply) acc).states.length = acc.states.length := by
  induction ps generalizing acc with
  | nil => rfl
  | cons p ps ih =>
    refine (ih _).trans ?_
    unfold visitStep
    split
    · rfl
    · simp only
      split
      · rfl
      · split
        · rfl
        · split
          · exact List.length_set
          · rfl

variable {fp caps ev apply}

/-- Entries through which a correlation resolves the same group give the same. -/
theorem visitGain_eq {states : List CorrState} {p q : UInt32 × ℕ} (hci : p.2 = q.2)
    (h : ∀ st, states[p.2]? = some st → resolveGroup st.rule ev p.1 = resolveGroup st.rule ev q.1) :
    visitGain fp caps ev apply states p = visitGain fp caps ev apply states q := by
  obtain ⟨rid, c⟩ := p
  obtain ⟨rid', c'⟩ := q
  cases hci
  unfold visitGain visitStep
  rw [if_neg List.not_mem_nil, if_neg List.not_mem_nil]
  cases hst : states[c]? with
  | none => simp only [hst]
  | some st => simp only [hst, h st hst]

theorem visitOne_eq {st : CorrState} {rid rid' : UInt32}
    (h : resolveGroup st.rule ev rid = resolveGroup st.rule ev rid') :
    visitOne fp caps ev apply st rid = visitOne fp caps ev apply st rid' := by
  unfold visitOne
  rw [h]

/-- The entries in any order leave the same states, where a correlation resolves the same group
through each of its entries. -/
theorem states_visitFold_perm {ps ps' : List (UInt32 × ℕ)} (hperm : ps'.Perm ps)
    {states : List CorrState} (hsame : ∀ ci st, states[ci]? = some st → ∀ p ∈ ps, ∀ q ∈ ps,
      p.2 = ci → q.2 = ci → resolveGroup st.rule ev p.1 = resolveGroup st.rule ev q.1) :
    (ps'.foldl (visitStep fp caps ev apply) ⟨states, [], [], []⟩).states =
      (ps.foldl (visitStep fp caps ev apply) ⟨states, [], [], []⟩).states := by
  refine List.ext_getElem? fun ci => ?_
  cases hst : states[ci]? with
  | none =>
    have hle : states.length ≤ ci := List.getElem?_eq_none_iff.mp hst
    rw [List.getElem?_eq_none (by rw [length_visitFold]; exact hle),
      List.getElem?_eq_none (by rw [length_visitFold]; exact hle)]
  | some st =>
    have hvisit' := (visit_fold fp caps ev apply ps' ⟨states, [], [], []⟩ hst
      List.not_mem_nil).1
    have hvisit := (visit_fold fp caps ev apply ps ⟨states, [], [], []⟩ hst
      List.not_mem_nil).1
    rw [hvisit', hvisit]
    -- both orders find an entry of the correlation, or neither does
    cases hfind' : ps'.find? fun p => p.2 == ci with
    | none =>
      have hnone : ps.find? (fun p => p.2 == ci) = none := List.find?_eq_none.mpr fun p hp =>
        List.find?_eq_none.mp hfind' p (hperm.mem_iff.mpr hp)
      rw [hnone]
    | some p =>
      cases hfind : ps.find? fun p => p.2 == ci with
      | none =>
        exact absurd (List.find?_some hfind')
          (List.find?_eq_none.mp hfind p (hperm.mem_iff.mp (List.mem_of_find?_eq_some hfind')))
      | some q =>
        have hp : p.2 = ci := by simpa using List.find?_some hfind'
        have hq : q.2 = ci := by simpa using List.find?_some hfind
        have hone : visitOne fp caps ev apply st p.1 = visitOne fp caps ev apply st q.1 :=
          visitOne_eq (hsame ci st hst p (hperm.mem_iff.mp (List.mem_of_find?_eq_some hfind')) q
            (List.mem_of_find?_eq_some hfind) hp hq)
        simp only [Option.map_some, Option.getD_some, hone]

/-- The order of the ids does not matter for the hits. -/
theorem visitStep_perm {rids : List UInt32} (hperm : rids.Perm ev.rids) :
    visitStep fp caps { ev with rids := rids } apply = visitStep fp caps ev apply := by
  have hmem : ∀ r : CorrRule, (r.baseRuleIds.filter fun rid => decide (rid ∈ rids)) =
      r.baseRuleIds.filter fun rid => decide (rid ∈ ev.rids) := fun r =>
    List.filter_congr fun rid _ => decide_eq_decide.mpr hperm.mem_iff
  have hinput : ∀ r : CorrRule, CorrEvent.input r { ev with rids := rids } = ev.input r := fun r => by
    unfold CorrEvent.input hitBuf
    rw [hmem]
  have hincs : ∀ r : CorrRule, hitIncs r rids = hitIncs r ev.rids := fun r => by
    unfold hitIncs
    rw [hmem]
  have hgroup : ∀ (r : CorrRule) (rid : UInt32),
      resolveGroup r { ev with rids := rids } rid = resolveGroup r ev rid := fun _ _ => rfl
  funext acc p
  unfold visitStep
  simp only [hinput, hincs, hgroup]

variable (fp apply) in
/-- Permuted ids through which each correlation resolves the same group do the same. -/
theorem corrOnEventApply_perm {e : CorrEngine} {rids : List UInt32} (hperm : rids.Perm ev.rids)
    (hagree : ∀ ci st, (e.sweepIfDue ev.ts).states[ci]? = some st →
      ∀ rid ∈ ev.rids, ∀ rid' ∈ ev.rids, ci ∈ ridIndexFind e.ridBuckets rid →
        ci ∈ ridIndexFind e.ridBuckets rid' →
        resolveGroup st.rule ev rid = resolveGroup st.rule ev rid') :
    (corrOnEventApply fp e { ev with rids := rids } apply).1 =
        (corrOnEventApply fp e ev apply).1 ∧
      (corrOnEventApply fp e { ev with rids := rids } apply).2.Perm
        (corrOnEventApply fp e ev apply).2 := by
  unfold corrOnEventApply
  rw [show ({ ev with rids := rids } : CorrEvent).rids.length = ev.rids.length from hperm.length_eq]
  split
  · exact ⟨rfl, .rfl⟩
  · simp only [visitStep_perm hperm, sweepIfDue_caps, sweepIfDue_ridBuckets]
    have hps : (rids.flatMap fun rid => (ridIndexFind e.ridBuckets rid).map (rid, ·)).Perm
        (ev.rids.flatMap fun rid => (ridIndexFind e.ridBuckets rid).map (rid, ·)) :=
      hperm.flatMap_right _
    have hentry : ∀ p ∈ ev.rids.flatMap fun rid => (ridIndexFind e.ridBuckets rid).map (rid, ·),
        p.1 ∈ ev.rids ∧ p.2 ∈ ridIndexFind e.ridBuckets p.1 := by
      intro p hp
      obtain ⟨rid, hrid, hp⟩ := List.mem_flatMap.mp hp
      obtain ⟨ci, hci, rfl⟩ := List.mem_map.mp hp
      exact ⟨hrid, hci⟩
    generalize (rids.flatMap fun rid => (ridIndexFind e.ridBuckets rid).map (rid, ·)) = ps' at hps
    generalize (ev.rids.flatMap fun rid => (ridIndexFind e.ridBuckets rid).map (rid, ·)) = ps
      at hps hentry
    generalize e.sweepIfDue ev.ts = e₀ at hagree
    have hsame : ∀ ci st, e₀.states[ci]? = some st → ∀ p ∈ ps, ∀ q ∈ ps, p.2 = ci → q.2 = ci →
        resolveGroup st.rule ev p.1 = resolveGroup st.rule ev q.1 := by
      intro ci st hst p hp q hq hpc hqc
      exact hagree ci st hst p.1 (hentry p hp).1 q.1 (hentry q hq).1 (hpc ▸ (hentry p hp).2)
        (hqc ▸ (hentry q hq).2)
    have hgain : ∀ p ∈ ps, ∀ q ∈ ps, p.2 = q.2 →
        visitGain fp e.caps ev apply e₀.states p = visitGain fp e.caps ev apply e₀.states q :=
      fun p hp q hq hpq => visitGain_eq hpq fun st hst => hsame p.2 st hst p hp q hq rfl hpq.symm
    obtain ⟨hout', hincs'⟩ := visit_outcomes fp e.caps ev apply ps' e₀.states
      ⟨e₀.states, [], [], []⟩ fun _ _ => rfl
    obtain ⟨hout, hincs⟩ := visit_outcomes fp e.caps ev apply ps e₀.states
      ⟨e₀.states, [], [], []⟩ fun _ _ => rfl
    rw [hout', hincs', hout, hincs]
    have hcounters := flatMap_firstEntries_perm hps fun p hp q hq hpq =>
      congrArg Prod.snd (hgain p hp q hq hpq)
    have hstates : (ps'.foldl (visitStep fp e.caps ev apply) ⟨e₀.states, [], [], []⟩).states =
        (ps.foldl (visitStep fp e.caps ev apply) ⟨e₀.states, [], [], []⟩).states :=
      states_visitFold_perm hps hsame
    refine ⟨?_, ?_⟩
    · rw [hstates]
      unfold CorrEngine.inc
      simp only [List.nil_append, hcounters.count_eq]
    · rw [List.nil_append, List.nil_append]
      exact flatMap_firstEntries_perm hps fun p hp q hq hpq =>
        congrArg Prod.fst (hgain p hp q hq hpq)

end Visit

/-! ## Activations

The records of the caller are written in the order of the visits, and there may be no room for all.
With room, they are the same records in another order. -/

/-- The correlation and the payload of a fire. -/
def CorrOutcome.fired (rules : List CorrRule) (o : CorrOutcome) : Option (CorrRule × CorrFired) :=
  match rules[o.corr]?, o.fire with
  | some r, some f => some (r, f)
  | _, _ => none

/-- The record of a fire, with its group values. -/
def CorrOutcome.record (rules : List CorrRule) (o : CorrOutcome) : Option CorrFire :=
  (o.fired rules).map fun p => corrFire p.1 (if 0 < p.1.groupBy.length then some o.key else none) p.2

/-- The group values of the fires of a call, one number a fire. -/
def groupSlots (rules : List CorrRule) (os : List CorrOutcome) : List ℕ :=
  os.filterMap fun o => (o.fired rules).map fun p => p.1.groupBy.length

/-- The caller's arrays have room for the fires of a call and for their group values. -/
def CorrSink.Room (sink : CorrSink) (rules : List CorrRule) (os : List CorrOutcome) : Prop :=
  (groupSlots rules os).length ≤ sink.maxOut ∧
    ∃ cap, sink.grpScratch = some cap ∧ (groupSlots rules os).sum ≤ cap

theorem corrEmit_eq (sink : CorrSink) (rules : List CorrRule) (os : List CorrOutcome) :
    corrEmit sink rules os = os.foldl (fun w o =>
      ((o.fired rules).map fun p => emitStep sink p.1 o.key p.2 w).getD w) ⟨0, [], 0, []⟩ := by
  unfold corrEmit
  refine congrArg (fun f => List.foldl f _ os) (funext fun w => funext fun o => ?_)
  unfold CorrOutcome.fired
  cases rules[o.corr]? with
  | none => rfl
  | some r => cases o.fire <;> rfl

/-- A fire for which there is room is recorded with its group. -/
theorem emitStep_room {sink : CorrSink} {r : CorrRule} {w : CorrWritten} {cap : ℕ}
    (hcap : sink.grpScratch = some cap) (hout : w.firedCount < sink.maxOut)
    (hfits : w.scratchUsed + r.groupBy.length ≤ cap) (key : List CStr) (f : CorrFired) :
    emitStep sink r key f w = ⟨w.firedCount + 1,
      w.out ++ [corrFire r (if 0 < r.groupBy.length then some key else none) f],
      w.scratchUsed + r.groupBy.length, w.incs⟩ := by
  unfold emitStep
  rw [if_neg (not_le.mpr hout)]
  simp only
  by_cases hn : 0 < r.groupBy.length
  · have hany : sink.grpScratch.any
        (fun cap => decide (w.scratchUsed + r.groupBy.length ≤ cap)) = true := by
      rw [hcap, Option.any_some, decide_eq_true_eq]
      exact hfits
    rw [if_pos ⟨hn, hany⟩, if_pos hn]
  · have hzero : r.groupBy.length = 0 := by omega
    rw [if_neg (fun hand => hn hand.1), if_neg hn, if_neg hn, List.append_nil]
    simp only [hzero, Nat.add_zero]

/-- **With room, every fire is recorded with its group.** -/
theorem corrEmit_room {sink : CorrSink} {rules : List CorrRule} {os : List CorrOutcome}
    (h : sink.Room rules os) :
    corrEmit sink rules os = ⟨(groupSlots rules os).length,
      os.filterMap (CorrOutcome.record rules), (groupSlots rules os).sum, []⟩ := by
  obtain ⟨hout, cap, hcap, hsum⟩ := h
  have hfold : ∀ (os : List CorrOutcome) (w : CorrWritten),
      w.firedCount + (groupSlots rules os).length ≤ sink.maxOut →
      w.scratchUsed + (groupSlots rules os).sum ≤ cap →
      os.foldl (fun w o => ((o.fired rules).map fun p => emitStep sink p.1 o.key p.2 w).getD w) w =
        ⟨w.firedCount + (groupSlots rules os).length,
          w.out ++ os.filterMap (CorrOutcome.record rules),
          w.scratchUsed + (groupSlots rules os).sum, w.incs⟩ := by
    intro os
    induction os with
    | nil => exact fun w _ _ => by simp [groupSlots]
    | cons o os ih =>
      intro w hw hcapw
      rw [List.foldl_cons]
      cases hfired : o.fired rules with
      | none =>
        have hslots : groupSlots rules (o :: os) = groupSlots rules os :=
          List.filterMap_cons_none (by rw [hfired]; rfl)
        have hrecord : o.record rules = none := by rw [CorrOutcome.record, hfired, Option.map_none]
        rw [hslots] at hw hcapw ⊢
        rw [List.filterMap_cons_none hrecord]
        exact ih w hw hcapw
      | some p =>
        obtain ⟨r, f⟩ := p
        have hslots : groupSlots rules (o :: os) = r.groupBy.length :: groupSlots rules os :=
          List.filterMap_cons_some (by rw [hfired]; rfl)
        have hrecord : o.record rules =
            some (corrFire r (if 0 < r.groupBy.length then some o.key else none) f) := by
          rw [CorrOutcome.record, hfired, Option.map_some]
        rw [hslots, List.length_cons] at hw
        rw [hslots, List.sum_cons] at hcapw
        have hlt : w.firedCount < sink.maxOut := by omega
        have hfits : w.scratchUsed + r.groupBy.length ≤ cap := by omega
        rw [Option.map_some, Option.getD_some, emitStep_room hcap hlt hfits,
          ih _ (by dsimp only; omega) (by dsimp only; omega), hslots,
          List.filterMap_cons_some hrecord, List.length_cons, List.sum_cons]
        simp only [List.append_assoc, List.singleton_append, CorrWritten.mk.injEq, true_and, and_true]
        omega
  have hstart := hfold os ⟨0, [], 0, []⟩ (by simpa using hout) (by simpa using hsum)
  rw [corrEmit_eq, hstart]
  simp only [Nat.zero_add, List.nil_append]

/-! ## Any order

The condition is about the event and the rules: all matched ids of a correlation resolve the same
group.  Rules without aliases always do.  With aliases, an event that carries the source of one and
the target of another is for one group or for the other, by what stands first. -/

/-- Calling with the ids of an event in another order leaves the same engine, decides the same and,
where there is room for all fires, writes the same records. -/
structure CallOrderFree (fp : Doubles) (e : CorrEngine) (ev : CorrEvent)
    (rids : List UInt32) : Prop where
  engine : (corrOnEvent fp e { ev with rids := rids }).1 = (corrOnEvent fp e ev).1
  outcomes : (corrOnEvent fp e { ev with rids := rids }).2.Perm (corrOnEvent fp e ev).2
  written : ∀ sink : CorrSink,
    sink.Room (e.states.map CorrState.rule) (corrOnEvent fp e ev).2 →
    let w' := corrEmit sink (e.states.map CorrState.rule)
      (corrOnEvent fp e { ev with rids := rids }).2
    let w := corrEmit sink (e.states.map CorrState.rule) (corrOnEvent fp e ev).2
    w'.firedCount = w.firedCount ∧ w'.out.Perm w.out ∧ w'.incs = w.incs

/-- All matched ids of a correlation resolve the same group. -/
def CorrEvent.OneGroup (rules : List CorrRule) (ev : CorrEvent) : Prop :=
  ∀ r ∈ admittedRules rules, ∀ rid ∈ ev.rids, ∀ rid' ∈ ev.rids, rid ∈ r.baseRuleIds →
    rid' ∈ r.baseRuleIds → resolveGroup r ev rid = resolveGroup r ev rid'

/-- Rules without aliases read the group from the same fields for every id. -/
theorem oneGroup_of_no_alias {rules : List CorrRule} (ev : CorrEvent)
    (h : ∀ r ∈ rules, r.aliasGroupBy = []) : ev.OneGroup rules := by
  intro r hr rid _ rid' _ _ _
  have hfields : ∀ rid, corrGroupFields r rid = r.groupBy := by
    intro rid
    unfold corrGroupFields
    rw [h r (List.mem_filter.mp hr).1]
    rfl
  unfold resolveGroup
  rw [hfields, hfields]

/-- Records follow the outcomes. -/
theorem CallOrderFree.of_perm {fp : Doubles} {e : CorrEngine} {ev : CorrEvent}
    {rids : List UInt32}
    (hengine : (corrOnEvent fp e { ev with rids := rids }).1 = (corrOnEvent fp e ev).1)
    (hperm : (corrOnEvent fp e { ev with rids := rids }).2.Perm (corrOnEvent fp e ev).2) :
    CallOrderFree fp e ev rids := by
  refine ⟨hengine, hperm, fun sink hroom => ?_⟩
  have hslots := hperm.filterMap fun o : CorrOutcome =>
    (o.fired (e.states.map CorrState.rule)).map fun p => p.1.groupBy.length
  have hroom' : sink.Room (e.states.map CorrState.rule)
      (corrOnEvent fp e { ev with rids := rids }).2 := by
    obtain ⟨hout, cap, hcap, hsum⟩ := hroom
    exact ⟨hslots.length_eq.trans_le hout, cap, hcap, hslots.sum_eq.trans_le hsum⟩
  simp only [corrEmit_room hroom, corrEmit_room hroom']
  exact ⟨hslots.length_eq, hperm.filterMap _, trivial⟩

/-- **Where the matched ids of each correlation resolve the same group, their order does not
matter.** -/
theorem rids_order_free (fp : Doubles) (rules : List CorrRule) (caps : CorrCaps)
    (cs : List CorrCall) {ev : CorrEvent} (h : ev.OneGroup rules) {rids : List UInt32}
    (hperm : rids.Perm ev.rids) :
    CallOrderFree fp (corrRun fp (corrEngineNew rules caps) cs) ev rids := by
  cases hfirst : (admittedRules rules)[0]? with
  | none =>
    -- no correlation at all
    have hnone : admittedRules rules = [] := by simpa using hfirst
    have hstates : (corrRun fp (corrEngineNew rules caps) cs).states = [] := by
      rw [List.eq_nil_iff_forall_not_mem]
      have hcaps : (corrEngineNew rules caps).caps = caps.withDefaults := rfl
      refine states_corrRun fp (P := fun _ => False) (fun _ _ h => h) (fun _ _ _ h => h) hcaps
        (fun st hst => ?_) cs
      obtain ⟨r, hr, -⟩ := List.mem_map.mp hst
      have hmem : r ∈ admittedRules rules := hr
      rw [hnone] at hmem
      exact absurd hmem List.not_mem_nil
    have hidle : ∀ ev, corrOnEvent fp (corrRun fp (corrEngineNew rules caps) cs) ev =
        (corrRun fp (corrEngineNew rules caps) cs, []) := fun ev => if_pos (Or.inl (by
      rw [hstates]
      rfl))
    exact .of_perm (by rw [hidle, hidle]) (by rw [hidle, hidle])
  | some r₀ =>
    have hok := (engineOk_new rules caps).corrRun fp hfirst cs
    obtain ⟨hengine, houtcomes⟩ := corrOnEventApply_perm fp none
      (e := corrRun fp (corrEngineNew rules caps) cs) hperm (by
        intro ci st hst rid hrid rid' hrid' hci hci'
        have hrule := (hok.sweepIfDue ev.ts).rule_of_state hst
        rw [hok.index, mem_ridIndexFind] at hci hci'
        obtain ⟨r, hr, hbase⟩ := hci
        obtain ⟨r', hr', hbase'⟩ := hci'
        cases hr.symm.trans hrule
        cases hr'.symm.trans hrule
        exact h _ (List.mem_of_getElem? hrule) rid hrid rid' hrid' hbase hbase')
    exact .of_perm hengine houtcomes

/-- Events of two rules, grouped by the user: the target of the one, the source of the other. -/
def aliasRule : CorrRule :=
  { burstRule with
    baseRuleIds := [1, 2]
    groupBy := [some (cstr "user")]
    aliasGroupBy := [some [some (cstr "target")], some [some (cstr "user")]]
    condCount := 1 }

/-- An event of both rules, by the user `a` on the user of the given name. -/
def aliasEvent (target : String) : CorrEvent :=
  ⟨[1, 2], fun name => if name = cstr "target" then some (cstr target) else userField name, 0⟩

theorem rids_order_free_sample :
    CallOrderFree .bare (corrRun .bare (corrEngineNew [aliasRule] capsZero) [])
      (aliasEvent "a") [2, 1] := by
  refine rids_order_free .bare [aliasRule] capsZero [] ?_ (.swap 1 2 [])
  intro r hr rid _ rid' _ hbase hbase'
  have hrule : r = aliasRule := by
    have hadmitted : admittedRules [aliasRule] = [aliasRule] := rfl
    rw [hadmitted] at hr
    exact List.mem_singleton.mp hr
  subst hrule
  -- either row names a field that holds `a`
  have hgroup : ∀ rid ∈ aliasRule.baseRuleIds,
      resolveGroup aliasRule (aliasEvent "a") rid = some [cstr "a"] := by
    intro rid hrid
    rcases List.mem_pair.mp hrid with rfl | rfl
    · rfl
    · rfl
  rw [hgroup rid hbase, hgroup rid' hbase']

/-- The user `a` acts on the user `b`: the id that comes first decides whose group the event
reaches. -/
theorem rids_order_matters :
    ¬ ∀ (fp : Doubles) (rules : List CorrRule) (caps : CorrCaps) (cs : List CorrCall)
      (ev : CorrEvent) (rids : List UInt32), rids.Perm ev.rids →
      CallOrderFree fp (corrRun fp (corrEngineNew rules caps) cs) ev rids := by
  intro hclaim
  have hfree := hclaim .bare [aliasRule] capsZero [] (aliasEvent "b") [2, 1]
    (.swap 1 2 [])
  have hkeys := (hfree.outcomes.map CorrOutcome.key).mem_iff (a := [cstr "a"])
  have hfirst : (corrOnEvent .bare (corrRun .bare
      (corrEngineNew [aliasRule] capsZero) []) (aliasEvent "b")).2.map CorrOutcome.key =
        [[cstr "b"]] := by decide +kernel
  have hsecond : (corrOnEvent .bare (corrRun .bare
      (corrEngineNew [aliasRule] capsZero) []) { aliasEvent "b" with rids := [2, 1] }).2.map
        CorrOutcome.key = [[cstr "a"]] := by decide +kernel
  rw [hfirst, hsecond] at hkeys
  exact absurd (hkeys.mp List.mem_cons_self) (by decide)

end LibSigma
