import Mathlib.Data.Finset.Card
import Mathlib.Tactic.NormNum
import LibSigma.Corr.EventCount
import LibSigma.Library.Recency

/-!
# value_count

`dset_observe` on the values of a group in order of use, each with its latest time.

## Two orders

The set has a cap, and what it evicts is the value that was used least recently.  What it drops as
expired is decided by time.  In a run in order of time the two orders are the same, and the set of a
group is always an end of the list of its observations by recency (`LibSigma.Library.Recency`):
expired ones are missing at the front, and so are those for which there was no room.

That a bounded set need not know what it has lost (`observeLru_recency`) is the point of the proof.
A value that was evicted and comes again is a new one for the set, and for the list of the values by
recency it moves to the end, which is where the set puts it.

## What is exact

The count is the number of distinct values of the window as far as the cap reaches: beyond, it is
the cap.  The theorem says which values the set holds then, in which order, and that the decision is
on their number.

The map here has chains of any length.  Up to a cap of `3 * 2 ^ 28` values it is the linked table of
the program (`LibSigma.Corr.Linked`).

* `toList_dsetObserve`: **the expired values go, the observed one comes last**, in the place of the
  least recently used one if the set is full.
* `Life.distinct`: **the live values of a group are the last ones observed.**
* `valueCount_exact`: **value_count is exact.**
-/

namespace LibSigma

open Library

/-- A value is observed: it goes to the end, in the place of the first one if there is no room. -/
def observeLru (m : ℕ) (xs : List (CStr × ℚ)) (val : CStr) (ts : ℚ) : List (CStr × ℚ) :=
  if val ∈ xs.map Prod.fst then (xs.filter fun e => e.1 ≠ val) ++ [(val, ts)]
  else (if m ≤ xs.length then xs.tail else xs) ++ [(val, ts)]

theorem mem_observeLru {m : ℕ} {xs : List (CStr × ℚ)} {val : CStr} {ts : ℚ} {e : CStr × ℚ}
    (h : e ∈ observeLru m xs val ts) : e ∈ xs ∨ e = (val, ts) := by
  unfold observeLru at h
  split at h
  · rcases List.mem_append.mp h with h | h
    · exact Or.inl (List.mem_of_mem_filter h)
    · exact Or.inr (List.mem_singleton.mp h)
  · rcases List.mem_append.mp h with h | h
    · split at h
      · exact Or.inl (List.mem_of_mem_tail h)
      · exact Or.inl h
    · exact Or.inr (List.mem_singleton.mp h)

section Observe

variable {d : HashLru CStr ℚ} (h : d.Wf fnv1a) (val : CStr) (ts ws : ℚ) (m : ℕ)

include h

/-- **What one observation does to the values.** -/
theorem toList_dsetObserve :
    (dsetObserve d val ts ws m).1.Wf fnv1a ∧
      (dsetObserve d val ts ws m).1.toList fnv1a =
        observeLru m ((d.toList fnv1a).filter fun e => !before ws e.2) val ts := by
  obtain ⟨hwf, -⟩ := h.dropWhere fun t => t < ws
  have hlist := h.toList_dropWhere fun t => t < ws
  have hmem : val ∈ ((d.toList fnv1a).filter fun e => !before ws e.2).map Prod.fst ↔
      val ∈ (d.dropWhere fnv1a fun t => t < ws).lru := by
    rw [← hwf.map_fst_toList, hlist]
    rfl
  have hlen : ((d.toList fnv1a).filter fun e => !before ws e.2).length =
      (d.dropWhere fnv1a fun t => t < ws).count := by
    rw [← hwf.length_toList, hlist]
    rfl
  unfold dsetObserve observeLru
  simp only [hmem, hlen]
  cases hget : (d.dropWhere fnv1a fun t => t < ws).get fnv1a val with
  | some t =>
    have hin := hwf.get_isSome_iff.mp (by rw [hget]; rfl)
    have hset : val ∈ ((d.dropWhere fnv1a fun t => t < ws).set fnv1a val ts).lru := hin
    rw [if_pos hin]
    exact ⟨(hwf.set val ts).touch hset, by rw [hwf.toList_set_touch hin, hlist]; rfl⟩
  | none =>
    have hout := hwf.get_eq_none_iff.mp hget
    rw [if_neg hout]
    by_cases hfull : m ≤ (d.dropWhere fnv1a fun t => t < ws).count
    · obtain ⟨hwf', hlru, htail⟩ := hwf.evict
      have hout' : val ∉ ((d.dropWhere fnv1a fun t => t < ws).evict fnv1a).lru := fun hin =>
        hout (List.mem_of_mem_tail (hlru ▸ hin))
      simp only [if_pos hfull]
      exact ⟨hwf'.insert hout' ts, by rw [hwf'.toList_insert hout', htail, hlist]; rfl⟩
    · simp only [if_neg hfull]
      exact ⟨hwf.insert hout ts, by rw [hwf.toList_insert hout, hlist]; rfl⟩

/-- **Without an eviction** no other live value is lost. -/
theorem toList_dsetObserve_of_room (hroom : .distinctEvicted ∉ (dsetObserve d val ts ws m).2) :
    (dsetObserve d val ts ws m).1.toList fnv1a =
      (((d.toList fnv1a).filter fun e => !before ws e.2).filter fun e => e.1 ≠ val) ++
        [(val, ts)] := by
  obtain ⟨hwf, -⟩ := h.dropWhere fun t => t < ws
  have hlist := h.toList_dropWhere fun t => t < ws
  rw [(toList_dsetObserve h val ts ws m).2, observeLru]
  split
  · rfl
  · rename_i hout
    have hself : ((d.toList fnv1a).filter fun e => !before ws e.2).filter (fun e => e.1 ≠ val) =
        (d.toList fnv1a).filter fun e => !before ws e.2 := by
      refine List.filter_eq_self.mpr fun e he => decide_eq_true fun heq => hout ?_
      exact List.mem_map.mpr ⟨e, he, heq⟩
    rw [hself]
    split
    · -- a full set evicts, unless it is empty
      rename_i hfull
      have hempty : ((d.toList fnv1a).filter fun e => !before ws e.2) = [] := by
        by_contra hne
        refine hroom ?_
        have hlru : (d.dropWhere fnv1a fun t => t < ws).lru ≠ [] := by
          rw [← hwf.map_fst_toList, hlist, ne_eq, List.map_eq_nil_iff]
          exact hne
        have hnone : (d.dropWhere fnv1a fun t => t < ws).get fnv1a val = none := by
          rw [hwf.get_eq_none_iff, ← hwf.map_fst_toList, hlist]
          exact hout
        have hcount : m ≤ (d.dropWhere fnv1a fun t => t < ws).count := by
          rw [← hwf.length_toList, hlist]
          exact hfull
        unfold dsetObserve
        simp only [hnone, if_pos hcount, List.isEmpty_iff, if_neg hlru]
        exact List.mem_cons_self
      rw [hempty, List.tail_nil]
    · rfl

end Observe

/-! ## The values of a life

The set holds the values observed last, in order of use.  In order of time that is also their order
by age, so expiry takes from the front, and what an eviction has lost is older than everything that
is kept. -/

/-- The value an input observes. -/
def GroupInput.observed? : GroupInput → Option CStr
  | .event hits value _ => if hits.isEmpty then none else value
  | .contrib c => if c.kind = some .distinct then c.value else none

/-- The value an input observes, with its time. -/
def GroupInput.observation? (i : GroupInput) : Option (CStr × ℚ) := i.observed?.map (·, i.ts)

section Life

variable {fp : Doubles} {caps : CorrCaps} {r : CorrRule}

variable (fp caps) in
/-- **The values after an input** of a value_count rule. -/
theorem distinct_groupInput (htype : r.type = some .valueCount) (g : Group) (i : GroupInput) :
    (groupInput fp caps r g i).group.distinct = i.observed?.elim g.distinct fun val =>
      (dsetObserve g.distinct val i.ts (i.ts - r.timespanS) caps.maxDistinct).1 := by
  have heval : ∀ (g : Group) (value : Option CStr) (now : ℚ),
      (evalValueCount r g value caps.maxDistinct now (now - r.timespanS)).group.distinct =
        value.elim g.distinct fun val =>
          (dsetObserve g.distinct val now (now - r.timespanS) caps.maxDistinct).1 := by
    intro g value now
    cases value <;> rfl
  cases i with
  | event hits value ts =>
    by_cases hnil : hits = []
    · rw [groupInput, if_pos hnil, hnil]
      rfl
    · have hobserved : (GroupInput.event hits value ts).observed? = value := by
        simp [GroupInput.observed?, hnil]
      rw [groupInput_event fp caps r g hnil, settle_group, evaluate, htype, hobserved]
      exact heval _ value ts
  | contrib c =>
    rw [groupInput, settle_group, GroupInput.observed?]
    by_cases hkind : c.kind = some .distinct
    · rw [if_pos hkind, evalContrib, hkind]
      dsimp only
      rw [if_pos htype]
      exact heval _ c.value c.ts
    · rw [if_neg hkind]
      unfold evalContrib
      split
      · rfl
      · dsimp only
        split <;> rfl
      · exact absurd ‹_› hkind
      · rw [htype, if_neg (by decide)]
        rfl
      · rfl
      · rfl

/-- The observations of a life. -/
def observations (is : List GroupInput) : List (CStr × ℚ) := is.filterMap GroupInput.observation?

/-- Whether an observation is at `ws` or later. -/
def observedFrom (ws : ℚ) (e : CStr × ℚ) : Bool := !before ws e.2

theorem observedFrom_mono {ws : ℚ} {es : List (CStr × ℚ)} (h : (es.map Prod.snd).Pairwise (· ≤ ·)) :
    es.Pairwise fun x y => observedFrom ws x = true → observedFrom ws y = true := by
  rw [List.pairwise_map] at h
  refine h.imp fun {x y} hxy hx => ?_
  rw [observedFrom, before, Bool.not_eq_true', decide_eq_false_iff_not, not_lt] at hx ⊢
  exact hx.trans hxy

/-- Observations come in the order of the inputs. -/
theorem observations_sorted {is : List GroupInput} (h : (is.map GroupInput.ts).Pairwise (· ≤ ·)) :
    ((observations is).map Prod.snd).Pairwise (· ≤ ·) := by
  have htime : ∀ (i : GroupInput) (e : CStr × ℚ), i.observation? = some e → e.2 = i.ts := by
    intro i e he
    obtain ⟨val, -, rfl⟩ := Option.map_eq_some_iff.mp he
    rfl
  rw [List.pairwise_map] at h ⊢
  refine List.pairwise_filterMap.mpr (h.imp fun {i i'} hle e he e' he' => ?_)
  rw [htime i e he, htime i' e' he']
  exact hle

/-- **A bounded set need not know what it has lost.** -/
theorem observeLru_recency {m : ℕ} (hm : 0 < m) (es : List (CStr × ℚ)) (val : CStr) (ts : ℚ) :
    observeLru m ((recency es).rtake m) val ts = (recency (es ++ [(val, ts)])).rtake m := by
  rw [recency_concat, rtake_filter_concat (nodup_recency es) hm, observeLru]
  by_cases hmem : val ∈ ((recency es).rtake m).map Prod.fst
  · rw [if_pos hmem, if_pos hmem]
  · rw [if_neg hmem, if_neg hmem]

/-- Observations that have left the window. -/
theorem observations_past {ws : ℚ} {is is' : List GroupInput} (h : ∀ i ∈ is, i.ts < ws) :
    (observations (is ++ is')).filter (observedFrom ws) =
      (observations is').filter (observedFrom ws) := by
  have hnil : (observations is).filter (observedFrom ws) = [] := by
    refine List.filter_eq_nil_iff.mpr fun e he hlive => ?_
    obtain ⟨i, hi, hobs⟩ := List.mem_filterMap.mp he
    obtain ⟨val, -, rfl⟩ := Option.map_eq_some_iff.mp hobs
    rw [observedFrom, before, Bool.not_eq_true', decide_eq_false_iff_not] at hlive
    exact hlive (h i hi)
  rw [observations, List.filterMap_append, List.filter_append, ← observations, hnil,
    List.nil_append]
  rfl

/-- **The live values of a group are the last ones observed.** -/
theorem Life.distinct (htype : r.type = some .valueCount) (hmax : 0 < caps.maxDistinct)
    {H : List GroupStep} {s : Option Group} (h : Life fp caps r H s)
    (hsorted : ((H.map GroupStep.input).map GroupInput.ts).Pairwise (· ≤ ·)) :
    (s.getD (groupNew caps.maxEventsPerGroup)).distinct.Wf fnv1a ∧
      ∀ ws, (∀ x ∈ H, x.ts - r.timespanS ≤ ws) →
        ((s.getD (groupNew caps.maxEventsPerGroup)).distinct.toList fnv1a).filter (observedFrom ws) =
          (recency ((observations (H.map GroupStep.input)).filter (observedFrom ws))).rtake
            caps.maxDistinct := by
  induction h with
  | unborn => exact ⟨HashLru.wf_empty (by decide), fun ws _ => (List.rtake_nil _).symm⟩
  | @input H s i h ih =>
    have hinputs : (H ++ [(groupApply fp caps r s i).step i]).map GroupStep.input =
        H.map GroupStep.input ++ [i] := by
      rw [List.map_append]
      rfl
    rw [hinputs] at hsorted ⊢
    have hobs := observations_sorted hsorted
    rw [List.map_append, List.pairwise_append] at hsorted
    obtain ⟨hwf, hlist⟩ := ih hsorted.1
    rw [Option.getD_some, groupApply, distinct_groupInput fp caps htype]
    cases hval : i.observed? with
    | none =>
      have hnone : i.observation? = none := by rw [GroupInput.observation?, hval]; rfl
      refine ⟨hwf, fun ws hws => ?_⟩
      rw [observations, List.filterMap_append, List.filterMap_cons_none hnone, List.filterMap_nil,
        List.append_nil]
      exact hlist ws fun x hx => hws x (List.mem_append_left _ hx)
    | some val =>
      have hsome : i.observation? = some (val, i.ts) := by rw [GroupInput.observation?, hval]; rfl
      have hconcat : observations (H.map GroupStep.input ++ [i]) =
          observations (H.map GroupStep.input) ++ [(val, i.ts)] := by
        rw [observations, List.filterMap_append, List.filterMap_cons_some hsome, List.filterMap_nil]
        rfl
      rw [hconcat] at hobs ⊢
      obtain ⟨hwf', htoList⟩ := toList_dsetObserve hwf val i.ts (i.ts - r.timespanS) caps.maxDistinct
      refine ⟨hwf', fun ws hws => ?_⟩
      have hws₀ : i.ts - r.timespanS ≤ ws := hws _ (List.mem_append_right _ List.mem_cons_self)
      have hprune := hlist (i.ts - r.timespanS) fun x hx => sub_le_sub_right
        (hsorted.2.2 _ (List.mem_map_of_mem (List.mem_map_of_mem hx)) _ List.mem_cons_self) _
      have hlate : ∀ es : List (CStr × ℚ), es.Sublist (observations (H.map GroupStep.input) ++
          [(val, i.ts)]) → es.Pairwise fun x y => observedFrom ws x = true → observedFrom ws y = true :=
        fun es hes => observedFrom_mono (hobs.sublist (hes.map Prod.snd))
      have hkept : ((observations (H.map GroupStep.input)).filter
          (observedFrom (i.ts - r.timespanS)) ++ [(val, i.ts)]).Sublist
            (observations (H.map GroupStep.input) ++ [(val, i.ts)]) :=
        List.filter_sublist.append (.refl _)
      show List.filter (observedFrom ws) (HashLru.toList fnv1a (dsetObserve _ val i.ts _ _).1) = _
      rw [htoList, show (fun e : CStr × ℚ => !before (i.ts - r.timespanS) e.2) =
        observedFrom (i.ts - r.timespanS) from rfl, hprune, observeLru_recency hmax,
        filter_rtake (hlate _ ((recency_sublist _).trans hkept)), recency_filter (hlate _ hkept),
        List.filter_append, List.filter_append, List.filter_filter]
      -- what is live at `ws` was live at this input
      have hboth : (fun e => observedFrom ws e && observedFrom (i.ts - r.timespanS) e) =
          observedFrom ws := by
        funext e
        rw [Bool.eq_iff_iff, Bool.and_eq_true, and_iff_left_iff_imp]
        intro hlive
        rw [observedFrom, before, Bool.not_eq_true', decide_eq_false_iff_not, not_lt] at hlive ⊢
        exact hws₀.trans hlive
      rw [hboth]

/-- The values after an observation: those in its window that were observed last. -/
theorem Life.distinct_observed (htype : r.type = some .valueCount) (hmax : 0 < caps.maxDistinct)
    (hspan : 0 < r.timespanS) {H : List GroupStep} {s : Option Group}
    (h : Life fp caps r H s) {i : GroupInput} {val : CStr} (hval : i.observed? = some val)
    (hsorted : ((H.map GroupStep.input ++ [i]).map GroupInput.ts).Pairwise (· ≤ ·)) :
    (groupApply fp caps r s i).group.distinct.Wf fnv1a ∧
      (groupApply fp caps r s i).group.distinct.toList fnv1a =
        (recency ((observations (H.map GroupStep.input ++ [i])).filter
          (observedFrom (i.ts - r.timespanS)))).rtake caps.maxDistinct := by
  have hinputs : (H ++ [(groupApply fp caps r s i).step i]).map GroupStep.input =
      H.map GroupStep.input ++ [i] := by
    rw [List.map_append]
    rfl
  have hlive : ∀ e ∈ (groupApply fp caps r s i).group.distinct.toList fnv1a,
      observedFrom (i.ts - r.timespanS) e = true := by
    have hsorted' := hsorted
    rw [List.map_append, List.pairwise_append] at hsorted'
    obtain ⟨hwf, -⟩ := h.distinct htype hmax hsorted'.1
    intro e he
    rw [groupApply, distinct_groupInput fp caps htype, hval, Option.elim_some,
      (toList_dsetObserve hwf _ _ _ _).2] at he
    rcases mem_observeLru he with he | rfl
    · exact (List.mem_filter.mp he).2
    · have hpos : (0 : ℚ) < r.timespanS := by exact_mod_cast hspan
      rw [observedFrom, before, Bool.not_eq_true', decide_eq_false_iff_not, not_lt]
      linarith
  obtain ⟨hwf, hlist⟩ := (h.input i).distinct htype hmax (hinputs ▸ hsorted)
  rw [hinputs, Option.getD_some] at hlist
  refine ⟨hwf, ?_⟩
  rw [← hlist (i.ts - r.timespanS), List.filter_eq_self.mpr hlive]
  intro x hx
  have hmem : x.input ∈ H.map GroupStep.input ++ [i] := hinputs ▸ List.mem_map_of_mem hx
  rw [List.map_append, List.pairwise_append] at hsorted
  rcases List.mem_append.mp hmem with hmem | hmem
  · exact sub_le_sub_right (hsorted.2.2 _ (List.mem_map_of_mem hmem) _ List.mem_cons_self) _
  · rw [GroupStep.ts, List.mem_singleton.mp hmem]

/-- The decision on an observation. -/
theorem decided_observed (htype : r.type = some .valueCount) (s : Option Group) {i : GroupInput}
    {val : CStr} (hval : i.observed? = some val) :
    (groupApply fp caps r s i).decided =
      cmpThreshold (groupApply fp caps r s i).group.distinct.count r.condOp r.condCount := by
  unfold groupApply
  cases i with
  | event hits value ts =>
    have hnil : hits ≠ [] := by
      rintro rfl
      cases hval
    have hvalue : value = some val := by
      rw [← hval, GroupInput.observed?]
      simp [hnil]
    rw [groupInput_event fp caps r _ hnil, settle_decided, settle_group, evaluate, htype, hvalue]
    rfl
  | contrib c =>
    have hkind : c.kind = some .distinct := by
      by_contra hne
      rw [GroupInput.observed?, if_neg hne] at hval
      cases hval
    have hvalue : c.value = some val := by
      rw [← hval, GroupInput.observed?, if_pos hkind]
    rw [groupInput, settle_decided, settle_group, evalContrib, hkind]
    dsimp only
    rw [if_pos htype, hvalue]
    rfl

end Life

/-! ## Runs

With that, the values held after an event are those of its window if they fit the cap, and otherwise
those of them that were observed last. -/

/-- The values the events of `E` observe from `ws` to `t`. -/
def windowValues (r : CorrRule) (ws t : ℚ) (E : List CorrEvent) : List CStr :=
  (E.filter fun ev => decide (ws ≤ ev.ts) && decide (ev.ts ≤ t)).filterMap
    fun ev => r.valueField.bind ev.field

section Run

variable {fp : Doubles} {rules : List CorrRule} {caps : CorrCaps} {ci : ℕ}
  {r : CorrRule} {key : List CStr}

theorem withDefaults_maxDistinct_pos (caps : CorrCaps) : 0 < caps.withDefaults.maxDistinct := by
  rw [CorrCaps.withDefaults]
  simp only
  split <;> omega

/-- The observations of events are their values in the window. -/
theorem map_fst_observations {E : List CorrEvent} {ws t : ℚ}
    (hhits : ∀ ev ∈ E, hitBuf r ev.rids ≠ []) (hle : ∀ ev ∈ E, ev.ts ≤ t) :
    ((observations (E.map (CorrEvent.input r))).filter (observedFrom ws)).map Prod.fst =
      windowValues r ws t E := by
  rw [observations, List.filterMap_map, List.filter_filterMap, List.map_filterMap, windowValues,
    List.filterMap_filter]
  refine List.filterMap_congr fun ev hev => ?_
  have hobserved : (ev.input r).observed? = r.valueField.bind ev.field := by
    simp [GroupInput.observed?, CorrEvent.input, hhits ev hev]
  have hts : (ev.input r).ts = ev.ts := rfl
  rw [Function.comp_apply, GroupInput.observation?, hobserved, hts]
  cases r.valueField.bind ev.field with
  | none => simp
  | some val =>
    by_cases hws : ws ≤ ev.ts
    · simp [Option.filter, observedFrom, before, hws, hle ev hev, not_lt.mpr hws]
    · simp [Option.filter, observedFrom, before, hws, not_le.mp hws]

/-- **value_count is exact.**  After each event of a group that carries a value, the group holds the
values of its window that were observed last, as many of them as there is room for, and the decision
is on their number. -/
theorem valueCount_exact (hr : (admittedRules rules)[ci]? = some r)
    (htype : r.type = some .valueCount) {evs : List CorrEvent} {ev : CorrEvent} {val : CStr}
    (hsorted : TimeOrdered (localCalls (evs ++ [ev])))
    (hspared : spared fp ci r key (corrEngineNew rules caps) (localCalls (evs ++ [ev])) = true)
    (hreach : ((CorrCall.event ev none).inputFor (admittedRules rules) ci r key).isSome = true)
    (hval : r.valueField.bind ev.field = some val) :
    ∃ g, (corrRun fp (corrEngineNew rules caps) (localCalls (evs ++ [ev]))).slot ci key = some g ∧
      g.distinct.lru = (windowValues r (ev.ts - r.timespanS) ev.ts
        (groupEvents (admittedRules rules) ci r key (evs ++ [ev]))).dedup.rtake
          caps.withDefaults.maxDistinct ∧
      g.distinct.count = min caps.withDefaults.maxDistinct (windowValues r (ev.ts - r.timespanS) ev.ts
        (groupEvents (admittedRules rules) ci r key (evs ++ [ev]))).toFinset.card ∧
      ((groupTrace fp ci r key (corrEngineNew rules caps) (localCalls (evs ++ [ev]))).map
        GroupStep.decided).getLast? = some (cmpThreshold g.distinct.count r.condOp r.condCount) := by
  obtain ⟨i, hi⟩ := Option.isSome_iff_exists.mp hreach
  obtain ⟨rfl, hhits⟩ := inputFor_event hi
  have hinputs := groupTrace_localCalls fp caps key hr (evs ++ [ev])
  rw [localCalls_concat] at hsorted hspared hinputs ⊢
  obtain ⟨H, L, g, hin⟩ := exists_lastInput hr hsorted hspared hi
  rw [groupTrace_inputs (engineOk_new rules caps) hr, ← hin.inputs] at hinputs
  have hobserved : (ev.input r).observed? = some val := by
    simp [GroupInput.observed?, CorrEvent.input, hhits, hval]
  obtain ⟨hwf, hlist⟩ := hin.life.distinct_observed htype (withDefaults_maxDistinct_pos caps)
    (timespanS_pos (ruleValid_of_admitted hr)) hobserved hin.inputs_sorted
  -- what the past lives observed has left the window
  have hwindow : ((observations (L.map GroupStep.input ++ [ev.input r])).filter
      (observedFrom ((ev.input r).ts - r.timespanS))).map Prod.fst =
        windowValues r (ev.ts - r.timespanS) ev.ts
          (groupEvents (admittedRules rules) ci r key (evs ++ [ev])) := by
    have hlate : ∀ ev' ∈ groupEvents (admittedRules rules) ci r key (evs ++ [ev]),
        ev'.ts ≤ ev.ts := by
      have hsteps := hin.sorted
      rw [← List.append_assoc] at hsteps
      intro ev' hev'
      have hmem := List.mem_map_of_mem (f := CorrEvent.input r) hev'
      rw [← hinputs, ← List.append_assoc, ← List.map_append] at hmem
      rcases List.mem_append.mp hmem with hmem | hmem
      · obtain ⟨y, hy, hyinput⟩ := List.mem_map.mp hmem
        have hyts : y.ts = ev'.ts := by rw [GroupStep.ts, hyinput]; rfl
        exact hyts ▸ le_of_sorted_concat hsteps y hy
      · have hts : ev'.ts = ev.ts := congrArg GroupInput.ts (List.mem_singleton.mp hmem)
        exact hts.le
    have hfar : ∀ j ∈ H.map GroupStep.input, j.ts < ev.ts - r.timespanS := by
      intro j hj
      obtain ⟨y, hy, rfl⟩ := List.mem_map.mp hj
      exact hin.past y hy
    rw [← map_fst_observations (fun ev' hev' => hitBuf_ne_nil_of_mem_groupEvents hev') hlate,
      ← hinputs, observations_past hfar]
    rfl
  have hlru : (groupApply fp caps.withDefaults r g (ev.input r)).group.distinct.lru =
      (windowValues r (ev.ts - r.timespanS) ev.ts
        (groupEvents (admittedRules rules) ci r key (evs ++ [ev]))).dedup.rtake
          caps.withDefaults.maxDistinct := by
    rw [← hwf.map_fst_toList, hlist, ← hwindow, ← map_fst_recency, List.rtake, List.rtake,
      List.map_drop, List.length_map]
  refine ⟨(groupApply fp caps.withDefaults r g (ev.input r)).group, hin.left, hlru, ?_, ?_⟩
  · rw [hwf.count_eq, hlru, length_rtake, List.card_toFinset]
  · rw [hin.trace_concat, ← List.append_assoc, List.map_append, List.map_singleton,
      List.getLast?_concat]
    exact congrArg some (decided_observed htype g hobserved)

end Run

/-- Two addresses of a user within a minute. -/
def addressRule : CorrRule :=
  { burstRule with type := some .valueCount, valueField := some (cstr "ip"), condCount := 2 }

/-- An event of user `a` from an address. -/
def addressEvent (ip : String) (ts : ℚ) : CorrEvent :=
  ⟨[7], fun name => if name = cstr "ip" then some (cstr ip) else userField name, ts⟩

theorem valueCount_exact_sample :
    ∃ g, (corrRun .bare (corrEngineNew [addressRule] capsZero)
        (localCalls ([addressEvent "x" 0, addressEvent "y" 10] ++ [addressEvent "x" 70]))).slot 0
          [cstr "a"] = some g ∧
      g.distinct.lru = [cstr "y", cstr "x"] ∧ g.distinct.count = 2 := by
  obtain ⟨g, hslot, hlru, hcount, -⟩ := @valueCount_exact .bare
    [addressRule] capsZero 0 addressRule [cstr "a"] (by decide) rfl
    [addressEvent "x" 0, addressEvent "y" 10] (addressEvent "x" 70) (cstr "x")
    (by norm_num [TimeOrdered, localCalls, addressEvent, CorrCall.ts]) (by decide +kernel)
    (by decide +kernel) (by decide)
  refine ⟨g, hslot, hlru.trans (by decide +kernel), hcount.trans (by decide +kernel)⟩

end LibSigma
