import Mathlib.Data.Finset.Card
import Mathlib.Tactic.FinCases
import Mathlib.Tactic.NormNum
import LibSigma.Corr.Distinct
import LibSigma.Corr.Temporal
import LibSigma.Library.Arrivals

/-!
# Events out of order

Events of one group that arrive in any order, and a last one that is the latest.  The ring, the
distinct values and the seen table all keep what arrived last, not what happened last.

## What each of them keeps

The ring is pruned from its front, and stops at the first time that is live.  So an expired event
that arrived after a live one is counted.  The set of values and the seen table have one entry for
each value or rule id, with the time of its last arrival.  So a value that has a live event is lost
if an expired one arrived later.  `AfterEvents.times`, `AfterEvents.distinct` and `AfterEvents.seen`
say this for any order.

## When the order does not matter

An order of the earlier events gives a number, and the decision is on the number.  Which numbers can
come up is a question about permutations (`LibSigma.Library.Arrivals`): all from the live events to
all events for the ring, all from the values with live events only to the values with a live event
for the set.  Every one of them is reached by some order.  So the decision is the same in every
order exactly if it is the same for all these numbers, which is `OrderFree`, a statement without any
order.

The runs are those of a group that nobody drops, and no cap is reached.

* `AfterEvents.times`: the ring starts at the first arrival that is live at the end.
* `AfterEvents.distinct`, `AfterEvents.seen`: values and rule ids are live if their last arrival is.
* `decided_eq_of_orderFree`: two runs of an engine that differ in the order of such events.
* `event_time_order_free_iff`: **the decision on the last event is the same for every order of the
  earlier ones exactly when every number that an order can produce gives it.**
-/

namespace LibSigma

open Library

/-! ## Runs of a group

A group that is never disturbed is determined by its events, and where no cap is reached it keeps
all that it should.  So the question of order becomes one about lists of events: what the group
holds after one order and after another. -/

/-- The counters of a cap that was reached. -/
def CorrCounter.isCap : CorrCounter → Bool
  | .eventsOverwritten | .distinctEvicted | .seenTruncated => true
  | _ => false

/-- Whether an event is at `ws` or later. -/
def liveAt (ws : ℚ) (ev : CorrEvent) : Bool := decide (ws ≤ ev.ts)

section Runs

variable (fp : Doubles) (caps : CorrCaps) (r : CorrRule)

/-- A new group after some events. -/
def afterEvents (E : List CorrEvent) : Group :=
  (groupAfter fp caps r (E.map (CorrEvent.input r))).getD (groupNew caps.maxEventsPerGroup)

/-- What the group does with one more event. -/
def eventOutcome (E : List CorrEvent) (ev : CorrEvent) : GroupOutcome :=
  groupInput fp caps r (afterEvents fp caps r E) (ev.input r)

@[simp] theorem afterEvents_concat (E : List CorrEvent) (ev : CorrEvent) :
    afterEvents fp caps r (E ++ [ev]) = (eventOutcome fp caps r E ev).group := by
  rw [afterEvents, List.map_append, List.map_singleton, groupAfter_concat]
  rfl

/-- No event reaches a cap. -/
def Uncapped (E : List CorrEvent) : Prop :=
  ∀ E₁ ev E₂, E = E₁ ++ ev :: E₂ →
    ∀ c ∈ (eventOutcome fp caps r E₁ ev).incs, c.isCap = false

/-- Events of the group whose windows start at `ws` or before, and that reach no cap. -/
structure AfterEvents (E : List CorrEvent) (ws : ℚ) : Prop where
  hits : ∀ ev ∈ E, hitBuf r ev.rids ≠ []
  start : ∀ ev ∈ E, ev.ts - r.timespanS ≤ ws
  uncapped : Uncapped fp caps r E

variable {fp caps r}

theorem AfterEvents.of_concat {E : List CorrEvent} {ev : CorrEvent} {ws : ℚ}
    (h : AfterEvents fp caps r (E ++ [ev]) ws) :
    AfterEvents fp caps r E ws ∧ hitBuf r ev.rids ≠ [] ∧ ev.ts - r.timespanS ≤ ws ∧
      ∀ c ∈ (eventOutcome fp caps r E ev).incs, c.isCap = false := by
  have hlast : ev ∈ E ++ [ev] := List.mem_append_right _ List.mem_cons_self
  refine ⟨⟨fun x hx => h.hits x (List.mem_append_left _ hx),
    fun x hx => h.start x (List.mem_append_left _ hx), fun E₁ x E₂ hE => ?_⟩, h.hits ev hlast,
    h.start ev hlast, h.uncapped E ev [] rfl⟩
  exact h.uncapped E₁ x (E₂ ++ [ev]) (by rw [hE]; simp)

/-- **A group of an engine that is never disturbed** decides as the run of its events does. -/
theorem decided_of_undisturbed {rules : List CorrRule} {ci : ℕ} {key : List CStr}
    (hr : (admittedRules rules)[ci]? = some r) {evs E rest : List CorrEvent} {ev : CorrEvent}
    (h : undisturbed fp ci r key (corrEngineNew rules caps) (localCalls evs) = true)
    (hsplit : groupEvents (admittedRules rules) ci r key evs = E ++ ev :: rest) :
    ∃ x, (groupTrace fp ci r key (corrEngineNew rules caps) (localCalls evs))[E.length]? = some x ∧
      x.decided = (eventOutcome fp caps.withDefaults r E ev).decided := by
  obtain ⟨H, x, H', htrace, hlen, hinputs, hx⟩ := exists_step_of_event fp caps hr hsplit
  have hstep := Life.of_split (htrace ▸ undisturbed_life hr h)
  refine ⟨x, ?_, ?_⟩
  · rw [htrace, ← hlen, List.getElem?_append_right le_rfl, Nat.sub_self, List.getElem?_cons_zero]
  · rw [hstep, hx, hinputs]
    rfl

theorem mem_settle_incs {ts : ℚ} {e : Evaluated} {c : CorrCounter} (h : c ∈ e.incs) :
    c ∈ (settle r ts e).incs := by
  unfold settle
  split_ifs
  · exact h
  · exact List.mem_append_left _ h
  · exact h

theorem mem_of_mem_settle_incs {ts : ℚ} {e : Evaluated} {c : CorrCounter}
    (h : c ∈ (settle r ts e).incs) : c ∈ e.incs ∨ c = .firesSuppressed := by
  unfold settle at h
  split_ifs at h
  · exact Or.inl h
  · exact (List.mem_append.mp h).imp_right List.mem_singleton.mp
  · exact Or.inl h

/-- Nothing is merged, and the ring keeps its size. -/
theorem unmerged_afterEvents {E : List CorrEvent} (hhits : ∀ ev ∈ E, hitBuf r ev.rids ≠ []) :
    Unmerged caps (afterEvents fp caps r E) := by
  induction E using List.reverseRecOn with
  | nil => exact unmerged_new caps
  | append_singleton E ev ih =>
    rw [afterEvents_concat]
    exact (ih fun x hx => hhits x (List.mem_append_left _ hx)).groupInput fp ev
      (hhits ev (List.mem_append_right _ List.mem_cons_self))

theorem AfterEvents.unmerged {E : List CorrEvent} {ws : ℚ} (h : AfterEvents fp caps r E ws) :
    Unmerged caps (afterEvents fp caps r E) := unmerged_afterEvents h.hits

end Runs

/-! ## event_count

The ring drops old entries from its front only, and stops at the first live one.  An old event
behind a live one stays.  So what is counted are the arrivals from the first live one on, and the
number depends on the order. -/

section EventCount

variable {fp : Doubles} {caps : CorrCaps} {r : CorrRule} {E : List CorrEvent}
  {ev : CorrEvent} {ws : ℚ}

/-- An event that reaches no cap finds room in the ring. -/
theorem length_times_ne_cap (htype : r.type = some .eventCount) {g : Group}
    (hhits : hitBuf r ev.rids ≠ [])
    (hroom : ∀ c ∈ (groupInput fp caps r g (ev.input r)).incs, c.isCap = false) :
    g.times.length ≠ g.evIdx.cap := by
  intro hfull
  rw [length_times] at hfull
  have hmem : CorrCounter.eventsOverwritten ∈
      (groupInput fp caps r g (ev.input r)).incs := by
    rw [groupInput_eventCount fp caps htype g hhits]
    refine mem_settle_incs ?_
    rw [evalEventCount, evAppendIncs, if_pos (by exact hfull)]
    exact List.mem_cons_self
  exact absurd (hroom _ hmem) (by decide)

/-- **The ring after some events**: it starts at the first one that is live at the end. -/
theorem AfterEvents.times (h : AfterEvents fp caps r E ws)
    (htype : r.type = some .eventCount) :
    (afterEvents fp caps r E).times.dropWhile (before ws) =
      (E.map CorrEvent.ts).dropWhile (before ws) := by
  induction E using List.reverseRecOn with
  | nil => rfl
  | append_singleton E ev ih =>
    obtain ⟨hE, hhits, hstart, hroom⟩ := h.of_concat
    have hne := length_times_ne_cap htype hhits hroom
    have hdrop : ∀ ts ts' : List ℚ, ts.dropWhile (before ws) = ts'.dropWhile (before ws) →
        (ts ++ [ev.ts]).dropWhile (before ws) = (ts' ++ [ev.ts]).dropWhile (before ws) := by
      intro ts ts' heq
      rw [List.dropWhile_append, List.dropWhile_append, heq]
    rw [afterEvents_concat, eventOutcome, times_groupInput_eventCount fp caps htype _ hhits,
      dropWhile_dropWhile_of_imp (before_mono hstart), pushCap, if_neg hne, List.map_append]
    exact hdrop _ _ (ih hE)

/-- The arrivals from the first live one on. -/
theorem length_dropWhile_before (E : List CorrEvent) (hle : ws ≤ ev.ts) :
    (((E ++ [ev]).map CorrEvent.ts).dropWhile (before ws)).length =
      (E.dropWhile fun x => !liveAt ws x).length + 1 := by
  have hbefore : before ws ∘ CorrEvent.ts = fun x => !liveAt ws x := by
    funext x
    rw [Function.comp_apply, before, liveAt, ← decide_not, Bool.eq_iff_iff, decide_eq_true_eq,
      decide_eq_true_eq, not_le]
  have hlast : liveAt ws ev = true := decide_eq_true hle
  rw [List.dropWhile_map, List.length_map, hbefore, List.dropWhile_append]
  split
  · rename_i hnil
    rw [List.isEmpty_iff.mp hnil, List.dropWhile_cons_of_neg (by simp [hlast])]
    rfl
  · rw [List.length_append]
    rfl

/-- The decision on an event: the number of arrivals from the first live one on. -/
theorem AfterEvents.decided_eventCount (h : AfterEvents fp caps r (E ++ [ev]) ws)
    (htype : r.type = some .eventCount) (hws : ws = ev.ts - r.timespanS) (hle : ws ≤ ev.ts) :
    (eventOutcome fp caps r E ev).decided =
      cmpThreshold ((E.dropWhile fun x => !liveAt ws x).length + 1 : ℕ) r.condOp
        r.condCount := by
  obtain ⟨hE, hhits, hstart, hroom⟩ := h.of_concat
  have htimes := h.times htype
  rw [afterEvents_concat, eventOutcome, times_groupInput_eventCount fp caps htype _ hhits,
    dropWhile_dropWhile_of_imp (before_mono hstart)] at htimes
  rw [← length_dropWhile_before E hle, ← htimes, hws, eventOutcome,
    groupInput_eventCount fp caps htype _ hhits, settle_decided]
  exact evalEventCount_fired r hE.unmerged.mergeN _ _

/-- Events that all fit the ring reach no cap. -/
theorem uncapped_of_length (htype : r.type = some .eventCount)
    (hhits : ∀ x ∈ E, hitBuf r x.rids ≠ []) (hlen : E.length ≤ caps.maxEventsPerGroup) :
    Uncapped fp caps r E := by
  have htimes : ∀ E : List CorrEvent, (∀ x ∈ E, hitBuf r x.rids ≠ []) →
      (afterEvents fp caps r E).times.length ≤ E.length := by
    intro E
    induction E using List.reverseRecOn with
    | nil => exact fun _ => le_rfl
    | append_singleton E ev ih =>
      intro hhits
      have hE := ih fun x hx => hhits x (List.mem_append_left _ hx)
      rw [afterEvents_concat, eventOutcome, times_groupInput_eventCount fp caps htype _
        (hhits ev (List.mem_append_right _ List.mem_cons_self))]
      refine (List.dropWhile_sublist _).length_le.trans ?_
      rw [pushCap, List.length_append, List.length_append]
      split
      · exact Nat.add_le_add_right ((List.tail_sublist _).length_le.trans hE) _
      · exact Nat.add_le_add_right hE _
  intro E₁ ev E₂ hE c hc
  have hlt : E₁.length < caps.maxEventsPerGroup := by
    rw [hE, List.length_append, List.length_cons] at hlen
    omega
  have hhits₁ : ∀ x ∈ E₁, hitBuf r x.rids ≠ [] := fun x hx =>
    hhits x (hE ▸ List.mem_append_left _ hx)
  have hun : Unmerged caps (afterEvents fp caps r E₁) := unmerged_afterEvents hhits₁
  have hcap := hun.cap
  have hring := htimes E₁ hhits₁
  have hcap' : (afterEvents fp caps r E₁).evIdx.cap ≠
      (afterEvents fp caps r E₁).evIdx.len := by
    rw [hcap, ← length_times]
    split <;> omega
  rw [eventOutcome, groupInput_eventCount fp caps htype _
    (hhits ev (hE ▸ List.mem_append_right _ List.mem_cons_self))] at hc
  rcases mem_of_mem_settle_incs hc with hc | rfl
  · rw [evalEventCount, evAppendIncs, if_neg (fun heq => hcap' (by exact heq.symm))] at hc
    exact absurd hc List.not_mem_nil
  · rfl

end EventCount

/-! ## value_count

A value has one entry, with the time of its last arrival, which may be older than an earlier one.
So a value is counted if its last arrival is live. -/

/-- The value of an event, as a list of at most one. -/
def valuesOf (r : CorrRule) (ev : CorrEvent) : List CStr := (r.valueField.bind ev.field).toList

section ValueCount

variable {fp : Doubles} {caps : CorrCaps} {r : CorrRule} {E : List CorrEvent}
  {ev : CorrEvent} {ws : ℚ}

theorem groupInput_valueCount (htype : r.type = some .valueCount) (g : Group)
    (hhits : hitBuf r ev.rids ≠ []) :
    groupInput fp caps r g (ev.input r) =
      settle r ev.ts (evalValueCount r { g with lastUpdate := ev.ts } (r.valueField.bind ev.field)
        caps.maxDistinct ev.ts (ev.ts - r.timespanS)) := by
  rw [CorrEvent.input, groupInput_event fp caps r g hhits, evaluate, htype]

/-- An event without a value leaves the values as they are. -/
theorem distinct_groupInput_none (htype : r.type = some .valueCount) (g : Group)
    (hhits : hitBuf r ev.rids ≠ []) (hval : r.valueField.bind ev.field = none) :
    (groupInput fp caps r g (ev.input r)).group.distinct = g.distinct := by
  rw [groupInput_valueCount htype g hhits, settle_group, hval]
  rfl

/-- An event with a value that reaches no cap. -/
theorem distinct_groupInput_some (htype : r.type = some .valueCount) {g : Group}
    (hwf : g.distinct.Wf fnv1a) (hhits : hitBuf r ev.rids ≠ []) {val : CStr}
    (hval : r.valueField.bind ev.field = some val)
    (hroom : ∀ c ∈ (groupInput fp caps r g (ev.input r)).incs, c.isCap = false) :
    (groupInput fp caps r g (ev.input r)).group.distinct.Wf fnv1a ∧
      (groupInput fp caps r g (ev.input r)).group.distinct.toList fnv1a =
        (((g.distinct.toList fnv1a).filter fun e => !before (ev.ts - r.timespanS) e.2).filter
          fun e => e.1 ≠ val) ++ [(val, ev.ts)] := by
  rw [groupInput_valueCount htype g hhits, hval] at hroom ⊢
  have hnot : CorrCounter.distinctEvicted ∉
      (dsetObserve g.distinct val ev.ts (ev.ts - r.timespanS) caps.maxDistinct).2 := fun hmem =>
    absurd (hroom _ (mem_settle_incs hmem)) (by decide)
  rw [settle_group]
  exact ⟨(toList_dsetObserve hwf _ _ _ _).1, toList_dsetObserve_of_room hwf _ _ _ _ hnot⟩

/-- **The values after some events**: those whose last arrival is live at the end, with its time. -/
theorem AfterEvents.distinct (h : AfterEvents fp caps r E ws)
    (htype : r.type = some .valueCount) :
    (afterEvents fp caps r E).distinct.Wf fnv1a ∧
      ∀ k t, ws ≤ t → ((k, t) ∈ (afterEvents fp caps r E).distinct.toList fnv1a ↔
        ∃ x, lastWith (valuesOf r) E k = some x ∧ x.ts = t) := by
  induction E using List.reverseRecOn with
  | nil =>
    refine ⟨HashLru.wf_empty (by decide), fun k t _ => ⟨fun hmem => ?_, fun hex => ?_⟩⟩
    · exact absurd hmem List.not_mem_nil
    · obtain ⟨x, hx, -⟩ := hex
      cases hx
  | append_singleton E ev ih =>
    obtain ⟨hE, hhits, hstart, hroom⟩ := h.of_concat
    obtain ⟨hwf, hmem⟩ := ih hE
    rw [afterEvents_concat, eventOutcome]
    cases hval : r.valueField.bind ev.field with
    | none =>
      rw [distinct_groupInput_none htype _ hhits hval]
      refine ⟨hwf, fun k t ht => (hmem k t ht).trans ?_⟩
      rw [lastWith_concat, if_neg (by rw [valuesOf, hval]; exact List.not_mem_nil)]
    | some val =>
      obtain ⟨hwf', hlist⟩ := distinct_groupInput_some htype hwf hhits hval hroom
      refine ⟨hwf', fun k t ht => ?_⟩
      have hlive : before (ev.ts - r.timespanS) t = false :=
        decide_eq_false (not_lt.mpr (hstart.trans ht))
      have hkey : k ∈ valuesOf r ev ↔ k = val := by
        rw [valuesOf, hval, Option.toList_some, List.mem_singleton]
      rw [hlist, lastWith_concat, List.mem_append, List.mem_filter, List.mem_filter,
        List.mem_singleton, hmem k t ht]
      by_cases hk : k = val
      · have hpair : (k, t) = (val, ev.ts) ↔ ev.ts = t := by
          rw [Prod.mk.injEq, and_iff_right hk, eq_comm]
        rw [if_pos (hkey.mpr hk), hpair]
        simp [hk]
      · rw [if_neg (mt hkey.mp hk)]
        simp [hk, hlive]

/-- The values whose last arrival is at `ws` or later. -/
def liveValues (r : CorrRule) (ws : ℚ) (E : List CorrEvent) : Finset CStr :=
  (E.flatMap (valuesOf r)).toFinset.filter fun k =>
    (lastWith (valuesOf r) E k).any (liveAt ws) = true

theorem mem_liveValues (k : CStr) :
    k ∈ liveValues r ws E ↔
      (lastWith (valuesOf r) E k).any (liveAt ws) = true := by
  rw [liveValues, Finset.mem_filter, List.mem_toFinset, List.mem_flatMap]
  refine and_iff_right_of_imp fun h => ?_
  obtain ⟨x, hx, hk, -⟩ := exists_of_any_lastWith h
  exact ⟨x, hx, hk⟩

/-- The values that an observation leaves in place are those whose last arrival is live. -/
theorem AfterEvents.kept_values (h : AfterEvents fp caps r E ws)
    (htype : r.type = some .valueCount) (val : CStr) :
    ((((afterEvents fp caps r E).distinct.toList fnv1a).filter fun e =>
      !before ws e.2).filter fun e => e.1 ≠ val).length = ((liveValues r ws E).erase val).card := by
  obtain ⟨hwf, hmem⟩ := h.distinct htype
  have hnodup : (((((afterEvents fp caps r E).distinct.toList fnv1a).filter fun e =>
      !before ws e.2).filter fun e => e.1 ≠ val).map Prod.fst).Nodup := by
    refine hwf.lru_nodup.sublist ?_
    rw [← hwf.map_fst_toList]
    exact List.Sublist.map _ (List.filter_sublist.trans List.filter_sublist)
  rw [← List.length_map Prod.fst, ← List.toFinset_card_of_nodup hnodup]
  congr 1
  ext k
  rw [List.mem_toFinset, Finset.mem_erase, mem_liveValues, Option.any_eq_true, List.mem_map]
  constructor
  · intro hex
    obtain ⟨e, he, rfl⟩ := hex
    obtain ⟨hin, hne⟩ := List.mem_filter.mp he
    obtain ⟨hin, hlive⟩ := List.mem_filter.mp hin
    have hle : ws ≤ e.2 := by simpa [before] using hlive
    obtain ⟨x, hx, hts⟩ := (hmem e.1 e.2 hle).mp hin
    exact ⟨of_decide_eq_true hne, x, hx, decide_eq_true (hts ▸ hle)⟩
  · intro hand
    obtain ⟨hne, x, hx, hlive⟩ := hand
    have hle : ws ≤ x.ts := of_decide_eq_true hlive
    refine ⟨(k, x.ts), List.mem_filter.mpr ⟨List.mem_filter.mpr ⟨?_, ?_⟩, decide_eq_true hne⟩, rfl⟩
    · exact (hmem k x.ts hle).mpr ⟨x, hx, rfl⟩
    · simpa [before] using hle

/-- The decision on an event: the number of values whose last arrival is live. -/
theorem AfterEvents.decided_valueCount (h : AfterEvents fp caps r (E ++ [ev]) ws)
    (htype : r.type = some .valueCount) (hws : ws = ev.ts - r.timespanS) {val : CStr}
    (hval : r.valueField.bind ev.field = some val) :
    (eventOutcome fp caps r E ev).decided =
      cmpThreshold (((liveValues r ws E).erase val).card + 1 : ℕ) r.condOp r.condCount := by
  obtain ⟨hE, hhits, hstart, hroom⟩ := h.of_concat
  obtain ⟨hwf, -⟩ := hE.distinct htype
  obtain ⟨hwf', hlist⟩ := distinct_groupInput_some htype hwf hhits hval hroom
  have hcount := hwf'.length_toList
  rw [hlist, List.length_append, ← hws, hE.kept_values htype val, List.length_singleton] at hcount
  rw [hcount, eventOutcome, groupInput_valueCount htype _ hhits, settle_decided, settle_group, hval]
  rfl

end ValueCount

/-! ## temporal

The same for the seen table: a base rule is live if its last arrival is. -/

section Temporal

variable {fp : Doubles} {caps : CorrCaps} {r : CorrRule} {E : List CorrEvent}
  {ev : CorrEvent} {ws : ℚ}

/-- The base rules an event hit, as far as the buffer holds them. -/
def hitsOf (r : CorrRule) (ev : CorrEvent) : List UInt32 := hitBuf r ev.rids

theorem seenTruncated_not_mem (htype : r.type = some .temporal) {g : Group}
    (hhits : hitBuf r ev.rids ≠ [])
    (hroom : ∀ c ∈ (groupInput fp caps r g (ev.input r)).incs, c.isCap = false) :
    .seenTruncated ∉ (seenRecords ev.ts g.seen (hitBuf r ev.rids)).2 := by
  intro hmem
  rw [groupInput_temporal htype g hhits] at hroom
  exact absurd (hroom _ (mem_settle_incs hmem)) (by decide)

/-- **The seen table after some events**: a rule id is live if its last arrival is. -/
theorem AfterEvents.seen (h : AfterEvents fp caps r E ws) (htype : r.type = some .temporal) :
    ((afterEvents fp caps r E).seen.map Prod.fst).Nodup ∧
      ∀ k, Live (afterEvents fp caps r E).seen k ws ↔
        (lastWith (hitsOf r) E k).any (liveAt ws) = true := by
  induction E using List.reverseRecOn with
  | nil =>
    refine ⟨.nil, fun k => ⟨fun hl => ?_, fun hany => ?_⟩⟩
    · obtain ⟨e, he, -⟩ := hl
      exact absurd he List.not_mem_nil
    · cases hany
  | append_singleton E ev ih =>
    obtain ⟨hE, hhits, hstart, hroom⟩ := h.of_concat
    obtain ⟨hnodup, hlive⟩ := ih hE
    obtain ⟨hnodup', hlive'⟩ := live_seenRecords hnodup (seenTruncated_not_mem htype hhits hroom)
    rw [afterEvents_concat, eventOutcome, seen_groupInput_temporal fp caps htype _ hhits]
    refine ⟨hnodup'.sublist (List.Sublist.map _ List.filter_sublist), fun k => ?_⟩
    rw [live_filter _ hstart, hlive', hlive, lastWith_concat]
    by_cases hk : k ∈ hitBuf r ev.rids
    · rw [if_pos hk, if_pos (by exact hk), Option.any_some, liveAt, decide_eq_true_eq]
    · rw [if_neg hk, if_neg (by exact hk)]

/-- The decision on an event: each of the first 64 base rules is hit, or its last arrival is live. -/
theorem AfterEvents.decided_temporal (h : AfterEvents fp caps r (E ++ [ev]) ws)
    (htype : r.type = some .temporal) (hcond : r.cond = []) (hws : ws = ev.ts - r.timespanS)
    (hle : ws ≤ ev.ts) :
    (eventOutcome fp caps r E ev).decided = true ↔
      ∀ rid ∈ r.baseRuleIds.take 64, rid ∉ hitsOf r ev →
        (lastWith (hitsOf r) E rid).any (liveAt ws) = true := by
  obtain ⟨hE, hhits, hstart, hroom⟩ := h.of_concat
  obtain ⟨hnodup, hlive⟩ := hE.seen htype
  obtain ⟨-, hlive'⟩ := live_seenRecords hnodup (seenTruncated_not_mem htype hhits hroom)
  rw [eventOutcome, groupInput_temporal htype _ hhits, settle_decided, ← hws]
  refine (evalTemporal_all hcond { afterEvents fp caps r E with lastUpdate := ev.ts } _ _ _
    hE.unmerged.mergeSeen).trans (forall₂_congr fun rid _ => (hlive' rid ws).trans ?_)
  rw [hlive]
  by_cases hk : rid ∈ hitBuf r ev.rids
  · exact ⟨fun _ hnot => absurd hk hnot, fun _ => by rw [if_pos hk]; exact hle⟩
  · rw [if_neg hk]
    exact ⟨fun hany _ => hany, fun hany => hany hk⟩

end Temporal

/-! ## Orders

What some order can leave: any number of events between the live ones and all of them, any set of
values between those that have only live events and those that have one, and for base rules
likewise.  Order is irrelevant exactly when the decision is the same for everything in that range.
Both directions are needed for each type; that every value of the range is reached is
`LibSigma.Library.Arrivals`. -/

section Orders

variable {r : CorrRule}

/-- The values with an event at `ws` or later. -/
def freshValues (r : CorrRule) (ws : ℚ) (E : List CorrEvent) : Finset CStr :=
  (E.flatMap (valuesOf r)).toFinset.filter fun k =>
    E.any (fun x => decide (k ∈ valuesOf r x) && liveAt ws x) = true

/-- The values with events at `ws` or later only. -/
def firmValues (r : CorrRule) (ws : ℚ) (E : List CorrEvent) : Finset CStr :=
  (E.flatMap (valuesOf r)).toFinset.filter fun k =>
    E.all (fun x => !decide (k ∈ valuesOf r x) || liveAt ws x) = true

theorem mem_freshValues {ws : ℚ} {E : List CorrEvent} {k : CStr} :
    k ∈ freshValues r ws E ↔ ∃ x ∈ E, k ∈ valuesOf r x ∧ liveAt ws x = true := by
  rw [freshValues, Finset.mem_filter, List.mem_toFinset, List.mem_flatMap, List.any_eq_true]
  simp only [Bool.and_eq_true, decide_eq_true_eq]
  refine and_iff_right_of_imp fun h => ?_
  obtain ⟨x, hx, hk, -⟩ := h
  exact ⟨x, hx, hk⟩

theorem mem_firmValues {ws : ℚ} {E : List CorrEvent} {k : CStr} :
    k ∈ firmValues r ws E ↔
      (∃ x ∈ E, k ∈ valuesOf r x) ∧ ∀ x ∈ E, k ∈ valuesOf r x → liveAt ws x = true := by
  rw [firmValues, Finset.mem_filter, List.mem_toFinset, List.mem_flatMap, List.all_eq_true]
  simp only [Bool.or_eq_true, Bool.not_eq_true', decide_eq_false_iff_not, imp_iff_not_or]

theorem firmValues_subset (ws : ℚ) (E : List CorrEvent) : firmValues r ws E ⊆ freshValues r ws E := by
  intro k hk
  obtain ⟨⟨x, hx, hkx⟩, hall⟩ := mem_firmValues.mp hk
  exact mem_freshValues.mpr ⟨x, hx, hkx, hall x hx hkx⟩

/-- In any order, the live values are between the firm and the fresh ones. -/
theorem liveValues_between (ws : ℚ) {E E' : List CorrEvent} (hperm : E'.Perm E) :
    firmValues r ws E ⊆ liveValues r ws E' ∧ liveValues r ws E' ⊆ freshValues r ws E := by
  refine ⟨fun k hk => ?_, fun k hk => ?_⟩
  · obtain ⟨⟨x, hx, hkx⟩, hall⟩ := mem_firmValues.mp hk
    exact (mem_liveValues k).mpr (any_lastWith_of_forall (hperm.mem_iff.mpr hx) hkx
      fun y hy => hall y (hperm.mem_iff.mp hy))
  · obtain ⟨x, hx, hand⟩ := exists_of_any_lastWith ((mem_liveValues k).mp hk)
    exact mem_freshValues.mpr ⟨x, hperm.mem_iff.mp hx, hand⟩

/-- **All that is between them** is what some order leaves. -/
theorem exists_perm_liveValues {ws : ℚ} {E : List CorrEvent} {S : Finset CStr}
    (hlo : firmValues r ws E ⊆ S) (hhi : S ⊆ freshValues r ws E) :
    ∃ E', E'.Perm E ∧ liveValues r ws E' = S := by
  -- the live events of the values in `S` come last, and the other events of the other values
  obtain ⟨late, hlate⟩ : ∃ late : CorrEvent → Bool, late = fun x =>
      if (valuesOf r x).all fun k => decide (k ∈ S) then liveAt ws x else !liveAt ws x := ⟨_, rfl⟩
  have hone : ∀ {k : CStr} {x : CorrEvent}, k ∈ valuesOf r x → valuesOf r x = [k] := by
    intro k x hk
    rw [valuesOf, Option.mem_toList] at hk
    rw [valuesOf, hk]
    rfl
  refine ⟨lateLast late E, perm_lateLast late E, ?_⟩
  ext k
  rw [mem_liveValues]
  by_cases hk : k ∈ S
  · have heq : ∀ x ∈ E, k ∈ valuesOf r x → late x = liveAt ws x := by
      intro x _ hkx
      simp [hlate, hone hkx, hk]
    rw [any_lastWith_live_last heq, ← mem_freshValues]
    exact iff_of_true (hhi hk) hk
  · have heq : ∀ x ∈ E, k ∈ valuesOf r x → late x = !liveAt ws x := by
      intro x _ hkx
      simp [hlate, hone hkx, hk]
    rw [any_lastWith_live_first heq, ← mem_firmValues]
    exact iff_of_false (fun hfirm => hk (hlo hfirm)) hk

section Erase

variable {ws : ℚ} {E : List CorrEvent} {val : CStr} {S : Finset CStr}

theorem firm_subset_union (h : (firmValues r ws E).erase val ⊆ S) :
    firmValues r ws E ⊆ S ∪ (firmValues r ws E).filter (· = val) := by
  intro k hk
  by_cases heq : k = val
  · exact Finset.mem_union_right _ (Finset.mem_filter.mpr ⟨hk, heq⟩)
  · exact Finset.mem_union_left _ (h (Finset.mem_erase.mpr ⟨heq, hk⟩))

theorem union_subset_fresh (h : S ⊆ (freshValues r ws E).erase val) :
    S ∪ (firmValues r ws E).filter (· = val) ⊆ freshValues r ws E :=
  Finset.union_subset (h.trans (Finset.erase_subset _ _))
    ((Finset.filter_subset _ _).trans (firmValues_subset ws E))

theorem erase_union_firm (h : S ⊆ (freshValues r ws E).erase val) :
    (S ∪ (firmValues r ws E).filter (· = val)).erase val = S := by
  ext k
  rw [Finset.mem_erase, Finset.mem_union, Finset.mem_filter]
  constructor
  · intro hand
    exact hand.2.elim id fun hfirm => absurd hfirm.2 hand.1
  · intro hk
    exact ⟨(Finset.mem_erase.mp (h hk)).1, Or.inl hk⟩

end Erase

/-- The decision for a number of earlier events or values. -/
def decidesAt (r : CorrRule) (n : ℕ) : Bool := cmpThreshold (n + 1 : ℕ) r.condOp r.condCount

/-- The events of a last event's window, and those that an order can keep with them, are decided
alike. -/
def CountFree (r : CorrRule) (E : List CorrEvent) (e : CorrEvent) : Prop :=
  E.countP (liveAt (e.ts - r.timespanS)) = 0 ∨
    ∀ n, E.countP (liveAt (e.ts - r.timespanS)) ≤ n → n ≤ E.length →
      decidesAt r n = decidesAt r (E.countP (liveAt (e.ts - r.timespanS)))

/-- The values with live events only, and those that an order can keep with them, are decided
alike. -/
def ValueFree (r : CorrRule) (E : List CorrEvent) (e : CorrEvent) : Prop :=
  ∀ val, r.valueField.bind e.field = some val →
    ∀ n, ((firmValues r (e.ts - r.timespanS) E).erase val).card ≤ n →
      n ≤ ((freshValues r (e.ts - r.timespanS) E).erase val).card →
        decidesAt r n = decidesAt r ((firmValues r (e.ts - r.timespanS) E).erase val).card

/-- A required rule id has no live event, or all have live events only. -/
def SeenFree (r : CorrRule) (E : List CorrEvent) (e : CorrEvent) : Prop :=
  (∃ rid ∈ r.baseRuleIds.take 64, rid ∉ hitsOf r e ∧
      ∀ x ∈ E, rid ∈ hitsOf r x → liveAt (e.ts - r.timespanS) x = false) ∨
    ∀ rid ∈ r.baseRuleIds.take 64, rid ∉ hitsOf r e →
      ∀ x ∈ E, rid ∈ hitsOf r x → liveAt (e.ts - r.timespanS) x = true

/-- No order of the earlier events decides otherwise on the last one. -/
def OrderFree (r : CorrRule) (E : List CorrEvent) (e : CorrEvent) : Prop :=
  (r.type = some .eventCount → CountFree r E e) ∧ (r.type = some .valueCount → ValueFree r E e) ∧
    (r.type = some .temporal → SeenFree r E e)

end Orders

section Main

variable {fp : Doubles} {caps : CorrCaps} {r : CorrRule} {E : List CorrEvent}
  {e : CorrEvent}

/-- Every order of the earlier events reaches no cap. -/
def UncappedOrders (fp : Doubles) (caps : CorrCaps) (r : CorrRule)
    (E : List CorrEvent) (e : CorrEvent) : Prop :=
  ∀ E', E'.Perm E → AfterEvents fp caps r (E' ++ [e]) (e.ts - r.timespanS)

theorem countFree_iff (htype : r.type = some .eventCount) (hspan : (0 : ℚ) ≤ r.timespanS)
    (h : UncappedOrders fp caps r E e) :
    (∀ E', E'.Perm E → (eventOutcome fp caps r E' e).decided =
      (eventOutcome fp caps r E e).decided) ↔ CountFree r E e := by
  have hle : e.ts - r.timespanS ≤ e.ts := sub_le_self _ hspan
  have hdec : ∀ E', E'.Perm E → (eventOutcome fp caps r E' e).decided =
      decidesAt r (E'.dropWhile fun x => !liveAt (e.ts - r.timespanS) x).length := fun E' hE' =>
    (h E' hE').decided_eventCount htype rfl hle
  constructor
  · intro hall
    rcases Nat.eq_zero_or_pos (E.countP (liveAt (e.ts - r.timespanS))) with hzero | hpos
    · exact Or.inl hzero
    · -- each number is that of some order
      have heach : ∀ n, E.countP (liveAt (e.ts - r.timespanS)) ≤ n → n ≤ E.length →
          decidesAt r n = (eventOutcome fp caps r E e).decided := by
        intro n hlo hhi
        obtain ⟨E', hE', hlen⟩ := exists_perm_length_dropWhile hpos hlo hhi
        rw [← hall E' hE', hdec E' hE', hlen]
      exact Or.inr fun n hlo hhi =>
        (heach n hlo hhi).trans (heach _ le_rfl List.countP_le_length).symm
  · intro hfree E' hE'
    have hcount : ∀ E', E'.Perm E → (eventOutcome fp caps r E' e).decided =
        decidesAt r (E.countP (liveAt (e.ts - r.timespanS))) := by
      intro E' hE'
      rw [hdec E' hE', ← hE'.countP_eq]
      rcases hfree with hzero | hall
      · rw [hE'.countP_eq, hzero,
          length_dropWhile_of_countP_eq_zero ((hE'.countP_eq _).trans hzero)]
      · rw [hE'.countP_eq]
        refine hall _ ?_ ((List.dropWhile_sublist _).length_le.trans hE'.length_eq.le)
        rw [← hE'.countP_eq]
        exact countP_le_length_dropWhile _ _
    rw [hcount E' hE', hcount E (.refl E)]

theorem valueFree_iff (htype : r.type = some .valueCount)
    (h : UncappedOrders fp caps r E e) :
    (∀ E', E'.Perm E → (eventOutcome fp caps r E' e).decided =
      (eventOutcome fp caps r E e).decided) ↔ ValueFree r E e := by
  cases hval : r.valueField.bind e.field with
  | none =>
    have hfalse : ∀ E', E'.Perm E → (eventOutcome fp caps r E' e).decided = false := by
      intro E' hE'
      rw [eventOutcome, groupInput_valueCount htype _ (h E' hE').of_concat.2.1, settle_decided,
        hval]
      rfl
    refine iff_of_true (fun E' hE' => ?_) fun val hsome => ?_
    · rw [hfalse E' hE', hfalse E (.refl E)]
    · rw [hval] at hsome
      cases hsome
  | some val =>
    have hdec : ∀ E', E'.Perm E → (eventOutcome fp caps r E' e).decided =
        decidesAt r ((liveValues r (e.ts - r.timespanS) E').erase val).card := fun E' hE' =>
      (h E' hE').decided_valueCount htype rfl hval
    constructor
    · intro hall val' hval'
      obtain rfl : val = val' := Option.some.inj (hval.symm.trans hval')
      have heach : ∀ n, ((firmValues r (e.ts - r.timespanS) E).erase val).card ≤ n →
          n ≤ ((freshValues r (e.ts - r.timespanS) E).erase val).card →
          decidesAt r n = (eventOutcome fp caps r E e).decided := by
        intro n hlo hhi
        obtain ⟨S, hfirm, hfresh, hcard⟩ := Finset.exists_subsuperset_card_eq
          (Finset.erase_subset_erase val (firmValues_subset (e.ts - r.timespanS) E)) hlo hhi
        -- the value of the last event counts in any order
        obtain ⟨E', hE', hlive⟩ := exists_perm_liveValues
          (firm_subset_union hfirm) (union_subset_fresh hfresh)
        rw [← hall E' hE', hdec E' hE', hlive, erase_union_firm hfresh, hcard]
      intro n hlo hhi
      exact (heach n hlo hhi).trans (heach _ le_rfl (hlo.trans hhi)).symm
    · intro hfree E' hE'
      have hfirm : ∀ E', E'.Perm E → (eventOutcome fp caps r E' e).decided =
          decidesAt r ((firmValues r (e.ts - r.timespanS) E).erase val).card := by
        intro E' hE'
        obtain ⟨hlo, hhi⟩ := liveValues_between (e.ts - r.timespanS) hE'
        rw [hdec E' hE']
        exact hfree val hval _ (Finset.card_le_card (Finset.erase_subset_erase _ hlo))
          (Finset.card_le_card (Finset.erase_subset_erase _ hhi))
      rw [hfirm E' hE', hfirm E (.refl E)]

theorem seenFree_iff (htype : r.type = some .temporal) (hcond : r.cond = [])
    (hspan : (0 : ℚ) ≤ r.timespanS) (h : UncappedOrders fp caps r E e) :
    (∀ E', E'.Perm E → (eventOutcome fp caps r E' e).decided =
      (eventOutcome fp caps r E e).decided) ↔ SeenFree r E e := by
  have hle : e.ts - r.timespanS ≤ e.ts := sub_le_self _ hspan
  have hdec := fun E' (hE' : E'.Perm E) => (h E' hE').decided_temporal htype hcond rfl hle
  obtain ⟨live, hlive⟩ : ∃ live, live = liveAt (e.ts - r.timespanS) := ⟨_, rfl⟩
  rw [SeenFree, ← hlive]
  rw [← hlive] at hdec
  constructor
  · intro hall
    by_contra hnot
    rw [not_or] at hnot
    obtain ⟨hsome, hdead⟩ := hnot
    push Not at hsome hdead
    -- with the live events last it is decided, with the others last it is not
    have hyes : (eventOutcome fp caps r (lateLast live E) e).decided = true := by
      refine (hdec _ (perm_lateLast live E)).mpr fun rid hrid hnot => ?_
      obtain ⟨x, hx, hhit, hx'⟩ := hsome rid hrid hnot
      exact (any_lastWith_live_last fun _ _ _ => rfl).mpr ⟨x, hx, hhit, by simpa using hx'⟩
    obtain ⟨rid, hrid, hnot, x, hx, hhit, hx'⟩ := hdead
    have hno := (hdec _ (perm_lateLast (fun x => !live x) E)).mp
      (by rw [hall _ (perm_lateLast _ E), ← hall _ (perm_lateLast live E), hyes]) rid hrid hnot
    have hlast := ((any_lastWith_live_first fun _ _ _ => rfl).mp hno).2 x hx hhit
    exact hx' hlast
  · intro hfree E' hE'
    rw [Bool.eq_iff_iff, hdec E' hE', hdec E (.refl E)]
    rcases hfree with hnone | hall
    · obtain ⟨rid, hrid, hnot, hdead⟩ := hnone
      have hfalse : ∀ E', E'.Perm E →
          ¬ (lastWith (hitsOf r) E' rid).any live = true := by
        intro E' hE' hany
        obtain ⟨x, hx, hhit, hx'⟩ := exists_of_any_lastWith hany
        rw [hdead x (hE'.mem_iff.mp hx) hhit] at hx'
        cases hx'
      exact iff_of_false (fun hE => hfalse E' hE' (hE rid hrid hnot))
        fun hE => hfalse E (.refl E) (hE rid hrid hnot)
    · have hsame : ∀ E₁ E₂, E₁.Perm E → E₂.Perm E → ∀ rid ∈ r.baseRuleIds.take 64,
          rid ∉ hitsOf r e → (lastWith (hitsOf r) E₁ rid).any live = true →
            (lastWith (hitsOf r) E₂ rid).any live = true := by
        intro E₁ E₂ h₁ h₂ rid hrid hnot hany
        obtain ⟨x, hx, hhit, -⟩ := exists_of_any_lastWith hany
        exact any_lastWith_of_forall (h₂.mem_iff.mpr (h₁.mem_iff.mp hx)) hhit fun y hy hhit' =>
          hall rid hrid hnot y (h₂.mem_iff.mp hy) hhit'
      exact ⟨fun hE rid hrid hnot => hsame E' E hE' (.refl E) rid hrid hnot (hE rid hrid hnot),
        fun hE rid hrid hnot => hsame E E' (.refl E) hE' rid hrid hnot (hE rid hrid hnot)⟩

/-- The three conditions, each for its type. -/
theorem orderFree_iff (hspan : (0 : ℚ) ≤ r.timespanS)
    (htype : r.type = some .eventCount ∨ r.type = some .valueCount ∨
      r.type = some .temporal ∧ r.cond = []) (h : UncappedOrders fp caps r E e) :
    (∀ E', E'.Perm E → (eventOutcome fp caps r E' e).decided =
      (eventOutcome fp caps r E e).decided) ↔ OrderFree r E e := by
  unfold OrderFree
  rcases htype with htype | htype | ⟨htype, hcond⟩
  · rw [countFree_iff htype hspan h]
    simp [htype]
  · rw [valueFree_iff htype h]
    simp [htype]
  · rw [seenFree_iff htype hcond hspan h]
    simp [htype]

/-- **Two runs of an engine that give an undisturbed group the same events before `e`**, in any two
orders, decide the same on `e` if those events are order-free. -/
theorem decided_eq_of_orderFree {rules : List CorrRule} {ci : ℕ} {key : List CStr}
    (hr : (admittedRules rules)[ci]? = some r)
    (htype : r.type = some .eventCount ∨ r.type = some .valueCount ∨
      r.type = some .temporal ∧ r.cond = [])
    {evs evs' E' rest rest' : List CorrEvent}
    (hquiet : undisturbed fp ci r key (corrEngineNew rules caps) (localCalls evs) = true)
    (hquiet' : undisturbed fp ci r key (corrEngineNew rules caps) (localCalls evs') = true)
    (hevs : groupEvents (admittedRules rules) ci r key evs = E ++ e :: rest)
    (hevs' : groupEvents (admittedRules rules) ci r key evs' = E' ++ e :: rest')
    (hperm : E'.Perm E) (h : UncappedOrders fp caps.withDefaults r E e) (hfree : OrderFree r E e) :
    ∃ x x',
      (groupTrace fp ci r key (corrEngineNew rules caps) (localCalls evs))[E.length]? = some x ∧
      (groupTrace fp ci r key (corrEngineNew rules caps) (localCalls evs'))[E.length]? = some x' ∧
      x'.decided = x.decided := by
  have hspan : (0 : ℚ) ≤ r.timespanS := by
    exact_mod_cast (timespanS_pos (ruleValid_of_admitted hr)).le
  obtain ⟨x, hx, hdec⟩ := decided_of_undisturbed hr hquiet hevs
  obtain ⟨x', hx', hdec'⟩ := decided_of_undisturbed hr hquiet' hevs'
  refine ⟨x, x', hx, hperm.length_eq ▸ hx', ?_⟩
  rw [hdec, hdec']
  exact (orderFree_iff hspan htype h).mpr hfree E' hperm

variable (fp caps) in
/-- **The decision on the last event is the same for every order of the earlier ones** exactly when
the numbers that the orders can produce all give it: the ring counts what arrived after a live event,
the values and the seen table go by the last arrival. -/
theorem event_time_order_free_iff (hadm : r.admitted = true)
    (htype : r.type = some .eventCount ∨ r.type = some .valueCount ∨
      r.type = some .temporal ∧ r.cond = [])
    (hhits : ∀ x ∈ E ++ [e], hitBuf r x.rids ≠ []) (hlast : ∀ x ∈ E, x.ts ≤ e.ts)
    (hcap : ∀ E', E'.Perm E → Uncapped fp caps r (E' ++ [e])) :
    (∀ E', E'.Perm E → (eventOutcome fp caps r E' e).decided =
      (eventOutcome fp caps r E e).decided) ↔ OrderFree r E e := by
  have hspan : (0 : ℚ) ≤ r.timespanS := by
    exact_mod_cast (timespanS_pos (Bool.and_eq_true_iff.mp hadm).2).le
  refine orderFree_iff hspan htype fun E' hE' => ?_
  have hperm : (E' ++ [e]).Perm (E ++ [e]) := hE'.append_right [e]
  refine ⟨fun x hx => hhits x (hperm.mem_iff.mp hx), fun x hx => sub_le_sub_right ?_ _, hcap E' hE'⟩
  rcases List.mem_append.mp (hperm.mem_iff.mp hx) with hx | hx
  · exact hlast x hx
  · rw [List.mem_singleton.mp hx]

end Main

/-! ## Small runs -/

/-- Caps with event time. -/
def capsEventTime : CorrCaps := { capsZero.withDefaults with eventTimeOrdering := true }

theorem event_time_order_free_iff_sample :
    OrderFree tripleRule [userEvent 7 50, userEvent 7 60] (userEvent 7 100) ∧
      ∀ E', E'.Perm [userEvent 7 50, userEvent 7 60] →
        (eventOutcome .bare capsEventTime tripleRule E' (userEvent 7 100)).decided =
          (eventOutcome .bare capsEventTime tripleRule [userEvent 7 50, userEvent 7 60]
            (userEvent 7 100)).decided := by
  have hhits : ∀ x ∈ [userEvent 7 50, userEvent 7 60] ++ [userEvent 7 100],
      hitBuf tripleRule x.rids ≠ [] := by
    intro x hx
    fin_cases hx <;> decide
  have hfree : OrderFree tripleRule [userEvent 7 50, userEvent 7 60] (userEvent 7 100) := by
    refine ⟨fun _ => Or.inr fun n hlo hhi => ?_, fun htype => ?_, fun htype => ?_⟩
    · have hlive : [userEvent 7 50, userEvent 7 60].countP
          (liveAt ((userEvent 7 100).ts - tripleRule.timespanS)) = 2 := by
        decide +kernel
      rw [hlive] at hlo ⊢
      rw [Nat.le_antisymm hhi hlo]
      rfl
    · cases htype
    · cases htype
  refine ⟨hfree, (event_time_order_free_iff .bare capsEventTime (by decide) (Or.inl rfl)
    hhits (fun x hx => ?_) fun E' hE' => ?_).mpr hfree⟩
  · fin_cases hx <;> norm_num [userEvent]
  · refine uncapped_of_length rfl (fun x hx => ?_) ?_
    · exact hhits x ((hE'.append_right _).mem_iff.mp hx)
    · rw [List.length_append, hE'.length_eq]
      decide

/-- An old event that arrives after a new one is counted, and one that arrives before is not. -/
theorem event_time_order_matters :
    ¬ ∀ (fp : Doubles) (caps : CorrCaps) (r : CorrRule) (E : List CorrEvent)
      (e : CorrEvent), caps.eventTimeOrdering = true → r.admitted = true →
      (r.type = some .eventCount ∨ r.type = some .valueCount ∨
        r.type = some .temporal ∧ r.cond = []) →
      (∀ x ∈ E ++ [e], hitBuf r x.rids ≠ []) → (∀ x ∈ E, x.ts ≤ e.ts) →
      (∀ E', E'.Perm E → Uncapped fp caps r (E' ++ [e])) →
      ∀ E', E'.Perm E → (eventOutcome fp caps r E' e).decided =
        (eventOutcome fp caps r E e).decided := by
  intro hclaim
  have hhits : ∀ x ∈ [userEvent 7 0, userEvent 7 50] ++ [userEvent 7 100],
      hitBuf tripleRule x.rids ≠ [] := by
    intro x hx
    fin_cases hx <;> decide
  have hsame := hclaim .bare capsEventTime tripleRule [userEvent 7 0, userEvent 7 50]
    (userEvent 7 100) rfl (by decide) (Or.inl rfl) hhits
    (fun x hx => by fin_cases hx <;> norm_num [userEvent])
    (fun E' hE' => uncapped_of_length rfl
      (fun x hx => hhits x ((hE'.append_right _).mem_iff.mp hx))
      (by rw [List.length_append, hE'.length_eq]; decide))
    [userEvent 7 50, userEvent 7 0] (.swap _ _ _)
  have hlate : (eventOutcome .bare capsEventTime tripleRule
      [userEvent 7 50, userEvent 7 0] (userEvent 7 100)).decided = true := by
    decide +kernel
  have hearly : (eventOutcome .bare capsEventTime tripleRule
      [userEvent 7 0, userEvent 7 50] (userEvent 7 100)).decided = false := by
    decide +kernel
  rw [hlate, hearly] at hsame
  cases hsame

end LibSigma
