import LibSigma.Corr.Considered
import LibSigma.Corr.Isolation
import LibSigma.Corr.Overwrites
import LibSigma.Corr.Owner
import LibSigma.Library.Sharding

/-!
# A ring of peers

Every peer gets every event, each in its own time, and its `apply` callback takes the groups that
`corr_owner_index` gives it.  Together the peers do what one engine would.

## Two levels

The one engine is the abstract machine, and a configuration of the ring is how far each peer has
read, with the engine that it has become. Peers do not talk to each other here. So a peer that has
read `n` events is compared with the one engine after the same `n` events, and it does not matter
what the other peers are at: `LibSigma.Library.Sharding` turns that comparison into the statements
about configurations and logs.

## The relation

`EnginePart` relates a peer to the engine: for each correlation, the peer holds the groups that it
owns, each with the state that the engine has for it, and no others (`OwnPart`). Both have the same
index and the same clock of the sweep, since both see all the events. An input for a group that the
peer owns is done by both, one for another group by the engine alone (`OwnPart.input`,
`OwnPart.input_other`); the loop over the index is a list of such inputs, and a sweep drops the same
on both sides.

What breaks the relation is an eviction in the one engine. It has more groups than any peer and may
run out of room where no peer does. So the results are about streams on which it evicts nothing.

* `PeerRing`: the peers; `PeerRing.owner`, `PeerRing.applies`: who applies what.
* `OwnPart`: a correlation of a peer against that of the engine.
* `VisitPart.step`, `EnginePart.event`: one index entry, and one event.
* `ring_refines_engine`: **the ring puts out what the engine does**, however the peers are
  scheduled.
-/

namespace LibSigma

open Library

/-! ## Ownership

A peer passes the test of ownership as the callback of `corr_on_event_apply`, so it treats the
groups it owns like an engine alone and does not create the others. -/

/-- Peers, as many as a number of 32 bits counts. -/
structure PeerRing where
  nPeers : ℕ
  pos : 0 < nPeers
  lt : nPeers < 2 ^ 32

instance (ring : PeerRing) : NeZero ring.nPeers := ⟨ring.pos.ne'⟩

theorem PeerRing.corrOwnerIndex_lt (ring : PeerRing) (corrId : Option CStr)
    (groupVals : List (Option CStr)) : corrOwnerIndex corrId groupVals ring.nPeers < ring.nPeers := by
  have hmod : (UInt32.ofNat ring.nPeers).toNat = ring.nPeers := UInt32.toNat_ofNat_of_lt' ring.lt
  rw [corrOwnerIndex, if_neg ring.pos.ne', UInt32.toNat_mod, hmod]
  exact Nat.mod_lt _ ring.pos

/-- The peer that owns a group. -/
def PeerRing.owner (ring : PeerRing) (r : CorrRule) (key : List CStr) : Fin ring.nPeers :=
  ⟨corrOwnerIndex r.id (key.map some) ring.nPeers, ring.corrOwnerIndex_lt _ _⟩

/-- The `apply` callback of a peer. -/
def PeerRing.applies (ring : PeerRing) (p : Fin ring.nPeers) (r : CorrRule) (key : List CStr) :
    Bool := ring.owner r key == p

section Ring

variable {ring : PeerRing} {p : Fin ring.nPeers}

/-! ## One correlation

A peer against the engine, for the groups of one correlation: the groups that the peer owns are in
both, with the same content, and the peer has no others.  The order of use is not compared: nothing
depends on it as long as nothing is evicted. -/

/-- The groups of a correlation that a peer owns: it holds these, as the engine does, and no others. -/
structure OwnPart (ring : PeerRing) (p : Fin ring.nPeers) (st st' : CorrState) : Prop where
  rule : st'.rule = st.rule
  wf : st.groups.Wf hashGroupKey
  wf' : st'.groups.Wf hashGroupKey
  get : ∀ key, st'.groups.get hashGroupKey key =
    if ring.owner st.rule key = p then st.groups.get hashGroupKey key else none

namespace OwnPart

variable {st st' : CorrState}

/-- A peer has no more groups than the engine. -/
theorem count_le (h : OwnPart ring p st st') : st'.groups.count ≤ st.groups.count := by
  have hsub : st'.groups.lru ⊆ st.groups.lru := by
    intro key hkey
    have hsome := h.wf'.get_isSome_iff.mpr hkey
    rw [h.get] at hsome
    split at hsome
    · exact h.wf.get_isSome_iff.mp hsome
    · cases hsome
  rw [h.wf'.count_eq, h.wf.count_eq]
  exact (h.wf'.lru_nodup.subperm hsub).length_le

/-- Where the engine evicts nothing, a peer evicts nothing. -/
theorem victim_eq_none (h : OwnPart ring p st st') {caps : CorrCaps} {key : List CStr}
    (howner : ring.owner st.rule key = p) (hnone : cstateVictim caps st.groups key = none) :
    cstateVictim caps st'.groups key = none := by
  unfold cstateVictim at hnone ⊢
  rw [h.get, if_pos howner]
  split at hnone
  · rename_i hfull
    -- the engine is full of nothing
    have hnil : st.groups.count = 0 := by
      rw [h.wf.count_eq, List.head?_eq_none_iff.mp hnone, List.length_nil]
    have hnil' : st'.groups.lru = [] := by
      have hle := h.count_le
      rw [hnil, h.wf'.count_eq] at hle
      exact List.length_eq_zero_iff.mp (Nat.le_zero.mp hle)
    rw [hnil']
    split <;> rfl
  · rename_i hroom
    rw [if_neg]
    intro hfull
    rw [Bool.and_eq_true, decide_eq_true_eq] at hfull
    exact hroom (Bool.and_eq_true _ _ ▸ ⟨hfull.1, decide_eq_true (hfull.2.trans h.count_le)⟩)

/-- Both drop the same of the groups the peer owns. -/
theorem drop (h : OwnPart ring p st st') (horizon : ℚ) :
    OwnPart ring p (cstateDropExpired st horizon) (cstateDropExpired st' horizon) where
  rule := h.rule
  wf := (h.wf.dropWhere _).1
  wf' := (h.wf'.dropWhere _).1
  get key := by
    rw [cstateDropExpired, cstateDropExpired, (h.wf'.dropWhere _).2.2, (h.wf.dropWhere _).2.2, h.get]
    split <;> rfl

variable (fp : Doubles) {caps : CorrCaps} {key : List CStr}

/-- **An input for a group the peer owns**: both treat it the same way. -/
theorem input (h : OwnPart ring p st st') (howner : ring.owner st.rule key = p)
    (hnone : cstateVictim caps st.groups key = none) (i : GroupInput) :
    OwnPart ring p (cstateInput fp caps st key i).1 (cstateInput fp caps st' key i).1 ∧
      (cstateInput fp caps st' key i).2.decided = (cstateInput fp caps st key i).2.decided ∧
      (cstateInput fp caps st' key i).2.fire = (cstateInput fp caps st key i).2.fire := by
  obtain ⟨hrule, hwf, hdecided, hfire, hget⟩ := cstateInput_spec fp caps h.wf key i
  obtain ⟨hrule', hwf', hdecided', hfire', hget'⟩ := cstateInput_spec fp caps h.wf' key i
  have hself : st'.groups.get hashGroupKey key = st.groups.get hashGroupKey key := by
    rw [h.get, if_pos howner]
  rw [h.rule, hself] at hdecided' hfire' hget'
  refine ⟨⟨by rw [hrule', hrule, h.rule], hwf, hwf', fun k => ?_⟩, hdecided'.trans hdecided.symm,
    hfire'.trans hfire.symm⟩
  rw [hrule]
  by_cases hk : k = key
  · rw [hget', if_pos hk, hk, hget, if_pos rfl, if_pos howner]
  · have hroom : ¬ (none : Option (List CStr)) = some k := nofun
    rw [hget', hget, if_neg hk, if_neg hk, h.victim_eq_none howner hnone, hnone, if_neg hroom,
      if_neg hroom]
    exact h.get k

/-- **An input for a group of another peer** does not concern this one. -/
theorem input_other (h : OwnPart ring p st st') (howner : ring.owner st.rule key ≠ p)
    (hnone : cstateVictim caps st.groups key = none) (i : GroupInput) :
    OwnPart ring p (cstateInput fp caps st key i).1 st' := by
  obtain ⟨hrule, hwf, -, -, hget⟩ := cstateInput_spec fp caps h.wf key i
  refine ⟨by rw [hrule, h.rule], hwf, h.wf', fun k => ?_⟩
  rw [h.get, hrule]
  by_cases hk : ring.owner st.rule k = p
  · have hne : k ≠ key := fun heq => howner (heq ▸ hk)
    have hroom : ¬ (none : Option (List CStr)) = some k := nofun
    rw [if_pos hk, if_pos hk, hget, if_neg hne, hnone, if_neg hroom]
  · rw [if_neg hk, if_neg hk]

/-- An input that counts no eviction evicts nothing. -/
theorem victim_eq_none_of_incs {i : GroupInput}
    (h : CorrCounter.groupsEvicted ∉ (cstateInput fp caps st key i).2.incs) :
    cstateVictim caps st.groups key = none := by
  unfold cstateVictim
  cases hget : st.groups.get hashGroupKey key with
  | some g => rfl
  | none =>
    by_cases hfull : (decide (caps.maxGroups ≤ st.groups.count) && !st.groups.lru.isEmpty) = true
    · have hincs : (cstateGetOrCreate caps st.groups key).2.2 = [.groupsEvicted] := by
        rw [cstateGetOrCreate, hget]
        exact if_pos hfull
      have hmem : CorrCounter.groupsEvicted ∈ (cstateGetOrCreate caps st.groups key).2.2 :=
        hincs ▸ List.mem_cons_self
      exact absurd (List.mem_append_left _ hmem) h
    · cases hlru : st.groups.lru with
      | nil => split <;> rfl
      | cons k ks =>
        rw [hlru, List.isEmpty_cons, Bool.not_false, Bool.and_true] at hfull
        rw [Option.isNone_none, Bool.true_and, if_neg hfull]

end OwnPart

/-! ## One entry of the index -/

/-- Related lists stay related when related entries replace two of them. -/
theorem forall₂_set {α β : Type} {R : α → β → Prop} {xs : List α} {ys : List β} {i : ℕ} {x : α}
    {y : β} (h : List.Forall₂ R xs ys) (hxy : R x y) : List.Forall₂ R (xs.set i x) (ys.set i y) := by
  induction h generalizing i with
  | nil => exact .nil
  | cons hab hrest ih =>
    cases i with
    | zero => exact .cons hxy hrest
    | succ i => exact .cons hab ih

/-- The group of an outcome. -/
def CorrOutcome.group (o : CorrOutcome) : ℕ × List CStr := (o.corr, o.key)

/-- The owner of a group; any peer for a group of no rule. -/
def PeerRing.ownerOf (ring : PeerRing) (rules : List CorrRule) (k : ℕ × List CStr) :
    Fin ring.nPeers :=
  (rules[k.1]?.map fun r => ring.owner r k.2).getD 0

theorem PeerRing.ownerOf_eq {rules : List CorrRule} {ci : ℕ} {r : CorrRule}
    (hr : rules[ci]? = some r) (key : List CStr) : ring.ownerOf rules (ci, key) = ring.owner r key := by
  rw [ownerOf, hr]
  rfl

/-- The loop of a peer against that of the engine. -/
structure VisitPart (ring : PeerRing) (p : Fin ring.nPeers) (rules : List CorrRule)
    (acc acc' : VisitState) : Prop where
  visited : acc'.visited = acc.visited
  states : List.Forall₂ (OwnPart ring p) acc.states acc'.states
  rules_eq : acc.states.map CorrState.rule = rules
  outcomes : acc'.outcomes = acc.outcomes.filter fun o => ring.ownerOf rules o.group = p

namespace VisitPart

variable {rules : List CorrRule} {acc acc' : VisitState} {fp : Doubles} {caps : CorrCaps}
  {ev : CorrEvent}

/-- What a step of the engine counts, it counts for good. -/
theorem incs_initial (ps : List (UInt32 × ℕ)) (acc : VisitState) :
    acc.incs <+: (ps.foldl (visitStep fp caps ev none) acc).incs := by
  rw [(visit_outcomes fp caps ev none ps acc.states acc fun _ _ => rfl).2]
  exact List.prefix_append _ _

/-- **One entry of the index.** -/
theorem step (h : VisitPart ring p rules acc acc') (q : UInt32 × ℕ)
    (hroom : CorrCounter.groupsEvicted ∉ (visitStep fp caps ev none acc q).incs) :
    VisitPart ring p rules (visitStep fp caps ev none acc q)
      (visitStep fp caps ev (some (ring.applies p)) acc' q) := by
  unfold visitStep at hroom ⊢
  by_cases hnew : q.2 ∈ acc.visited
  · rw [if_pos hnew, if_pos (h.visited ▸ hnew)]
    exact h
  · rw [if_neg hnew] at hroom
    rw [if_neg hnew, if_neg (h.visited ▸ hnew)]
    dsimp only at hroom ⊢
    have hvisited : q.2 :: acc'.visited = q.2 :: acc.visited := by rw [h.visited]
    cases hst : acc.states[q.2]? with
    | none =>
      have hst' : acc'.states[q.2]? = none := by
        rw [List.getElem?_eq_none_iff] at hst ⊢
        exact h.states.length_eq ▸ hst
      rw [hst']
      exact ⟨hvisited, h.states, h.rules_eq, h.outcomes⟩
    | some st =>
      obtain ⟨hlt, hget⟩ := List.getElem?_eq_some_iff.mp hst
      have hlt' : q.2 < acc'.states.length := h.states.length_eq ▸ hlt
      have hpart : OwnPart ring p st acc'.states[q.2] :=
        hget ▸ h.states.get hlt hlt'
      rw [hst] at hroom
      rw [List.getElem?_eq_getElem hlt']
      dsimp only at hroom ⊢
      rw [hpart.rule]
      cases hkey : resolveGroup st.rule ev q.1 with
      | none => exact ⟨hvisited, h.states, h.rules_eq, h.outcomes⟩
      | some key =>
        rw [hkey] at hroom
        dsimp only [Option.all_none, Option.all_some] at hroom ⊢
        rw [if_pos rfl] at hroom ⊢
        have hnone := OwnPart.victim_eq_none_of_incs fp
          fun hmem => hroom (List.mem_append_right _ hmem)
        have hr : rules[q.2]? = some st.rule := by
          rw [← h.rules_eq, List.getElem?_map, hst]
          rfl
        have howns : ∀ d f, ring.ownerOf rules (CorrOutcome.group ⟨q.2, key, d, f⟩) =
            ring.owner st.rule key := fun _ _ => ring.ownerOf_eq hr key
        have hrules : (acc.states.set q.2
            (cstateInput fp caps st key (ev.input st.rule)).1).map CorrState.rule = rules := by
          have hrule : (cstateInput fp caps st key (ev.input st.rule)).1.rule = st.rule := rfl
          exact (map_rule_set hst hrule).trans h.rules_eq
        by_cases howner : ring.owner st.rule key = p
        · have happlies : ring.applies p st.rule key = true := beq_iff_eq.mpr howner
          obtain ⟨hpart', hdecided, hfire⟩ := hpart.input fp howner hnone (ev.input st.rule)
          rw [if_pos happlies]
          refine ⟨hvisited, ?_, hrules, ?_⟩
          · exact forall₂_set h.states hpart'
          · rw [List.filter_append, List.filter_singleton, howns, decide_eq_true howner, ← h.outcomes,
              hdecided, hfire]
            rfl
        · have happlies : ring.applies p st.rule key = false := beq_eq_false_iff_ne.mpr howner
          have hpart' := hpart.input_other fp howner hnone (ev.input st.rule)
          rw [if_neg (by rw [happlies]; exact Bool.false_ne_true)]
          refine ⟨hvisited, ?_, hrules, ?_⟩
          · have hset := forall₂_set (i := q.2) h.states hpart'
            rwa [List.set_getElem_self] at hset
          · rw [List.filter_append, List.filter_singleton, howns, decide_eq_false howner, ← h.outcomes]
            exact (List.append_nil _).symm

/-- The loop. -/
theorem foldl (h : VisitPart ring p rules acc acc') (ps : List (UInt32 × ℕ))
    (hroom : CorrCounter.groupsEvicted ∉ (ps.foldl (visitStep fp caps ev none) acc).incs) :
    VisitPart ring p rules (ps.foldl (visitStep fp caps ev none) acc)
      (ps.foldl (visitStep fp caps ev (some (ring.applies p))) acc') := by
  induction ps generalizing acc acc' with
  | nil => exact h
  | cons q ps ih =>
    refine ih (h.step q fun hmem => hroom ?_) hroom
    exact (incs_initial ps _).subset hmem

end VisitPart

/-! ## One event

Both go through the same entries of the index, and a peer passes over those whose group it does not
own.  Counters differ, and are not compared; the decisions and fires for the peer's groups are the
engine's. -/

/-- A peer against the engine that has read as much. -/
structure EnginePart (ring : PeerRing) (p : Fin ring.nPeers) (rules : List CorrRule)
    (e e' : CorrEngine) : Prop where
  states : List.Forall₂ (OwnPart ring p) e.states e'.states
  rules_eq : e.states.map CorrState.rule = rules
  caps_eq : e'.caps = e.caps
  lastSweep : e'.lastSweep = e.lastSweep
  sweepSeen : e'.sweepSeen = e.sweepSeen
  index : e'.ridBuckets = e.ridBuckets

namespace EnginePart

variable {rules : List CorrRule} {e e' : CorrEngine}

/-- A new peer is a new engine. -/
theorem new (rules : List CorrRule) (caps : CorrCaps) :
    EnginePart ring p (admittedRules rules) (corrEngineNew rules caps)
      (corrEngineNew rules caps) where
  states := by
    refine List.forall₂_same.mpr fun st hst => ?_
    obtain ⟨r, -, rfl⟩ := List.mem_map.mp hst
    have hwf : (HashLru.empty 16 : HashLru (List CStr) Group).Wf hashGroupKey :=
      HashLru.wf_empty (by decide)
    refine ⟨rfl, hwf, hwf, fun key => ?_⟩
    have hget : (HashLru.empty 16 : HashLru (List CStr) Group).get hashGroupKey key = none :=
      hwf.get_eq_none_iff.mpr List.not_mem_nil
    rw [hget, ite_self]
  rules_eq := (engineOk_new rules caps).states
  caps_eq := rfl
  lastSweep := rfl
  sweepSeen := rfl
  index := rfl

/-- Both sweep at the same time, and drop the same. -/
theorem sweepIfDue (h : EnginePart ring p rules e e') (now : ℚ) :
    EnginePart ring p rules (e.sweepIfDue now) (e'.sweepIfDue now) := by
  unfold CorrEngine.sweepIfDue
  rw [h.sweepSeen, h.lastSweep, congrArg CorrCaps.sweepIntervalS h.caps_eq]
  split
  · exact ⟨h.states, h.rules_eq, h.caps_eq, rfl, rfl, h.index⟩
  · split
    · exact h
    · refine ⟨?_, ?_, h.caps_eq, rfl, rfl, h.index⟩
      · refine List.forall₂_map_left_iff.mpr (List.forall₂_map_right_iff.mpr (h.states.imp ?_))
        intro st st' hpart
        rw [hpart.rule]
        split
        · exact hpart.drop _
        · exact hpart
      · rw [List.map_map, ← h.rules_eq]
        refine List.map_congr_left fun st _ => ?_
        rw [Function.comp_apply]
        split <;> rfl

/-- **One event**, while the engine evicts nothing. -/
theorem event {fp : Doubles} (h : EnginePart ring p rules e e') (ev : CorrEvent)
    (hroom : (corrOnEvent fp e ev).1.stats .groupsEvicted = e.stats .groupsEvicted) :
    EnginePart ring p rules (corrOnEvent fp e ev).1
        (corrOnEventApply fp e' ev (some (ring.applies p))).1 ∧
      (corrOnEventApply fp e' ev (some (ring.applies p))).2 =
        (corrOnEvent fp e ev).2.filter fun o => ring.ownerOf rules o.group = p := by
  rw [corrOnEvent] at hroom ⊢
  have hlen : e'.states.length = e.states.length := h.states.length_eq.symm
  by_cases hempty : e.states.length = 0 ∨ ev.rids.length = 0
  · have hempty' : e'.states.length = 0 ∨ ev.rids.length = 0 := hlen.symm ▸ hempty
    rw [corrOnEventApply, corrOnEventApply, if_pos hempty, if_pos hempty']
    exact ⟨h, rfl⟩
  · have hempty' : ¬ (e'.states.length = 0 ∨ ev.rids.length = 0) := hlen.symm ▸ hempty
    rw [corrOnEventApply_eq fp e ev none hempty] at hroom ⊢
    rw [corrOnEventApply_eq fp e' ev _ hempty']
    have hsweep := h.sweepIfDue ev.ts
    have hcount : (visitState fp e ev none).incs.count .groupsEvicted = 0 := by
      have hstats : (e.sweepIfDue ev.ts).stats .groupsEvicted +
          (visitState fp e ev none).incs.count .groupsEvicted = e.stats .groupsEvicted := hroom
      rw [sweepIfDue_stats] at hstats
      omega
    have hvisit : VisitPart ring p rules (visitState fp e ev none)
        (visitState fp e' ev (some (ring.applies p))) := by
      unfold visitState
      rw [hsweep.index, hsweep.caps_eq]
      have hstart : VisitPart ring p rules ⟨(e.sweepIfDue ev.ts).states, [], [], []⟩
          ⟨(e'.sweepIfDue ev.ts).states, [], [], []⟩ := ⟨rfl, hsweep.states, hsweep.rules_eq, rfl⟩
      exact hstart.foldl _ (List.count_eq_zero.mp hcount)
    exact ⟨⟨hvisit.states, hvisit.rules_eq, hsweep.caps_eq, hsweep.lastSweep, hsweep.sweepSeen,
      hsweep.index⟩, hvisit.outcomes⟩

/-- The groups of a peer are those of the engine that it owns. -/
theorem slot (h : EnginePart ring p rules e e') {ci : ℕ} {r : CorrRule}
    (hr : rules[ci]? = some r) (key : List CStr) :
    e'.slot ci key = if ring.owner r key = p then e.slot ci key else none := by
  rw [← h.rules_eq, List.getElem?_map] at hr
  obtain ⟨st, hst, rfl⟩ := Option.map_eq_some_iff.mp hr
  obtain ⟨hlt, hget⟩ := List.getElem?_eq_some_iff.mp hst
  have hlt' : ci < e'.states.length := h.states.length_eq ▸ hlt
  have hpart : OwnPart ring p st e'.states[ci] := hget ▸ h.states.get hlt hlt'
  rw [CorrEngine.slot, CorrEngine.slot, hst, List.getElem?_eq_getElem hlt']
  exact hpart.get key

end EnginePart

end Ring

/-! ## The ring

Peers read the stream at their own pace, so at any moment they may be at different events.  The
theorem is about each of them at its place, and about all of them when everything is read. -/

section Peers

variable (fp : Doubles) (ring : PeerRing)

/-- A peer reads an event. -/
def PeerRing.onEvent (p : Fin ring.nPeers) (e : CorrEngine) (ev : CorrEvent) :
    CorrEngine × List CorrOutcome :=
  corrOnEventApply fp e ev (some (ring.applies p))

/-- What peers that start anew reach on a stream of events, each at its own pace. -/
def PeerRing.Reach (rules : List CorrRule) (caps : CorrCaps) (evs : List CorrEvent)
    (S : Shards (Fin ring.nPeers) CorrEngine CorrOutcome) : Prop :=
  Shards.Reach (ring.onEvent fp) (fun _ => corrEngineNew rules caps) evs S

variable {rules : List CorrRule} {caps : CorrCaps} {evs : List CorrEvent}
  {S : Shards (Fin ring.nPeers) CorrEngine CorrOutcome}

/-- The events that the engine reads without an eviction are split among the peers. -/
theorem PeerRing.split (rules : List CorrRule) :
    Split (corrOnEvent fp) (ring.onEvent fp) (ring.ownerOf rules) CorrOutcome.group
      (fun e ev => (corrOnEvent fp e ev).1.stats .groupsEvicted = e.stats .groupsEvicted)
      (fun p => EnginePart ring p rules) where
  step hpart hroom := hpart.event _ hroom

/-- The engine after some events. -/
theorem runFrom_corrOnEvent (e : CorrEngine) (evs : List CorrEvent) :
    runFrom (corrOnEvent fp) e evs = corrRun fp e (localCalls evs) := by
  rw [runFrom, corrRun, localCalls, List.foldl_map]
  rfl

/-- A counter never falls. -/
theorem stats_corrOnEvent_le (e : CorrEngine) (ev : CorrEvent) (c : CorrCounter) :
    e.stats c ≤ (corrOnEvent fp e ev).1.stats c := by
  rw [corrOnEvent]
  by_cases hempty : e.states.length = 0 ∨ ev.rids.length = 0
  · rw [corrOnEventApply, if_pos hempty]
  · rw [corrOnEventApply_eq fp e ev none hempty]
    exact (congrFun (sweepIfDue_stats e ev.ts) c).symm.le.trans (Nat.le_add_right _ _)

theorem stats_runFrom_le (e : CorrEngine) (evs : List CorrEvent) (c : CorrCounter) :
    e.stats c ≤ (runFrom (corrOnEvent fp) e evs).stats c := by
  induction evs using List.reverseRecOn with
  | nil => exact le_rfl
  | append_singleton evs ev ih =>
    rw [runFrom_concat]
    exact ih.trans (stats_corrOnEvent_le fp _ ev c)

variable {ring}

/-- **The ring refines the engine.**  While one engine that reads the events evicts no group, peers
that each read them at their own pace hold its groups, each group at its owner, and put out what it
does: under each group the same outcomes on the same events, up to what its owner has read; and all
of them, each once, when every peer has read the events. -/
theorem ring_refines_engine (hS : ring.Reach fp rules caps evs S)
    (hroom : (corrRun fp (corrEngineNew rules caps) (localCalls evs)).stats .groupsEvicted = 0) :
    (∀ p ci r key, (admittedRules rules)[ci]? = some r →
        (S.node p).slot ci key = if ring.owner r key = p then
          (corrRun fp (corrEngineNew rules caps) (localCalls (evs.take (S.pos p)))).slot ci key
        else none) ∧
      (∀ ci r key, (admittedRules rules)[ci]? = some r →
        ((S.log.map Prod.snd).filter fun x => x.2.group = (ci, key)) =
          (outputsFrom (corrOnEvent fp) (corrEngineNew rules caps) 0
            (evs.take (S.pos (ring.owner r key)))).filter fun x => x.2.group = (ci, key)) ∧
      ((∀ p, S.pos p = evs.length) → (S.log.map Prod.snd).Perm
        (outputsFrom (corrOnEvent fp) (corrEngineNew rules caps) 0 evs)) := by
  have hnew : ∀ p, EnginePart ring p (admittedRules rules) (corrEngineNew rules caps)
      (corrEngineNew rules caps) := fun p => .new rules caps
  have hok : Split.RunsOk (corrOnEvent fp)
      (fun e ev => (corrOnEvent fp e ev).1.stats .groupsEvicted = e.stats .groupsEvicted)
      (corrEngineNew rules caps) evs := by
    intro n ev hev
    have hle := stats_runFrom_le fp (runFrom (corrOnEvent fp) (corrEngineNew rules caps)
      (evs.take (n + 1))) (evs.drop (n + 1)) .groupsEvicted
    have hall : runFrom (corrOnEvent fp) (runFrom (corrOnEvent fp) (corrEngineNew rules caps)
        (evs.take (n + 1))) (evs.drop (n + 1)) =
        corrRun fp (corrEngineNew rules caps) (localCalls evs) := by
      rw [← runFrom_corrOnEvent, runFrom, runFrom, runFrom, ← List.foldl_append, List.take_append_drop]
    rw [hall, hroom, Shards.take_succ_of_getElem? hev, runFrom_concat] at hle
    have hzero := Nat.le_zero.mp hle
    have hmono := stats_corrOnEvent_le fp
      (runFrom (corrOnEvent fp) (corrEngineNew rules caps) (evs.take n)) ev .groupsEvicted
    rw [hzero] at hmono
    exact hzero.trans (Nat.le_zero.mp hmono).symm
  have hsplit := ring.split fp (admittedRules rules)
  refine ⟨fun p ci r key hr => ?_, fun ci r key hr => ?_, fun hdone => ?_⟩
  · rw [(hsplit.sim hnew hok hS p).slot hr, runFrom_corrOnEvent]
  · rw [hsplit.log_of_key hnew hok hS (ci, key), ring.ownerOf_eq hr key]
  · exact hsplit.log_perm hnew hok hS hdone

end Peers

/-- Seven peers. -/
def sevenPeers : PeerRing := ⟨7, by decide, by decide⟩

/-- Peer 3, the owner of user `b`, reads two events before peer 5, the owner of user `a`, reads the
first. -/
def sevenPeersRun : Shards (Fin sevenPeers.nPeers) CorrEngine CorrOutcome :=
  let new : Shards (Fin sevenPeers.nPeers) CorrEngine CorrOutcome :=
    ⟨fun _ => corrEngineNew [burstRule] capsZero, fun _ => 0, []⟩
  ((new.advance (sevenPeers.onEvent .bare) 3 (userEvent 7 0)).advance
    (sevenPeers.onEvent .bare) 3 (otherEvent 7 50)).advance
    (sevenPeers.onEvent .bare) 5 (userEvent 7 0)

theorem ring_refines_engine_sample :
    ((sevenPeersRun.log.map Prod.snd).filter fun x => x.2.group = (0, [cstr "b"])) =
      (outputsFrom (corrOnEvent .bare) (corrEngineNew [burstRule] capsZero) 0
        (([userEvent 7 0, otherEvent 7 50]).take
          (sevenPeersRun.pos (sevenPeers.owner burstRule [cstr "b"])))).filter
        fun x => x.2.group = (0, [cstr "b"]) := by
  have hS : sevenPeers.Reach .bare [burstRule] capsZero
      [userEvent 7 0, otherEvent 7 50] sevenPeersRun :=
    .advance 5 (.advance 3 (.advance 3 .start rfl) rfl) rfl
  exact (ring_refines_engine .bare hS (by decide +kernel)).2.1 0 burstRule [cstr "b"] rfl

end LibSigma
