import LibSigma.Corr.Group

/-!
# The correlation engine

`corr_engine_t` of `classify_corr.c`: the group maps, the rule id index, the periodic sweep,
`corr_on_event_apply` and `corr_on_contribution`.

## Inputs of groups

A call is a local event or the partial of a peer.  What reaches one group of it is a `GroupInput`,
and `groupInput` is all that an engine ever does to a group that exists.  This is where the model
departs from the layout of the source, which has the same steps twice, once in each entry point:
`switch` on the type of the rule, then re-fire suppression, then the fire record.  `settle` is the
part they share.

Between a call and its inputs stands the choice of the group: through the alias row of the rule id
that matched first for an event (`resolveGroup`), through the values it carries for a partial.

## What a call returns

`corr_on_event_apply` writes fires into an array of the caller and returns how many there were.  The
model returns what each correlation it reached decided, also where nothing fired (`CorrOutcome`),
and `corrEmit` makes of this what the array holds, including the group values that fit `grp_scratch`
and the two counters for what did not fit.  So statements about decisions need not speak of arrays.

## What is abstracted

There are no locks here: a call is one step.  `LibSigma.Corr.Workers` takes the calls apart, and
`LibSigma.Corr.Schedules` shows that taken one after the other the parts are these calls.  The
tables are lists of chains with natural numbers for sizes.  The functions with the sizes of the
source, which wrap at 32 bits, are `nextPow2U32` and `corrEngineNew32` in
`LibSigma.Corr.Considered`.
-/

namespace LibSigma

open Library

/-! ## Inputs -/

/-- A local event: the matched rule ids, the field resolver and the time. -/
structure CorrEvent where
  rids : List UInt32
  field : CStr → Option CStr
  ts : ℚ

/-- `corr_contrib_kind_t`. -/
inductive CorrContribKind where
  | event
  | count
  | sum
  | distinct
  | seen
  deriving DecidableEq, Repr

/-- `corr_contrib_kind_for`. -/
def corrContribKindFor : Option CorrType → Option CorrContribKind
  | some .eventCount => some .count
  | some .valueSum | some .valueAvg => some .sum
  | some .valueCount => some .distinct
  | some .temporal => some .seen
  | _ => none

/-- `corr_contrib_t`; the kind is `none` when the stored number is outside the enumeration. -/
structure CorrContrib where
  kind : Option CorrContribKind
  corrId : Option CStr
  rids : List UInt32
  groupVals : List (Option CStr)
  ts : ℚ
  value : Option CStr
  numeric : ℚ
  count : UInt32
  seenMask : UInt64
  deriving DecidableEq

/-- What reaches one group: an event with the base rules it hit and the value field, or a partial
of a peer. -/
inductive GroupInput where
  | event (hitRids : List UInt32) (value : Option CStr) (ts : ℚ)
  | contrib (c : CorrContrib)
  deriving DecidableEq

/-- The time of an input. -/
def GroupInput.ts : GroupInput → ℚ
  | .event _ _ ts => ts
  | .contrib c => c.ts

/-! ## One input on one group -/

/-- The part of a fire that the group decides. -/
structure CorrFired where
  observed : Int
  remote : Bool
  deriving DecidableEq, Repr

/-- What an input does to its group. -/
structure GroupOutcome where
  group : Group
  decided : Bool
  fire : Option CorrFired
  incs : List CorrCounter

/-- The addend of a count; 0 stands for 1. -/
def contribAdd (c : CorrContrib) : UInt32 := if c.count ≠ 0 then c.count else 1

/-- The `switch` of `corr_on_contribution`. -/
def evalContrib (fp : Doubles) (caps : CorrCaps) (r : CorrRule) (g : Group) (c : CorrContrib)
    (windowStart : ℚ) : Evaluated :=
  match c.kind with
  | some .count =>
    let g := evPrune { g with mergeN := g.mergeN + contribAdd c } windowStart
    { fired := r.type == some .eventCount &&
        cmpThreshold (g.evIdx.len + g.mergeN.toNat) r.condOp r.condCount
      group := g
      vagg := 0
      incs := [] }
  | some .sum =>
    let g := evPrune
      { g with
        mergeSum := fp.round (g.mergeSum + c.numeric), mergeN := g.mergeN + contribAdd c } windowStart
    let sum := fp.sum g.mergeSum (evVals g)
    let n : ℕ := (g.evIdx.len + g.mergeN.toNat) % 2 ^ 32
    if r.type = some .valueAvg ∧ n = 0 then { fired := false, group := g, vagg := 0, incs := [] }
    else
      let agg := if r.type = some .valueAvg then fp.round (sum / (n : ℕ)) else sum
      { fired := (r.type == some .valueSum || r.type == some .valueAvg) &&
          condSatisfiedF r.condOp agg (fp.round r.condCount)
        group := g
        vagg := agg
        incs := [] }
  | some .distinct =>
    if r.type = some .valueCount then evalValueCount r g c.value caps.maxDistinct c.ts windowStart
    else { fired := false, group := g, vagg := 0, incs := [] }
  | some .seen =>
    let g := { g with mergeSeen := g.mergeSeen ||| c.seenMask }
    if r.type = some .temporal then evalTemporal r g [] c.ts windowStart
    else { fired := false, group := g, vagg := 0, incs := [] }
  | some .event | none => { fired := false, group := g, vagg := 0, incs := [] }

/-- Re-fire suppression: after a fire the group stays lit for one window. -/
def settle (r : CorrRule) (ts : ℚ) (e : Evaluated) : GroupOutcome :=
  if e.fired = false then ⟨e.group, false, none, e.incs⟩
  else if ts < e.group.firedUntil then ⟨e.group, true, none, e.incs ++ [.firesSuppressed]⟩
  else
    ⟨{ e.group with firedUntil := ts + r.timespanS }, true,
      some ⟨observedVal r e.group e.vagg, e.group.mergeRemote⟩, e.incs⟩

/-- One input on its group. -/
def groupInput (fp : Doubles) (caps : CorrCaps) (r : CorrRule) (g : Group) :
    GroupInput → GroupOutcome
  | .event hitRids value ts =>
    let g := { g with lastUpdate := ts }
    if hitRids = [] then ⟨g, false, none, []⟩
    else settle r ts (evaluate fp caps r g hitRids value ts (ts - r.timespanS))
  | .contrib c =>
    let g := { g with lastUpdate := c.ts, mergeRemote := true }
    settle r c.ts (evalContrib fp caps r g c (c.ts - r.timespanS))

/-! ## One correlation -/

/-- `hash_group_key`. -/
def hashGroupKey (vals : List CStr) : UInt64 :=
  vals.foldl (fun h v =>
    (v.foldl (fun h b => (h ^^^ b.toUInt64) * 1099511628211) h ^^^ 0) * 1099511628211)
    1469598103934665603

/-- `corr_state_t`. -/
structure CorrState where
  rule : CorrRule
  groups : HashLru (List CStr) Group

/-- `cstate_get_or_create`. -/
def cstateGetOrCreate (caps : CorrCaps) (groups : HashLru (List CStr) Group) (vals : List CStr) :
    HashLru (List CStr) Group × Group × List CorrCounter :=
  match groups.get hashGroupKey vals with
  | some g => (groups.touch vals, g, [])
  | none =>
    let full := decide (caps.maxGroups ≤ groups.count) && !groups.lru.isEmpty
    let groups := if full then groups.evict hashGroupKey else groups
    let g := groupNew caps.maxEventsPerGroup
    (groups.insert hashGroupKey vals g, g, if full then [.groupsEvicted] else [])

/-- `cstate_drop_expired`. -/
def cstateDropExpired (st : CorrState) (horizon : ℚ) : CorrState :=
  { st with groups := st.groups.dropWhere hashGroupKey fun g => g.lastUpdate < horizon }

/-- An input for the group of `key`. -/
def cstateInput (fp : Doubles) (caps : CorrCaps) (st : CorrState) (key : List CStr)
    (input : GroupInput) : CorrState × GroupOutcome :=
  let (groups, g, incs) := cstateGetOrCreate caps st.groups key
  let o := groupInput fp caps st.rule g input
  ({ st with groups := groups.set hashGroupKey key o.group }, { o with incs := incs ++ o.incs })

/-- The group-by values of an event, through the fields of the rule id that selected it. -/
def resolveGroup (r : CorrRule) (ev : CorrEvent) (rid : UInt32) : Option (List CStr) :=
  (List.range r.groupBy.length).mapM fun i => ((corrGroupFields r rid).getD i none).bind ev.field

/-- The base rules of a correlation that fired on an event. -/
def hitBuf (r : CorrRule) (rids : List UInt32) : List UInt32 :=
  (r.baseRuleIds.filter (· ∈ rids)).take corrMaxSeenRules

/-- A rule one of whose base rules is hit captures a hit, however many base rules it has. -/
theorem hitBuf_ne_nil {r : CorrRule} {rids : List UInt32} {rid : UInt32} (hrid : rid ∈ rids)
    (hbase : rid ∈ r.baseRuleIds) : hitBuf r rids ≠ [] := by
  have hmem : rid ∈ r.baseRuleIds.filter (· ∈ rids) :=
    List.mem_filter.mpr ⟨hbase, decide_eq_true hrid⟩
  intro hnil
  rw [hitBuf, List.take_eq_nil_iff] at hnil
  rcases hnil with hnil | hnil
  · exact absurd hnil (by decide)
  · exact absurd (hnil ▸ hmem) List.not_mem_nil

/-- The hits the buffer has no room for. -/
def hitIncs (r : CorrRule) (rids : List UInt32) : List CorrCounter :=
  List.replicate ((r.baseRuleIds.filter (· ∈ rids)).length - corrMaxSeenRules) .hitsTruncated

/-- An event as one of its correlations sees it. -/
def CorrEvent.input (r : CorrRule) (ev : CorrEvent) : GroupInput :=
  .event (hitBuf r ev.rids) (r.valueField.bind ev.field) ev.ts

/-! ## Rule id index -/

/-- `rid_watch_t`. -/
structure RidWatch where
  rid : UInt32
  corrIdx : List ℕ

/-- A correlation is indexed once. -/
def RidWatch.add (w : RidWatch) (ci : ℕ) : RidWatch :=
  if ci ∈ w.corrIdx then w else { w with corrIdx := w.corrIdx ++ [ci] }

/-- The chain of a rule id, among `n` chains. -/
def ridSlot (n : ℕ) (rid : UInt32) : ℕ := rid.toNat &&& (n - 1)

/-- `rid_index_add` on one chain. -/
def ridChainAdd (rid : UInt32) (ci : ℕ) (chain : List RidWatch) : List RidWatch :=
  if chain.any fun w => w.rid == rid then
    chain.map fun w => if w.rid = rid then w.add ci else w
  else ⟨rid, [ci]⟩ :: chain

/-- `rid_index_add`. -/
def ridIndexAdd (index : List (List RidWatch)) (rid : UInt32) (ci : ℕ) : List (List RidWatch) :=
  index.modify (ridSlot index.length rid) (ridChainAdd rid ci)

/-- `rid_index_find`, as the correlations that watch the rule id. -/
def ridIndexFind (index : List (List RidWatch)) (rid : UInt32) : List ℕ :=
  (((index.getD (ridSlot index.length rid) []).find? fun w => w.rid == rid).map
    RidWatch.corrIdx).getD []

/-- `next_pow2`, for arguments of 32 bits. -/
def nextPow2 (v : ℕ) : ℕ :=
  if v < 8 then 8
  else
    let v := v - 1
    let v := v ||| v >>> 1
    let v := v ||| v >>> 2
    let v := v ||| v >>> 4
    let v := v ||| v >>> 8
    let v := v ||| v >>> 16
    v + 1

/-- The index of the base rules of correlation `ci`. -/
def ridIndexAddRule (index : List (List RidWatch)) (p : CorrRule × ℕ) : List (List RidWatch) :=
  p.1.baseRuleIds.foldl (fun index rid => ridIndexAdd index rid p.2) index

/-! ## The engine -/

/-- `corr_engine_t`. -/
structure CorrEngine where
  states : List CorrState
  caps : CorrCaps
  lastSweep : ℚ
  sweepSeen : Bool
  ridBuckets : List (List RidWatch)
  stats : CorrCounter → ℕ

/-- `CS_INC`, for each counter of a list. -/
def CorrEngine.inc (e : CorrEngine) (incs : List CorrCounter) : CorrEngine :=
  { e with stats := fun c => e.stats c + incs.count c }

/-- The counters of a rejected rule. -/
def rejectIncs (r : CorrRule) : List CorrCounter :=
  if !r.cond.isEmpty && decide (corrMaxSeenRules < r.baseRuleIds.length) then
    [.condOverArity, .rulesRejected]
  else if ruleValid r then [] else [.rulesRejected]

/-- `corr_engine_new`. -/
def corrEngineNew (rules : List CorrRule) (caps : CorrCaps) : CorrEngine :=
  let admitted := rules.filter CorrRule.admitted
  { states := admitted.map fun r => ⟨r, .empty 16⟩
    caps := caps.withDefaults
    lastSweep := 0
    sweepSeen := false
    ridBuckets := admitted.zipIdx.foldl ridIndexAddRule
      (List.replicate (nextPow2 (admitted.length * 4 + 8)) [])
    stats := fun c => (rules.flatMap rejectIncs).count c }

/-- `sweep_if_due`. -/
def CorrEngine.sweepIfDue (e : CorrEngine) (now : ℚ) : CorrEngine :=
  if e.sweepSeen = false then { e with lastSweep := now, sweepSeen := true }
  else if now - e.lastSweep < e.caps.sweepIntervalS then e
  else
    { e with
      lastSweep := now
      states := e.states.map fun st =>
        if 0 < st.rule.timespanS then cstateDropExpired st (now - st.rule.timespanS) else st }

/-- What a correlation did with a call: the group it chose, its decision and its fire. -/
structure CorrOutcome where
  corr : ℕ
  key : List CStr
  decided : Bool
  fire : Option CorrFired

/-- The state of the loop of `corr_on_event_apply`. -/
structure VisitState where
  states : List CorrState
  visited : List ℕ
  outcomes : List CorrOutcome
  incs : List CorrCounter

/-- One entry of the index: correlation `ci` watches the rule id. -/
def visitStep (fp : Doubles) (caps : CorrCaps) (ev : CorrEvent)
    (apply : Option (CorrRule → List CStr → Bool)) (acc : VisitState) (p : UInt32 × ℕ) :
    VisitState :=
  if p.2 ∈ acc.visited then acc
  else
    let acc := { acc with visited := p.2 :: acc.visited }
    match acc.states[p.2]? with
    | none => acc
    | some st =>
      match resolveGroup st.rule ev p.1 with
      | none => { acc with incs := acc.incs ++ [.eventSkippedMissingField] }
      | some key =>
        if apply.all fun f => f st.rule key then
          let (st', o) := cstateInput fp caps st key (ev.input st.rule)
          { acc with
            states := acc.states.set p.2 st'
            outcomes := acc.outcomes ++ [⟨p.2, key, o.decided, o.fire⟩]
            incs := acc.incs ++ hitIncs st.rule ev.rids ++ o.incs }
        else acc

/-- `corr_on_event_apply`; `corr_on_event` passes no `apply`. -/
def corrOnEventApply (fp : Doubles) (e : CorrEngine) (ev : CorrEvent)
    (apply : Option (CorrRule → List CStr → Bool)) : CorrEngine × List CorrOutcome :=
  if e.states.length = 0 ∨ ev.rids.length = 0 then (e, [])
  else
    let e := e.sweepIfDue ev.ts
    let acc := (ev.rids.flatMap fun rid => (ridIndexFind e.ridBuckets rid).map (rid, ·)).foldl
      (visitStep fp e.caps ev apply) ⟨e.states, [], [], []⟩
    ({ e with states := acc.states }.inc acc.incs, acc.outcomes)

/-- `corr_on_event`. -/
def corrOnEvent (fp : Doubles) (e : CorrEngine) (ev : CorrEvent) :
    CorrEngine × List CorrOutcome :=
  corrOnEventApply fp e ev none

/-- `corr_on_contribution`; `field` is the resolver of a contribution that carries an event. -/
def corrOnContribution (fp : Doubles) (e : CorrEngine) (c : CorrContrib)
    (field : CStr → Option CStr) : CorrEngine × List CorrOutcome :=
  if c.kind = some .event then corrOnEvent fp e ⟨c.rids, field, c.ts⟩
  else
    match c.corrId with
    | none | some [] => (e, [])
    | some id =>
      let e := e.sweepIfDue c.ts
      match e.states.findIdx? fun st => st.rule.id == some id with
      | none => (e, [])
      | some ci =>
        match e.states[ci]? with
        | none => (e, [])
        | some st =>
          if c.groupVals.length ≠ st.rule.groupBy.length then
            (e.inc [.eventSkippedMissingField], [])
          else
            match c.groupVals.mapM (fun v => v) with
            | none => (e.inc [.eventSkippedMissingField], [])
            | some key =>
              let (st', o) := cstateInput fp e.caps st key (.contrib c)
              ({ e with states := e.states.set ci st' }.inc o.incs, [⟨ci, key, o.decided, o.fire⟩])

/-! ## Activations -/

/-- `corr_fire_t`. -/
structure CorrFire where
  ruleId : Option CStr
  title : Option CStr
  type : Option CorrType
  technique : Option CStr
  level : CStr
  tier : CorrTier
  fidelityWeight : ℚ
  groupBy : List (Option CStr)
  group : Option (List CStr)
  observed : Int
  threshold : Int
  valueField : Option CStr
  baseRuleIds : List UInt32
  remote : Bool

/-- The record of a fire, with the group values when there was room for them. -/
def corrFire (r : CorrRule) (group : Option (List CStr)) (f : CorrFired) : CorrFire where
  ruleId := r.id
  title := r.title
  type := r.type
  technique := r.mitre
  level := r.level.getD (cstr "medium")
  tier := corrTierFor r.type r.level
  fidelityWeight := corrTierWeight (corrTierFor r.type r.level)
  groupBy := r.groupBy
  group := group
  observed := f.observed
  threshold := r.condCount
  valueField := if r.type.any CorrType.needsValueField then r.valueField else none
  baseRuleIds := r.baseRuleIds
  remote := f.remote

/-- The caller's arrays: room for `maxOut` records and, unless it is `NULL`, for some group values. -/
structure CorrSink where
  maxOut : ℕ
  grpScratch : Option ℕ

/-- What is written to them: the count of fires, the records, the group values used, and what is
counted as having no room. -/
structure CorrWritten where
  firedCount : ℕ
  out : List CorrFire
  scratchUsed : ℕ
  incs : List CorrSinkCounter

/-- One fire: counted, and written if there is room. -/
def emitStep (sink : CorrSink) (r : CorrRule) (key : List CStr) (f : CorrFired)
    (w : CorrWritten) : CorrWritten :=
  if sink.maxOut ≤ w.firedCount then
    { w with firedCount := w.firedCount + 1, incs := w.incs ++ [.firesTruncated] }
  else
    let n := r.groupBy.length
    if 0 < n ∧ sink.grpScratch.any (fun cap => w.scratchUsed + n ≤ cap) = true then
      { w with
        firedCount := w.firedCount + 1
        out := w.out ++ [corrFire r (some key) f]
        scratchUsed := w.scratchUsed + n }
    else
      { w with
        firedCount := w.firedCount + 1
        out := w.out ++ [corrFire r none f]
        incs := w.incs ++ if 0 < n then [.groupEvidenceDropped] else [] }

/-- What the fires of a call leave in the caller's arrays. -/
def corrEmit (sink : CorrSink) (rules : List CorrRule) (outcomes : List CorrOutcome) : CorrWritten :=
  outcomes.foldl (fun w o =>
    match rules[o.corr]?, o.fire with
    | some r, some f => emitStep sink r o.key f w
    | _, _ => w) ⟨0, [], 0, []⟩

end LibSigma
