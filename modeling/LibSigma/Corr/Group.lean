import Mathlib.Data.List.DropRight
import Mathlib.Data.List.Sort
import LibSigma.Corr.Doubles
import LibSigma.Library.HashLru
import LibSigma.Library.Ring
import LibSigma.Library.StableSort

/-!
# Group state and the per-type window logic

The `group` struct of `classify_corr.c` and the functions that evaluate one event on it.  Each
evaluator returns the decision, the new group, the aggregate of the fire record and the counters it
increments.  Allocation succeeds.

This is a translation, and it is not meant to be pleasant.  What the evaluators decide is said in a
module for each family of rules, in terms of the events of a window: `LibSigma.Corr.EventCount`,
`LibSigma.Corr.Distinct`, `LibSigma.Corr.Aggregate`, `LibSigma.Corr.Temporal`,
`LibSigma.Corr.Ordered`, `LibSigma.Corr.Beacon`.

## The ring

`ev_ts` and `ev_val` are two arrays with one pair of indices.  The model keeps them apart as the
source does: a `RingIdx` for the indices, and a function from slots to contents for each array.
What the ring holds is `RingIdx.read`, a list, and the operations on the ring are operations on that
list (`LibSigma.Library.Ring`).  Slots outside the list keep what was written there last, as they do
in the program, and no statement depends on them.

## The distinct values

`dset_t` is a hash table with a recency list.  Here it is a `HashLru`, with lists for chains; the
linked table of the program is `LruTable`, and `LibSigma.Corr.Linked` shows that a run of the engine
makes the same of both.

## Order matters in the source

Some functions read what others have just written: a value is pushed before the window is pruned, a
condition is evaluated on the mask that includes the present hits, the watermark buffer is flushed
after the insertions.  The definitions below keep these orders, because several of the results are
about what goes wrong with them.
-/

namespace LibSigma

open Library

/-! ## State -/

/-- `beacon_bucket_t`. -/
structure BeaconBucket where
  epoch : ℕ
  count : ℕ
  deriving DecidableEq

/-- `struct group`.  The arrays `ev_ts` and `ev_val` share the indices `evIdx`; `evVal` and
`bbuckets` are `none` until they are allocated. -/
structure Group where
  evTs : ℕ → ℚ
  evVal : Option (ℕ → ℚ)
  evIdx : RingIdx
  bbuckets : Option (List BeaconBucket)
  distinct : HashLru CStr ℚ
  seen : List (UInt32 × ℚ)
  orderedProgress : ℕ
  orderedAnchorTs : ℚ
  orderedLastTs : ℚ
  lastUpdate : ℚ
  firedUntil : ℚ
  mergeSum : ℚ
  mergeN : UInt32
  mergeSeen : UInt64
  mergeRemote : Bool
  wm : List (ℚ × UInt32)
  wmMaxTs : ℚ

/-- `group_new`. -/
def groupNew (evCap : ℕ) : Group where
  evTs := fun _ => 0
  evVal := none
  evIdx := .empty (if evCap = 0 then 1 else evCap) (by split <;> omega)
  bbuckets := none
  distinct := .empty 16
  seen := []
  orderedProgress := 0
  orderedAnchorTs := 0
  orderedLastTs := 0
  lastUpdate := 0
  firedUntil := 0
  mergeSum := 0
  mergeN := 0
  mergeSeen := 0
  mergeRemote := false
  wm := []
  wmMaxTs := 0

/-- What an evaluator returns. -/
structure Evaluated where
  fired : Bool
  group : Group
  vagg : ℚ
  incs : List CorrCounter

/-! ## Comparisons -/

/-- `cmp_threshold`. -/
def cmpThreshold (observed : Int) (op : Option CorrOp) (n : Int) : Bool :=
  match op with
  | some .gte => n ≤ observed
  | some .gt => n < observed
  | some .lte => observed ≤ n
  | some .lt => observed < n
  | some .eq => observed = n
  | none => n ≤ observed

/-- `cond_satisfied_f`. -/
def condSatisfiedF (op : Option CorrOp) (val thr : ℚ) : Bool :=
  match op with
  | some .gte => thr ≤ val
  | some .gt => thr < val
  | some .lte => val ≤ thr
  | some .lt => val < thr
  | some .eq => val = thr
  | none => thr ≤ val

/-! ## Event ring -/

/-- `fnv1a`. -/
def fnv1a (data : CStr) : UInt64 :=
  data.foldl (fun h b => (h ^^^ b.toUInt64) * 1099511628211) 1469598103934665603

/-- `ev_prune`. -/
def evPrune (g : Group) (windowStart : ℚ) : Group :=
  { g with evIdx := g.evIdx.popWhile g.evTs fun t => t < windowStart }

/-- Appending `now` to the ring, over the oldest entry when the ring is full. -/
def evAppend (g : Group) (now : ℚ) : Group :=
  { g with evTs := Function.update g.evTs g.evIdx.pushSlot now, evIdx := g.evIdx.push }

/-- The counters of an append; `hot` is whether the caller looks for hot keys. -/
def evAppendIncs (g : Group) (now windowStart : ℚ) (hot : Bool) : List CorrCounter :=
  if g.evIdx.len = g.evIdx.cap then
    .eventsOverwritten ::
      if hot ∧ windowStart + (now - windowStart) * (1 / 2) < g.evTs g.evIdx.head then
        [.hotkeyFallback]
      else []
  else []

/-- `eval_event_count`. -/
def evalEventCount (r : CorrRule) (g : Group) (now windowStart : ℚ) : Evaluated :=
  let g' := evPrune (evAppend g now) windowStart
  { fired := cmpThreshold (g'.evIdx.len + g'.mergeN.toNat) r.condOp r.condCount
    group := g'
    vagg := 0
    incs := evAppendIncs g now windowStart true }

/-! ## Distinct values -/

/-- `dset_observe`. -/
def dsetObserve (d : HashLru CStr ℚ) (val : CStr) (ts windowStart : ℚ) (maxDistinct : ℕ) :
    HashLru CStr ℚ × List CorrCounter :=
  let d := d.dropWhere fnv1a fun t => t < windowStart
  match d.get fnv1a val with
  | some _ => ((d.set fnv1a val ts).touch val, [])
  | none =>
    if maxDistinct ≤ d.count then
      ((d.evict fnv1a).insert fnv1a val ts, if d.lru.isEmpty then [] else [.distinctEvicted])
    else (d.insert fnv1a val ts, [])

/-- `eval_value_count`. -/
def evalValueCount (r : CorrRule) (g : Group) (valueVal : Option CStr) (maxDistinct : ℕ)
    (now windowStart : ℚ) : Evaluated :=
  match valueVal with
  | none => { fired := false, group := g, vagg := 0, incs := [] }
  | some val =>
    let (d, incs) := dsetObserve g.distinct val now windowStart maxDistinct
    { fired := cmpThreshold d.count r.condOp r.condCount
      group := { g with distinct := d }
      vagg := 0
      incs := incs }

/-! ## Aggregates -/

/-- `sg_to_f64`. -/
def sgToF64 (fp : Doubles) (s : CStr) : Option ℚ := if s = [] then none else fp.strtod s

/-- `ev_push_val`. -/
def evPushVal (g : Group) (now val windowStart : ℚ) : Group :=
  let vals := g.evVal.getD fun _ => 0
  evPrune (evAppend { g with evVal := some (Function.update vals g.evIdx.pushSlot val) } now)
    windowStart

/-- The window after an event with the given value: a value that is no number only ages it. -/
def evObserve (fp : Doubles) (g : Group) (valueVal : Option CStr)
    (now windowStart : ℚ) : Group × List CorrCounter :=
  match valueVal.bind (sgToF64 fp) with
  | some v => (evPushVal g now v windowStart, evAppendIncs g now windowStart true)
  | none => (evPrune g windowStart, [.valuesNonnumeric])

/-- The live values. -/
def evVals (g : Group) : List ℚ :=
  match g.evVal with
  | none => []
  | some vals => g.evIdx.read vals

/-- `eval_value_sum_avg`. -/
def evalValueSumAvg (fp : Doubles) (r : CorrRule) (g : Group)
    (valueVal : Option CStr) (isAvg : Bool) (now windowStart : ℚ) : Evaluated :=
  let (g', incs) := evObserve fp g valueVal now windowStart
  let sum := fp.sum g'.mergeSum (evVals g')
  let n : ℕ := (g'.evIdx.len + g'.mergeN.toNat) % 2 ^ 32
  if isAvg ∧ n = 0 then { fired := false, group := g', vagg := 0, incs := incs }
  else
    let agg := if isAvg then fp.round (sum / (n : ℕ)) else sum
    { fired := condSatisfiedF r.condOp agg (fp.round r.condCount)
      group := g'
      vagg := agg
      incs := incs }

/-- The percentile a rule asks for. -/
def percentileOf (r : CorrRule) : ℕ :=
  let p := if r.type = some .valueMedian then 50 else r.valuePercentile
  let p := if p ≤ 0 then 95 else p
  (if 100 < p then 100 else p).toNat

/-- `eval_value_percentile`; `scratchCap` is the size of the engine's scratch array. -/
def evalValuePercentile (fp : Doubles) (r : CorrRule) (g : Group)
    (valueVal : Option CStr) (scratchCap : ℕ) (now windowStart : ℚ) : Evaluated :=
  let (g', incs) := evObserve fp g valueVal now windowStart
  let n := g'.evIdx.len
  if n = 0 ∨ g'.evVal.isNone ∨ scratchCap < n then
    { fired := false, group := g', vagg := 0, incs := incs }
  else
    let scratch := (evVals g').insertionSort fun a b => a ≤ b
    let idx := (percentileOf r * n + 99) / 100
    let idx := (if idx = 0 then 1 else idx) - 1
    let idx := if n ≤ idx then n - 1 else idx
    let agg := scratch.getD idx 0
    { fired := condSatisfiedF r.condOp agg (fp.round r.condCount)
      group := g'
      vagg := agg
      incs := incs }

/-! ## Beaconing -/

/-- The gaps between consecutive numbers. -/
def gaps (ts : List ℚ) : List ℚ := List.zipWith (fun prev t => t - prev) ts ts.tail

/-- Whether the gaps are regular: their variance is at most the square of the tolerated part of
their mean. -/
def gapsRegular (fp : Doubles) (r : CorrRule) (gs : List ℚ) : Bool :=
  let mean := fp.mean gs
  let tol := fp.round (r.beaconCvPermille / 1000)
  let bound := fp.round (tol * mean)
  !gs.isEmpty && decide (0 < mean) && decide (fp.variance gs ≤ fp.round (bound * bound))

/-- `eval_beaconing_raw`. -/
def evalBeaconingRaw (fp : Doubles) (r : CorrRule) (g : Group) (now windowStart : ℚ) : Evaluated :=
  let g' := evPrune (evAppend g now) windowStart
  let ts := g'.evIdx.read g'.evTs
  { fired := !(decide ((ts.length : Int) < r.condCount) || decide (ts.length < 3)) &&
      gapsRegular fp r ((gaps ts).map fp.round)
    group := g'
    vagg := 0
    incs := evAppendIncs g now windowStart false }

/-- The bucket of an epoch. -/
def bucketAt (bb : List BeaconBucket) (nb e : ℕ) : BeaconBucket := bb.getD (e % nb) ⟨0, 0⟩

/-- Whether an epoch is active: its bucket holds it and counted an event. -/
def epochActive (bb : List BeaconBucket) (nb e : ℕ) : Bool :=
  (bucketAt bb nb e).epoch == e && decide (0 < (bucketAt bb nb e).count)

/-- The epochs of the window the two passes find active. -/
def activeEpochs (bb : List BeaconBucket) (nb nowE : ℕ) : List ℕ :=
  let winStart := if nb - 1 ≤ nowE then nowE - (nb - 1) else 0
  (List.range' winStart (nowE - winStart + 1)).filter (epochActive bb nb)

/-- The passes visit the epochs of the window. -/
theorem activeEpochs_eq {bb : List BeaconBucket} {nb nowE : ℕ} {p : ℕ → Bool} (hnb : 0 < nb)
    (h : ∀ e, e ≤ nowE → nowE < e + nb → epochActive bb nb e = p e) :
    activeEpochs bb nb nowE =
      (List.range (nowE + 1)).filter fun e => decide (nowE < e + nb) && p e := by
  have hstart : (if nb - 1 ≤ nowE then nowE - (nb - 1) else 0) = nowE - (nb - 1) := by
    split <;> omega
  have hrange : List.range (nowE + 1) = List.range' 0 (nowE - (nb - 1)) ++
      List.range' (nowE - (nb - 1)) (nowE - (nowE - (nb - 1)) + 1) := by
    have happend := List.range'_append_1 (s := 0) (m := nowE - (nb - 1))
      (n := nowE - (nowE - (nb - 1)) + 1)
    rw [Nat.zero_add] at happend
    rw [List.range_eq_range', happend]
    congr 1
    omega
  unfold activeEpochs
  rw [hstart, hrange, List.filter_append]
  have hearly : (List.range' 0 (nowE - (nb - 1))).filter
      (fun e => decide (nowE < e + nb) && p e) = [] := by
    refine List.filter_eq_nil_iff.mpr fun e he => ?_
    rw [List.mem_range'_1] at he
    rw [decide_eq_false (by omega), Bool.false_and]
    decide
  rw [hearly, List.nil_append]
  refine List.filter_congr fun e he => ?_
  rw [List.mem_range'_1] at he
  rw [h e (by omega) (by omega), decide_eq_true (by omega), Bool.true_and]

/-- Counting an event in the bucket of its epoch. -/
def bucketBump (bb : List BeaconBucket) (nb nowE : ℕ) : List BeaconBucket :=
  let count := if (bucketAt bb nb nowE).epoch = nowE then (bucketAt bb nb nowE).count else 0
  bb.set (nowE % nb) ⟨nowE, if count < 2 ^ 32 - 1 then count + 1 else count⟩

/-- `eval_beaconing_bucketed`. -/
def evalBeaconingBucketed (fp : Doubles) (r : CorrRule) (g : Group) (now : ℚ) : Evaluated :=
  let nb := r.beaconNBuckets.toNat
  let bb := g.bbuckets.getD (List.replicate nb ⟨0, 0⟩)
  let bucketSecs := fp.round (r.timespanS / nb)
  if bucketSecs ≤ 0 ∨ now < 0 then
    { fired := false, group := { g with bbuckets := some bb }, vagg := 0, incs := [] }
  else
    let nowE := (fp.round (now / bucketSecs)).floor.toNat
    let bb' := bucketBump bb nb nowE
    let es := activeEpochs bb' nb nowE
    let span := es.getLastD 0 - es.headD 0 + 1
    { fired := !(decide ((es.length : Int) < r.condCount) || decide (es.length < 3)) &&
        !decide (es.length * 1000 < 700 * span) &&
        gapsRegular fp r (gaps (es.map Nat.cast))
      group := { g with bbuckets := some bb' }
      vagg := 0
      incs := [] }

/-- `eval_beaconing`. -/
def evalBeaconing (fp : Doubles) (r : CorrRule) (g : Group) (now windowStart : ℚ) : Evaluated :=
  if 0 < r.beaconNBuckets then evalBeaconingBucketed fp r g now
  else evalBeaconingRaw fp r g now windowStart

/-! ## Seen rules -/

/-- The entry of a rule id is refreshed. -/
def seenRefresh (rid : UInt32) (now : ℚ) : List (UInt32 × ℚ) → List (UInt32 × ℚ)
  | [] => []
  | (k, t) :: seen => if k = rid then (k, now) :: seen else (k, t) :: seenRefresh rid now seen

/-- One hit: its entry is refreshed, or added if there is room. -/
def seenRecord (now : ℚ) (acc : List (UInt32 × ℚ) × List CorrCounter) (rid : UInt32) :
    List (UInt32 × ℚ) × List CorrCounter :=
  if acc.1.any fun e => e.1 == rid then (seenRefresh rid now acc.1, acc.2)
  else if acc.1.length < corrMaxSeenRules then (acc.1 ++ [(rid, now)], acc.2)
  else (acc.1, acc.2 ++ [.seenTruncated])

/-- `temporal_record_seen`. -/
def temporalRecordSeen (g : Group) (hitRids : List UInt32) (now windowStart : ℚ) :
    Group × List CorrCounter :=
  let (seen, incs) := hitRids.foldl (seenRecord now) (g.seen, [])
  ({ g with seen := seen.filter fun e => windowStart ≤ e.2 }, incs)

/-- One token of `corr_cond_eval`; `none` is an early `return 0`. -/
def corrCondStep (seenMask : UInt64) (stack : List Bool) (c : CorrCtok) : Option (List Bool) :=
  if c.kind = corrCSel then
    if corrCondStackMax ≤ stack.length ∨ 64 ≤ c.ridIdx then none
    else some (((seenMask >>> c.ridIdx.toUInt64) &&& 1 != 0) :: stack)
  else if c.kind = corrCNot then
    match stack with
    | a :: stack => some ((!a) :: stack)
    | [] => none
  else if c.kind = corrCAnd then
    match stack with
    | b :: a :: stack => some ((a && b) :: stack)
    | _ => none
  else if c.kind = corrCOr then
    match stack with
    | b :: a :: stack => some ((a || b) :: stack)
    | _ => none
  else none

/-- `corr_cond_eval`. -/
def corrCondEval (cond : List CorrCtok) (seenMask : UInt64) : Bool :=
  match cond.foldlM (corrCondStep seenMask) [] with
  | some [a] => a
  | _ => false

/-- `corr_seen_mask`. -/
def corrSeenMask (r : CorrRule) (g : Group) : UInt64 :=
  (r.baseRuleIds.take 64).zipIdx.foldl (fun mask (want, i) =>
    if g.seen.any fun e => e.1 == want then mask ||| (1 <<< UInt64.ofNat i) else mask) g.mergeSeen

/-- `eval_temporal`. -/
def evalTemporal (r : CorrRule) (g : Group) (hitRids : List UInt32) (now windowStart : ℚ) :
    Evaluated :=
  let (g', incs) := temporalRecordSeen g hitRids now windowStart
  let mask := corrSeenMask r g'
  { fired :=
      if r.cond.isEmpty then
        (List.range (min r.baseRuleIds.length 64)).all fun i =>
          mask &&& (1 <<< UInt64.ofNat i) != 0
      else corrCondEval r.cond mask
    group := g'
    vagg := 0
    incs := incs }

/-! ## Ordered sequences -/

/-- The progress of an ordered sequence: steps taken, time of the first and of the last. -/
structure Ordered where
  progress : ℕ
  anchorTs : ℚ
  lastTs : ℚ
  deriving DecidableEq

/-- The loop of `eval_temporal_ordered`, over the steps still expected. -/
def orderedAdvance (hitRids : List UInt32) (now : ℚ) (eventTime : Bool) :
    List UInt32 → Ordered → Ordered
  | [], o => o
  | expected :: rest, o =>
    if expected ∈ hitRids then
      if o.progress = 0 then orderedAdvance hitRids now eventTime rest ⟨1, now, now⟩
      else if !eventTime || decide (o.lastTs ≤ now) then
        orderedAdvance hitRids now eventTime rest ⟨o.progress + 1, o.anchorTs, now⟩
      else o
    else o

/-- The steps a rule requires, in order. -/
def CorrRule.order (r : CorrRule) : List UInt32 :=
  if r.orderedRuleIds.isEmpty then r.baseRuleIds else r.orderedRuleIds

/-- `eval_temporal_ordered` on the progress: the decision and the new progress. -/
def orderedStep (order : List UInt32) (hitRids : List UInt32) (now windowStart : ℚ)
    (eventTime : Bool) (o : Ordered) : Bool × Ordered :=
  if order.length = 0 then (false, o)
  else
    let o := if 0 < o.progress ∧ o.anchorTs < windowStart then ⟨0, 0, 0⟩ else o
    let o := orderedAdvance hitRids now eventTime (order.drop o.progress) o
    if order.length ≤ o.progress then (true, ⟨0, 0, 0⟩) else (false, o)

/-- The progress stored in a group. -/
def Group.ordered (g : Group) : Ordered := ⟨g.orderedProgress, g.orderedAnchorTs, g.orderedLastTs⟩

def Group.setOrdered (g : Group) (o : Ordered) : Group :=
  { g with orderedProgress := o.progress, orderedAnchorTs := o.anchorTs, orderedLastTs := o.lastTs }

/-- `eval_temporal_ordered`. -/
def evalTemporalOrdered (r : CorrRule) (g : Group) (hitRids : List UInt32)
    (now windowStart : ℚ) (eventTime : Bool) : Bool × Group :=
  let (fired, o) := orderedStep r.order hitRids now windowStart eventTime g.ordered
  (fired, g.setOrdered o)

/-- The pending item the full buffer drops: the first of the oldest, replaced by the last item. -/
def wmDropOldest (wm : List (ℚ × UInt32)) : List (ℚ × UInt32) :=
  match wm.getLast? with
  | none => wm
  | some last =>
    let minI := wm.findIdx fun e => wm.all fun e' => decide (e.1 ≤ e'.1)
    (wm.set minI last).dropLast

/-- `wm_insert`. -/
def wmInsert (ts : ℚ) (acc : Group × List CorrCounter) (rid : UInt32) :
    Group × List CorrCounter :=
  let g := acc.1
  let full := decide (corrWmCap ≤ g.wm.length)
  let wm := if full then wmDropOldest g.wm else g.wm
  let wm := wm.rdropWhile (fun e => ts < e.1) ++ [(ts, rid)] ++ wm.rtakeWhile (fun e => ts < e.1)
  ({ g with wm := wm, wmMaxTs := if g.wmMaxTs < ts then ts else g.wmMaxTs },
    if full then acc.2 ++ [.watermarkLate] else acc.2)

/-- An insertion makes room in a full buffer, and puts the item behind the others of its time. -/
theorem wm_wmInsert (ts : ℚ) (acc : Group × List CorrCounter) (rid : UInt32) :
    (wmInsert ts acc rid).1.wm =
      insertLast Prod.fst (ts, rid)
        (if corrWmCap ≤ acc.1.wm.length then wmDropOldest acc.1.wm else acc.1.wm) := by
  simp only [wmInsert, insertLast, decide_eq_true_eq]

/-- One item of the flush: replayed if the high-water mark has passed it, kept otherwise. -/
def wmFlush (r : CorrRule) (windowStart cutoff : ℚ) (acc : Bool × Group × List (ℚ × UInt32))
    (item : ℚ × UInt32) : Bool × Group × List (ℚ × UInt32) :=
  if item.1 ≤ cutoff then
    let (fired, g) := evalTemporalOrdered r acc.2.1 [item.2] item.1 windowStart true
    (acc.1 || fired, g, acc.2.2)
  else (acc.1, acc.2.1, acc.2.2 ++ [item])

/-- `eval_temporal_ordered_wm`. -/
def evalTemporalOrderedWm (r : CorrRule) (g : Group) (hitRids : List UInt32)
    (now windowStart watermarkS : ℚ) : Bool × Group × List CorrCounter :=
  if 0 < g.wmMaxTs ∧ now + watermarkS < g.wmMaxTs then
    let (fired, g) := evalTemporalOrdered r g hitRids now windowStart true
    (fired, g, [.watermarkLate])
  else
    let (g, incs) := hitRids.foldl (wmInsert now) (g, [])
    let g := { g with wmMaxTs := if g.wmMaxTs < now then now else g.wmMaxTs }
    let (fired, g, kept) :=
      g.wm.foldl (wmFlush r windowStart (g.wmMaxTs - watermarkS)) (false, g, [])
    (fired, { g with wm := kept }, incs)

/-- The `CORR_TEMPORAL_ORDERED` case of the evaluation: a condition gates the completed sequence. -/
def evalOrderedCase (caps : CorrCaps) (r : CorrRule) (g : Group) (hitRids : List UInt32)
    (now windowStart : ℚ) : Evaluated :=
  let (g, incs) := if r.cond.isEmpty then (g, []) else temporalRecordSeen g hitRids now windowStart
  let (fired, g, incs) :=
    if 0 < caps.watermarkS ∧ caps.eventTimeOrdering then
      let (fired, g, incs') := evalTemporalOrderedWm r g hitRids now windowStart caps.watermarkS
      (fired, g, incs ++ incs')
    else
      let (fired, g) := evalTemporalOrdered r g hitRids now windowStart caps.eventTimeOrdering
      (fired, g, incs)
  { fired := fired && (r.cond.isEmpty || corrCondEval r.cond (corrSeenMask r g))
    group := g
    vagg := 0
    incs := incs }

/-! ## Dispatch -/

/-- The `switch` of `corr_on_event_apply`; the scratch array has the size of the event ring. -/
def evaluate (fp : Doubles) (caps : CorrCaps) (r : CorrRule) (g : Group)
    (hitRids : List UInt32) (valueVal : Option CStr) (now windowStart : ℚ) : Evaluated :=
  match r.type with
  | some .eventCount => evalEventCount r g now windowStart
  | some .valueCount => evalValueCount r g valueVal caps.maxDistinct now windowStart
  | some .valueSum => evalValueSumAvg fp r g valueVal false now windowStart
  | some .valueAvg => evalValueSumAvg fp r g valueVal true now windowStart
  | some .valuePercentile | some .valueMedian =>
    evalValuePercentile fp r g valueVal caps.maxEventsPerGroup now windowStart
  | some .temporal => evalTemporal r g hitRids now windowStart
  | some .temporalOrdered => evalOrderedCase caps r g hitRids now windowStart
  | some .beaconing => evalBeaconing fp r g now windowStart
  | none => { fired := false, group := g, vagg := 0, incs := [] }

/-- Truncation toward zero. -/
def truncQ (q : ℚ) : Int := if q < 0 then q.ceil else q.floor

/-- The observed count of a fire. -/
def observedVal (r : CorrRule) (g : Group) (vagg : ℚ) : Int :=
  match r.type with
  | some .valueCount => g.distinct.count
  | some .valueSum | some .valueAvg | some .valuePercentile | some .valueMedian => truncQ vagg
  | some .eventCount => g.evIdx.len + g.mergeN.toNat
  | some .beaconing => g.evIdx.len
  | _ => r.baseRuleIds.length

end LibSigma
