import Mathlib.Tactic.FinCases
import Mathlib.Tactic.Linarith
import Mathlib.Tactic.NormNum
import LibSigma.Corr.Local

/-!
# event_count

The ring of a group holds the times of its last events, and its length after an event is the number
of those in the window.

## What a ring knows

The ring is bounded, so it forgets the oldest times; and it is pruned when an event comes and not
when time passes, so it may hold expired ones.  What it holds is therefore not a function of the
window.  `Covers` says what can be said at every moment: up to expired entries, the ring is what was
pushed last.  An append keeps this because what it overwrites is older than all that stays, a prune
because it takes expired entries only, and after the prune that belongs to an event the two agree
(`Life.window`).

The same argument is needed for the ring of values and for a rule that appends nothing but ages the
ring.  So the statements are about a queue of any entries with times (`CoversOn`), and about any
list that a group keeps in its ring (`Queued`).

## Where the rule is not exact

A decision fires unless the group is still lit from its last fire, which is when the present time is
before `fired_until`.  A new group has `fired_until = 0`.  Times are not bounded below, so an event
before time zero finds a group lit that has never fired.  `eventCount_exact_iff` says that this is
all that goes wrong.

* `Life.window`: **the window of a group is the window of its last events.**
* `eventCount_exact_iff`: **event_count is exact unless it would fire before time zero**, where the
  deadline of a group that has not fired yet suppresses it.
-/

namespace LibSigma

open Library

/-! ## The ring

Three operations act on the ring: an append, a prune by age, and the overwriting of the oldest
entry.  `CoversOn` is the invariant for any queue with these: up to entries that have expired, the
queue is what was pushed last.  It is stated for any kind of entries, as the rings with values are
the same. -/

/-- The live times of a group, oldest first. -/
def Group.times (g : Group) : List ℚ := g.evIdx.read g.evTs

/-- Whether a time is before `ws`. -/
def before (ws t : ℚ) : Bool := decide (t < ws)

theorem before_mono {ws ws' : ℚ} (h : ws ≤ ws') (t : ℚ) (ht : before ws t = true) :
    before ws' t = true := decide_eq_true (lt_of_lt_of_le (of_decide_eq_true ht) h)

@[simp] theorem times_evPrune (g : Group) (ws : ℚ) :
    (evPrune g ws).times = g.times.dropWhile (before ws) := RingIdx.read_popWhile _ _ _

@[simp] theorem times_evAppend (g : Group) (now : ℚ) :
    (evAppend g now).times = pushCap g.evIdx.cap g.times now := RingIdx.read_push_eq_pushCap _ _ _

@[simp] theorem length_times (g : Group) : g.times.length = g.evIdx.len := RingIdx.length_read _ _

theorem length_times_le (g : Group) : g.times.length ≤ g.evIdx.cap := by
  rw [length_times]
  exact g.evIdx.len_le

/-- A ring in which, up to expired entries, `ts` is what was pushed last. -/
def Covers (cap : ℕ) (live ts : List ℚ) (from' : ℚ) : Prop :=
  ∀ ws, from' ≤ ws → live.dropWhile (before ws) = (ts.rtake cap).dropWhile (before ws)

/-- A queue in which, up to expired entries, `xs` is what was pushed last. -/
def CoversOn {α : Type} (time : α → ℚ) (cap : ℕ) (live xs : List α) (from' : ℚ) : Prop :=
  ∀ ws, from' ≤ ws → (live.dropWhile fun x => before ws (time x)) =
    (xs.rtake cap).dropWhile fun x => before ws (time x)

section CoversOn

variable {α : Type} {time : α → ℚ} {cap : ℕ} {live xs : List α} {from' ws : ℚ}

/-- **One append**: what was in the window of the last entries stays there. -/
theorem CoversOn.push (h : CoversOn time cap live xs from') (hcap : 0 < cap)
    (hlen : live.length ≤ cap) (x : α) :
    CoversOn time cap (pushCap cap live x) (xs ++ [x]) from' := by
  intro ws hws
  have hlen' : (xs.rtake cap).length ≤ cap := by
    rw [length_rtake]
    exact Nat.min_le_left _ _
  rw [dropWhile_pushCap hlen, h ws hws, ← dropWhile_pushCap hlen', ← rtake_concat hcap]

/-- **One prune** takes expired entries only. -/
theorem CoversOn.prune (h : CoversOn time cap live xs from') (hle : ws ≤ from') :
    CoversOn time cap (live.dropWhile fun x => before ws (time x)) xs from' := by
  intro ws' hws'
  rw [dropWhile_dropWhile_of_imp fun x => before_mono (hle.trans hws') (time x)]
  exact h ws' hws'

/-- In order of time the entries that have not expired come last. -/
theorem dropWhile_before (hsorted : (xs.map time).Pairwise (· ≤ ·)) :
    (xs.Pairwise fun x y => (!before ws (time x)) = true → (!before ws (time y)) = true) ∧
      (xs.dropWhile fun x => before ws (time x)) = xs.filter fun x => !before ws (time x) := by
  have hlate : xs.Pairwise fun x y =>
      (!before ws (time x)) = true → (!before ws (time y)) = true := by
    rw [List.pairwise_map] at hsorted
    refine hsorted.imp fun {x y} hxy hx => ?_
    rw [before, Bool.not_eq_true', decide_eq_false_iff_not, not_lt] at hx ⊢
    exact hx.trans hxy
  have hnot : (fun x => before ws (time x)) = fun x => !(!before ws (time x)) := by
    funext x
    rw [Bool.not_not]
  refine ⟨hlate, ?_⟩
  rw [hnot, dropWhile_eq_filter hlate]

/-- The live part of the last entries, in order of time. -/
theorem dropWhile_rtake (hsorted : (xs.map time).Pairwise (· ≤ ·)) :
    ((xs.rtake cap).dropWhile fun x => before ws (time x)) =
      (xs.filter fun x => !before ws (time x)).rtake cap := by
  have hsub : ((xs.rtake cap).map time).Pairwise (· ≤ ·) :=
    hsorted.sublist ((List.drop_sublist _ _).map time)
  rw [(dropWhile_before hsub).2, filter_rtake (dropWhile_before hsorted).1]

/-- The live part, in order of time, if it fits. -/
theorem CoversOn.live_eq (h : CoversOn time cap live xs from')
    (hsorted : (xs.map time).Pairwise (· ≤ ·)) (hws : from' ≤ ws)
    (hfits : (xs.filter fun x => !before ws (time x)).length ≤ cap) :
    (live.dropWhile fun x => before ws (time x)) = xs.filter fun x => !before ws (time x) := by
  rw [h ws hws, dropWhile_rtake hsorted, List.rtake, Nat.sub_eq_zero_of_le hfits, List.drop_zero]

end CoversOn

/-- **One append and one prune**: what was in the window of the last entries stays there. -/
theorem Covers.push {cap : ℕ} (hcap : 0 < cap) {live ts : List ℚ} {from' ws : ℚ}
    (h : Covers cap live ts from') (hle : from' ≤ ws) (hlen : live.length ≤ cap) (now : ℚ) :
    (pushCap cap live now).dropWhile (before ws) =
      ((ts ++ [now]).rtake cap).dropWhile (before ws) :=
  (show CoversOn id cap live ts from' from h).push hcap hlen now ws hle

section Window

/-- The ring after an event. -/
@[simp] theorem times_evalEventCount (r : CorrRule) (g : Group) (now ws : ℚ) :
    (evalEventCount r g now ws).group.times =
      (pushCap g.evIdx.cap g.times now).dropWhile (before ws) := by
  rw [evalEventCount, times_evPrune, times_evAppend]

/-- The decision is on the length of the ring. -/
theorem evalEventCount_fired (r : CorrRule) {g : Group} (hmerge : g.mergeN = 0) (now ws : ℚ) :
    (evalEventCount r g now ws).fired =
      cmpThreshold (((pushCap g.evIdx.cap g.times now).dropWhile (before ws)).length : ℕ) r.condOp
        r.condCount := by
  have hlen := length_times (evalEventCount r g now ws).group
  have hzero : (evalEventCount r g now ws).group.mergeN.toNat = 0 := by
    rw [(sameFrame_evalEventCount r g now ws).mergeN, hmerge]
    rfl
  have hfired : (evalEventCount r g now ws).fired =
      cmpThreshold ((evalEventCount r g now ws).group.evIdx.len +
        (evalEventCount r g now ws).group.mergeN.toNat) r.condOp r.condCount := rfl
  rw [hfired, hzero, ← times_evalEventCount r g now ws, hlen, Nat.cast_zero, add_zero]

variable (fp : Doubles) (caps : CorrCaps)

/-- A partial that carries a count prunes the ring, and the others leave it alone. -/
theorem evalContrib_ring (r : CorrRule) (g : Group) (c : CorrContrib)
    (ws : ℚ) :
    (evalContrib fp caps r g c ws).group.evTs = g.evTs ∧
      (evalContrib fp caps r g c ws).group.evVal = g.evVal ∧
      (evalContrib fp caps r g c ws).group.evIdx =
        if c.kind = some .count ∨ c.kind = some .sum then g.evIdx.popWhile g.evTs fun t => t < ws
        else g.evIdx := by
  unfold evalContrib
  cases hkind : c.kind with
  | none => exact ⟨rfl, rfl, rfl⟩
  | some k =>
    cases k with
    | count => exact ⟨rfl, rfl, rfl⟩
    | sum =>
      dsimp only
      split <;> exact ⟨rfl, rfl, rfl⟩
    | distinct =>
      dsimp only [evalValueCount]
      split
      · split <;> exact ⟨rfl, rfl, rfl⟩
      · exact ⟨rfl, rfl, rfl⟩
    | seen =>
      dsimp only
      split <;> exact ⟨rfl, rfl, rfl⟩
    | event => exact ⟨rfl, rfl, rfl⟩

variable {r : CorrRule}

/-- An event of an event_count rule on its group. -/
theorem groupInput_eventCount (htype : r.type = some .eventCount) (g : Group) {ev : CorrEvent}
    (hhits : hitBuf r ev.rids ≠ []) :
    groupInput fp caps r g (ev.input r) =
      settle r ev.ts (evalEventCount r { g with lastUpdate := ev.ts } ev.ts
        (ev.ts - r.timespanS)) := by
  rw [CorrEvent.input, groupInput_event fp caps r g hhits, evaluate, htype]

theorem times_groupInput_eventCount (htype : r.type = some .eventCount) (g : Group)
    {ev : CorrEvent} (hhits : hitBuf r ev.rids ≠ []) :
    (groupInput fp caps r g (ev.input r)).group.times =
      (pushCap g.evIdx.cap g.times ev.ts).dropWhile (before (ev.ts - r.timespanS)) := by
  rw [groupInput_eventCount fp caps htype g hhits, settle_group]
  exact times_evalEventCount r _ _ _

/-- Whether an input ages the ring of a rule that does not append to it: an event, or a partial that
carries a count. -/
def GroupInput.prunes (i : GroupInput) : Bool :=
  i.isEvent || decide (i.contribKind = some .count ∨ i.contribKind = some .sum)

theorem prunes_event {hits : List UInt32} (h : hits ≠ []) (value : Option CStr) (ts : ℚ) :
    (GroupInput.event hits value ts).prunes = true := by
  rw [GroupInput.prunes, isEvent_event h, Bool.true_or]

theorem prunes_contrib (c : CorrContrib) :
    (GroupInput.contrib c).prunes = true ↔ c.kind = some .count ∨ c.kind = some .sum := by
  rw [GroupInput.prunes, GroupInput.isEvent, Bool.false_or, decide_eq_true_iff]
  rfl

/-- The time an event appends to the ring. -/
def GroupInput.eventTime? (i : GroupInput) : Option ℚ := if i.isEvent then some i.ts else none

/-- **The ring after an input** of an event_count rule. -/
theorem times_groupInput (htype : r.type = some .eventCount) (g : Group) (i : GroupInput) :
    (groupInput fp caps r g i).group.times =
      if i.prunes then
        (i.eventTime?.elim g.times (pushCap g.evIdx.cap g.times)).dropWhile
          (before (i.ts - r.timespanS))
      else g.times := by
  cases i with
  | event hits value ts =>
    by_cases hnil : hits = []
    · rw [groupInput, if_pos hnil, hnil]
      rfl
    · rw [groupInput_event fp caps r g hnil, settle_group, evaluate, htype,
        if_pos (prunes_event hnil value ts), GroupInput.eventTime?, isEvent_event hnil]
      exact times_evalEventCount r _ _ _
  | contrib c =>
    obtain ⟨hts, -, hidx⟩ := evalContrib_ring fp caps r
      { g with lastUpdate := c.ts, mergeRemote := true } c (c.ts - r.timespanS)
    rw [groupInput, settle_group, Group.times, hts, hidx]
    by_cases hkind : c.kind = some .count ∨ c.kind = some .sum
    · rw [if_pos hkind, if_pos ((prunes_contrib c).mpr hkind)]
      exact RingIdx.read_popWhile _ _ _
    · rw [if_neg hkind, if_neg (mt (prunes_contrib c).mp hkind)]
      rfl

variable {fp caps}

/-- A list a group keeps in its ring: inputs append to it, and take the expired entries away. -/
structure Queued {α : Type} (fp : Doubles) (caps : CorrCaps) (r : CorrRule)
    (Ok : Group → Prop) (live : Group → List α) (time : α → ℚ) (app : GroupInput → Option α) :
    Prop where
  length_le : ∀ g, (live g).length ≤ g.evIdx.cap
  new_ok : Ok (groupNew caps.maxEventsPerGroup)
  new : live (groupNew caps.maxEventsPerGroup) = []
  step_ok : ∀ g i, Ok g → Ok (groupInput fp caps r g i).group
  step : ∀ g i, Ok g → live (groupInput fp caps r g i).group =
    if i.prunes then ((app i).elim (live g) (pushCap g.evIdx.cap (live g))).dropWhile
      fun x => before (i.ts - r.timespanS) (time x)
    else live g
  app_prunes : ∀ i, i.prunes = false → app i = none

/-- **The queue of a group holds what was appended last**, up to expired entries. -/
theorem Life.covers {α : Type} {Ok : Group → Prop} {live : Group → List α} {time : α → ℚ}
    {app : GroupInput → Option α} (hq : Queued fp caps r Ok live time app)
    (hcap : 0 < caps.maxEventsPerGroup) {H : List GroupStep} {s : Option Group}
    (h : Life fp caps r H s) {T : ℚ} (hT : ∀ x ∈ H, x.ts ≤ T) :
    Ok (s.getD (groupNew caps.maxEventsPerGroup)) ∧
      CoversOn time caps.maxEventsPerGroup (live (s.getD (groupNew caps.maxEventsPerGroup)))
        ((H.map GroupStep.input).filterMap app) (T - r.timespanS) := by
  induction h with
  | unborn =>
    refine ⟨hq.new_ok, fun ws _ => ?_⟩
    rw [Option.getD_none, hq.new, List.map_nil, List.filterMap_nil, List.rtake_nil]
  | @input H s i h ih =>
    obtain ⟨hok, hcovers⟩ := ih fun x hx => hT x (List.mem_append_left _ hx)
    have hle : i.ts - (r.timespanS : ℚ) ≤ T - r.timespanS :=
      sub_le_sub_right (hT _ (List.mem_append_right _ List.mem_cons_self)) _
    have hlen := hq.length_le (s.getD (groupNew caps.maxEventsPerGroup))
    rw [h.cap hcap] at hlen
    refine ⟨hq.step_ok _ i hok, ?_⟩
    rw [Option.getD_some, groupApply, hq.step _ i hok, h.cap hcap, List.map_append,
      List.filterMap_append, List.map_singleton, GroupOutcome.step]
    by_cases hprunes : i.prunes = true
    · rw [if_pos hprunes]
      refine CoversOn.prune ?_ hle
      cases happ : app i with
      | none =>
        rw [List.filterMap_cons_none happ, List.filterMap_nil, List.append_nil]
        exact hcovers
      | some x =>
        rw [List.filterMap_cons_some happ, List.filterMap_nil]
        exact hcovers.push hcap hlen x
    · rw [if_neg hprunes, List.filterMap_cons_none (hq.app_prunes i (eq_false_of_ne_true hprunes)),
        List.filterMap_nil, List.append_nil]
      exact hcovers

theorem queued_times (htype : r.type = some .eventCount) :
    Queued fp caps r (fun _ => True) Group.times id GroupInput.eventTime? where
  length_le := length_times_le
  new_ok := trivial
  new := rfl
  step_ok _ _ _ := trivial
  step g i _ := times_groupInput fp caps htype g i
  app_prunes i hi := by
    rw [GroupInput.prunes, Bool.or_eq_false_iff] at hi
    rw [GroupInput.eventTime?, hi.1, if_neg Bool.false_ne_true]

/-- **The window of a group is the window of its last events.** -/
theorem Life.window (htype : r.type = some .eventCount) (hcap : 0 < caps.maxEventsPerGroup)
    {H : List GroupStep} {s : Option Group} (h : Life fp caps r H s)
    (hlocal : ∀ x ∈ H, x.IsLocal r) {T : ℚ} (hT : ∀ x ∈ H, x.ts ≤ T) :
    Covers caps.maxEventsPerGroup (s.getD (groupNew caps.maxEventsPerGroup)).times
      (H.map GroupStep.ts) (T - r.timespanS) := by
  have htimes : (H.map GroupStep.input).filterMap GroupInput.eventTime? = H.map GroupStep.ts := by
    rw [List.filterMap_map, ← List.filterMap_eq_map]
    refine List.filterMap_congr fun x hx => ?_
    obtain ⟨ev, hev, hhits⟩ := hlocal x hx
    show x.input.eventTime? = some x.input.ts
    rw [hev, GroupInput.eventTime?, CorrEvent.input, isEvent_event hhits, if_pos rfl]
  exact htimes ▸ (h.covers (queued_times htype) hcap hT).2

end Window

/-! ## The count -/

/-- The steps with a time in `[lo, hi]`. -/
def windowCount (H : List GroupStep) (lo hi : ℚ) : ℕ :=
  H.countP fun x => decide (lo ≤ x.ts ∧ x.ts ≤ hi)

/-- The live part of the last times of a run in order of time. -/
theorem length_live {H : List GroupStep} (hsorted : (H.map GroupStep.ts).Pairwise (· ≤ ·))
    {t : ℚ} (ht : ∀ x ∈ H, x.ts ≤ t) (cap : ℕ) (ws : ℚ) :
    (((H.map GroupStep.ts).rtake cap).dropWhile (before ws)).length =
      min (windowCount H ws t) cap := by
  have hlive : ((H.map GroupStep.ts).rtake cap).dropWhile (before ws) =
      ((H.map GroupStep.ts).filter fun t => !before ws t).rtake cap :=
    @dropWhile_rtake ℚ id cap (H.map GroupStep.ts) ws (by rw [List.map_id]; exact hsorted)
  have hcount : ((H.map GroupStep.ts).filter fun t => !before ws t).length = windowCount H ws t := by
    rw [List.filter_map, List.length_map, ← List.countP_eq_length_filter, windowCount]
    refine List.countP_congr fun x hx => ?_
    simp [before, ht x hx]
  rw [hlive, length_rtake, hcount, Nat.min_comm]

/-! ## The decision

The number that an event is decided on, from the steps of its group in the run, and the fire that
follows.  Before time zero the deadline of a new group, which is 0, has not passed, and that is the
exception in the theorem. -/

/-- The number an event is decided on: the steps in its window, as far as the ring holds them. -/
def eventCountOf (r : CorrRule) (cap : ℕ) (H : List GroupStep) (x : GroupStep) : ℕ :=
  min (windowCount (H ++ [x]) (x.ts - r.timespanS) x.ts) cap

/-- Step `x` after `H` fires exactly when its number satisfies the rule and the last fire is a window
ago, and then with that number. -/
def EventCountExact (r : CorrRule) (cap : ℕ) (H : List GroupStep) (x : GroupStep) : Prop :=
  x.fire =
    if cmpThreshold (eventCountOf r cap H x) r.condOp r.condCount = true ∧
        ∀ y ∈ H, y.fire.isSome = true → y.ts + r.timespanS ≤ x.ts then
      some ⟨eventCountOf r cap H x, false⟩
    else none

section Decision

variable {fp : Doubles} {rules : List CorrRule} {caps : CorrCaps} {ci : ℕ}
  {r : CorrRule} {key : List CStr}

theorem withDefaults_maxEvents_pos (caps : CorrCaps) : 0 < caps.withDefaults.maxEventsPerGroup := by
  rw [CorrCaps.withDefaults]
  simp only
  split <;> omega

theorem windowCount_append (H H' : List GroupStep) (lo hi : ℚ) :
    windowCount (H ++ H') lo hi = windowCount H lo hi + windowCount H' lo hi :=
  List.countP_append

/-- Steps that have left the window do not count. -/
theorem windowCount_past {H : List GroupStep} {lo hi : ℚ} (h : ∀ x ∈ H, x.ts < lo) :
    windowCount H lo hi = 0 := by
  refine List.countP_eq_zero.mpr fun x hx hwin => ?_
  rw [decide_eq_true_eq] at hwin
  exact absurd (h x hx) (not_lt.mpr hwin.1)

/-- **The ring after an event** holds as many times as there are steps in the window, up to its
size. -/
theorem StepOf.eventCount_len {H : List GroupStep} {s : Option Group} {ev : CorrEvent}
    {x : GroupStep} (h : StepOf fp caps r H s ev x) (htype : r.type = some .eventCount)
    (hcap : 0 < caps.maxEventsPerGroup)
    (hsorted : ((H ++ [x]).map GroupStep.ts).Pairwise (· ≤ ·)) :
    (groupApply fp caps r s (ev.input r)).group.evIdx.len =
      eventCountOf r caps.maxEventsPerGroup H x := by
  have hle := le_of_sorted_concat hsorted
  have hle' : ∀ y ∈ H ++ [x], y.ts ≤ x.ts := by
    intro y hy
    rcases List.mem_append.mp hy with hy | hy
    · exact hle y hy
    · rw [List.mem_singleton.mp hy]
  have hcap' := (h.life.unmerged h.isLocal).cap
  rw [if_neg hcap.ne'] at hcap'
  have hring := length_times_le (s.getD (groupNew caps.maxEventsPerGroup))
  rw [hcap'] at hring
  have hpush := (h.life.window htype hcap h.isLocal hle).push hcap le_rfl hring x.ts
  rw [← length_times, groupApply, times_groupInput_eventCount fp caps htype _ h.hits, hcap',
    ← h.ts_eq, hpush, ← List.map_singleton, ← List.map_append, length_live hsorted hle',
    eventCountOf]

/-- **The fire of one event**: its number satisfies the rule and the deadline has passed. -/
theorem StepOf.eventCount_fire {H : List GroupStep} {s : Option Group} {ev : CorrEvent}
    {x : GroupStep} (h : StepOf fp caps r H s ev x) (htype : r.type = some .eventCount)
    (hcap : 0 < caps.maxEventsPerGroup)
    (hsorted : ((H ++ [x]).map GroupStep.ts).Pairwise (· ≤ ·)) :
    x.fire =
      if cmpThreshold (eventCountOf r caps.maxEventsPerGroup H x) r.condOp r.condCount = true ∧
          (s.getD (groupNew caps.maxEventsPerGroup)).firedUntil ≤ x.ts then
        some ⟨eventCountOf r caps.maxEventsPerGroup H x, false⟩
      else none := by
  have hlen := h.eventCount_len htype hcap hsorted
  have hun := h.life.unmerged h.isLocal
  have hfire : x.fire = (groupApply fp caps r s (ev.input r)).fire :=
    congrArg GroupStep.fire h.eq
  rw [hfire, h.ts_eq]
  unfold groupApply at hlen ⊢
  generalize s.getD (groupNew caps.maxEventsPerGroup) = g at hun hlen ⊢
  rw [groupInput_eventCount fp caps htype _ h.hits] at hlen ⊢
  have hframe := sameFrame_evalEventCount r { g with lastUpdate := ev.ts } ev.ts
    (ev.ts - r.timespanS)
  have hfired : (evalEventCount r { g with lastUpdate := ev.ts } ev.ts (ev.ts - r.timespanS)).fired =
      cmpThreshold ((evalEventCount r { g with lastUpdate := ev.ts } ev.ts
        (ev.ts - r.timespanS)).group.evIdx.len + (evalEventCount r { g with lastUpdate := ev.ts } ev.ts
        (ev.ts - r.timespanS)).group.mergeN.toNat) r.condOp r.condCount := rfl
  rw [settle_group] at hlen
  generalize evalEventCount r { g with lastUpdate := ev.ts } ev.ts (ev.ts - r.timespanS) = e
    at hframe hfired hlen ⊢
  have hlen' : e.group.evIdx.len = eventCountOf r caps.maxEventsPerGroup H x := hlen
  have hmerge : e.group.mergeN.toNat = 0 := by
    rw [hframe.mergeN]
    exact congrArg UInt32.toNat hun.mergeN
  have hremote : e.group.mergeRemote = false := hframe.mergeRemote.trans hun.mergeRemote
  have hfu : e.group.firedUntil = g.firedUntil := hframe.firedUntil
  have hobserved : observedVal r e.group e.vagg = eventCountOf r caps.maxEventsPerGroup H x := by
    simp [observedVal, htype, hlen', hmerge]
  rw [settle_fire, hfired, hobserved, hremote, hfu, hlen', hmerge, Nat.cast_zero, add_zero]

/-- No event before time zero fires. -/
theorem StepOf.fire_nonneg {H : List GroupStep} {s : Option Group} {ev : CorrEvent}
    {x : GroupStep} (h : StepOf fp caps r H s ev x) (hpos : 0 < r.timespanS)
    (hfire : x.fire.isSome = true) : 0 ≤ x.ts := by
  have hwait := groupInput_fire_le fp caps r (s.getD (groupNew caps.maxEventsPerGroup))
    (ev.input r) (by rw [h.eq] at hfire; exact hfire)
  rw [h.ts_eq]
  exact (h.life.firedUntil_nonneg hpos).trans hwait

theorem eventCountOf_past {H₁ H₂ : List GroupStep} {x : GroupStep}
    (hpast : ∀ y ∈ H₁, y.ts < x.ts - r.timespanS) (cap : ℕ) :
    eventCountOf r cap (H₁ ++ H₂) x = eventCountOf r cap H₂ x := by
  rw [eventCountOf, eventCountOf, List.append_assoc, windowCount_append, windowCount_past hpast,
    Nat.zero_add]

/-- **event_count is exact in a run exactly when no event before time zero satisfies the rule**:
the deadline of a group that has not fired is zero. -/
theorem eventCount_exact_iff (hr : (admittedRules rules)[ci]? = some r)
    (htype : r.type = some .eventCount) {evs : List CorrEvent}
    (hsorted : TimeOrdered (localCalls evs))
    (hspared : spared fp ci r key (corrEngineNew rules caps) (localCalls evs) = true) :
    (∀ H x H', groupTrace fp ci r key (corrEngineNew rules caps) (localCalls evs) =
        H ++ x :: H' → EventCountExact r caps.withDefaults.maxEventsPerGroup H x) ↔
      ∀ H x H', groupTrace fp ci r key (corrEngineNew rules caps) (localCalls evs) =
        H ++ x :: H' → x.ts < 0 →
        cmpThreshold (eventCountOf r caps.withDefaults.maxEventsPerGroup H x) r.condOp
          r.condCount = false := by
  have hpos := timespanS_pos (ruleValid_of_admitted hr)
  have hcap := withDefaults_maxEvents_pos caps
  have hspan : (0 : ℚ) < r.timespanS := by exact_mod_cast hpos
  constructor
  · intro hexact H x H' hsplit hneg
    -- nothing fired before, so that a satisfied rule would have to fire
    by_contra hsat
    obtain ⟨H₁, H₂, s, ev, rfl, hstep, hall, -⟩ := exists_stepOf hr hsplit
    have hle := le_of_sorted_concat (hall hsorted)
    have hquiet : ∀ y ∈ H₁ ++ H₂, y.fire.isSome = true → y.ts + r.timespanS ≤ x.ts := by
      intro y hy hfire
      obtain ⟨A, B, hAB⟩ := List.append_of_mem hy
      have hsplit' := hsplit
      rw [hAB, List.append_assoc] at hsplit'
      obtain ⟨_, _, _, _, _, hstep', _⟩ := exists_stepOf hr hsplit'
      have hy0 := hstep'.fire_nonneg hpos hfire
      have hyx := hle y hy
      linarith
    have hfire := hexact _ x H' hsplit
    rw [EventCountExact, if_pos ⟨eq_true_of_ne_false hsat, hquiet⟩] at hfire
    have hx0 := hstep.fire_nonneg hpos (by rw [hfire]; rfl)
    exact absurd hneg (not_lt.mpr hx0)
  · intro hneg H x H' hsplit
    have hcmp := hneg H x H' hsplit
    obtain ⟨H₁, H₂, s, ev, rfl, hstep, hall, hpast⟩ := exists_stepOf hr hsplit
    have hpast : ∀ y ∈ H₁, y.ts < x.ts - r.timespanS := fun y hy =>
      hpast hsorted hspared y hy x (List.mem_append_right _ List.mem_cons_self)
    have hsorted₂ : ((H₂ ++ [x]).map GroupStep.ts).Pairwise (· ≤ ·) := by
      refine (hall hsorted).sublist (List.Sublist.map _ ?_)
      rw [List.append_assoc]
      exact List.sublist_append_right _ _
    rw [EventCountExact, hstep.eventCount_fire htype hcap hsorted₂, eventCountOf_past hpast]
    rw [eventCountOf_past hpast] at hcmp
    by_cases hx0 : 0 ≤ x.ts
    · have hiff : (s.getD (groupNew caps.withDefaults.maxEventsPerGroup)).firedUntil ≤ x.ts ↔
          ∀ y ∈ H₁ ++ H₂, y.fire.isSome = true → y.ts + r.timespanS ≤ x.ts := by
        rw [hstep.life.firedUntil_le_iff hpos hx0]
        constructor
        · intro hlit y hy hfire
          rcases List.mem_append.mp hy with hy | hy
          · have := hpast y hy
            linarith
          · exact hlit y hy hfire
        · exact fun hlit y hy => hlit y (List.mem_append_right _ hy)
      simp only [hiff]
    · have hfalse := hcmp (not_le.mp hx0)
      simp [hfalse]

end Decision

/-- Three events of a user, the last one after the minute. -/
def lateEvents : List CorrEvent :=
  [⟨[7], userField, 0⟩, ⟨[7], userField, 60⟩, ⟨[7], userField, 61⟩]

theorem eventCount_exact_iff_sample :
    (groupTrace .bare 0 burstRule [cstr "a"] (corrEngineNew [burstRule] capsZero)
        (localCalls lateEvents)).map GroupStep.fire =
          [some ⟨1, false⟩, some ⟨2, false⟩, none] ∧
      EventCountExact burstRule capsZero.withDefaults.maxEventsPerGroup
        [⟨.event [7] none 0, true, some ⟨1, false⟩⟩]
        ⟨.event [7] none 60, true, some ⟨2, false⟩⟩ := by
  have htrace : groupTrace .bare 0 burstRule [cstr "a"]
      (corrEngineNew [burstRule] capsZero) (localCalls lateEvents) =
        [⟨.event [7] none 0, true, some ⟨1, false⟩⟩] ++
          ⟨.event [7] none 60, true, some ⟨2, false⟩⟩ :: [⟨.event [7] none 61, true, none⟩] := by
    decide +kernel
  refine ⟨by rw [htrace]; rfl, ?_⟩
  refine (eventCount_exact_iff (by decide) rfl
    (by norm_num [TimeOrdered, localCalls, lateEvents, CorrCall.ts])
    (by decide +kernel)).mpr ?_ _ _ _ htrace
  intro H x H' hsplit hneg
  have hmem : x ∈ H ++ x :: H' := List.mem_append_right _ List.mem_cons_self
  rw [← hsplit, htrace] at hmem
  fin_cases hmem <;> exact absurd hneg (by decide +kernel)

/-- An event five seconds before time zero, and one a minute later. -/
def earlyEvents : List CorrEvent := [⟨[7], userField, -5⟩, ⟨[7], userField, 55⟩]

/-- The event before time zero satisfies `burstRule` and does not fire. -/
theorem eventCount_silent_before_zero :
    ¬ ∀ (fp : Doubles) (rules : List CorrRule) (caps : CorrCaps) (ci : ℕ)
      (r : CorrRule) (key : List CStr) (evs : List CorrEvent),
      (admittedRules rules)[ci]? = some r → r.type = some .eventCount →
      TimeOrdered (localCalls evs) →
      spared fp ci r key (corrEngineNew rules caps) (localCalls evs) = true →
      ∀ H x H', groupTrace fp ci r key (corrEngineNew rules caps) (localCalls evs) =
        H ++ x :: H' → EventCountExact r caps.withDefaults.maxEventsPerGroup H x := by
  intro hclaim
  have hfail := hclaim .bare [burstRule] capsZero 0 burstRule [cstr "a"] earlyEvents
    (by decide) rfl (by norm_num [TimeOrdered, localCalls, earlyEvents, CorrCall.ts])
    (by decide +kernel) [] ⟨.event [7] none (-5), true, none⟩
    [⟨.event [7] none 55, true, some ⟨2, false⟩⟩] (by decide +kernel)
  unfold EventCountExact at hfail
  exact absurd hfail (by decide +kernel)

end LibSigma
