import LibSigma.Corr.Bounds
import LibSigma.Corr.Trace
import LibSigma.Library.History

/-!
# Workers on one engine

`corr_on_event` may be called by many threads on one engine.  What the threads share is guarded by
two kinds of locks: `sweep_lock`, which `sweep_if_due` takes by `trylock` and holds for a whole
sweep, and one lock for each correlation, which is held while its groups are read or written.  This
file says what such threads (workers) can do to one another.

## Where a worker can be interrupted

A step of the model is what a worker does while it holds one lock, or between two of them: so a
worker in the middle of a call is at one of the places of `WorkerPc`, and between two steps any
other worker may run.  A finer interleaving shows nothing more, because what is read or written
inside a step is read or written under the lock that the step holds.

Two things are not guarded.  The counters are atomic and are added to, never read, by a call.  And
`pct_scratch`, in which percentile and median rules sort their values, belongs to the engine and has
no lock at all.  Two such rules can disturb each other (`LibSigma.Corr.Scratch` shows how), and
everything here is about rules of which at most one sorts (`SharedRules`).

## A step is a move

`workerStep` is translated from the source and has a branch for every place and every test.  No
proof about workers goes through its branches, though.  `WorkerMove` names the moves with what they
need and where they lead, `workerStep_move` says once that a step is one of them, and what holds of
every step is proved by cases on the moves: what it leaves alone (`WorkerMove.frame`), what it does
to the correlations (`WorkerMove.effect`), who holds the sweep lock (`WorkerMove.locked`).

## What a schedule cannot change

The acts on one correlation are in an order, that of its lock.  So a correlation is where these
acts, one after the other, lead a new one, and every input had the result that it has there
(`PoolOk.explained`).  What a worker has given to a correlation and what it has still to give are
together what its calls say (`PoolOk.order`), so that nothing is lost, doubled or invented.  A group
is dropped only by the sweep of a call that was made (`PoolOk.drops`).

* `workerStep`: what a worker does next.
* `workerStep_move`: every step is one of the moves of `WorkerMove`.
* `WorkerMove.effect`: **one step**, as the correlations see it.
* `workers_explained`: **every correlation is where the acts of all workers on it have led**,
  whatever the schedule, and each worker has done to it what its calls say, in their order.
-/

namespace LibSigma

open Library

/-! ## The pool

A worker is at one place of the program (`WorkerPc`), and everything it does between two places is
done without another worker being able to see the middle of it: an act on one correlation under the
lock of that correlation, a look at the index, an addition to the counters.  `workerStep` is the
program from one place to the next, for either entry point; the step is none when the worker has to
wait for `sweep_lock` or has nothing left to do.  The history is not in the source.  It keeps what
was done under the locks, and no step reads it. -/

/-- What is done to a correlation under its lock. -/
inductive CorrAct where
  | drop (horizon : ℚ)
  | input (key : List CStr) (i : GroupInput)

/-- The act, and what came of an input. -/
def CorrAct.run (fp : Doubles) (caps : CorrCaps) (a : CorrAct) (st : CorrState) :
    CorrState × Option GroupOutcome :=
  match a with
  | .drop horizon => (cstateDropExpired st horizon, none)
  | .input key i => ((cstateInput fp caps st key i).1, some (cstateInput fp caps st key i).2)

/-- Where a worker is: between calls, at the start of a sweep, at a correlation of a sweep, or past
the sweep in the loop of an event or with a partial. -/
inductive WorkerPc where
  | idle
  | entered (c : CorrCall)
  | sweeping (c : CorrCall) (next : ℕ)
  | visiting (ev : CorrEvent) (apply : Option (CorrRule → List CStr → Bool)) (visited : List ℕ)
      (todo : List (UInt32 × ℕ))
  | delivering (c : CorrContrib)

/-- Workers on an engine: who holds `sweep_lock`, where each worker is, the calls it has still to
make, and what has been done to the correlations. -/
structure CorrPool (W : Type) where
  engine : CorrEngine
  sweeper : Option W
  pc : W → WorkerPc
  calls : W → List CorrCall
  history : List (Acted W CorrAct (Option GroupOutcome))

/-- Rules whose engine may be shared: at most one of them sorts values.  They are sorted in a scratch of
the engine, which no lock guards. -/
structure SharedRules where
  rules : List CorrRule
  alone : ((admittedRules rules).filter fun r =>
    r.type = some .valuePercentile ∨ r.type = some .valueMedian).length ≤ 1

/-- A call that returns before the sweep. -/
def CorrCall.returnsAtOnce (e : CorrEngine) : CorrCall → Bool
  | .event ev _ => decide (e.states.length = 0 ∨ ev.rids.length = 0)
  | .contribution c _ =>
    if c.kind = some .event then decide (e.states.length = 0 ∨ c.rids.length = 0)
    else decide (c.corrId = none ∨ c.corrId = some [])

/-- The index entries of an event. -/
def CorrEngine.entries (e : CorrEngine) (ev : CorrEvent) : List (UInt32 × ℕ) :=
  ev.rids.flatMap fun rid => (ridIndexFind e.ridBuckets rid).map (rid, ·)

/-- What a call does past the sweep. -/
def CorrCall.work (e : CorrEngine) : CorrCall → WorkerPc
  | .event ev apply => .visiting ev apply [] (e.entries ev)
  | .contribution c field =>
    if c.kind = some .event then
      .visiting ⟨c.rids, field, c.ts⟩ none [] (e.entries ⟨c.rids, field, c.ts⟩)
    else .delivering c

namespace CorrPool

variable {W : Type} [DecidableEq W]

/-- A pool before the first step. -/
def new (shared : SharedRules) (caps : CorrCaps) (prog : W → List CorrCall) : CorrPool W :=
  ⟨corrEngineNew shared.rules caps, none, fun _ => .idle, prog, []⟩

def goto (P : CorrPool W) (w : W) (pc : WorkerPc) : CorrPool W :=
  { P with pc := Function.update P.pc w pc }

/-- An act on a correlation under its lock. -/
def act (fp : Doubles) (P : CorrPool W) (w : W) (ci : ℕ) (st : CorrState)
    (a : CorrAct) : CorrPool W :=
  let (st', o) := a.run fp P.engine.caps st
  { P with
    engine := { P.engine with states := P.engine.states.set ci st' }.inc
      ((o.map GroupOutcome.incs).getD [])
    history := P.history ++ [⟨w, ci, a, o⟩] }

end CorrPool

section Step

variable {W : Type} [DecidableEq W] (fp : Doubles)

/-- One entry of the loop of `corr_on_event_apply`. -/
def visitEntry (P : CorrPool W) (w : W) (ev : CorrEvent)
    (apply : Option (CorrRule → List CStr → Bool)) (p : UInt32 × ℕ) : CorrPool W :=
  match P.engine.states[p.2]? with
  | none => P
  | some st =>
    match resolveGroup st.rule ev p.1 with
    | none => { P with engine := P.engine.inc [.eventSkippedMissingField] }
    | some key =>
      if apply.all fun f => f st.rule key then
        { P with engine := P.engine.inc (hitIncs st.rule ev.rids) }.act fp w p.2 st
          (.input key (ev.input st.rule))
      else P

/-- A partial for the correlation it names. -/
def deliver (P : CorrPool W) (w : W) (c : CorrContrib) : CorrPool W :=
  match c.corrId with
  | none | some [] => P
  | some id =>
    match P.engine.states.findIdx? fun st => st.rule.id == some id with
    | none => P
    | some ci =>
      match P.engine.states[ci]? with
      | none => P
      | some st =>
        if c.groupVals.length ≠ st.rule.groupBy.length then
          { P with engine := P.engine.inc [.eventSkippedMissingField] }
        else
          match c.groupVals.mapM (fun v => v) with
          | none => { P with engine := P.engine.inc [.eventSkippedMissingField] }
          | some key => P.act fp w ci st (.input key (.contrib c))

/-- What a worker does next. -/
def workerStep (P : CorrPool W) (w : W) : CorrPool W :=
  match P.pc w with
  | .idle =>
    match P.calls w with
    | [] => P
    | c :: cs =>
      let P := { P with calls := Function.update P.calls w cs }
      if c.returnsAtOnce P.engine then P
      -- another worker is sweeping
      else if P.sweeper.isSome then P.goto w (c.work P.engine)
      else { P with sweeper := some w }.goto w (.entered c)
  | .entered c =>
    if P.engine.sweepSeen = false then
      { P with
        engine := { P.engine with lastSweep := c.ts, sweepSeen := true }
        sweeper := none }.goto w (c.work P.engine)
    else if c.ts - P.engine.lastSweep < P.engine.caps.sweepIntervalS then
      { P with sweeper := none }.goto w (c.work P.engine)
    else { P with engine := { P.engine with lastSweep := c.ts } }.goto w (.sweeping c 0)
  | .sweeping c n =>
    match P.engine.states[n]? with
    | none => { P with sweeper := none }.goto w (c.work P.engine)
    | some st =>
      (if 0 < st.rule.timespanS then P.act fp w n st (.drop (c.ts - st.rule.timespanS))
      else P).goto w (.sweeping c (n + 1))
  | .visiting _ _ _ [] => P.goto w .idle
  | .visiting ev apply visited (p :: todo) =>
    if p.2 ∈ visited then P.goto w (.visiting ev apply visited todo)
    else (visitEntry fp P w ev apply p).goto w (.visiting ev apply (p.2 :: visited) todo)
  | .delivering c => (deliver fp P w c).goto w .idle

/-- The pool after some steps. -/
def poolRun (P : CorrPool W) (schedule : List W) : CorrPool W :=
  schedule.foldl (workerStep fp) P

end Step

/-! ## Moves

The step is a function with a case for each place and, inside, one for what is found there.
`WorkerMove` has these as constructors, each with what it leaves.  The invariants below are proved
by cases on it and never unfold the step, so each of them is a list of short cases with the names of
the constructors. -/

section Move

variable {W : Type} [DecidableEq W] (fp : Doubles)

/-- Where worker `w` goes in one step, by where it is. -/
inductive WorkerMove (P : CorrPool W) (w : W) : CorrPool W → Prop
  | rests (hpc : P.pc w = .idle) (hcalls : P.calls w = []) : WorkerMove P w P
  | returns {c : CorrCall} {cs : List CorrCall} (hpc : P.pc w = .idle)
      (hcalls : P.calls w = c :: cs) (hnow : c.returnsAtOnce P.engine = true) :
      WorkerMove P w { P with calls := Function.update P.calls w cs }
  -- another worker is sweeping
  | passes {c : CorrCall} {cs : List CorrCall} (hpc : P.pc w = .idle)
      (hcalls : P.calls w = c :: cs) (hlater : c.returnsAtOnce P.engine = false)
      (hbusy : P.sweeper.isSome = true) :
      WorkerMove P w ({ P with calls := Function.update P.calls w cs }.goto w (c.work P.engine))
  | enters {c : CorrCall} {cs : List CorrCall} (hpc : P.pc w = .idle)
      (hcalls : P.calls w = c :: cs) (hlater : c.returnsAtOnce P.engine = false)
      (hfree : P.sweeper = none) :
      WorkerMove P w
        ({ P with calls := Function.update P.calls w cs, sweeper := some w }.goto w (.entered c))
  -- the first call starts the clock of the sweeps
  | starts {c : CorrCall} (hpc : P.pc w = .entered c) (hseen : P.engine.sweepSeen = false) :
      WorkerMove P w
        ({ P with
          engine := { P.engine with lastSweep := c.ts, sweepSeen := true }
          sweeper := none }.goto w (c.work P.engine))
  | skips {c : CorrCall} (hpc : P.pc w = .entered c) (hseen : P.engine.sweepSeen = true)
      (hearly : c.ts - P.engine.lastSweep < P.engine.caps.sweepIntervalS) :
      WorkerMove P w ({ P with sweeper := none }.goto w (c.work P.engine))
  | begins {c : CorrCall} (hpc : P.pc w = .entered c) (hseen : P.engine.sweepSeen = true)
      (hdue : ¬ c.ts - P.engine.lastSweep < P.engine.caps.sweepIntervalS) :
      WorkerMove P w
        ({ P with engine := { P.engine with lastSweep := c.ts } }.goto w (.sweeping c 0))
  | drops {c : CorrCall} {n : ℕ} {st : CorrState} (hpc : P.pc w = .sweeping c n)
      (hst : P.engine.states[n]? = some st) (hspan : 0 < st.rule.timespanS) :
      WorkerMove P w ((P.act fp w n st (.drop (c.ts - st.rule.timespanS))).goto w
        (.sweeping c (n + 1)))
  | keeps {c : CorrCall} {n : ℕ} {st : CorrState} (hpc : P.pc w = .sweeping c n)
      (hst : P.engine.states[n]? = some st) (hspan : ¬ 0 < st.rule.timespanS) :
      WorkerMove P w (P.goto w (.sweeping c (n + 1)))
  | unlocks {c : CorrCall} {n : ℕ} (hpc : P.pc w = .sweeping c n)
      (hst : P.engine.states[n]? = none) :
      WorkerMove P w ({ P with sweeper := none }.goto w (c.work P.engine))
  | leaves {ev : CorrEvent} {apply : Option (CorrRule → List CStr → Bool)} {visited : List ℕ}
      (hpc : P.pc w = .visiting ev apply visited []) : WorkerMove P w (P.goto w .idle)
  | seen {ev : CorrEvent} {apply : Option (CorrRule → List CStr → Bool)} {visited : List ℕ}
      {p : UInt32 × ℕ} {todo : List (UInt32 × ℕ)}
      (hpc : P.pc w = .visiting ev apply visited (p :: todo)) (hmem : p.2 ∈ visited) :
      WorkerMove P w (P.goto w (.visiting ev apply visited todo))
  | visits {ev : CorrEvent} {apply : Option (CorrRule → List CStr → Bool)} {visited : List ℕ}
      {p : UInt32 × ℕ} {todo : List (UInt32 × ℕ)}
      (hpc : P.pc w = .visiting ev apply visited (p :: todo)) (hnew : p.2 ∉ visited) :
      WorkerMove P w ((visitEntry fp P w ev apply p).goto w
        (.visiting ev apply (p.2 :: visited) todo))
  | delivers {c : CorrContrib} (hpc : P.pc w = .delivering c) :
      WorkerMove P w ((deliver fp P w c).goto w .idle)

variable {fp} {P P' : CorrPool W} {w : W}

/-- A move is the step. -/
theorem WorkerMove.eq (h : WorkerMove fp P w P') : workerStep fp P w = P' := by
  unfold workerStep
  cases h with
  | rests hpc hcalls => simp only [hpc, hcalls]
  | returns hpc hcalls hnow => simp only [hpc, hcalls, hnow, if_true]
  | passes hpc hcalls hlater hbusy => simp [hpc, hcalls, hlater, hbusy]
  | enters hpc hcalls hlater hfree => simp [hpc, hcalls, hlater, hfree]
  | starts hpc hseen => simp only [hpc, hseen, if_true]
  | skips hpc hseen hearly => simp [hpc, hseen, hearly]
  | begins hpc hseen hdue => simp [hpc, hseen, hdue]
  | drops hpc hst hspan => simp only [hpc, hst, hspan, if_true]
  | keeps hpc hst hspan => simp only [hpc, hst, hspan, if_false]
  | unlocks hpc hst => simp only [hpc, hst]
  | leaves hpc => simp only [hpc]
  | seen hpc hmem => simp only [hpc, hmem, if_true]
  | visits hpc hnew => simp only [hpc, hnew, if_false]
  | delivers hpc => simp only [hpc]

variable (fp) in
/-- **Every step is one of the moves.** -/
theorem workerStep_move (P : CorrPool W) (w : W) : WorkerMove fp P w (workerStep fp P w) := by
  have hmove : ∃ P', WorkerMove fp P w P' := by
    cases hpc : P.pc w with
    | idle =>
      cases hcalls : P.calls w with
      | nil => exact ⟨_, .rests hpc hcalls⟩
      | cons c cs =>
        cases hnow : c.returnsAtOnce P.engine with
        | true => exact ⟨_, .returns hpc hcalls hnow⟩
        | false =>
          cases hsweeper : P.sweeper with
          | none => exact ⟨_, .enters hpc hcalls hnow hsweeper⟩
          | some v => exact ⟨_, .passes hpc hcalls hnow (by rw [hsweeper]; rfl)⟩
    | entered c =>
      cases hseen : P.engine.sweepSeen with
      | false => exact ⟨_, .starts hpc hseen⟩
      | true =>
        by_cases hearly : c.ts - P.engine.lastSweep < P.engine.caps.sweepIntervalS
        · exact ⟨_, .skips hpc hseen hearly⟩
        · exact ⟨_, .begins hpc hseen hearly⟩
    | sweeping c n =>
      cases hst : P.engine.states[n]? with
      | none => exact ⟨_, .unlocks hpc hst⟩
      | some st =>
        by_cases hspan : 0 < st.rule.timespanS
        · exact ⟨_, .drops hpc hst hspan⟩
        · exact ⟨_, .keeps hpc hst hspan⟩
    | visiting ev apply visited todo =>
      cases todo with
      | nil => exact ⟨_, .leaves hpc⟩
      | cons p todo =>
        by_cases hmem : p.2 ∈ visited
        · exact ⟨_, .seen hpc hmem⟩
        · exact ⟨_, .visits hpc hmem⟩
    | delivering c => exact ⟨_, .delivers hpc⟩
  obtain ⟨P', h⟩ := hmove
  rwa [h.eq]

end Move

/-! ## What a worker has still to do

An input of a call is given to a correlation at one step of many, and the calls before and after it
are not under way yet.  What ties the schedule to the calls is therefore what is still to come:
`CorrPool.pending` lists, for one worker and one correlation, the inputs of the call it is in and of
the calls it has not begun, in their order.  A step either leaves that list alone or takes its head.
-/

/-- The input that a worker in the middle of a call has still to give to correlation `ci`. -/
def WorkerPc.target (rules : List CorrRule) (ci : ℕ) (r : CorrRule) :
    WorkerPc → Option (List CStr × GroupInput)
  | .idle => none
  | .entered c | .sweeping c _ => c.target rules ci r
  | .visiting ev apply visited todo =>
    if ci ∈ visited then none
    else
      (todo.find? fun p => p.2 == ci).bind fun p =>
        (resolveGroup r ev p.1).bind fun key =>
          if apply.all fun f => f r key then some (key, ev.input r) else none
  | .delivering c => contribTarget rules ci r c

/-- The inputs that a worker has still to give to correlation `ci`. -/
def CorrPool.pending {W : Type} (P : CorrPool W) (rules : List CorrRule) (ci : ℕ) (r : CorrRule)
    (w : W) : List (List CStr × GroupInput) :=
  ((P.pc w).target rules ci r).toList ++ (P.calls w).filterMap (·.target rules ci r)

section Target

variable {rules : List CorrRule} {caps : CorrCaps} {e : CorrEngine} {ci : ℕ} {r : CorrRule}

/-- Past the sweep a call has still to give what it says. -/
theorem target_work (h : EngineOk rules caps e) (hr : (admittedRules rules)[ci]? = some r)
    (c : CorrCall) :
    (c.work e).target (admittedRules rules) ci r = c.target (admittedRules rules) ci r := by
  have hevent : ∀ (ev : CorrEvent) (apply : Option (CorrRule → List CStr → Bool)),
      (WorkerPc.visiting ev apply [] (e.entries ev)).target (admittedRules rules) ci r =
        eventTarget r ev apply := by
    intro ev apply
    rw [WorkerPc.target, if_neg List.not_mem_nil, CorrEngine.entries, h.find_watch hr, eventTarget,
      Option.bind_map]
    rfl
  cases c with
  | event ev apply => exact hevent ev apply
  | contribution c field =>
    rw [CorrCall.work, CorrCall.target]
    split
    · exact hevent _ none
    · rfl

/-- A call that returns at once gives nothing. -/
theorem target_of_returnsAtOnce (h : EngineOk rules caps e)
    (hr : (admittedRules rules)[ci]? = some r) {c : CorrCall} (hc : c.returnsAtOnce e = true) :
    c.target (admittedRules rules) ci r = none := by
  have hevent : ∀ (ev : CorrEvent) (apply : Option (CorrRule → List CStr → Bool)),
      e.states.length = 0 ∨ ev.rids.length = 0 → eventTarget r ev apply = none := by
    intro ev apply hempty
    rcases hempty with hlen | hlen
    · obtain ⟨st, hst, -⟩ := h.state_of_rule hr
      rw [List.length_eq_zero_iff.mp hlen] at hst
      cases hst
    · rw [eventTarget, List.length_eq_zero_iff.mp hlen]
      rfl
  cases c with
  | event ev apply => exact hevent ev apply (of_decide_eq_true hc)
  | contribution c field =>
    rw [CorrCall.returnsAtOnce] at hc
    rw [CorrCall.target]
    split at hc
    · rename_i hkind
      rw [if_pos hkind]
      exact hevent _ none (of_decide_eq_true hc)
    · rename_i hkind
      rw [if_neg hkind, contribTarget]
      rcases of_decide_eq_true hc with hid | hid <;> rw [hid]

end Target

/-! ## What a step leaves alone

The frame of a step, for the other workers: they are where they were, have the calls they had, and
so have the same to give.  It is proved once for every move. -/

/-- A step of a worker, as the others see it. -/
structure StepFrame {W : Type} (P : CorrPool W) (w : W) (P' : CorrPool W) : Prop where
  caps : P'.engine.caps = P.engine.caps
  index : P'.engine.ridBuckets = P.engine.ridBuckets
  pc : ∀ v, v ≠ w → P'.pc v = P.pc v
  calls : ∀ v, v ≠ w → P'.calls v = P.calls v

theorem StepFrame.refl {W : Type} {P : CorrPool W} {w : W} : StepFrame P w P :=
  ⟨rfl, rfl, fun _ _ => rfl, fun _ _ => rfl⟩

/-- What another worker has to give. -/
theorem StepFrame.pending {W : Type} {P P' : CorrPool W} {w v : W} (h : StepFrame P w P')
    (hv : v ≠ w) (rules : List CorrRule) (ci : ℕ) (r : CorrRule) :
    P'.pending rules ci r v = P.pending rules ci r v := by
  rw [CorrPool.pending, CorrPool.pending, h.pc v hv, h.calls v hv]

/-- A change of correlations and counters only. -/
structure SameWorkers {W : Type} (P P' : CorrPool W) : Prop where
  caps : P'.engine.caps = P.engine.caps
  index : P'.engine.ridBuckets = P.engine.ridBuckets
  pc : P'.pc = P.pc
  calls : P'.calls = P.calls
  sweeper : P'.sweeper = P.sweeper

theorem SameWorkers.frame {W : Type} {P P' : CorrPool W} (h : SameWorkers P P') (w : W) :
    StepFrame P w P' :=
  ⟨h.caps, h.index, fun v _ => congrFun h.pc v, fun v _ => congrFun h.calls v⟩

theorem SameWorkers.refl {W : Type} {P : CorrPool W} : SameWorkers P P := ⟨rfl, rfl, rfl, rfl, rfl⟩

section Same

variable {W : Type} (fp : Doubles) (P : CorrPool W)

/-- An entry of the loop leaves the workers where they are. -/
theorem visitEntry_same (w : W) (ev : CorrEvent) (apply : Option (CorrRule → List CStr → Bool))
    (p : UInt32 × ℕ) : SameWorkers P (visitEntry fp P w ev apply p) := by
  unfold visitEntry
  cases P.engine.states[p.2]? with
  | none => exact .refl
  | some st =>
    dsimp only
    cases resolveGroup st.rule ev p.1 with
    | none => exact ⟨rfl, rfl, rfl, rfl, rfl⟩
    | some key =>
      dsimp only
      split
      · exact ⟨rfl, rfl, rfl, rfl, rfl⟩
      · exact .refl

/-- So does a partial. -/
theorem deliver_same (w : W) (c : CorrContrib) : SameWorkers P (deliver fp P w c) := by
  unfold deliver
  split
  · exact .refl
  · exact .refl
  · split
    · exact .refl
    · split
      · exact .refl
      · split
        · exact ⟨rfl, rfl, rfl, rfl, rfl⟩
        · split
          · exact ⟨rfl, rfl, rfl, rfl, rfl⟩
          · exact ⟨rfl, rfl, rfl, rfl, rfl⟩

end Same

section Frame

variable {W : Type} [DecidableEq W] {fp : Doubles} {P P' : CorrPool W} {w : W}

@[simp] theorem CorrPool.goto_engine (pc : WorkerPc) : (P.goto w pc).engine = P.engine := rfl

@[simp] theorem CorrPool.goto_history (pc : WorkerPc) : (P.goto w pc).history = P.history := rfl

@[simp] theorem CorrPool.goto_sweeper (pc : WorkerPc) : (P.goto w pc).sweeper = P.sweeper := rfl

@[simp] theorem CorrPool.goto_calls (pc : WorkerPc) : (P.goto w pc).calls = P.calls := rfl

@[simp] theorem CorrPool.goto_pc_self (pc : WorkerPc) : (P.goto w pc).pc w = pc :=
  Function.update_self ..

@[simp] theorem CorrPool.goto_pc_of_ne (pc : WorkerPc) {v : W} (hv : v ≠ w) :
    (P.goto w pc).pc v = P.pc v := Function.update_of_ne hv ..

theorem StepFrame.goto (h : StepFrame P w P') (pc : WorkerPc) : StepFrame P w (P'.goto w pc) :=
  ⟨h.caps, h.index, fun v hv => (CorrPool.goto_pc_of_ne pc hv).trans (h.pc v hv), h.calls⟩

/-- A worker that moves on, with another engine or lock. -/
theorem StepFrame.of_same {pc : WorkerPc} (hcaps : P'.engine.caps = P.engine.caps)
    (hindex : P'.engine.ridBuckets = P.engine.ridBuckets) (hpc : P'.pc = P.pc)
    (hcalls : P'.calls = P.calls) : StepFrame P w (P'.goto w pc) :=
  StepFrame.goto ⟨hcaps, hindex, fun v _ => congrFun hpc v, fun v _ => congrFun hcalls v⟩ pc

/-- A worker that takes its next call. -/
theorem StepFrame.of_take {cs : List CorrCall} (hcaps : P'.engine.caps = P.engine.caps)
    (hindex : P'.engine.ridBuckets = P.engine.ridBuckets) (hpc : P'.pc = P.pc)
    (hcalls : P'.calls = Function.update P.calls w cs) : StepFrame P w P' :=
  ⟨hcaps, hindex, fun v _ => congrFun hpc v,
    fun v hv => (congrFun hcalls v).trans (Function.update_of_ne hv ..)⟩

theorem WorkerMove.frame (h : WorkerMove fp P w P') : StepFrame P w P' := by
  cases h with
  | rests => exact .refl
  | returns => exact StepFrame.of_take rfl rfl rfl rfl
  | passes =>
    refine StepFrame.goto ?_ _
    exact .of_take rfl rfl rfl rfl
  | enters =>
    refine StepFrame.goto ?_ _
    exact .of_take rfl rfl rfl rfl
  | starts => exact .of_same rfl rfl rfl rfl
  | skips => exact .of_same rfl rfl rfl rfl
  | begins => exact .of_same rfl rfl rfl rfl
  | drops => exact .of_same rfl rfl rfl rfl
  | keeps => exact StepFrame.refl.goto _
  | unlocks => exact .of_same rfl rfl rfl rfl
  | leaves => exact StepFrame.refl.goto _
  | seen => exact StepFrame.refl.goto _
  | visits => exact ((visitEntry_same fp P w _ _ _).frame w).goto _
  | delivers => exact ((deliver_same fp P w _).frame w).goto _

end Frame

/-! ## What a step does

The other half: what the worker itself does to a correlation.  Most moves do nothing to any.  The
two that act are the entry of the loop over the index and the delivery of a partial; each has a
lemma of its own, and `WorkerMove.effect` puts them together. -/

/-- What a step of a worker does: nothing to the correlations, or an act on one of them.  An input is
one that the worker had to give. -/
inductive WorkerEffect {W : Type} (fp : Doubles) (rules : List CorrRule)
    (P : CorrPool W) (w : W) (P' : CorrPool W) : Prop
  | quiet (states : P'.engine.states = P.engine.states) (history : P'.history = P.history)
      (evicted : P'.engine.stats .groupsEvicted = P.engine.stats .groupsEvicted)
      (pending : ∀ ci r, rules[ci]? = some r → P'.pending rules ci r w = P.pending rules ci r w)
  | drop (cj : ℕ) (st : CorrState) (c : CorrCall) (hst : P.engine.states[cj]? = some st)
      (hc : P.pc w = .sweeping c cj)
      (states : P'.engine.states =
        P.engine.states.set cj (cstateDropExpired st (c.ts - st.rule.timespanS)))
      (history : P'.history = P.history ++ [⟨w, cj, .drop (c.ts - st.rule.timespanS), none⟩])
      (evicted : P'.engine.stats .groupsEvicted = P.engine.stats .groupsEvicted)
      (pending : ∀ ci r, rules[ci]? = some r → P'.pending rules ci r w = P.pending rules ci r w)
  | input (cj : ℕ) (st : CorrState) (key : List CStr) (i : GroupInput)
      (hst : P.engine.states[cj]? = some st)
      (states : P'.engine.states =
        P.engine.states.set cj (cstateInput fp P.engine.caps st key i).1)
      (history : P'.history = P.history ++
        [⟨w, cj, .input key i, some (cstateInput fp P.engine.caps st key i).2⟩])
      (evicted : P'.engine.stats .groupsEvicted = P.engine.stats .groupsEvicted +
        (cstateInput fp P.engine.caps st key i).2.incs.count .groupsEvicted)
      (pending_self : P.pending rules cj st.rule w = (key, i) :: P'.pending rules cj st.rule w)
      (pending : ∀ ci r, rules[ci]? = some r → ci ≠ cj →
        P'.pending rules ci r w = P.pending rules ci r w)

section Entries

variable {W : Type} (fp : Doubles) {rules : List CorrRule} {caps : CorrCaps}
  {P : CorrPool W}

/-- Hits without room evict nothing. -/
theorem count_hitIncs (r : CorrRule) (rids : List UInt32) :
    P.engine.stats .groupsEvicted + (hitIncs r rids).count .groupsEvicted =
      P.engine.stats .groupsEvicted := by
  rw [hitIncs, List.count_replicate, if_neg (by decide), Nat.add_zero]

/-- An entry of the loop for a correlation that was not visited. -/
theorem visitEntry_cases (h : EngineOk rules caps P.engine) (w : W) (ev : CorrEvent)
    (apply : Option (CorrRule → List CStr → Bool)) (p : UInt32 × ℕ) :
    ((visitEntry fp P w ev apply p).engine.states = P.engine.states ∧
      (visitEntry fp P w ev apply p).history = P.history ∧
      (visitEntry fp P w ev apply p).engine.stats .groupsEvicted =
        P.engine.stats .groupsEvicted ∧
      ∀ r, (admittedRules rules)[p.2]? = some r → ((resolveGroup r ev p.1).bind fun key =>
        if apply.all fun f => f r key then some (key, ev.input r) else none) = none) ∨
    ∃ st key, P.engine.states[p.2]? = some st ∧
      ((resolveGroup st.rule ev p.1).bind fun key =>
        if apply.all fun f => f st.rule key then some (key, ev.input st.rule) else none) =
          some (key, ev.input st.rule) ∧
      (visitEntry fp P w ev apply p).engine.states =
        P.engine.states.set p.2 (cstateInput fp P.engine.caps st key (ev.input st.rule)).1 ∧
      (visitEntry fp P w ev apply p).history = P.history ++
        [⟨w, p.2, .input key (ev.input st.rule),
          some (cstateInput fp P.engine.caps st key (ev.input st.rule)).2⟩] ∧
      (visitEntry fp P w ev apply p).engine.stats .groupsEvicted =
        P.engine.stats .groupsEvicted + (cstateInput fp P.engine.caps st key
          (ev.input st.rule)).2.incs.count .groupsEvicted := by
  unfold visitEntry
  cases hst : P.engine.states[p.2]? with
  | none =>
    refine .inl ⟨rfl, rfl, rfl, fun r hr => ?_⟩
    obtain ⟨st, hst', -⟩ := h.state_of_rule hr
    rw [hst] at hst'
    cases hst'
  | some st =>
    have hrule : ∀ r, (admittedRules rules)[p.2]? = some r → r = st.rule := fun r hr =>
      Option.some.inj (hr.symm.trans (h.rule_of_state hst))
    dsimp only
    cases hkey : resolveGroup st.rule ev p.1 with
    | none =>
      refine .inl ⟨rfl, rfl, rfl, fun r hr => ?_⟩
      rw [hrule r hr, hkey]
      rfl
    | some key =>
      dsimp only
      by_cases happly : (apply.all fun f => f st.rule key) = true
      · rw [if_pos happly]
        refine .inr ⟨st, key, rfl, ?_, rfl, rfl, ?_⟩
        · rw [hkey, Option.bind_some, if_pos happly]
        · exact congrArg (· + _) (count_hitIncs st.rule ev.rids)
      · rw [if_neg happly]
        refine .inl ⟨rfl, rfl, rfl, fun r hr => ?_⟩
        rw [hrule r hr, hkey, Option.bind_some, if_neg happly]

/-- A partial. -/
theorem deliver_cases (h : EngineOk rules caps P.engine) (w : W) (c : CorrContrib) :
    ((deliver fp P w c).engine.states = P.engine.states ∧
      (deliver fp P w c).history = P.history ∧
      (deliver fp P w c).engine.stats .groupsEvicted = P.engine.stats .groupsEvicted ∧
      ∀ ci r, (admittedRules rules)[ci]? = some r →
        contribTarget (admittedRules rules) ci r c = none) ∨
    ∃ cj st key, P.engine.states[cj]? = some st ∧
      contribTarget (admittedRules rules) cj st.rule c = some (key, .contrib c) ∧
      (∀ ci r, ci ≠ cj → contribTarget (admittedRules rules) ci r c = none) ∧
      (deliver fp P w c).engine.states =
        P.engine.states.set cj (cstateInput fp P.engine.caps st key (.contrib c)).1 ∧
      (deliver fp P w c).history = P.history ++ [⟨w, cj, .input key (.contrib c),
        some (cstateInput fp P.engine.caps st key (.contrib c)).2⟩] ∧
      (deliver fp P w c).engine.stats .groupsEvicted = P.engine.stats .groupsEvicted +
        (cstateInput fp P.engine.caps st key (.contrib c)).2.incs.count .groupsEvicted := by
  unfold deliver contribTarget
  match hid : c.corrId with
  | none => exact .inl ⟨rfl, rfl, rfl, fun _ _ _ => rfl⟩
  | some [] => exact .inl ⟨rfl, rfl, rfl, fun _ _ _ => rfl⟩
  | some (x :: xs) =>
    dsimp only
    rw [h.findIdx?_states]
    cases hcj : (admittedRules rules).findIdx? fun r => r.id == some (x :: xs) with
    | none => exact .inl ⟨rfl, rfl, rfl, fun ci r _ => if_neg fun hand => nomatch hand.1⟩
    | some cj =>
      obtain ⟨hlt, -⟩ := List.findIdx?_eq_some_iff_getElem.mp hcj
      obtain ⟨st, hst, hrule⟩ := h.state_of_rule (List.getElem?_eq_getElem hlt)
      -- the partial is for no other correlation
      have hother : ∀ (ci : ℕ) (r : CorrRule), ci ≠ cj →
          (if some cj = some ci ∧ c.groupVals.length = r.groupBy.length then
            (c.groupVals.mapM fun v => v).map fun key => (key, GroupInput.contrib c)
          else none) = none := fun ci r hne => if_neg fun hand => hne (Option.some.inj hand.1).symm
      have hself : ∀ r, (admittedRules rules)[cj]? = some r → r = st.rule := fun r hr =>
        Option.some.inj (hr.symm.trans (h.rule_of_state hst))
      dsimp only
      rw [hst]
      dsimp only
      by_cases hlen : c.groupVals.length = st.rule.groupBy.length
      · rw [if_neg (not_not.mpr hlen)]
        cases hkey : c.groupVals.mapM fun v => v with
        | none => exact .inl ⟨rfl, rfl, rfl, fun ci r hr => ite_self _⟩
        | some key =>
          refine .inr ⟨cj, st, key, hst, if_pos ⟨rfl, hlen⟩, fun ci r hne => ?_, rfl, rfl, rfl⟩
          have hnone := hother ci r hne
          rwa [hkey] at hnone
      · rw [if_pos hlen]
        refine .inl ⟨rfl, rfl, rfl, fun ci r hr => ?_⟩
        by_cases hne : ci = cj
        · subst hne
          rw [hself r hr]
          exact if_neg fun hand => hlen hand.2
        · exact hother ci r hne

end Entries

section Effect

variable {W : Type} [DecidableEq W] {fp : Doubles} {rules : List CorrRule}
  {caps : CorrCaps} {P P' : CorrPool W} {w : W}

/-- What a worker has to give from a place on. -/
theorem CorrPool.pending_goto (pc : WorkerPc) (ci : ℕ) (r : CorrRule) :
    (P.goto w pc).pending rules ci r w =
      (pc.target rules ci r).toList ++ (P.calls w).filterMap (·.target rules ci r) := by
  rw [pending, goto_pc_self, goto_calls]

omit [DecidableEq W] in
/-- What a worker between calls has to give. -/
theorem pending_of_calls {c : CorrCall} {cs : List CorrCall} (hpc : P.pc w = .idle)
    (hcalls : P.calls w = c :: cs) (ci : ℕ) (r : CorrRule) :
    P.pending rules ci r w =
      (c.target rules ci r).toList ++ cs.filterMap (·.target rules ci r) := by
  rw [CorrPool.pending, hpc, hcalls, List.filterMap_cons]
  cases c.target rules ci r <;> rfl

/-- A worker that goes from a place to one with as much to give. -/
theorem WorkerEffect.of_target {pc : WorkerPc} (hstates : P'.engine.states = P.engine.states)
    (hstats : P'.engine.stats = P.engine.stats) (hhistory : P'.history = P.history)
    (hcalls : P'.calls w = P.calls w)
    (htarget : ∀ ci r, rules[ci]? = some r → pc.target rules ci r = (P.pc w).target rules ci r) :
    WorkerEffect fp rules P w (P'.goto w pc) := by
  refine .quiet hstates hhistory (congrFun hstats _) fun ci r hr => ?_
  rw [CorrPool.pending_goto, hcalls, htarget ci r hr, CorrPool.pending]

/-- A worker that takes its next call. -/
theorem WorkerEffect.of_take {c : CorrCall} {cs : List CorrCall} {pc : WorkerPc}
    (hpc : P.pc w = .idle) (hcalls : P.calls w = c :: cs)
    (hstates : P'.engine.states = P.engine.states) (hstats : P'.engine.stats = P.engine.stats)
    (hhistory : P'.history = P.history) (hcs : P'.calls w = cs)
    (htarget : ∀ ci r, rules[ci]? = some r → pc.target rules ci r = c.target rules ci r) :
    WorkerEffect fp rules P w (P'.goto w pc) := by
  refine .quiet hstates hhistory (congrFun hstats _) fun ci r hr => ?_
  rw [CorrPool.pending_goto, hcs, htarget ci r hr, pending_of_calls hpc hcalls]

/-- A call that returns at once. -/
theorem WorkerEffect.of_returns (h : EngineOk rules caps P.engine) {c : CorrCall}
    {cs : List CorrCall} (hpc : P.pc w = .idle) (hcalls : P.calls w = c :: cs)
    (hnow : c.returnsAtOnce P.engine = true) :
    WorkerEffect fp (admittedRules rules) P w { P with calls := Function.update P.calls w cs } := by
  have hcs : ({ P with calls := Function.update P.calls w cs } : CorrPool W).calls w = cs :=
    Function.update_self ..
  refine .quiet rfl rfl rfl fun ci r hr => ?_
  rw [pending_of_calls hpc hcalls, target_of_returnsAtOnce h hr hnow, CorrPool.pending, hpc, hcs]
  rfl

/-- The rest of the loop past an entry for another correlation, or for one that was visited. -/
theorem visiting_skip {β : Type} (f : Option (UInt32 × ℕ) → β) (z : β) {visited visited' : List ℕ}
    {p : UInt32 × ℕ} (todo : List (UInt32 × ℕ)) {ci : ℕ} (hvisited : ci ∈ visited' ↔ ci ∈ visited)
    (hp : p.2 = ci → ci ∈ visited) :
    (if ci ∈ visited' then z else f (todo.find? fun p => p.2 == ci)) =
      if ci ∈ visited then z else f ((p :: todo).find? fun p => p.2 == ci) := by
  rw [if_congr hvisited rfl rfl]
  by_cases hci : ci ∈ visited
  · rw [if_pos hci, if_pos hci]
  · have hne : (p.2 == ci) = false := beq_eq_false_iff_ne.mpr fun heq => hci (hp heq)
    rw [if_neg hci, if_neg hci, List.find?_cons, hne]

/-- A correlation is visited when it is the one of the entry, or was before. -/
theorem mem_visited_of_ne {ci cj : ℕ} {visited : List ℕ} (hne : ci ≠ cj) :
    ci ∈ cj :: visited ↔ ci ∈ visited :=
  ⟨fun hin => (List.mem_cons.mp hin).resolve_left hne, List.mem_cons_of_mem _⟩

/-- An entry of the loop for a correlation that was not visited. -/
theorem WorkerEffect.of_visit (h : EngineOk rules caps P.engine) {ev : CorrEvent}
    {apply : Option (CorrRule → List CStr → Bool)} {visited : List ℕ} {p : UInt32 × ℕ}
    {todo : List (UInt32 × ℕ)} (hpc : P.pc w = .visiting ev apply visited (p :: todo))
    (hnew : p.2 ∉ visited) :
    WorkerEffect fp (admittedRules rules) P w
      ((visitEntry fp P w ev apply p).goto w (.visiting ev apply (p.2 :: visited) todo)) := by
  have hcalls := (visitEntry_same fp P w ev apply p).calls
  -- an entry changes what is to give to its own correlation only
  have hother : ∀ ci r, ci ≠ p.2 →
      ((visitEntry fp P w ev apply p).goto w (.visiting ev apply (p.2 :: visited) todo)).pending
        (admittedRules rules) ci r w = P.pending (admittedRules rules) ci r w := by
    intro ci r hne
    rw [CorrPool.pending_goto, hcalls, CorrPool.pending, hpc, WorkerPc.target, WorkerPc.target]
    rw [visiting_skip (fun q => q.bind _) none todo (mem_visited_of_ne hne)
      fun heq => absurd heq.symm hne]
  have hafter : ∀ r, ((visitEntry fp P w ev apply p).goto w
      (.visiting ev apply (p.2 :: visited) todo)).pending (admittedRules rules) p.2 r w =
        (P.calls w).filterMap (·.target (admittedRules rules) p.2 r) := by
    intro r
    rw [CorrPool.pending_goto, hcalls, WorkerPc.target, if_pos List.mem_cons_self]
    rfl
  have hbefore : ∀ r, P.pending (admittedRules rules) p.2 r w =
      ((resolveGroup r ev p.1).bind fun key =>
        if apply.all fun f => f r key then some (key, ev.input r) else none).toList ++
          (P.calls w).filterMap (·.target (admittedRules rules) p.2 r) := by
    intro r
    rw [CorrPool.pending, hpc, WorkerPc.target, if_neg hnew, List.find?_cons, beq_self_eq_true]
    rfl
  rcases visitEntry_cases fp h w ev apply p with ⟨hstates, hhistory, hevicted, hnone⟩ |
    ⟨st, key, hst, htarget, hstates, hhistory, hevicted⟩
  · refine .quiet hstates hhistory hevicted fun ci r hr => ?_
    by_cases hne : ci = p.2
    · subst hne
      rw [hafter, hbefore, hnone r hr]
      rfl
    · exact hother ci r hne
  · refine .input p.2 st key _ hst hstates hhistory hevicted ?_ fun ci r _ hne => hother ci r hne
    rw [hafter, hbefore, htarget]
    rfl

/-- A partial. -/
theorem WorkerEffect.of_deliver (h : EngineOk rules caps P.engine) {c : CorrContrib}
    (hpc : P.pc w = .delivering c) :
    WorkerEffect fp (admittedRules rules) P w ((deliver fp P w c).goto w .idle) := by
  have hafter : ∀ ci r, ((deliver fp P w c).goto w .idle).pending (admittedRules rules) ci r w =
      (P.calls w).filterMap (·.target (admittedRules rules) ci r) := by
    intro ci r
    rw [CorrPool.pending_goto, (deliver_same fp P w c).calls]
    rfl
  have hbefore : ∀ ci r, P.pending (admittedRules rules) ci r w =
      (contribTarget (admittedRules rules) ci r c).toList ++
        (P.calls w).filterMap (·.target (admittedRules rules) ci r) := by
    intro ci r
    rw [CorrPool.pending, hpc]
    rfl
  rcases deliver_cases fp h w c with ⟨hstates, hhistory, hevicted, hnone⟩ |
    ⟨cj, st, key, hst, htarget, hnone, hstates, hhistory, hevicted⟩
  · refine .quiet hstates hhistory hevicted fun ci r hr => ?_
    rw [hafter, hbefore, hnone ci r hr]
    rfl
  · refine .input cj st key _ hst hstates hhistory hevicted ?_ fun ci r _ hne => ?_
    · rw [hafter, hbefore, htarget]
      rfl
    · rw [hafter, hbefore, hnone ci r hne]
      rfl

/-- **One step of a worker.** -/
theorem WorkerMove.effect (h : EngineOk rules caps P.engine) (hmove : WorkerMove fp P w P') :
    WorkerEffect fp (admittedRules rules) P w P' := by
  cases hmove with
  | rests => exact .quiet rfl rfl rfl fun _ _ _ => rfl
  | returns hpc hcalls hnow => exact .of_returns h hpc hcalls hnow
  | @passes c cs hpc hcalls =>
    exact .of_take hpc hcalls rfl rfl rfl (Function.update_self ..) fun ci r hr => target_work h hr c
  | enters hpc hcalls =>
    exact .of_take hpc hcalls rfl rfl rfl (Function.update_self ..) fun _ _ _ => rfl
  | @starts c hpc =>
    exact .of_target rfl rfl rfl rfl fun ci r hr => (target_work h hr c).trans (by rw [hpc]; rfl)
  | @skips c hpc =>
    exact .of_target rfl rfl rfl rfl fun ci r hr => (target_work h hr c).trans (by rw [hpc]; rfl)
  | begins hpc => exact .of_target rfl rfl rfl rfl fun ci r _ => by rw [hpc]; rfl
  | @drops c n st hpc hst =>
    refine .drop n st c hst hpc rfl rfl rfl fun ci r _ => ?_
    rw [CorrPool.pending_goto, CorrPool.pending, hpc]
    rfl
  | keeps hpc => exact .of_target rfl rfl rfl rfl fun ci r _ => by rw [hpc]; rfl
  | @unlocks c n hpc =>
    exact .of_target rfl rfl rfl rfl fun ci r hr => (target_work h hr c).trans (by rw [hpc]; rfl)
  | leaves hpc =>
    refine .of_target rfl rfl rfl rfl fun ci r _ => ?_
    rw [hpc, WorkerPc.target, WorkerPc.target]
    exact (ite_self _).symm
  | @seen ev apply visited p todo hpc hmem =>
    refine .of_target rfl rfl rfl rfl fun ci r _ => ?_
    rw [hpc, WorkerPc.target, WorkerPc.target]
    exact visiting_skip (fun q => q.bind _) none todo .rfl fun heq => heq ▸ hmem
  | visits hpc hnew => exact .of_visit h hpc hnew
  | delivers hpc => exact .of_deliver h hpc

end Effect

/-! ## The sweep lock

`sweep_lock` is taken with a try and given back when the last correlation is swept.  So at most one
worker is in a sweep, the lock is held exactly while one is, and the sweep belongs to a call that
this worker is making.  Nothing else of the model depends on which worker that is. -/

/-- The call of a worker that holds `sweep_lock`. -/
def WorkerPc.sweepCall : WorkerPc → Option CorrCall
  | .entered c | .sweeping c _ => some c
  | .idle | .visiting _ _ _ _ | .delivering _ => none

@[simp] theorem sweepCall_work (e : CorrEngine) (c : CorrCall) : (c.work e).sweepCall = none := by
  cases c with
  | event ev apply => rfl
  | contribution c field =>
    rw [CorrCall.work]
    split <;> rfl

section Lock

variable {W : Type} [DecidableEq W] {fp : Doubles} {P P' : CorrPool W} {w : W}

omit [DecidableEq W] in
/-- Who holds `sweep_lock`. -/
def CorrPool.Locked (P : CorrPool W) : Prop :=
  ∀ v, (P.pc v).sweepCall.isSome = true ↔ P.sweeper = some v

omit [DecidableEq W] in
/-- A worker in a sweep holds the lock. -/
theorem CorrPool.Locked.holds (h : P.Locked) {pc : WorkerPc} (hpc : P.pc w = pc)
    (hsweep : pc.sweepCall.isSome = true) : P.sweeper = some w :=
  (h w).mp (hpc ▸ hsweep)

/-- A worker that enters a sweep takes the free lock. -/
theorem CorrPool.Locked.acquire (h : P.Locked) (hfree : P.sweeper = none) {pc : WorkerPc}
    (hpc : P'.pc = Function.update P.pc w pc) (hsweeper : P'.sweeper = some w)
    (hsome : pc.sweepCall.isSome = true) : P'.Locked := by
  intro v
  rw [hpc, hsweeper]
  by_cases hv : v = w
  · rw [hv, Function.update_self, hsome]
    simp
  · rw [Function.update_of_ne hv, h, hfree]
    simp [Ne.symm hv]

/-- A worker that goes to a place past the sweep gives the lock back. -/
theorem CorrPool.Locked.release (h : P.Locked) (hw : P.sweeper = some w) {pc : WorkerPc}
    (hpc : P'.pc = Function.update P.pc w pc) (hsweeper : P'.sweeper = none)
    (hnone : pc.sweepCall = none) : P'.Locked := by
  intro v
  rw [hpc, hsweeper]
  by_cases hv : v = w
  · rw [hv, Function.update_self, hnone]
    simp
  · rw [Function.update_of_ne hv, h, hw]
    simp [Ne.symm hv]

/-- A worker that stays on its side of the sweep. -/
theorem CorrPool.Locked.stay (h : P.Locked) {pc : WorkerPc}
    (hpc : P'.pc = Function.update P.pc w pc) (hsweeper : P'.sweeper = P.sweeper)
    (hsame : pc.sweepCall.isSome = (P.pc w).sweepCall.isSome) : P'.Locked := by
  intro v
  rw [hpc, hsweeper]
  by_cases hv : v = w
  · rw [hv, Function.update_self, hsame]
    exact h w
  · rw [Function.update_of_ne hv]
    exact h v

/-- **One sweep at a time**, and it is that of a call of the worker. -/
theorem WorkerMove.locked (hmove : WorkerMove fp P w P') (h : P.Locked) : P'.Locked := by
  cases hmove with
  | rests => exact h
  | returns => exact h
  | passes hpc => exact h.stay rfl rfl (by rw [sweepCall_work, hpc]; rfl)
  | enters hpc _ _ hfree => exact h.acquire hfree rfl rfl rfl
  | starts hpc => exact h.release (h.holds hpc rfl) rfl rfl (sweepCall_work _ _)
  | skips hpc => exact h.release (h.holds hpc rfl) rfl rfl (sweepCall_work _ _)
  | begins hpc => exact h.stay rfl rfl (by rw [hpc]; rfl)
  | drops hpc => exact h.stay rfl rfl (by rw [hpc]; rfl)
  | keeps hpc => exact h.stay rfl rfl (by rw [hpc]; rfl)
  | unlocks hpc => exact h.release (h.holds hpc rfl) rfl rfl (sweepCall_work _ _)
  | leaves hpc => exact h.stay rfl rfl (by rw [hpc]; rfl)
  | seen hpc => exact h.stay rfl rfl (by rw [hpc]; rfl)
  | @visits ev apply _ p _ hpc =>
    have hsame := visitEntry_same fp P w ev apply p
    exact h.stay (congrArg (Function.update · w _) hsame.pc) hsame.sweeper (by rw [hpc]; rfl)
  | @delivers c hpc =>
    have hsame := deliver_same fp P w c
    exact h.stay (congrArg (Function.update · w _) hsame.pc) hsame.sweeper (by rw [hpc]; rfl)

/-- The call that a worker begins with its next step. -/
def CorrPool.nextCall (P : CorrPool W) (w : W) : Option CorrCall :=
  match P.pc w with
  | .idle => (P.calls w).head?
  | _ => none

/-- A worker makes its calls in their order. -/
theorem WorkerMove.calls_eq (hmove : WorkerMove fp P w P') :
    (P.nextCall w).toList ++ P'.calls w = P.calls w := by
  have htake : ∀ {c : CorrCall} {cs : List CorrCall}, P.pc w = .idle → P.calls w = c :: cs →
      (P.nextCall w).toList ++ Function.update P.calls w cs w = P.calls w := by
    intro c cs hpc hcalls
    rw [CorrPool.nextCall, hpc, hcalls, Function.update_self]
    rfl
  have hstay : ∀ {pc : WorkerPc}, P.pc w = pc → pc ≠ .idle →
      (P.nextCall w).toList ++ P.calls w = P.calls w := by
    intro pc hpc hbusy
    cases pc with
    | idle => exact absurd rfl hbusy
    | _ => rw [CorrPool.nextCall, hpc]; rfl
  cases hmove with
  | rests hpc hcalls => rw [CorrPool.nextCall, hpc, hcalls]; rfl
  | returns hpc hcalls => exact htake hpc hcalls
  | passes hpc hcalls => exact htake hpc hcalls
  | enters hpc hcalls => exact htake hpc hcalls
  | starts hpc => exact hstay hpc nofun
  | skips hpc => exact hstay hpc nofun
  | begins hpc => exact hstay hpc nofun
  | drops hpc => exact hstay hpc nofun
  | keeps hpc => exact hstay hpc nofun
  | unlocks hpc => exact hstay hpc nofun
  | leaves hpc => exact hstay hpc nofun
  | seen hpc => exact hstay hpc nofun
  | visits hpc =>
    rw [CorrPool.goto_calls, (visitEntry_same fp P w _ _ _).calls]
    exact hstay hpc nofun
  | delivers hpc =>
    rw [CorrPool.goto_calls, (deliver_same fp P w _).calls]
    exact hstay hpc nofun

/-- A sweep is that of a call of its worker. -/
theorem WorkerMove.sweepCall (hmove : WorkerMove fp P w P') {c : CorrCall}
    (hc : (P'.pc w).sweepCall = some c) : (P.pc w).sweepCall = some c ∨ c ∈ P.calls w := by
  have hpast : ∀ {Q : CorrPool W} {pc : WorkerPc}, ((Q.goto w pc).pc w).sweepCall = some c →
      pc.sweepCall ≠ none := fun hsome hnone => by
    rw [CorrPool.goto_pc_self, hnone] at hsome
    cases hsome
  cases hmove with
  | rests => exact .inl hc
  | returns => exact .inl hc
  | passes => exact absurd (sweepCall_work _ _) (hpast hc)
  | enters _ hcalls =>
    rw [CorrPool.goto_pc_self] at hc
    cases hc
    exact .inr (hcalls ▸ List.mem_cons_self)
  | starts => exact absurd (sweepCall_work _ _) (hpast hc)
  | skips => exact absurd (sweepCall_work _ _) (hpast hc)
  | begins hpc => exact .inl (by rw [hpc]; rwa [CorrPool.goto_pc_self] at hc)
  | drops hpc => exact .inl (by rw [hpc]; rwa [CorrPool.goto_pc_self] at hc)
  | keeps hpc => exact .inl (by rw [hpc]; rwa [CorrPool.goto_pc_self] at hc)
  | unlocks => exact absurd (sweepCall_work _ _) (hpast hc)
  | leaves => exact absurd rfl (hpast hc)
  | seen => exact absurd rfl (hpast hc)
  | visits => exact absurd rfl (hpast hc)
  | delivers => exact absurd rfl (hpast hc)

end Lock

/-! ## Runs

`PoolOk` is the invariant of a run.  It says of the history that replaying it on a new engine leads
to the correlations as they are, and of each worker that what it has given and what it has still to
give make up its calls.  It speaks of each correlation on its own, which is all that the locks
provide: between two correlations a run has no order. -/

/-- The input of an act. -/
def CorrAct.input? : CorrAct → Option (List CStr × GroupInput)
  | .drop _ => none
  | .input key i => some (key, i)

/-- The acts on a correlation keep its bounds. -/
theorem bounded_of_replays {W : Type} {fp : Doubles} {caps : CorrCaps}
    {H : List (Acted W CorrAct (Option GroupOutcome))} {st st' : CorrState}
    (hst : st.Bounded caps.withDefaults)
    (h : Replays (CorrAct.run fp caps.withDefaults) st H st') : st'.Bounded caps.withDefaults := by
  refine h.invariant (P := fun _ st => st.Bounded caps.withDefaults) hst
    fun H t w i a _ ht => ?_
  cases a with
  | drop horizon => exact ht.drop horizon
  | input key i =>
    exact ht.input fp (withDefaults_maxGroups_pos caps) (withDefaults_maxEvents_pos caps)
      (withDefaults_maxDistinct_pos caps) key i

section Runs

variable {W : Type} [DecidableEq W]

/-- What a worker has given to a correlation. -/
def inputsBy (w : W) (ci : ℕ) (H : List (Acted W CorrAct (Option GroupOutcome))) :
    List (List CStr × GroupInput) :=
  H.filterMap fun x => if x.worker = w ∧ x.obj = ci then x.act.input? else none

theorem inputsBy_concat (w v : W) (ci cj : ℕ) (H : List (Acted W CorrAct (Option GroupOutcome)))
    (a : CorrAct) (o : Option GroupOutcome) :
    inputsBy w ci (H ++ [⟨v, cj, a, o⟩]) =
      inputsBy w ci H ++ (if v = w ∧ cj = ci then a.input? else none).toList := by
  rw [inputsBy, filterMap_concat]
  rfl

/-- The groups that some acts evicted. -/
def evictions (H : List (Acted W CorrAct (Option GroupOutcome))) : ℕ :=
  (H.map fun x => (x.result.map fun o => o.incs.count .groupsEvicted).getD 0).sum

omit [DecidableEq W] in
@[simp] theorem evictions_concat (H : List (Acted W CorrAct (Option GroupOutcome)))
    (x : Acted W CorrAct (Option GroupOutcome)) :
    evictions (H ++ [x]) =
      evictions H + (x.result.map fun o => o.incs.count .groupsEvicted).getD 0 := by
  rw [evictions, List.map_append, List.sum_append, List.map_singleton, List.sum_singleton, evictions]

variable (fp : Doubles) (rules : List CorrRule) (caps : CorrCaps)
  (prog : W → List CorrCall)

/-- What holds of workers that make the calls `prog`, whatever the schedule. -/
structure PoolOk (P : CorrPool W) : Prop where
  engine : EngineOk rules caps P.engine
  explained : Explained (CorrAct.run fp caps.withDefaults) (corrEngineNew rules caps).states
    P.engine.states P.history
  order : ∀ w ci r, (admittedRules rules)[ci]? = some r →
    inputsBy w ci P.history ++ P.pending (admittedRules rules) ci r w =
      (prog w).filterMap (·.target (admittedRules rules) ci r)
  drops : ∀ x ∈ P.history, ∀ horizon, x.act = .drop horizon →
    ∃ c ∈ prog x.worker, ∃ r, (admittedRules rules)[x.obj]? = some r ∧ horizon = c.ts - r.timespanS
  evicted : P.engine.stats .groupsEvicted = evictions P.history
  locked : P.Locked
  calls : ∀ w, P.calls w <:+ prog w
  sweeps : ∀ w c, (P.pc w).sweepCall = some c → c ∈ prog w

variable {fp rules caps prog} {P P' : CorrPool W} {w : W}

/-- A rejected rule evicts nothing. -/
theorem count_rejectIncs (rules : List CorrRule) :
    (rules.flatMap rejectIncs).count .groupsEvicted = 0 := by
  refine List.count_eq_zero.mpr fun hmem => ?_
  obtain ⟨r, -, hr⟩ := List.mem_flatMap.mp hmem
  unfold rejectIncs at hr
  split_ifs at hr <;> simp at hr

theorem poolOk_new (shared : SharedRules) (caps : CorrCaps) (prog : W → List CorrCall) :
    PoolOk fp shared.rules caps prog (.new shared caps prog) where
  engine := engineOk_new shared.rules caps
  explained := .nil _ _
  order _ _ _ _ := rfl
  drops _ hx := absurd hx List.not_mem_nil
  evicted := count_rejectIncs shared.rules
  locked _ := ⟨fun hv => (nomatch hv), fun hv => (nomatch hv)⟩
  calls _ := List.suffix_rfl
  sweeps _ _ hc := nomatch hc

/-- A step that leaves every worker what it had to give, up to one act. -/
theorem WorkerEffect.order (h : WorkerEffect fp (admittedRules rules) P w P')
    (hframe : StepFrame P w P') {v : W} {ci : ℕ} {r : CorrRule} (hok : EngineOk rules caps P.engine)
    (hr : (admittedRules rules)[ci]? = some r) :
    inputsBy v ci P'.history ++ P'.pending (admittedRules rules) ci r v =
      inputsBy v ci P.history ++ P.pending (admittedRules rules) ci r v := by
  have hother : v ≠ w → P'.pending (admittedRules rules) ci r v =
      P.pending (admittedRules rules) ci r v := fun hv => hframe.pending hv _ ci r
  cases h with
  | quiet states history evicted pending =>
    rw [history]
    by_cases hv : v = w
    · rw [hv, pending ci r hr]
    · rw [hother hv]
  | drop cj st c hst hc states history evicted pending =>
    rw [history, inputsBy_concat, CorrAct.input?, ite_self, Option.toList_none, List.append_nil]
    by_cases hv : v = w
    · rw [hv, pending ci r hr]
    · rw [hother hv]
  | input cj st key i hst states history evicted pending_self pending =>
    rw [history, inputsBy_concat, CorrAct.input?]
    by_cases hv : v = w
    · subst hv
      by_cases hci : cj = ci
      · subst hci
        obtain rfl := Option.some.inj (hr.symm.trans (hok.rule_of_state hst))
        rw [if_pos ⟨rfl, rfl⟩, pending_self, List.append_assoc]
        rfl
      · rw [if_neg fun hand => hci hand.2, Option.toList_none, List.append_nil,
          pending ci r hr (Ne.symm hci)]
    · rw [if_neg fun hand => hv hand.1.symm, Option.toList_none, List.append_nil, hother hv]

/-- **One step keeps it.** -/
theorem PoolOk.step (h : PoolOk fp rules caps prog P) (w : W) :
    PoolOk fp rules caps prog (workerStep fp P w) := by
  have hmove := workerStep_move fp P w
  have hframe := hmove.frame
  have heffect := hmove.effect h.engine
  have hcaps := h.engine.caps_eq
  have horder := fun v ci r hr => (heffect.order hframe (v := v) h.engine hr).trans (h.order v ci r hr)
  have hcalls' : ∀ v, (workerStep fp P w).calls v <:+ prog v := by
    intro v
    by_cases hv : v = w
    · rw [hv]
      exact List.IsSuffix.trans ⟨_, hmove.calls_eq⟩ (h.calls w)
    · rw [hframe.calls v hv]
      exact h.calls v
  have hsweep' : ∀ v c, ((workerStep fp P w).pc v).sweepCall = some c → c ∈ prog v := by
    intro v c hc
    by_cases hv : v = w
    · subst hv
      rcases hmove.sweepCall hc with hold | hmem
      · exact h.sweeps v c hold
      · exact (h.calls v).subset hmem
    · rw [hframe.pc v hv] at hc
      exact h.sweeps v c hc
  have hengine : ∀ (cj : ℕ) (st st' : CorrState), P.engine.states[cj]? = some st →
      st'.rule = st.rule → st'.groups.Wf hashGroupKey →
      (workerStep fp P w).engine.states = P.engine.states.set cj st' →
      EngineOk rules caps (workerStep fp P w).engine := by
    intro cj st st' hst hrule hwf hstates
    obtain ⟨hrules, hwfs, -, -⟩ := h.engine.set hst hrule hwf
    exact ⟨hstates ▸ hrules, hstates ▸ hwfs, hframe.caps.trans hcaps, hframe.index.trans h.engine.index⟩
  cases heffect with
  | quiet states history evicted pending =>
    exact ⟨⟨states ▸ h.engine.states, states ▸ h.engine.wf, hframe.caps.trans hcaps,
      hframe.index.trans h.engine.index⟩, by rw [states, history]; exact h.explained, horder,
      by rw [history]; exact h.drops, by rw [evicted, history]; exact h.evicted, hmove.locked h.locked,
      hcalls', hsweep'⟩
  | drop cj st c hst hc states history evicted pending =>
    have hwf := h.engine.wf st (List.mem_of_getElem? hst)
    have hdropped := (hwf.dropWhere fun g => g.lastUpdate < c.ts - st.rule.timespanS).1
    refine ⟨hengine cj st (cstateDropExpired st _) hst rfl hdropped states, ?_, horder, ?_, ?_,
      hmove.locked h.locked, hcalls', hsweep'⟩
    · rw [states, history]
      exact h.explained.act hst w (.drop (c.ts - st.rule.timespanS))
    · rw [history]
      intro x hx horizon hact
      rcases List.mem_append.mp hx with hold | hnew
      · exact h.drops x hold horizon hact
      · obtain rfl := List.mem_singleton.mp hnew
        cases hact
        exact ⟨c, h.sweeps w c (by rw [hc]; rfl), st.rule, h.engine.rule_of_state hst, rfl⟩
    · rw [evicted, history, evictions_concat, h.evicted]
      rfl
  | input cj st key i hst states history evicted pending_self pending =>
    have hwf := h.engine.wf st (List.mem_of_getElem? hst)
    obtain ⟨hrule, hwf', -⟩ := cstateInput_spec fp P.engine.caps hwf key i
    refine ⟨hengine cj st _ hst hrule hwf' states, ?_, horder, ?_, ?_,
      hmove.locked h.locked, hcalls', hsweep'⟩
    · rw [states, history, hcaps]
      exact h.explained.act hst w (.input key i)
    · rw [history]
      intro x hx horizon hact
      rcases List.mem_append.mp hx with hold | hnew
      · exact h.drops x hold horizon hact
      · obtain rfl := List.mem_singleton.mp hnew
        cases hact
    · rw [evicted, history, evictions_concat, h.evicted]
      rfl

variable (fp) in
theorem poolOk_run (shared : SharedRules) (caps : CorrCaps) (prog : W → List CorrCall)
    (schedule : List W) :
    PoolOk fp shared.rules caps prog (poolRun fp (.new shared caps prog) schedule) := by
  induction schedule using List.reverseRecOn with
  | nil => exact poolOk_new shared caps prog
  | append_singleton schedule w ih =>
    rw [poolRun, List.foldl_concat]
    exact ih.step w

/-- **What workers do to one engine, in any schedule.**  Each correlation is where the acts on it,
one after the other, have led, and every act has the result it has there; each worker has given to
each correlation what its calls say, in their order, up to what it has still to give; groups are only
dropped by the sweep of one of these calls, and one worker at a time sweeps; and the bounds of memory
hold. -/
theorem workers_explained (shared : SharedRules) (caps : CorrCaps) (prog : W → List CorrCall)
    (schedule : List W) :
    let P := poolRun fp (.new shared caps prog) schedule
    (∀ ci st, (corrEngineNew shared.rules caps).states[ci]? = some st →
      ∃ st', P.engine.states[ci]? = some st' ∧
        Replays (CorrAct.run fp caps.withDefaults) st (actsOn ci P.history) st' ∧
        st'.Bounded caps.withDefaults) ∧
      (∀ w ci r, (admittedRules shared.rules)[ci]? = some r →
        inputsBy w ci P.history ++ P.pending (admittedRules shared.rules) ci r w =
          (prog w).filterMap (·.target (admittedRules shared.rules) ci r)) ∧
      (∀ x ∈ P.history, ∀ horizon, x.act = .drop horizon → ∃ c ∈ prog x.worker, ∃ r,
        (admittedRules shared.rules)[x.obj]? = some r ∧ horizon = c.ts - r.timespanS) ∧
      ∀ v w, (P.pc v).sweepCall.isSome = true → (P.pc w).sweepCall.isSome = true → v = w := by
  have h := poolOk_run fp shared caps prog schedule
  refine ⟨fun ci st hst => ?_, h.order, h.drops, fun v w hv hw => ?_⟩
  · obtain ⟨st', hst', hreplays⟩ := h.explained ci st hst
    exact ⟨st', hst', hreplays, bounded_of_replays
      (bounded_corrRun fp shared.rules caps [] st (List.mem_of_getElem? hst)) hreplays⟩
  · exact Option.some.inj (((h.locked v).mp hv).symm.trans ((h.locked w).mp hw))

end Runs

end LibSigma
