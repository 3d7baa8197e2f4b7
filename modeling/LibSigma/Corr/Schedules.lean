import Mathlib.Algebra.Order.BigOperators.Group.Finset
import LibSigma.Corr.Cluster
import LibSigma.Corr.MergedCount
import LibSigma.Corr.Refire
import LibSigma.Corr.Workers

/-!
# Schedules

`LibSigma.Corr.Workers` says what holds in every schedule.  Here are two results that need more than
that: one is about the schedules without concurrency, and one about what a group makes of inputs
that many workers give to it.

## Calls one at a time

If a worker takes a step only while no other worker is in a call (`OneAtATime`), the workers
together do what one of them would.  That is a check of the model of the locks as much as a result:
the steps of a call, taken one after the other, have to add up to `corr_on_event_apply` and
`corr_on_contribution` as they are translated in `LibSigma.Corr.Engine`, for the correlations, the
clock of the sweep, the index and the counters alike.

The proof follows one worker through its call.  `Reaches` says that a worker that runs alone comes
to a place with an engine.  There is one lemma for each stretch of a call: the sweep
(`reaches_sweeping`, by induction on the correlations still to sweep), the loop of an event
(`reaches_visiting`, by induction on the entries still to visit) and a partial (`reaches_partial`).
A whole call is then `alone_call`, and a schedule is cut at the steps where a worker begins a call
(`callsBegun`).  In between, the engine is where the call in progress will bring it (`Serial`), and
that is what a step keeps.

## Bursts

The other result is about many workers at once.  Events and counts of peers for one group of an
`event_count` rule come from all of them, within less than one window.  The order in which they
reach the group is that of its lock and nobody knows it; but in any order the ring only fills up and
the merged count only grows, so that there is one input with which there is enough for the first
time.  That one fires, and its deadline lies past the end of the burst, so that no later one does.
`InBurst` states the group in terms of what it was given, and each input keeps it (`InBurst.input`).

What has to be excluded is that the group goes away in between.  A sweep drops only what is older
than a window (`Lives.act`), and an eviction by `max_groups` is a hypothesis.

* `serial_schedule`: **calls made one at a time are calls on one engine**, whichever workers make
  them.
* `lives_of_replays`: the life of a group that many workers give inputs to.
* `burst_fires_once`: **a burst of events and of counts of peers fires once**, whatever the
  schedule.
-/

namespace LibSigma

open Library

variable {W : Type} [DecidableEq W] (fp : Doubles)

/-! ## One worker alone

While the others wait, a worker goes through its call step by step, and the engine it passes on the
way is in the middle of a call.  `Reaches` is that: from one place and engine to another, by steps
of this worker alone.  The loop over the index entries is treated first, from any entry on. -/

/-- What a worker reaches in the middle of a call while the others wait. -/
inductive Alone (w : W) : CorrPool W → CorrPool W → Prop
  | refl {P : CorrPool W} : Alone w P P
  | step {P P' : CorrPool W} (hbusy : P.pc w ≠ .idle) (h : Alone w (workerStep fp P w) P') :
      Alone w P P'

variable {fp} {w : W} {P P' P'' : CorrPool W}

theorem Alone.trans (h : Alone fp w P P') (h' : Alone fp w P' P'') : Alone fp w P P'' := by
  induction h with
  | refl => exact h'
  | step hbusy _ ih => exact .step hbusy (ih h')

omit [DecidableEq W] in
/-- Where a worker has come to, with an engine and the sweep lock free. -/
structure CameTo [DecidableEq W] (w : W) (P : CorrPool W) (e : CorrEngine) (pc : WorkerPc)
    (P' : CorrPool W) : Prop where
  engine : P'.engine = e
  sweeper : P'.sweeper = none
  pc : P'.pc = Function.update P.pc w pc
  calls : P'.calls = P.calls

variable (fp) in
/-- Alone, a worker comes to a place, with an engine. -/
def Reaches (w : W) (P : CorrPool W) (e : CorrEngine) (pc : WorkerPc) : Prop :=
  ∃ P', Alone fp w P P' ∧ CameTo w P e pc P'

section Reaches

variable {e e' : CorrEngine} {pc pc' : WorkerPc}

/-- The last move. -/
theorem Reaches.of_move (hmove : WorkerMove fp P w P') (hpc : P.pc w = pc') (hbusy : pc' ≠ .idle)
    (h : CameTo w P e pc P') : Reaches fp w P e pc :=
  ⟨P', .step (hpc ▸ hbusy) (hmove.eq ▸ .refl), h⟩

/-- A move before. -/
theorem Reaches.move {pc₁ : WorkerPc} (h : Reaches fp w P' e pc) (hmove : WorkerMove fp P w P')
    (hpc : P.pc w = pc') (hbusy : pc' ≠ .idle) (hgoes : P'.pc = Function.update P.pc w pc₁)
    (hcalls : P'.calls = P.calls) : Reaches fp w P e pc := by
  obtain ⟨Q, halone, hcame⟩ := h
  refine ⟨Q, .step (hpc ▸ hbusy) (hmove.eq ▸ halone), hcame.engine, hcame.sweeper, ?_,
    hcame.calls.trans hcalls⟩
  rw [hcame.pc, hgoes, Function.update_idem]

theorem Reaches.trans (h : Reaches fp w P e pc)
    (h' : ∀ P', P'.pc w = pc → P'.engine = e → P'.sweeper = none → Reaches fp w P' e' pc') :
    Reaches fp w P e' pc' := by
  obtain ⟨Q, halone, hcame⟩ := h
  obtain ⟨Q', halone', hcame'⟩ := h' Q (by rw [hcame.pc, Function.update_self]) hcame.engine
    hcame.sweeper
  refine ⟨Q', halone.trans halone', hcame'.engine, hcame'.sweeper, ?_,
    hcame'.calls.trans hcame.calls⟩
  rw [hcame'.pc, hcame.pc, Function.update_idem]

end Reaches

@[simp] theorem inc_inc (e : CorrEngine) (xs ys : List CorrCounter) :
    (e.inc xs).inc ys = e.inc (xs ++ ys) := by
  simp [CorrEngine.inc, List.count_append, Nat.add_assoc]

omit [DecidableEq W] in
/-- An entry of the loop, on an engine in the middle of it. -/
theorem visitEntry_engine (w : W) {e : CorrEngine} {acc : VisitState}
    (he : P.engine = { e with states := acc.states }.inc acc.incs) (ev : CorrEvent)
    (apply : Option (CorrRule → List CStr → Bool)) {p : UInt32 × ℕ} (hp : p.2 ∉ acc.visited) :
    (visitEntry fp P w ev apply p).engine =
      { e with states := (visitStep fp e.caps ev apply acc p).states }.inc
        (visitStep fp e.caps ev apply acc p).incs ∧
      (visitStep fp e.caps ev apply acc p).visited = p.2 :: acc.visited := by
  have hstates : P.engine.states = acc.states := by rw [he]; rfl
  have hcaps : P.engine.caps = e.caps := by rw [he]; rfl
  unfold visitEntry visitStep
  rw [if_neg hp]
  dsimp only
  rw [hstates]
  cases hst : acc.states[p.2]? with
  | none => exact ⟨he, rfl⟩
  | some st =>
    dsimp only
    cases hkey : resolveGroup st.rule ev p.1 with
    | none => exact ⟨by dsimp only; rw [he, inc_inc], rfl⟩
    | some key =>
      dsimp only
      split
      · refine ⟨?_, rfl⟩
        dsimp only [CorrPool.act, CorrAct.run]
        rw [he, inc_inc]
        exact inc_inc
          { e with states := acc.states.set p.2 (cstateInput fp e.caps st key (ev.input st.rule)).1 }
          _ (cstateInput fp e.caps st key (ev.input st.rule)).2.incs
      · exact ⟨he, rfl⟩

/-- The rest of the loop of an event. -/
theorem reaches_visiting {e : CorrEngine} {ev : CorrEvent}
    {apply : Option (CorrRule → List CStr → Bool)} (todo : List (UInt32 × ℕ)) {P : CorrPool W}
    (acc : VisitState) (hpc : P.pc w = .visiting ev apply acc.visited todo)
    (he : P.engine = { e with states := acc.states }.inc acc.incs) (hfree : P.sweeper = none) :
    Reaches fp w P ({ e with states := (todo.foldl (visitStep fp e.caps ev apply) acc).states }.inc
      (todo.foldl (visitStep fp e.caps ev apply) acc).incs) .idle := by
  induction todo generalizing P acc with
  | nil => exact .of_move (.leaves hpc) hpc nofun ⟨he, hfree, rfl, rfl⟩
  | cons p todo ih =>
    rw [List.foldl_cons]
    by_cases hp : p.2 ∈ acc.visited
    · have hacc : visitStep fp e.caps ev apply acc p = acc := if_pos hp
      rw [hacc]
      exact (ih acc (CorrPool.goto_pc_self _) he hfree).move (.seen hpc hp) hpc nofun rfl rfl
    · obtain ⟨hengine, hvisited⟩ := visitEntry_engine w he ev apply hp
      have hsame := visitEntry_same fp P w ev apply p
      have hrest := ih (P := (visitEntry fp P w ev apply p).goto w
        (.visiting ev apply (p.2 :: acc.visited) todo)) (visitStep fp e.caps ev apply acc p)
        (by rw [CorrPool.goto_pc_self, hvisited]) hengine (hsame.sweeper.trans hfree)
      exact hrest.move (.visits hpc hp) hpc nofun (congrArg (Function.update · w _) hsame.pc)
        hsame.calls

/-! ## The sweep

A sweep goes over the correlations by their number and takes the lock of each.  In the middle of it
the first of them are swept and the others are not (`sweptTo`); at the end it is the sweep of
`sweep_if_due`. -/

/-- A correlation after a sweep. -/
def sweptState (c : CorrCall) (st : CorrState) : CorrState :=
  if 0 < st.rule.timespanS then cstateDropExpired st (c.ts - st.rule.timespanS) else st

/-- The correlations when the first `n` are swept. -/
def sweptTo (c : CorrCall) (n : ℕ) (states : List CorrState) : List CorrState :=
  (states.take n).map (sweptState c) ++ states.drop n

section Swept

variable {c : CorrCall} {n : ℕ} {states : List CorrState} {st : CorrState}

theorem getElem?_sweptTo (c : CorrCall) (n : ℕ) (states : List CorrState) :
    (sweptTo c n states)[n]? = states[n]? := by
  rcases Nat.lt_or_ge n states.length with hlt | hge
  · have hlen : ((states.take n).map (sweptState c)).length = n := by
      rw [List.length_map, List.length_take, Nat.min_eq_left hlt.le]
    rw [sweptTo, List.getElem?_append_right hlen.le, hlen, Nat.sub_self, List.getElem?_drop]
    rfl
  · rw [sweptTo, List.drop_eq_nil_of_le hge, List.append_nil, List.getElem?_map,
      List.take_of_length_le hge, List.getElem?_eq_none hge]
    rfl

/-- One more is swept. -/
theorem sweptTo_succ (hst : states[n]? = some st) :
    (sweptTo c n states).set n (sweptState c st) = sweptTo c (n + 1) states := by
  obtain ⟨hlt, rfl⟩ := List.getElem?_eq_some_iff.mp hst
  have hlen : ((states.take n).map (sweptState c)).length = n := by
    rw [List.length_map, List.length_take, Nat.min_eq_left hlt.le]
  rw [sweptTo, sweptTo, List.set_append_right _ _ hlen.le, hlen, Nat.sub_self,
    List.drop_eq_getElem_cons hlt, List.set_cons_zero, List.take_succ_eq_append_getElem hlt,
    List.map_append, List.append_assoc]
  rfl

end Swept

variable (fp) in
/-- The rest of a sweep. -/
theorem reaches_sweeping {e : CorrEngine} {c : CorrCall} (k : ℕ) {n : ℕ}
    (hk : e.states.length = n + k) {P : CorrPool W} (hpc : P.pc w = .sweeping c n)
    (he : P.engine = { e with states := sweptTo c n e.states }) :
    Reaches fp w P { e with states := e.states.map (sweptState c) } (c.work e) := by
  have hget : ∀ {n : ℕ} {P : CorrPool W}, P.engine = { e with states := sweptTo c n e.states } →
      P.engine.states[n]? = e.states[n]? := by
    intro n P he
    rw [he]
    exact getElem?_sweptTo c n e.states
  induction k generalizing n P with
  | zero =>
    have hend : e.states.length ≤ n := by omega
    have hall : sweptTo c n e.states = e.states.map (sweptState c) := by
      rw [sweptTo, List.take_of_length_le hend, List.drop_eq_nil_of_le hend, List.append_nil]
    have hwork : c.work P.engine = c.work e := by
      rw [he]
      rfl
    refine .of_move (.unlocks hpc ((hget he).trans (List.getElem?_eq_none hend))) hpc nofun
      ⟨hall ▸ he, rfl, ?_, rfl⟩
    rw [← hwork]
    rfl
  | succ k ih =>
    obtain ⟨st, hst⟩ : ∃ st, e.states[n]? = some st := ⟨_, List.getElem?_eq_getElem (by omega)⟩
    have hnext := sweptTo_succ (c := c) hst
    by_cases hspan : 0 < st.rule.timespanS
    · have hengine : (P.act fp w n st (.drop (c.ts - st.rule.timespanS))).engine =
          { e with states := sweptTo c (n + 1) e.states } := by
        rw [← hnext, sweptState, if_pos hspan, CorrPool.act, he]
        rfl
      have hrest := ih (n := n + 1) (P := (P.act fp w n st (.drop (c.ts - st.rule.timespanS))).goto w
        (.sweeping c (n + 1))) (by omega) (CorrPool.goto_pc_self _) hengine
      exact hrest.move (.drops hpc ((hget he).trans hst) hspan) hpc nofun rfl rfl
    · have hsame : sweptTo c n e.states = sweptTo c (n + 1) e.states := by
        obtain ⟨hlt, hhere⟩ :=
          List.getElem?_eq_some_iff.mp ((getElem?_sweptTo c n e.states).trans hst)
        rw [← hnext, sweptState, if_neg hspan, ← hhere, List.set_getElem_self]
      have hrest := ih (n := n + 1) (P := P.goto w (.sweeping c (n + 1))) (by omega)
        (CorrPool.goto_pc_self _) (by rw [CorrPool.goto_engine, he, hsame])
      exact hrest.move (.keeps hpc ((hget he).trans hst) hspan) hpc nofun rfl rfl

variable (fp) in
/-- A sweep that a worker has entered. -/
theorem reaches_entered {c : CorrCall} (hpc : P.pc w = .entered c) :
    Reaches fp w P (P.engine.sweepIfDue c.ts) (c.work P.engine) := by
  unfold CorrEngine.sweepIfDue
  by_cases hfirst : P.engine.sweepSeen = false
  · rw [if_pos hfirst]
    exact .of_move (.starts hpc hfirst) hpc nofun ⟨rfl, rfl, rfl, rfl⟩
  · rw [if_neg hfirst]
    have hseen : P.engine.sweepSeen = true := Bool.eq_true_of_not_eq_false hfirst
    by_cases hearly : c.ts - P.engine.lastSweep < P.engine.caps.sweepIntervalS
    · rw [if_pos hearly]
      exact .of_move (.skips hpc hseen hearly) hpc nofun ⟨rfl, rfl, rfl, rfl⟩
    · rw [if_neg hearly]
      have hsweep := reaches_sweeping fp (w := w) (e := { P.engine with lastSweep := c.ts }) (c := c)
        P.engine.states.length (Nat.zero_add _).symm
        (P := { P with engine := { P.engine with lastSweep := c.ts } }.goto w (.sweeping c 0))
        (CorrPool.goto_pc_self _) rfl
      exact hsweep.move (.begins hpc hseen hearly) hpc nofun rfl rfl

/-! ## A call

The pieces put together, for each entry point: what a call does past its sweep is what the function
of the engine does, and a call that returns before the sweep does nothing. -/

/-- What an event does past the sweep. -/
theorem reaches_event {e : CorrEngine} {ev : CorrEvent}
    {apply : Option (CorrRule → List CStr → Bool)}
    (hempty : ¬ (e.states.length = 0 ∨ ev.rids.length = 0))
    (hpc : P.pc w = .visiting ev apply [] (e.entries ev)) (he : P.engine = e.sweepIfDue ev.ts)
    (hfree : P.sweeper = none) : Reaches fp w P (corrOnEventApply fp e ev apply).1 .idle := by
  rw [corrOnEventApply, if_neg hempty]
  have hentries : e.entries ev = (e.sweepIfDue ev.ts).entries ev := by
    rw [CorrEngine.entries, CorrEngine.entries, sweepIfDue_ridBuckets]
  rw [hentries] at hpc
  exact reaches_visiting _ ⟨(e.sweepIfDue ev.ts).states, [], [], []⟩ hpc he hfree

/-- What a partial does past the sweep. -/
theorem reaches_partial {e : CorrEngine} {c : CorrContrib} {field : CStr → Option CStr}
    (hkind : ¬ c.kind = some .event) (hid : ¬ (c.corrId = none ∨ c.corrId = some []))
    (hpc : P.pc w = .delivering c) (he : P.engine = e.sweepIfDue c.ts) (hfree : P.sweeper = none) :
    Reaches fp w P (corrOnContribution fp e c field).1 .idle := by
  have hsame := deliver_same fp P w c
  refine .of_move (.delivers hpc) hpc nofun
    ⟨?_, hsame.sweeper.trans hfree, congrArg (Function.update · w _) hsame.pc, hsame.calls⟩
  rw [CorrPool.goto_engine, corrOnContribution, if_neg hkind]
  unfold deliver
  cases hcid : c.corrId with
  | none => exact absurd (.inl hcid) hid
  | some id =>
    cases id with
    | nil => exact absurd (.inr hcid) hid
    | cons x xs =>
      dsimp only
      rw [he]
      cases (e.sweepIfDue c.ts).states.findIdx? fun st => st.rule.id == some (x :: xs) with
      | none => exact he
      | some ci =>
        dsimp only
        cases (e.sweepIfDue c.ts).states[ci]? with
        | none => exact he
        | some st =>
          dsimp only
          split
          · rfl
          · cases c.groupVals.mapM fun v => v with
            | none => rfl
            | some key =>
              dsimp only [CorrPool.act]
              rw [he]
              rfl

/-- What a call does past the sweep. -/
theorem reaches_work {e : CorrEngine} {c : CorrCall} (hlater : c.returnsAtOnce e = false)
    (hpc : P.pc w = c.work e) (he : P.engine = e.sweepIfDue c.ts) (hfree : P.sweeper = none) :
    Reaches fp w P (corrCall fp e c).1 .idle := by
  cases c with
  | event ev apply => exact reaches_event (of_decide_eq_false hlater) hpc he hfree
  | contribution c field =>
    rw [CorrCall.returnsAtOnce] at hlater
    rw [CorrCall.work] at hpc
    by_cases hkind : c.kind = some .event
    · rw [if_pos hkind] at hlater hpc
      have hcall : corrCall fp e (.contribution c field) =
          corrOnEventApply fp e ⟨c.rids, field, c.ts⟩ none := if_pos hkind
      rw [hcall]
      exact reaches_event (of_decide_eq_false hlater) hpc he hfree
    · rw [if_neg hkind] at hlater hpc
      exact reaches_partial hkind (of_decide_eq_false hlater) hpc he hfree

/-- A call that returns before the sweep leaves the engine as it is. -/
theorem corrCall_of_returnsAtOnce {e : CorrEngine} {c : CorrCall} (h : c.returnsAtOnce e = true) :
    (corrCall fp e c).1 = e := by
  have hevent : ∀ (ev : CorrEvent) (apply : Option (CorrRule → List CStr → Bool)),
      e.states.length = 0 ∨ ev.rids.length = 0 → (corrOnEventApply fp e ev apply).1 = e := by
    intro ev apply hempty
    rw [corrOnEventApply, if_pos hempty]
  cases c with
  | event ev apply => exact hevent ev apply (of_decide_eq_true h)
  | contribution c field =>
    rw [CorrCall.returnsAtOnce] at h
    show (corrOnContribution fp e c field).1 = e
    rw [corrOnContribution]
    split at h
    · rename_i hkind
      rw [if_pos hkind]
      exact hevent _ none (of_decide_eq_true h)
    · rename_i hkind
      rw [if_neg hkind]
      rcases of_decide_eq_true h with hid | hid <;> rw [hid]

/-! ## Calls one at a time

A schedule is serial when a worker takes a step only while no other is in a call.  That allows a
worker to stop in the middle of a call, as long as nobody goes on meanwhile.  The state of such a
run is that of the calls begun so far, once the last of them has ended (`Serial`); between calls it
is exactly that.  And serial schedules exist, for any order in which the workers are to take turns.
-/

omit [DecidableEq W] in
/-- Nobody is in a call. -/
structure Between (P : CorrPool W) (e : CorrEngine) : Prop where
  idle : ∀ v, P.pc v = .idle
  free : P.sweeper = none
  engine : P.engine = e

variable (fp) in
/-- **A call of a worker that is alone is the call on the engine.** -/
theorem alone_call {e : CorrEngine} (h : Between P e) {c : CorrCall} {cs : List CorrCall}
    (hcalls : P.calls w = c :: cs) :
    ∃ P', Alone fp w (workerStep fp P w) P' ∧ Between P' (corrCall fp e c).1 ∧
      P'.calls = Function.update P.calls w cs := by
  obtain ⟨hidle, hfree, rfl⟩ := h
  cases hnow : c.returnsAtOnce P.engine with
  | true =>
    rw [(WorkerMove.returns (hidle w) hcalls hnow).eq]
    exact ⟨_, .refl, ⟨hidle, hfree, (corrCall_of_returnsAtOnce hnow).symm⟩, rfl⟩
  | false =>
    rw [(WorkerMove.enters (hidle w) hcalls hnow hfree).eq]
    obtain ⟨P', halone, hcame⟩ := (reaches_entered fp (P := { P with
        calls := Function.update P.calls w cs
        sweeper := some w }.goto w (.entered c)) (CorrPool.goto_pc_self _)).trans
      fun Q hpc he hfree' => reaches_work hnow hpc he hfree'
    refine ⟨P', halone, ⟨fun v => ?_, hcame.sweeper, hcame.engine⟩, hcame.calls⟩
    rw [hcame.pc]
    by_cases hv : v = w
    · rw [hv, Function.update_self]
    · rw [Function.update_of_ne hv, CorrPool.goto_pc_of_ne _ hv]
      exact hidle v

variable (fp) in
/-- A schedule in which a worker takes a step only while no other is in a call. -/
def OneAtATime (P : CorrPool W) : List W → Prop
  | [] => True
  | w :: schedule => (∀ v, v ≠ w → P.pc v = .idle) ∧ OneAtATime (workerStep fp P w) schedule

variable (fp) in
/-- The calls that workers make in a schedule, in the order in which they begin. -/
def callsBegun (P : CorrPool W) : List W → List (W × CorrCall)
  | [] => []
  | w :: schedule =>
    ((P.nextCall w).map (w, ·)).toList ++ callsBegun (workerStep fp P w) schedule

variable (fp) in
/-- The engine is `e`, or will be when the call that a worker is in has ended. -/
def Serial (P : CorrPool W) (e : CorrEngine) : Prop :=
  Between P e ∨ ∃ w P', P.pc w ≠ .idle ∧ Alone fp w P P' ∧ Between P' e

theorem Serial.of_alone {e : CorrEngine} (h : Alone fp w P P') (hend : Between P' e) :
    Serial fp P e := by
  cases h with
  | refl => exact .inl hend
  | step hbusy h => exact .inr ⟨w, P', hbusy, .step hbusy h, hend⟩

/-- **One step**, of the worker in a call or of one that begins the next. -/
theorem Serial.step {e : CorrEngine} (h : Serial fp P e) (hothers : ∀ v, v ≠ w → P.pc v = .idle) :
    Serial fp (workerStep fp P w) (corrRun fp e (P.nextCall w).toList) := by
  rcases h with hbetween | ⟨v, P', hbusy, halone, hend⟩
  · have hnext : P.nextCall w = (P.calls w).head? := by rw [CorrPool.nextCall, hbetween.idle w]
    rw [hnext]
    cases hcalls : P.calls w with
    | nil =>
      rw [(WorkerMove.rests (hbetween.idle w) hcalls).eq]
      exact .inl hbetween
    | cons c cs =>
      obtain ⟨P', halone, hend, -⟩ := alone_call fp hbetween hcalls
      exact .of_alone halone hend
  · -- only the worker in the call can take the step
    obtain rfl : v = w := by_contra fun hne => hbusy (hothers v hne)
    have hnext : P.nextCall v = none := by
      rw [CorrPool.nextCall]
      split
      · rename_i hidle
        exact absurd hidle hbusy
      · rfl
    rw [hnext]
    cases halone with
    | refl => exact absurd (hend.idle v) hbusy
    | step _ halone => exact .of_alone halone hend

/-- **A run of calls made one at a time.** -/
theorem Serial.run (schedule : List W) {e : CorrEngine} (h : Serial fp P e)
    (hone : OneAtATime fp P schedule) :
    Serial fp (poolRun fp P schedule) (corrRun fp e ((callsBegun fp P schedule).map Prod.snd)) := by
  induction schedule generalizing P e with
  | nil => exact h
  | cons w schedule ih =>
    have hfirst : ((P.nextCall w).map (w, ·)).toList.map Prod.snd = (P.nextCall w).toList := by
      cases P.nextCall w <;> rfl
    rw [callsBegun, List.map_append, corrRun_append, hfirst]
    exact ih (h.step hone.1) hone.2

/-- A worker begins its calls in their order. -/
theorem callsBegun_of (w : W) (schedule : List W) (P : CorrPool W) :
    ((callsBegun fp P schedule).filterMap fun p => if p.1 = w then some p.2 else none) ++
      (poolRun fp P schedule).calls w = P.calls w := by
  induction schedule generalizing P with
  | nil => rfl
  | cons v schedule ih =>
    have hmove := workerStep_move fp P v
    rw [callsBegun, List.filterMap_append, List.append_assoc]
    refine (congrArg _ (ih (workerStep fp P v))).trans ?_
    by_cases hv : v = w
    · subst hv
      rw [← hmove.calls_eq]
      cases P.nextCall v <;> simp
    · rw [hmove.frame.calls w (Ne.symm hv)]
      cases P.nextCall v <;> simp [hv]

/-- The calls of workers that take turns, a whole call each time; a worker that has made all of its
calls is passed over. -/
def turnsOf (prog : W → List CorrCall) : List W → List (W × CorrCall)
  | [] => []
  | w :: turns =>
    match prog w with
    | [] => turnsOf prog turns
    | c :: cs => (w, c) :: turnsOf (Function.update prog w cs) turns

theorem OneAtATime.append {xs ys : List W} (h : OneAtATime fp P xs)
    (h' : OneAtATime fp (poolRun fp P xs) ys) : OneAtATime fp P (xs ++ ys) := by
  induction xs generalizing P with
  | nil => exact h'
  | cons w xs ih => exact ⟨h.1, ih h.2 h'⟩

theorem callsBegun_append (xs ys : List W) (P : CorrPool W) :
    callsBegun fp P (xs ++ ys) = callsBegun fp P xs ++ callsBegun fp (poolRun fp P xs) ys := by
  induction xs generalizing P with
  | nil => rfl
  | cons w xs ih =>
    rw [List.cons_append, callsBegun, callsBegun, ih, List.append_assoc]
    rfl

/-- A worker that stays alone until its call has ended. -/
theorem exists_rest_of_call (h : Alone fp w P P') (hothers : ∀ v, v ≠ w → P.pc v = .idle) :
    ∃ schedule, OneAtATime fp P schedule ∧ poolRun fp P schedule = P' ∧
      callsBegun fp P schedule = [] := by
  induction h with
  | refl => exact ⟨[], trivial, rfl, rfl⟩
  | @step P P' hbusy h ih =>
    obtain ⟨schedule, hone, hrun, hbegun⟩ := ih fun v hv =>
      ((workerStep_move fp P w).frame.pc v hv).trans (hothers v hv)
    refine ⟨w :: schedule, ⟨hothers, hone⟩, hrun, ?_⟩
    have hnext : P.nextCall w = none := by
      rw [CorrPool.nextCall]
      split
      · rename_i hidle
        exact absurd hidle hbusy
      · rfl
    rw [callsBegun, hnext, hbegun]
    rfl

/-- Workers that take turns, from a pool in which nobody is in a call. -/
theorem exists_schedule (turns : List W) {P : CorrPool W} {e : CorrEngine} (h : Between P e) :
    ∃ schedule, OneAtATime fp P schedule ∧ (∀ v, (poolRun fp P schedule).pc v = .idle) ∧
      callsBegun fp P schedule = turnsOf P.calls turns := by
  induction turns generalizing P e with
  | nil => exact ⟨[], trivial, h.idle, rfl⟩
  | cons w turns ih =>
    cases hcalls : P.calls w with
    | nil =>
      obtain ⟨schedule, hone, hidle, hbegun⟩ := ih h
      refine ⟨schedule, hone, hidle, hbegun.trans ?_⟩
      rw [turnsOf, hcalls]
    | cons c cs =>
      obtain ⟨P', halone, hend, hcalls'⟩ := alone_call fp h hcalls
      obtain ⟨xs, hone, hrun, hbegun⟩ := exists_rest_of_call halone fun v hv =>
        ((workerStep_move fp P w).frame.pc v hv).trans (h.idle v)
      obtain ⟨ys, hone', hidle, hbegun'⟩ := ih hend
      have hnext : P.nextCall w = some c := by
        rw [CorrPool.nextCall, h.idle w, hcalls]
        rfl
      refine ⟨w :: (xs ++ ys), ⟨fun v _ => h.idle v, hone.append (hrun ▸ hone')⟩, ?_, ?_⟩
      · have hsplit : poolRun fp (workerStep fp P w) (xs ++ ys) = poolRun fp P' ys := by
          rw [← hrun, poolRun, poolRun, poolRun, List.foldl_append]
        exact fun v => (congrArg (fun Q : CorrPool W => Q.pc v) hsplit).trans (hidle v)
      · rw [callsBegun, hnext, callsBegun_append, hbegun, hrun, hbegun', hcalls', turnsOf, hcalls]
        rfl

/-- **Calls made one at a time are calls on one engine.**  In a schedule in which a worker takes a step
only while no other is in a call, whenever nobody is in a call the engine is where the calls made so
far, in the order in which they began, bring it; they are the calls of each worker, in their order; and
every order of the workers is that of such a schedule. -/
theorem serial_schedule (fp : Doubles) (shared : SharedRules) (caps : CorrCaps)
    (prog : W → List CorrCall) :
    (∀ schedule, OneAtATime fp (.new shared caps prog) schedule →
      let P := poolRun fp (.new shared caps prog) schedule
      let begun := callsBegun fp (.new shared caps prog) schedule
      ((∀ w, P.pc w = .idle) →
        P.engine = corrRun fp (corrEngineNew shared.rules caps) (begun.map Prod.snd)) ∧
      ∀ w, (begun.filterMap fun p => if p.1 = w then some p.2 else none) ++ P.calls w = prog w) ∧
    ∀ turns, ∃ schedule, OneAtATime fp (.new shared caps prog) schedule ∧
      (∀ w, (poolRun fp (.new shared caps prog) schedule).pc w = .idle) ∧
      callsBegun fp (.new shared caps prog) schedule = turnsOf prog turns := by
  have hnew : Between (.new shared caps prog : CorrPool W) (corrEngineNew shared.rules caps) :=
    ⟨fun _ => rfl, rfl, rfl⟩
  refine ⟨fun schedule hone => ⟨fun hidle => ?_, fun w => callsBegun_of w schedule _⟩,
    fun turns => exists_schedule turns hnew⟩
  rcases Serial.run schedule (.inl hnew) hone with hend | ⟨w, P', hbusy, -, -⟩
  · exact hend.engine
  · exact absurd (hidle w) hbusy

/-! ## The life of a group under many workers

The history of a correlation is a list of acts, and most of them concern other groups.  `groupSteps`
are the steps of one group in it.  If no act drops the group or evicts it, the group has lived
through these steps since it was new, so all that is known of lives applies to it, whoever gave the
inputs. -/

/-- An act as an input of the group of `key`. -/
def CorrAct.inputFor (key : List CStr) : CorrAct → Option GroupInput
  | .drop _ => none
  | .input k i => if k = key then some i else none

/-- An act as a step of the group of `key`. -/
def stepOfAct (key : List CStr) (x : Acted W CorrAct (Option GroupOutcome)) : Option GroupStep :=
  (x.act.inputFor key).bind fun i => x.result.map fun o => o.step i

/-- The steps of the group of `key` under correlation `ci` in a history. -/
def groupSteps (ci : ℕ) (key : List CStr) (H : List (Acted W CorrAct (Option GroupOutcome))) :
    List GroupStep := (actsOn ci H).filterMap (stepOfAct key)

section Lives

omit [DecidableEq W]

variable {caps : CorrCaps} {r : CorrRule} {key : List CStr} {st' : CorrState}
  {H : List (Acted W CorrAct (Option GroupOutcome))} {from' : ℚ}

/-- A group that acts on its correlation neither drop nor evict. -/
structure Lives (fp : Doubles) (caps : CorrCaps) (r : CorrRule) (key : List CStr)
    (from' : ℚ) (H : List (Acted W CorrAct (Option GroupOutcome))) (st : CorrState) : Prop where
  rule : st.rule = r
  wf : st.groups.Wf hashGroupKey
  inputs : (H.filterMap (stepOfAct key)).map GroupStep.input =
    H.filterMap fun x => x.act.inputFor key
  life : Life fp caps r (H.filterMap (stepOfAct key)) (st.groups.get hashGroupKey key)
  late : ∀ g, st.groups.get hashGroupKey key = some g → from' ≤ g.lastUpdate

theorem Lives.new : Lives fp caps r key from' ([] : List (Acted W CorrAct (Option GroupOutcome)))
    ⟨r, .empty 16⟩ where
  rule := rfl
  wf := HashLru.wf_empty (by decide)
  inputs := rfl
  life := by
    rw [HashLru.get_empty]
    exact .unborn
  late g hg := by
    rw [HashLru.get_empty] at hg
    cases hg

/-- **One act.** -/
theorem Lives.act {st : CorrState} (h : Lives fp caps r key from' H st) (w : W) (ci : ℕ)
    (a : CorrAct) (hdrop : ∀ horizon, a = .drop horizon → horizon ≤ from')
    (hinput : ∀ i, a.inputFor key = some i → from' ≤ i.ts)
    (hroom : ∀ o, (a.run fp caps st).2 = some o → o.incs.count .groupsEvicted = 0) :
    Lives fp caps r key from' (H ++ [⟨w, ci, a, (a.run fp caps st).2⟩])
      (a.run fp caps st).1 := by
  -- an act that is no input of the group
  have hother : a.inputFor key = none → (a.run fp caps st).1.rule = st.rule →
      (a.run fp caps st).1.groups.Wf hashGroupKey →
      (a.run fp caps st).1.groups.get hashGroupKey key = st.groups.get hashGroupKey key →
      Lives fp caps r key from' (H ++ [⟨w, ci, a, (a.run fp caps st).2⟩])
        (a.run fp caps st).1 := by
    intro hnone hrule hwf hget
    have hstep : stepOfAct key ⟨w, ci, a, (a.run fp caps st).2⟩ = none := by
      rw [stepOfAct, hnone]
      rfl
    refine ⟨hrule.trans h.rule, hwf, ?_, ?_, fun g hg => h.late g (hget ▸ hg)⟩
    · rw [filterMap_concat, filterMap_concat, hstep, hnone, Option.toList_none, List.append_nil,
        h.inputs]
      exact (List.append_nil _).symm
    · rw [filterMap_concat, hstep, Option.toList_none, List.append_nil, hget]
      exact h.life
  cases a with
  | drop horizon =>
    obtain ⟨hwf, -, hget⟩ := h.wf.dropWhere fun g => decide (g.lastUpdate < horizon)
    refine hother rfl rfl hwf ((hget key).trans ?_)
    -- the group was there after `horizon`
    cases hg : st.groups.get hashGroupKey key with
    | none => rfl
    | some g =>
      have hle := (hdrop horizon rfl).trans (h.late g hg)
      exact Option.filter_some_pos (by simpa using hle)
  | input k i =>
    obtain ⟨hrule, hwf, hdecided, hfire, hget⟩ := cstateInput_spec fp caps h.wf k i
    have hnone : cstateVictim caps st.groups k = none :=
      OwnPart.victim_eq_none_of_incs fp (List.count_eq_zero.mp (hroom _ rfl))
    by_cases hk : k = key
    · subst hk
      have hfor : (CorrAct.input k i).inputFor k = some i := if_pos rfl
      have hstep : stepOfAct k ⟨w, ci, CorrAct.input k i, (CorrAct.run fp caps (.input k i) st).2⟩ =
          some ((groupApply fp caps r (st.groups.get hashGroupKey k) i).step i) := by
        rw [← h.rule, stepOfAct, hfor]
        exact congrArg some (congrArg₂ (GroupStep.mk i) hdecided hfire)
      have hgroup : (cstateInput fp caps st k i).1.groups.get hashGroupKey k =
          some (groupApply fp caps r (st.groups.get hashGroupKey k) i).group := by
        rw [hget, if_pos rfl, h.rule]
      refine ⟨hrule.trans h.rule, hwf, ?_, ?_, fun g hg => ?_⟩
      · rw [filterMap_concat, filterMap_concat, hstep, hfor, Option.toList_some, List.map_append,
          h.inputs]
        rfl
      · rw [filterMap_concat, hstep]
        exact hgroup ▸ h.life.input i
      · obtain rfl := Option.some.inj (hgroup.symm.trans hg)
        rw [groupApply, groupInput_lastUpdate]
        exact hinput i hfor
    · refine hother (if_neg hk) hrule hwf ?_
      show (cstateInput fp caps st k i).1.groups.get hashGroupKey key = _
      rw [hget, if_neg (Ne.symm hk), hnone, if_neg (by simp)]

/-- **A group that nothing drops or evicts** lives through the acts on its correlation. -/
theorem lives_of_replays (h : Replays (CorrAct.run fp caps) ⟨r, .empty 16⟩ H st')
    (hdrops : ∀ x ∈ H, ∀ horizon, x.act = .drop horizon → horizon ≤ from')
    (hinputs : ∀ x ∈ H, ∀ i, x.act.inputFor key = some i → from' ≤ i.ts)
    (hroom : evictions H = 0) : Lives fp caps r key from' H st' := by
  induction h with
  | nil => exact .new
  | @concat H t w ci a h ih =>
    rw [evictions_concat] at hroom
    have hlast := List.mem_append_right H
      (List.mem_singleton_self (⟨w, ci, a, (a.run fp caps t).2⟩ : Acted W CorrAct _))
    refine (ih (fun x hx => hdrops x (List.mem_append_left _ hx))
      (fun x hx => hinputs x (List.mem_append_left _ hx)) (by omega)).act w ci a (hdrops _ hlast)
      (hinputs _ hlast) fun o ho => ?_
    have hzero := Nat.eq_zero_of_add_eq_zero_left hroom
    rw [ho] at hzero
    exact hzero

end Lives

/-! ## Bursts

Inputs of one group within a window: none of them leaves the ring by age, and none takes another out
unless the ring is full.  So after each of them the number that an event_count rule compares is
known, whatever their order was, and it only grows.  The first input with which it is enough fires,
and the deadline suppresses what comes after it.  That is `Life.burst`; the theorem then adds up
what the workers gave. -/

/-- The local events among some inputs. -/
def localsIn (is : List GroupInput) : ℕ := (is.map fun i => i.isEvent.toNat).sum

/-- An input of a burst: an event that hit, or a count of a peer. -/
def GroupInput.Bursts (i : GroupInput) : Prop := i.isEvent = true ∨ i.contribKind = some .count

/-- Whether `n` local events and partials that count `m` are enough for a rule within one window, on a
ring of `cap` times. -/
def CorrRule.burstOf (r : CorrRule) (cap n m : ℕ) : Prop :=
  0 < n + m ∧ cmpThreshold (min n cap + m : ℕ) r.condOp r.condCount = true

instance (r : CorrRule) (cap n m : ℕ) : Decidable (r.burstOf cap n m) := instDecidableAnd

section Burst

variable {caps : CorrCaps} {r : CorrRule} {H : List GroupStep} {s : Option Group}

@[simp] theorem localsIn_concat (is : List GroupInput) (i : GroupInput) :
    localsIn (is ++ [i]) = localsIn is + i.isEvent.toNat := by
  rw [localsIn, localsIn, List.map_append, List.sum_append, List.map_singleton, List.sum_singleton]

@[simp] theorem countsIn_concat (is : List GroupInput) (i : GroupInput) :
    countsIn (is ++ [i]) = countsIn is + i.addend.toNat := by
  rw [countsIn, countsIn, List.map_append, List.sum_append, List.map_singleton, List.sum_singleton]

/-- Every input of a burst counts. -/
theorem GroupInput.Bursts.pos {i : GroupInput} (h : i.Bursts) :
    0 < i.isEvent.toNat + i.addend.toNat := by
  rcases h with h | h
  · rw [h]
    exact Nat.lt_of_lt_of_le Nat.one_pos (Nat.le_add_right 1 _)
  · cases i with
    | event hits value ts => cases h
    | contrib c =>
      have hkind : c.kind = some .count := h
      have hne : contribAdd c ≠ 0 := by
        rw [contribAdd]
        split
        · assumption
        · decide
      rw [GroupInput.addend, if_pos (.inl hkind)]
      have hpos : (contribAdd c).toNat ≠ 0 := fun hzero => hne (UInt32.toNat_inj.mp hzero)
      omega

/-- What is enough stays enough. -/
theorem CorrRule.burstOf.mono {cap n n' m m' : ℕ} (h : r.burstOf cap n m) (hn : n ≤ n') (hm : m ≤ m')
    (hop : r.condOp = some .gte ∨ r.condOp = some .gt) : r.burstOf cap n' m' := by
  refine ⟨h.1.trans_le (Nat.add_le_add hn hm), ?_⟩
  have hle : ((min n cap + m : ℕ) : Int) ≤ (min n' cap + m' : ℕ) := by omega
  have hmet := h.2
  rcases hop with hop | hop
  · rw [hop] at hmet ⊢
    exact decide_eq_true ((of_decide_eq_true hmet).trans hle)
  · rw [hop] at hmet ⊢
    exact decide_eq_true ((of_decide_eq_true hmet).trans_le hle)

/-- Times in a window stay in a ring. -/
theorem dropWhile_pushCap_of_le {cap : ℕ} {ts : List ℚ} {now a : ℚ} (ws : ℚ) (hts : ∀ t ∈ ts, a ≤ t)
    (hnow : a ≤ now) (hws : ws ≤ a) (hlen : ts.length ≤ cap) (hcap : 0 < cap) :
    (∀ t ∈ (pushCap cap ts now).dropWhile (before ws), a ≤ t) ∧
      ((pushCap cap ts now).dropWhile (before ws)).length = min (ts.length + 1) cap := by
  have hall : ∀ t ∈ pushCap cap ts now, a ≤ t := by
    intro t ht
    rcases mem_pushCap ht with ht | rfl
    · exact hts t ht
    · exact hnow
  have hkept : (pushCap cap ts now).dropWhile (before ws) = pushCap cap ts now := by
    refine List.dropWhile_eq_self_iff.mpr fun hne => ?_
    have hle := hws.trans (hall _ (List.getElem_mem hne))
    rw [before, decide_eq_true_eq, not_lt]
    exact hle
  rw [hkept]
  refine ⟨hall, ?_⟩
  rw [pushCap, List.length_append, List.length_singleton]
  split
  · rw [List.length_tail]
    omega
  · omega

variable (fp caps r) in
/-- An input fires exactly when it is decided on and the deadline has passed. -/
theorem groupInput_fire_iff (g : Group) (i : GroupInput) :
    (groupInput fp caps r g i).fire.isSome = true ↔
      (groupInput fp caps r g i).decided = true ∧ g.firedUntil ≤ i.ts := by
  have hsettle : ∀ (ts : ℚ) (e : Evaluated), e.group.firedUntil = g.firedUntil →
      ((settle r ts e).fire.isSome = true ↔ (settle r ts e).decided = true ∧ g.firedUntil ≤ ts) := by
    intro ts e hsame
    rw [settle_fire, settle_decided, ← hsame]
    split
    · rename_i hand
      exact iff_of_true rfl hand
    · rename_i hnot
      exact iff_of_false Bool.false_ne_true hnot
  cases i with
  | event hits value ts =>
    rw [groupInput]
    split
    · exact iff_of_false Bool.false_ne_true fun hand => Bool.false_ne_true hand.1
    · exact hsettle ts _ (sameFrame_evaluate fp caps r { g with lastUpdate := ts } hits value ts
        (ts - r.timespanS)).firedUntil
  | contrib c =>
    exact hsettle c.ts _ (evalContrib_frame fp caps r
      { g with lastUpdate := c.ts, mergeRemote := true } c (c.ts - r.timespanS)).2.1

variable (fp caps) in
/-- The ring after an input of a burst. -/
theorem ring_of_burst (htype : r.type = some .eventCount) {g : Group} {i : GroupInput} (hi : i.Bursts)
    {a : ℚ} (hts : ∀ t ∈ g.times, a ≤ t) (hnow : a ≤ i.ts) (hws : i.ts - r.timespanS ≤ a)
    (hcap : 0 < g.evIdx.cap) :
    (∀ t ∈ (groupInput fp caps r g i).group.times, a ≤ t) ∧
      (groupInput fp caps r g i).group.times.length =
        min (g.times.length + i.isEvent.toNat) g.evIdx.cap := by
  have hle := length_times_le g
  have hprunes : i.prunes = true := by
    rw [GroupInput.prunes, Bool.or_eq_true, decide_eq_true_eq]
    exact hi.imp_right Or.inl
  rw [times_groupInput fp caps htype, if_pos hprunes, GroupInput.eventTime?]
  cases hevent : i.isEvent with
  | true => exact dropWhile_pushCap_of_le _ hts hnow hws hle hcap
  | false =>
    have hkept : g.times.dropWhile (before (i.ts - r.timespanS)) = g.times := by
      refine List.dropWhile_eq_self_iff.mpr fun hne => ?_
      have hlate := hws.trans (hts _ (List.getElem_mem hne))
      rw [before, decide_eq_true_eq, not_lt]
      exact hlate
    have htimes : ((if false = true then some i.ts else none).elim g.times
        (pushCap g.evIdx.cap g.times)).dropWhile (before (i.ts - r.timespanS)) = g.times := hkept
    rw [htimes]
    exact ⟨hts, (Nat.min_eq_left hle).symm⟩

/-- A group in a burst from `a` to `b`: its ring holds the local events, and it has fired once exactly
if there was enough, with its deadline past the burst then. -/
structure InBurst (caps : CorrCaps) (r : CorrRule) (a b : ℚ) (is : List GroupInput) (fires : ℕ)
    (g : Group) : Prop where
  cap : g.evIdx.cap = caps.maxEventsPerGroup
  late : ∀ t ∈ g.times, a ≤ t
  length : g.times.length = min (localsIn is) caps.maxEventsPerGroup
  fires : fires = if r.burstOf caps.maxEventsPerGroup (localsIn is) (countsIn is) then 1 else 0
  lit : if r.burstOf caps.maxEventsPerGroup (localsIn is) (countsIn is) then b < g.firedUntil
    else g.firedUntil = 0

section Step

variable {a b : ℚ} {is : List GroupInput} {n : ℕ} {g : Group} {i : GroupInput}

theorem InBurst.new (hcap : 0 < caps.maxEventsPerGroup) (a b : ℚ) :
    InBurst caps r a b [] 0 (groupNew caps.maxEventsPerGroup) := by
  have hnone : ¬ r.burstOf caps.maxEventsPerGroup (localsIn []) (countsIn []) :=
    fun hburst => Nat.lt_irrefl 0 hburst.1
  refine ⟨if_neg hcap.ne', fun t ht => absurd ht List.not_mem_nil, (Nat.zero_min _).symm,
    (if_neg hnone).symm, ?_⟩
  rw [if_neg hnone]
  rfl

/-- The decision is on all inputs of the group so far. -/
theorem InBurst.decided_iff (htype : r.type = some .eventCount) (hi : i.Bursts)
    (hlen : (groupInput fp caps r g i).group.times.length =
      min (localsIn (is ++ [i])) caps.maxEventsPerGroup)
    (hmerged : (groupInput fp caps r g i).group.mergeN.toNat = countsIn (is ++ [i])) :
    (groupInput fp caps r g i).decided = true ↔
      r.burstOf caps.maxEventsPerGroup (localsIn (is ++ [i])) (countsIn (is ++ [i])) := by
  have hdecides : i.decides r = true := by
    rw [GroupInput.decides, htype, Bool.or_eq_true]
    refine hi.imp_right fun hkind => ?_
    rw [hkind]
    rfl
  have hpos : 0 < localsIn (is ++ [i]) + countsIn (is ++ [i]) := by
    rw [localsIn_concat, countsIn_concat]
    have hone := hi.pos
    omega
  rw [decided_eventCount fp caps htype, hdecides, Bool.true_and, Group.compared, ← length_times,
    hlen, hmerged]
  exact (and_iff_right hpos).symm

/-- What was enough before an input is enough after it. -/
theorem CorrRule.burstOf.concat {cap : ℕ} (h : r.burstOf cap (localsIn is) (countsIn is))
    (hop : r.condOp = some .gte ∨ r.condOp = some .gt) (i : GroupInput) :
    r.burstOf cap (localsIn (is ++ [i])) (countsIn (is ++ [i])) := by
  rw [localsIn_concat, countsIn_concat]
  exact h.mono (Nat.le_add_right _ _) (Nat.le_add_right _ _) hop

/-- An input fires if there is enough with it, and was not before. -/
theorem InBurst.fire_iff (h : InBurst caps r a b is n g) (ha : 0 ≤ a) (hfrom : a ≤ i.ts)
    (hto : i.ts ≤ b) (hmet : (groupInput fp caps r g i).decided = true ↔
      r.burstOf caps.maxEventsPerGroup (localsIn (is ++ [i])) (countsIn (is ++ [i]))) :
    (groupInput fp caps r g i).fire.isSome = true ↔
      ¬ r.burstOf caps.maxEventsPerGroup (localsIn is) (countsIn is) ∧
        r.burstOf caps.maxEventsPerGroup (localsIn (is ++ [i])) (countsIn (is ++ [i])) := by
  have hlit := h.lit
  rw [groupInput_fire_iff, hmet]
  by_cases hburst : r.burstOf caps.maxEventsPerGroup (localsIn is) (countsIn is)
  · rw [if_pos hburst] at hlit
    exact iff_of_false (fun hand => absurd (hand.2.trans hto) (not_le.mpr hlit))
      fun hand => hand.1 hburst
  · rw [if_neg hburst] at hlit
    exact ⟨fun hand => ⟨hburst, hand.1⟩, fun hand => ⟨hand.2, hlit ▸ ha.trans hfrom⟩⟩

/-- **One input of a burst.** -/
theorem InBurst.input (h : InBurst caps r a b is n g) (htype : r.type = some .eventCount)
    (hop : r.condOp = some .gte ∨ r.condOp = some .gt) (hcap : 0 < caps.maxEventsPerGroup)
    (hi : i.Bursts) (ha : 0 ≤ a) (hspan : b < a + r.timespanS) (hfrom : a ≤ i.ts) (hto : i.ts ≤ b)
    (hmerged : (groupInput fp caps r g i).group.mergeN.toNat = countsIn (is ++ [i])) :
    InBurst caps r a b (is ++ [i]) (n + (groupInput fp caps r g i).fire.toList.length)
      (groupInput fp caps r g i).group := by
  obtain ⟨hlate, hlen⟩ := ring_of_burst fp caps htype hi h.late hfrom (by linarith)
    (h.cap ▸ hcap)
  have hlen' : (groupInput fp caps r g i).group.times.length =
      min (localsIn (is ++ [i])) caps.maxEventsPerGroup := by
    rw [hlen, h.cap, h.length, localsIn_concat]
    omega
  have hfire := h.fire_iff ha hfrom hto (InBurst.decided_iff htype hi hlen' hmerged)
  have hlit := h.lit
  refine ⟨(cap_groupInput fp caps r g i).trans h.cap, hlate, hlen', ?_, ?_⟩
  · rw [h.fires]
    cases hf : (groupInput fp caps r g i).fire with
    | none =>
      rw [hf] at hfire
      refine if_congr ⟨fun hburst => hburst.concat hop i, fun hnow => ?_⟩ rfl rfl
      exact not_not.mp fun hburst => Bool.false_ne_true (hfire.mpr ⟨hburst, hnow⟩)
    | some f =>
      obtain ⟨hburst, hnow⟩ := hfire.mp (by rw [hf]; rfl)
      rw [if_neg hburst, if_pos hnow]
      rfl
  · rw [groupInput_firedUntil]
    by_cases hf : (groupInput fp caps r g i).fire.isSome = true
    · rw [if_pos hf, if_pos (hfire.mp hf).2]
      linarith
    · rw [if_neg hf]
      by_cases hburst : r.burstOf caps.maxEventsPerGroup (localsIn is) (countsIn is)
      · rw [if_pos hburst] at hlit
        rwa [if_pos (hburst.concat hop i)]
      · rw [if_neg hburst] at hlit
        rwa [if_neg fun hnow => hf (hfire.mpr ⟨hburst, hnow⟩)]

end Step

/-- **A burst of a group**: events and counts within a window fire once, as soon as they are enough. -/
theorem Life.burst (h : Life fp caps r H s) (htype : r.type = some .eventCount)
    (hop : r.condOp = some .gte ∨ r.condOp = some .gt) (hcap : 0 < caps.maxEventsPerGroup)
    (hkinds : ∀ x ∈ H, x.input.Bursts) (hfits : countsIn (H.map GroupStep.input) < 2 ^ 32) {a b : ℚ}
    (ha : 0 ≤ a) (hspan : b < a + r.timespanS) (hts : ∀ x ∈ H, a ≤ x.ts ∧ x.ts ≤ b) :
    InBurst caps r a b (H.map GroupStep.input) (H.filterMap GroupStep.fire).length
      (s.getD (groupNew caps.maxEventsPerGroup)) := by
  induction h with
  | unborn => exact .new hcap a b
  | @input H s i h ih =>
    have hlast := List.mem_append_right H
      (List.mem_singleton_self ((groupApply fp caps r s i).step i))
    have hinputs : (H ++ [(groupApply fp caps r s i).step i]).map GroupStep.input =
        H.map GroupStep.input ++ [i] := by
      rw [List.map_append]
      rfl
    have hmerged := (h.input i).merged.1
    rw [hinputs] at hmerged hfits ⊢
    rw [Nat.mod_eq_of_lt hfits] at hmerged
    have hle : countsIn (H.map GroupStep.input) ≤ countsIn (H.map GroupStep.input ++ [i]) := by
      rw [countsIn_concat]
      exact Nat.le_add_right _ _
    have hburst := ih (fun x hx => hkinds x (List.mem_append_left _ hx)) (hle.trans_lt hfits)
      fun x hx => hts x (List.mem_append_left _ hx)
    rw [filterMap_concat, List.length_append]
    exact hburst.input htype hop hcap (hkinds _ hlast) ha hspan (hts _ hlast).1 (hts _ hlast).2
      hmerged

end Burst

section Workers

variable {caps : CorrCaps} {r : CorrRule} {ci : ℕ} {key : List CStr}

/-- The inputs of a group that a worker gave. -/
theorem inputsBy_inputFor (w : W) (H : List (Acted W CorrAct (Option GroupOutcome))) :
    (actsBy w (actsOn ci H)).filterMap (fun x => x.act.inputFor key) =
      (inputsBy w ci H).filterMap fun p => if p.1 = key then some p.2 else none := by
  rw [actsBy, actsOn, inputsBy, List.filter_filter, List.filterMap_filterMap, List.filterMap_filter]
  refine List.filterMap_congr fun x _ => ?_
  have hdec : (decide (x.worker = w) && decide (x.obj = ci)) = true ↔ x.worker = w ∧ x.obj = ci := by
    rw [Bool.and_eq_true, decide_eq_true_eq, decide_eq_true_eq]
  by_cases hx : x.worker = w ∧ x.obj = ci
  · rw [if_pos (hdec.mpr hx), if_pos hx]
    cases x.act <;> rfl
  · rw [if_neg (mt hdec.mp hx), if_neg hx]
    rfl

/-- What a call says for a group is what it says for the correlation. -/
theorem filterMap_inputFor (rules : List CorrRule) (cs : List CorrCall) :
    (cs.filterMap (·.target rules ci r)).filterMap (fun p => if p.1 = key then some p.2 else none) =
      cs.filterMap (·.inputFor rules ci r key) := List.filterMap_filterMap

/-- An input of a group in the history was in a call of its worker. -/
theorem PoolOk.exists_call {rules : List CorrRule} {prog : W → List CorrCall}
    (h : PoolOk fp rules caps prog P) (hr : (admittedRules rules)[ci]? = some r)
    {x : Acted W CorrAct (Option GroupOutcome)} (hx : x ∈ actsOn ci P.history) {i : GroupInput}
    (hi : x.act.inputFor key = some i) :
    ∃ c ∈ prog x.worker, c.inputFor (admittedRules rules) ci r key = some i := by
  have hmem : i ∈ (actsBy x.worker (actsOn ci P.history)).filterMap fun x => x.act.inputFor key :=
    List.mem_filterMap.mpr ⟨x, List.mem_filter.mpr ⟨hx, decide_eq_true rfl⟩, hi⟩
  rw [inputsBy_inputFor] at hmem
  have hall : i ∈ (prog x.worker).filterMap (·.inputFor (admittedRules rules) ci r key) := by
    rw [← filterMap_inputFor, ← h.order x.worker ci r hr, List.filterMap_append]
    exact List.mem_append_left _ hmem
  exact List.mem_filterMap.mp hall

/-- The inputs that a worker gave to a group, and those it still has to give. -/
theorem PoolOk.inputs_by {rules : List CorrRule} {prog : W → List CorrCall}
    (h : PoolOk fp rules caps prog P) (hr : (admittedRules rules)[ci]? = some r) (w : W) :
    (actsBy w (actsOn ci P.history)).filterMap (fun x => x.act.inputFor key) ++
        (P.pending (admittedRules rules) ci r w).filterMap
          (fun p => if p.1 = key then some p.2 else none) =
      inputsFor (admittedRules rules) ci r key (prog w) := by
  rw [inputsBy_inputFor, ← List.filterMap_append, h.order w ci r hr, filterMap_inputFor]
  rfl

/-- **A burst fires once, whatever the schedule.**  Events and counts of peers within a window of an
event_count rule, given by many workers, fire once as soon as there are enough of them, if the
correlation evicts no group: not once for each worker, and not never. -/
theorem burst_fires_once [Fintype W] {fp : Doubles} {shared : SharedRules}
    {caps : CorrCaps} {prog : W → List CorrCall} {schedule : List W} {a b : ℚ}
    (hr : (admittedRules shared.rules)[ci]? = some r) (htype : r.type = some .eventCount)
    (hop : r.condOp = some .gte ∨ r.condOp = some .gt) (ha : 0 ≤ a) (hspan : b < a + r.timespanS)
    (hts : ∀ w, ∀ c ∈ prog w, a ≤ c.ts ∧ c.ts ≤ b)
    (hkinds : ∀ w, ∀ c ∈ prog w, ∀ p,
      c.inputFor (admittedRules shared.rules) ci r key = some (.contrib p) → p.kind = some .count)
    (hfits : ∑ w, countsIn (inputsFor (admittedRules shared.rules) ci r key (prog w)) < 2 ^ 32)
    (hroom : evictions (actsOn ci (poolRun fp (.new shared caps prog) schedule).history) = 0) :
    let P := poolRun fp (.new shared caps prog) schedule
    let fires := ((groupSteps ci key P.history).filterMap GroupStep.fire).length
    let enough := r.burstOf caps.withDefaults.maxEventsPerGroup
    let given := (groupSteps ci key P.history).map GroupStep.input
    fires = (if enough (localsIn given) (countsIn given) then 1 else 0) ∧
      ((∀ w, P.pc w = .idle ∧ P.calls w = []) → fires =
        if enough (∑ w, localsIn (inputsFor (admittedRules shared.rules) ci r key (prog w)))
          (∑ w, countsIn (inputsFor (admittedRules shared.rules) ci r key (prog w))) then 1 else 0) := by
  have h := poolOk_run fp shared caps prog schedule
  intro P fires enough given
  have hst : (corrEngineNew shared.rules caps).states[ci]? = some ⟨r, .empty 16⟩ := by
    show ((admittedRules shared.rules).map fun r => (⟨r, .empty 16⟩ : CorrState))[ci]? = _
    rw [List.getElem?_map, hr]
    rfl
  obtain ⟨st', -, hreplays⟩ := h.explained ci _ hst
  have hinput : ∀ x ∈ actsOn ci P.history, ∀ i, x.act.inputFor key = some i →
      (a ≤ i.ts ∧ i.ts ≤ b) ∧ i.Bursts := by
    intro x hx i hi
    obtain ⟨c, hc, hfor⟩ := h.exists_call hr hx hi
    rw [CorrCall.ts_of_inputFor hfor]
    refine ⟨hts _ c hc, ?_⟩
    rcases input_of_target (target_of_inputFor hfor) with ⟨ev, -, rfl, hhits⟩ | ⟨p, field, -, rfl⟩
    · exact .inl (isEvent_event hhits _ _)
    · exact .inr (hkinds _ c hc p hfor)
  have hlives : Lives fp caps.withDefaults r key a (actsOn ci P.history) st' := by
    refine lives_of_replays hreplays (fun x hx horizon hact => ?_)
      (fun x hx i hi => (hinput x hx i hi).1.1) hroom
    obtain ⟨hmem, hobj⟩ := List.mem_filter.mp hx
    obtain ⟨c, hc, r', hr', rfl⟩ := h.drops x hmem horizon hact
    rw [of_decide_eq_true hobj, hr] at hr'
    obtain rfl := Option.some.inj hr'
    linarith [(hts _ c hc).2]
  have hgiven : given = (actsOn ci P.history).filterMap fun x => x.act.inputFor key := hlives.inputs
  have hsteps : ∀ y ∈ groupSteps ci key P.history, (a ≤ y.ts ∧ y.ts ≤ b) ∧ y.input.Bursts := by
    intro y hy
    have hmem : y.input ∈ given := List.mem_map_of_mem hy
    rw [hgiven] at hmem
    obtain ⟨x, hx, hi⟩ := List.mem_filterMap.mp hmem
    exact hinput x hx _ hi
  -- what is given is a part of what the workers have to give
  have hcounts : countsIn given ≤
      ∑ w, countsIn (inputsFor (admittedRules shared.rules) ci r key (prog w)) := by
    rw [hgiven, countsIn, sum_by_worker]
    refine Finset.sum_le_sum fun w _ => ?_
    rw [← h.inputs_by hr w, countsIn, List.map_append, List.sum_append]
    exact Nat.le_add_right _ _
  have hfires := (hlives.life.burst htype hop (withDefaults_maxEvents_pos caps)
    (fun y hy => (hsteps y hy).2) (hcounts.trans_lt hfits) ha hspan fun y hy => (hsteps y hy).1).fires
  refine ⟨hfires, fun hdone => ?_⟩
  have hall : ∀ n : GroupInput → ℕ, (given.map n).sum =
      ∑ w, ((inputsFor (admittedRules shared.rules) ci r key (prog w)).map n).sum := by
    intro n
    rw [hgiven, sum_by_worker]
    refine Finset.sum_congr rfl fun w _ => ?_
    have hpending : P.pending (admittedRules shared.rules) ci r w = [] := by
      rw [CorrPool.pending, (hdone w).1, (hdone w).2]
      rfl
    rw [← h.inputs_by hr w, hpending, List.filterMap_nil, List.append_nil]
  have hevents : localsIn given =
      ∑ w, localsIn (inputsFor (admittedRules shared.rules) ci r key (prog w)) := hall _
  have hcounts' : countsIn given =
      ∑ w, countsIn (inputsFor (admittedRules shared.rules) ci r key (prog w)) := hall _
  rw [← hevents, ← hcounts']
  exact hfires

end Workers

/-- `tripleRule` alone. -/
def tripleAlone : SharedRules := ⟨[tripleRule], by decide⟩

/-- A worker with an event of user `a`, and one with a partial that counts two. -/
def twoWorkers (w : Bool) : List CorrCall :=
  if w then [.event (userEvent 7 10) none] else [peerOf 2 20]

/-- The second worker starts while the first one holds `sweep_lock`. -/
def crossed : List Bool := [true, false, true, false, true, false, true, false]

theorem burst_fires_once_sample :
    ((groupSteps 0 [cstr "a"] (poolRun .bare (.new tripleAlone capsZero twoWorkers)
      crossed).history).filterMap GroupStep.fire).length = 1 := by
  have hr : (admittedRules tripleAlone.rules)[0]? = some tripleRule := rfl
  have hspan : (20 : ℚ) < 10 + tripleRule.timespanS := by norm_num [tripleRule, burstRule]
  have hts : ∀ w, ∀ c ∈ twoWorkers w, 10 ≤ c.ts ∧ c.ts ≤ 20 := by
    intro w c hc
    cases w <;> obtain rfl := List.mem_singleton.mp hc <;>
      norm_num [CorrCall.ts, userEvent, peerOf]
  have hkinds : ∀ w, ∀ c ∈ twoWorkers w, ∀ p, c.inputFor (admittedRules tripleAlone.rules) 0
      tripleRule [cstr "a"] = some (.contrib p) → p.kind = some .count := by
    intro w c hc p hp
    cases w <;> obtain rfl := List.mem_singleton.mp hc <;> cases hp
    rfl
  have hfits : ∑ w, countsIn (inputsFor (admittedRules tripleAlone.rules) 0 tripleRule [cstr "a"]
      (twoWorkers w)) < 2 ^ 32 := by decide +kernel
  have hroom : evictions (actsOn 0 (poolRun .bare (.new tripleAlone capsZero twoWorkers)
      crossed).history) = 0 := by decide +kernel
  refine ((burst_fires_once hr rfl (.inl rfl) (by norm_num) hspan hts hkinds hfits hroom).2
    fun w => ?_).trans (by decide +kernel)
  cases w <;> exact ⟨rfl, rfl⟩

end LibSigma
