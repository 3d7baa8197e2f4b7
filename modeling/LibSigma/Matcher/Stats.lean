import Mathlib.Algebra.Order.BigOperators.Group.List
import Mathlib.Data.List.Dedup
import LibSigma.Library.Firsts
import LibSigma.Matcher.Routing
import LibSigma.Matcher.Examined

/-!
# What the counters of the scratch count

The counters are kept at other places than the work they count.  `rules_verified` goes up before
`eval_one_rule` finds that the rule was visited already, and `chain_steps` is a copy of a counter
that `sigma_eval_reset_stats` does not touch.

## The work

To ask whether a counter covers the work there must be a record of the work that the counter has no
part in.  That is the log: an entry when a rule is run, when the prefilter runs, when a needle is
confirmed, when a field is scanned.  The claim compares the counters after a sequence of calls with
the log since the last reset.

## Counters in step with the log

One relation between two scratches says that what was counted was logged (`Accounted`), with the
rules as the exception: they are counted per visit and logged when they are run.  It is a frame, so
`LibSigma.Matcher.Effects` carries it through an evaluation, and appending runs adds up by
transitivity.  What is left is to say how often a rule is visited, which is the list of visits of
`LibSigma.Matcher.Run`.

## When they cover

An evaluation that visits a rule twice counts it twice and runs it once; a rule in two selected
buckets is visited twice.  And when chain entries were examined before the reset, the next run of
the prefilter copies them into the statistics again.  The theorem says that these are the only two
ways to be wrong, for any sequence of calls.

The counters are natural numbers, so the wrap of a `uint64_t` is outside of what is said.

* `accountFrame`: what is counted and what is logged stay in step.
* `Counted`: the counters and the log after a list of evaluations.
* `execAll_counted`: what a sequence of calls counts.
* `stats_cover_iff`: **when the counters cover the evaluations since the last reset.**
-/

namespace LibSigma

open Library

/-! ## Counters and log in step

One relation for all counters.  A step that counts also logs, except for a visit, which is counted
by its caller before anything else and logged when the rule is run for the first time.  So the rules
logged are tied to the stamps and not to their counter. -/

/-- From `s` to `t`, what was counted was logged, and the rules logged are those stamped. -/
structure Accounted (s t : SigmaEval) : Prop where
  confirmed : t.st.needlesConfirmed + (s.trace Obs.confirmed).length =
    s.st.needlesConfirmed + (t.trace Obs.confirmed).length
  scanned : t.st.haystackBytes + (s.trace Obs.scanned).sum =
    s.st.haystackBytes + (t.trace Obs.scanned).sum
  matched : ∃ new, t.trace Obs.matched = s.trace Obs.matched ++ new ∧
    Firsts (Marked s.gen s.evalDone) (Marked t.gen t.evalDone) new

namespace Accounted

variable {s t u : SigmaEval}

/-- Nothing was counted, logged or stamped. -/
theorem quiet (hneedles : t.st.needlesConfirmed = s.st.needlesConfirmed)
    (hbytes : t.st.haystackBytes = s.st.haystackBytes)
    (hstamps : (t.gen, t.evalDone) = (s.gen, s.evalDone))
    (hconfirmed : t.trace Obs.confirmed = s.trace Obs.confirmed)
    (hscanned : t.trace Obs.scanned = s.trace Obs.scanned)
    (hmatched : t.trace Obs.matched = s.trace Obs.matched) : Accounted s t := by
  obtain ⟨hgen, hdone⟩ := Prod.mk.inj hstamps
  refine ⟨by rw [hneedles, hconfirmed], by rw [hbytes, hscanned], [], ?_, ?_⟩
  · rw [hmatched, List.append_nil]
  · rw [hgen, hdone]
    exact Firsts.refl _

theorem refl (s : SigmaEval) : Accounted s s :=
  quiet rfl rfl rfl rfl rfl rfl

theorem trans (h : Accounted s t) (h' : Accounted t u) : Accounted s u := by
  obtain ⟨new, hlog, hfirsts⟩ := h.matched
  obtain ⟨new', hlog', hfirsts'⟩ := h'.matched
  refine ⟨?_, ?_, new ++ new', ?_, hfirsts.trans hfirsts'⟩
  · have h₁ := h.confirmed
    have h₂ := h'.confirmed
    omega
  · have h₁ := h.scanned
    have h₂ := h'.scanned
    omega
  · rw [hlog', hlog, List.append_assoc]

/-- A first visit is stamped and logged. -/
theorem visit {i : ℕ} (hst : t.st = s.st) (hgen : t.gen = s.gen)
    (hdone : t.evalDone = s.evalDone.set i s.gen) (hlog : t.log = .ruleMatch i :: s.log)
    (hi : i < s.evalDone.length) (hnew : ¬ Marked s.gen s.evalDone i) : Accounted s t := by
  refine ⟨?_, ?_, [i], trace_snoc hlog rfl, Firsts.single hnew fun j => ?_⟩
  · rw [hst, trace_skip hlog rfl]
  · rw [hst, trace_skip hlog rfl]
  · rw [hgen, hdone]
    exact marked_set hi j

/-- A confirmed needle is counted and logged. -/
theorem confirm {needle : ℕ} (hneedles : t.st.needlesConfirmed = s.st.needlesConfirmed + 1)
    (hbytes : t.st.haystackBytes = s.st.haystackBytes)
    (hstamps : (t.gen, t.evalDone) = (s.gen, s.evalDone))
    (hlog : t.log = .confirm needle :: s.log) : Accounted s t := by
  obtain ⟨hgen, hdone⟩ := Prod.mk.inj hstamps
  have hconfirmed : t.trace Obs.confirmed = s.trace Obs.confirmed ++ [needle] := trace_snoc hlog rfl
  refine ⟨?_, ?_, [], ?_, ?_⟩
  · rw [hneedles, hconfirmed, List.length_append, List.length_singleton]
    omega
  · rw [hbytes, trace_skip hlog rfl]
  · rw [trace_skip hlog rfl, List.append_nil]
  · rw [hgen, hdone]
    exact Firsts.refl _

/-- A scan is logged at its start, in `t`, and its bytes are counted at its end, in `v`. -/
theorem scan {v : SigmaEval} {f len : ℕ} (h : Accounted t u) (hst : t.st = s.st)
    (hstamps : (t.gen, t.evalDone) = (s.gen, s.evalDone)) (hlog : t.log = .scan f len :: s.log)
    (hst' : v.st = { u.st with haystackBytes := u.st.haystackBytes + len })
    (hstamps' : (v.gen, v.evalDone) = (u.gen, u.evalDone)) (hlog' : v.log = u.log) :
    Accounted s v := by
  obtain ⟨hgen, hdone⟩ := Prod.mk.inj hstamps
  obtain ⟨hgen', hdone'⟩ := Prod.mk.inj hstamps'
  have hlen : t.trace Obs.scanned = s.trace Obs.scanned ++ [len] := trace_snoc hlog rfl
  obtain ⟨hconfirmed, hscanned, new, hmatched, hfirsts⟩ := h
  rw [hst, trace_skip hlog rfl] at hconfirmed
  rw [hst, hlen, List.sum_append, List.sum_singleton] at hscanned
  rw [trace_skip hlog rfl] at hmatched
  rw [hgen, hdone] at hfirsts
  refine ⟨?_, ?_, new, ?_, ?_⟩
  · rw [hst', trace_congr hlog']
    exact hconfirmed
  · rw [hst', trace_congr hlog']
    dsimp only
    omega
  · rw [trace_congr hlog', hmatched]
  · rw [hgen', hdone']
    exact hfirsts

end Accounted

/-- Counters and log stay in step. -/
def accountFrame (db : SigmaDb) : Frame SigmaEval where
  inv e := e.evalDone.length = db.rules.length
  keeps := Accounted
  refl := Accounted.refl
  trans _ _ _ := Accounted.trans

section Account

variable {pf : Platform} {db : SigmaDb} {ev : Event}

/-- A step that counts, logs and stamps nothing. -/
theorem accountFrame_quiet {e e' : SigmaEval} (he : (accountFrame db).inv e)
    (hst : (e'.st.needlesConfirmed, e'.st.haystackBytes) =
      (e.st.needlesConfirmed, e.st.haystackBytes))
    (hstamps : (e'.gen, e'.evalDone) = (e.gen, e.evalDone))
    (hlog : e'.log = e.log ∨ ∃ o : Obs, e'.log = o :: e.log ∧ o.confirmed = none ∧
      o.scanned = none ∧ o.matched = none) :
    (accountFrame db).inv e' ∧ (accountFrame db).keeps e e' := by
  obtain ⟨hneedles, hbytes⟩ := Prod.mk.inj hst
  refine ⟨?_, ?_⟩
  · show e'.evalDone.length = db.rules.length
    rw [(Prod.mk.inj hstamps).2]
    exact he
  · rcases hlog with hlog | ⟨o, hlog, hc, hs, hm⟩
    · exact Accounted.quiet hneedles hbytes hstamps (trace_congr hlog) (trace_congr hlog)
        (trace_congr hlog)
    · exact Accounted.quiet hneedles hbytes hstamps (trace_skip hlog hc) (trace_skip hlog hs)
        (trace_skip hlog hm)

theorem resolveField_accounts (f : UInt16) : Keeps (accountFrame db) (resolveField db ev f) :=
  resolveField_keeps
    (fun _ f he => accountFrame_quiet he rfl rfl (.inr ⟨.resolve f, rfl, rfl, rfl, rfl⟩))
    (fun _ _ _ name he => accountFrame_quiet he rfl rfl (.inr ⟨.call name, rfl, rfl, rfl, rfl⟩)) f

/-- The stamp of a first visit and the log entry of its `rule_match` go together. -/
theorem evalOneRule_accounts (maxHits : Int) (i : ℕ) (rep : Report) :
    Keeps (accountFrame db) (evalOneRule pf db ev maxHits i rep) := by
  intro e he
  have hlen : e.evalDone.length = db.rules.length := he
  have hfirst : Ensures (firstVisit i) e fun first t => if first then
      t = { e with evalDone := e.evalDone.set i e.gen } ∧
        (i < db.rules.length → i < e.evalDone.length ∧ ¬ Marked e.gen e.evalDone i)
      else t = e := by
    refine Ensures.get_bind ?_
    split
    · rename_i hnil
      refine Ensures.pure ⟨?_, fun hi => ?_⟩
      · rw [hnil, List.set_nil, ← hnil]
      · rw [← hlen, hnil] at hi
        exact absurd hi (Nat.not_lt_zero i)
    · refine Ensures.bind (Q := fun done t => e.evalDone[i]? = some done ∧ t = e) ?_ ?_
      · exact Ensures.lift fun done hdone => ⟨getElem?_of_readAt hdone, rfl⟩
      · rintro done _ ⟨hdone, rfl⟩
        split
        · exact Ensures.pure rfl
        · rename_i hne
          refine Ensures.modify_bind (Ensures.pure ⟨rfl, fun _ => ⟨?_, fun hmark => ?_⟩⟩)
          · exact (List.getElem?_eq_some_iff.mp hdone).1
          · exact hne (Option.some.inj (hdone.symm.trans hmark))
  refine hfirst.bind fun first t ht => ?_
  cases first with
  | false =>
    obtain rfl : t = e := ht
    exact Ensures.pure ⟨he, Accounted.refl t⟩
  | true =>
    obtain ⟨rfl, hfresh⟩ := ht
    refine Ensures.bind (Q := fun _ t => i < db.rules.length ∧
      t = { e with evalDone := e.evalDone.set i e.gen }) ?_ ?_
    · refine Ensures.lift fun r hr => ⟨?_, rfl⟩
      exact (List.getElem?_eq_some_iff.mp (getElem?_of_readAt hr)).1
    rintro r _ ⟨hi, rfl⟩
    obtain ⟨hlt, hnew⟩ := hfresh hi
    refine Ensures.modify_bind ?_
    have hvisit : Accounted e
        { e with evalDone := e.evalDone.set i e.gen, log := .ruleMatch i :: e.log } :=
      Accounted.visit rfl rfl rfl rfl hlt hnew
    have hrest : Keeps (accountFrame db) (do
        let hit ← ruleMatch pf db ev r
        if hit then do
          if (rep.fired : Int) < maxHits then do
            let h ← hitOf db r
            pure ⟨rep.fired + 1, rep.out ++ [h]⟩
          else pure ⟨rep.fired + 1, rep.out⟩
        else pure rep) := by
      refine (ruleMatch_keeps resolveField_accounts r).bind fun hit => ?_
      split
      · split
        · exact (hitOf_keeps r).bind fun _ => Keeps.pure _
        · exact Keeps.pure _
      · exact Keeps.pure _
    refine (hrest _ ?_).mono fun _ u hu => ⟨hu.1, hvisit.trans hu.2⟩
    show (e.evalDone.set i e.gen).length = db.rules.length
    rw [List.length_set, hlen]

theorem skipsMasks_account : SkipsMasks (accountFrame db) :=
  fun _ _ _ he => accountFrame_quiet he rfl rfl (.inl rfl)

theorem skipsCounters_account : SkipsCounters (accountFrame db) :=
  fun _ _ _ he => accountFrame_quiet he rfl rfl (.inl rfl)

/-- A confirmed needle is counted and logged. -/
theorem markPostings_accounts (k : ℕ) : Keeps (accountFrame db) (markPostings db k) := by
  exact markPostings_keeps skipsMasks_account
    (fun _ _ he => ⟨he, Accounted.confirm rfl rfl rfl rfl⟩) k

/-- The bytes of a field are logged when its scan begins and counted when it ends. -/
theorem scanOneField_accounts (t : SigmaTeddy) (buckets : List ℕ) (f : ℕ) :
    Keeps (accountFrame db) (scanOneField pf db ev t buckets f) := by
  unfold scanOneField
  split
  · exact Keeps.pure _
  · split
    · exact Keeps.pure _
    · rename_i tf _
      refine (resolveField_accounts _).bind fun val => ?_
      cases val with
      | none => exact Keeps.pure _
      | some v =>
        dsimp only
        split
        · exact Keeps.pure _
        · intro e he
          have hscan : Keeps (accountFrame db)
              (teddyConfirm db tf (markPostings db) pf.simd v e.tscr) :=
            teddyConfirm_keeps markPostings_accounts v pf.simd e.tscr
          have hstart : (accountFrame db).inv { e with
              curField := f.toUInt16, log := .scan f v.length :: e.log } := he
          refine Ensures.modify_bind (Ensures.get_bind ((hscan _ hstart).bind ?_))
          rintro scr u ⟨hu, hkept⟩
          exact Ensures.modify ⟨hu, Accounted.scan hkept rfl rfl rfl rfl rfl rfl⟩

theorem prefilterCandidates_accounts (buckets : List ℕ) :
    Keeps (accountFrame db) (prefilterCandidates pf db ev buckets) :=
  prefilterCandidates_keeps resolveField_accounts skipsMasks_account
    (fun t f => scanOneField_accounts t buckets f)
    (Keeps.modify fun _ he => accountFrame_quiet he rfl rfl (.inl rfl))

theorem routeLoop_accounts : Keeps (accountFrame db) (routeLoop db ev routeNames 0 [] false) :=
  routeLoop_keeps (routeValue_keeps resolveField_accounts fun _ name he =>
    accountFrame_quiet he rfl rfl (.inr ⟨.call name, rfl, rfl, rfl, rfl⟩)) _ _ _ _

end Account

/-! ## One evaluation

What the relation gives for an evaluation, with the numbers filled in: the visits and the scope from
`LibSigma.Matcher.Run`, the chain entries from `LibSigma.Matcher.Examined`. -/

/-- The entries that these evaluations examine, each in its prefilter mode. -/
def entriesOf (pf : Platform) (db : SigmaDb) (runs : List (Int × Event)) : ℕ :=
  (runs.map fun r => runEntries pf db r.2 r.1).sum

/-- From `e` to `e'` the evaluations `runs` were counted and logged. -/
structure Counted (pf : Platform) (db : SigmaDb) (runs : List (Int × Event)) (e e' : SigmaEval) :
    Prop where
  verified : e'.st.rulesVerified =
    e.st.rulesVerified + (runs.map fun r => (runVisits pf db r.2 r.1).length).sum
  inScope : e'.st.rulesInScope =
    e.st.rulesInScope + (runs.map fun r => (runScope db r.2).length).sum
  matched : (e'.trace Obs.matched).length = (e.trace Obs.matched).length +
    (runs.map fun r => (runVisits pf db r.2 r.1).eraseDups.length).sum
  confirmed : e'.st.needlesConfirmed + (e.trace Obs.confirmed).length =
    e.st.needlesConfirmed + (e'.trace Obs.confirmed).length
  scanned : e'.st.haystackBytes + (e.trace Obs.scanned).sum =
    e.st.haystackBytes + (e'.trace Obs.scanned).sum
  entries : e'.tscr.chainSteps = e.tscr.chainSteps + entriesOf pf db runs
  chainSteps : e'.st.chainSteps = if ∃ r ∈ runs, PrefilterRuns db r.2 r.1 then e'.tscr.chainSteps
    else e.st.chainSteps

section Evaluation

variable {pf : Platform} {db : SigmaDb} {ev : Event} {e e₁ : SigmaEval} {maxHits : Int}

/-- What leaves the counters of chain entries alone. -/
def chainFrame : Frame SigmaEval := sameFrame fun e => (e.tscr, e.st.chainSteps)

theorem resolveField_chain (f : UInt16) : Keeps chainFrame (resolveField db ev f) := by
  refine resolveField_keeps ?_ ?_ f
  · exact fun _ _ _ => ⟨trivial, rfl⟩
  · exact fun _ _ _ _ _ => ⟨trivial, rfl⟩

theorem evalOneRule_chain (i : ℕ) (rep : Report) :
    Keeps chainFrame (evalOneRule pf db ev maxHits i rep) :=
  evalOneRule_keeps resolveField_chain (fun _ _ _ => ⟨trivial, rfl⟩)
    (fun _ _ _ => ⟨trivial, rfl⟩) maxHits i rep

theorem skipsCounters_chain : SkipsCounters chainFrame :=
  fun _ _ _ _ => ⟨trivial, rfl⟩

/-- The routing logs no work and counts nothing. -/
theorem RoutedScratch.accounted (h : ScratchOk db e) (h₁ : RoutedScratch db ev e e₁) :
    Accounted (startRun e) e₁ ∧ e₁.st = (startRun e).st ∧ e₁.tscr = e.tscr := by
  have hlen : (startRun e).evalDone.length = db.rules.length :=
    (length_nextCells _ _).trans h.evalDone
  have hreached := h₁.reached
  split at hreached
  · subst hreached
    exact ⟨Accounted.refl _, rfl, rfl⟩
  · have hresolve : ∀ f, Keeps statsFrame (resolveField db ev f) :=
      resolveField_keeps (fun _ _ _ => ⟨trivial, rfl⟩) fun _ _ _ _ _ => ⟨trivial, rfl⟩
    have hvalue : ∀ i name, Keeps statsFrame (routeValue db ev i name) :=
      routeValue_keeps hresolve fun _ _ _ => ⟨trivial, rfl⟩
    have hchain : ∀ i name, Keeps chainFrame (routeValue db ev i name) :=
      routeValue_keeps resolveField_chain fun _ _ _ => ⟨trivial, rfl⟩
    refine ⟨(routeLoop_accounts _ hlen _ _ hreached).2, ?_, ?_⟩
    · exact (routeLoop_keeps hvalue _ _ _ _ _ trivial _ _ hreached).2
    · exact (Prod.mk.inj (routeLoop_keeps hchain _ _ _ _ _ trivial _ _ hreached).2).1

/-- What an evaluation does to the chain counters, and that it keeps counters and log in step. -/
theorem sigmaEvalRun_accounts (hdb : db.Loaded) (h : ScratchOk db e) :
    Ensures (sigmaEvalRun pf db ev maxHits) e fun _ e' => Accounted (startRun e) e' ∧
      e'.tscr.chainSteps = e.tscr.chainSteps + runEntries pf db ev e.prefilterOn ∧
        e'.st.chainSteps = if PrefilterRuns db ev e.prefilterOn then e'.tscr.chainSteps
          else e.st.chainSteps := by
  have hinv : ∀ e₁ e₂, RoutedScratch db ev e e₁ → PrefilteredScratch pf db ev e.prefilterOn e₁ e₂ →
      (Accounted e₁ e₂ ∧ (accountFrame db).inv e₂) := by
    intro e₁ e₂ h₁ h₂
    have hlen : (accountFrame db).inv e₁ := h₁.started.scratch.evalDone
    unfold PrefilteredScratch at h₂
    split at h₂
    · exact (prefilterCandidates_accounts _ e₁ hlen _ _ h₂).symm
    · rw [h₂]
      exact ⟨Accounted.refl e₁, hlen⟩
  refine Ensures.of_runs ((sigmaEvalRun_visits hdb h
    (fun i rep => (evalOneRule_accounts maxHits i rep).and (evalOneRule_chain i rep))
    (skipsCounters_account.and skipsCounters_chain)
    fun e₁ e₂ h₁ h₂ => ⟨(hinv e₁ e₂ h₁ h₂).2, trivial⟩).mono ?_)
  rintro _ e' ⟨e₁, e₂, h₁, h₂, haccount, hchain⟩
  obtain ⟨htscr', hst'⟩ := Prod.mk.inj hchain
  obtain ⟨hrouted, hst₁, htscr₁⟩ := h₁.accounted h
  refine ⟨hrouted.trans ((hinv e₁ e₂ h₁ h₂).1.trans haccount), ?_⟩
  rw [htscr', hst', runEntries]
  unfold PrefilteredScratch at h₂
  split at h₂
  · rename_i hruns
    obtain ⟨hcopy, hentries⟩ :=
      prefilterCandidates_entries hdb h₁.started.scratch h₁.started.memo _ _ h₂ rfl
    rw [if_pos hruns, if_pos hruns, hcopy, hentries, htscr₁]
    exact ⟨rfl, rfl⟩
  · rename_i hno
    rw [if_neg hno, if_neg hno, h₂, htscr₁, hst₁]
    exact ⟨rfl, rfl⟩

/-- **What `sigma_eval_run` counts.** -/
theorem sigmaEvalRun_counted (hdb : db.Loaded) (h : ScratchOk db e) :
    Runs (sigmaEvalRun pf db ev maxHits) e fun _ e' => ScratchOk db e' ∧
      e'.prefilterOn = e.prefilterOn ∧ Counted pf db [(e.prefilterOn, ev)] e e' := by
  refine ((sigmaEvalRun_finishes hdb h).and (sigmaEvalRun_accounts hdb h)).mono ?_
  rintro rep e' ⟨⟨-, e₁, h₁, hfin⟩, haccount, hentries, hchain⟩
  obtain ⟨-, hst₁, -⟩ := h₁.accounted h
  obtain ⟨new, hlog, hfirsts⟩ := haccount.matched
  have hfresh : ∀ i, ¬ Marked (startRun e).gen (startRun e).evalDone i :=
    notMarked_next h.boundedDone
  have hperm := hfirsts.perm hfresh (nodup_eraseDups (runVisits pf db ev e.prefilterOn)) fun i => by
    rw [hfin.done, List.mem_eraseDups]
  refine ⟨hfin.scratch, hfin.mode.trans h₁.mode, ?_, ?_, ?_, haccount.confirmed, haccount.scanned,
    ?_, ?_⟩
  · rw [hfin.verified, hst₁, List.map_singleton, List.sum_singleton]
    rfl
  · rw [hfin.inScope, hst₁, List.map_singleton, List.sum_singleton]
    rfl
  · rw [hlog, List.length_append, hperm.length_eq, List.map_singleton, List.sum_singleton]
    rfl
  · rw [hentries, entriesOf, List.map_singleton, List.sum_singleton]
  · simpa using hchain

/-- A full scan examines no chain entry. -/
theorem sigmaEvalRunLinear_entries (hdb : db.Loaded) (h : ScratchOk db e) :
    Runs (sigmaEvalRunLinear pf db ev maxHits) e fun _ e' => ScratchOk db e' ∧
      e'.prefilterOn = e.prefilterOn ∧ e'.tscr = e.tscr := by
  have hscan : Ensures (sigmaEvalRunLinear pf db ev maxHits) e fun _ e' => e'.tscr = e.tscr := by
    refine Ensures.modify_bind (Ensures.modify_bind ?_)
    exact (evalAll_keeps evalOneRule_chain _ _ _ _ trivial).mono fun _ _ hkept =>
      (Prod.mk.inj hkept.2).1
  refine ((sigmaEvalRunLinear_runs hdb h).and hscan).mono ?_
  rintro _ e' ⟨⟨-, hscratch, hmode⟩, htscr⟩
  exact ⟨hscratch, hmode, htscr⟩

end Evaluation

/-! ## Sequences of calls

A reset sets the counters to zero and leaves the scan scratch alone.  Between resets everything adds
up. -/

/-- The evaluation that a call is, with its prefilter mode. -/
def Call.evaluation (mode : Int) : Call → List (Int × Event)
  | .run ev _ => [(mode, ev)]
  | _ => []

/-- The evaluations of a sequence of calls, each in its prefilter mode. -/
def evaluations : Int → List Call → List (Int × Event)
  | _, [] => []
  | mode, c :: cs => c.evaluation mode ++ evaluations (c.mode mode) cs

/-- A call of `sigma_eval_run` or of `sigma_eval_set_prefilter`. -/
def Call.counted : Call → Bool
  | .run _ _ => true
  | .setPrefilter _ => true
  | _ => false

section Sequences

variable {pf : Platform} {db : SigmaDb} {e e' e'' : SigmaEval} {runs runs' : List (Int × Event)}

theorem Counted.nil (hst : e'.st = e.st) (htscr : e'.tscr = e.tscr) (hlog : e'.log = e.log) :
    Counted pf db [] e e' := by
  refine ⟨by rw [hst]; rfl, by rw [hst]; rfl, by rw [trace_congr hlog]; rfl, ?_, ?_, ?_, ?_⟩
  · rw [hst, trace_congr hlog]
  · rw [hst, trace_congr hlog]
  · rw [htscr]
    rfl
  · rw [hst, if_neg (by simp)]

@[simp] theorem entriesOf_append : entriesOf pf db (runs ++ runs') =
    entriesOf pf db runs + entriesOf pf db runs' := by
  rw [entriesOf, List.map_append, List.sum_append, entriesOf, entriesOf]

/-- Evaluations that do not run the prefilter examine no entry. -/
theorem entriesOf_eq_zero (h : ∀ r ∈ runs, ¬ PrefilterRuns db r.2 r.1) :
    entriesOf pf db runs = 0 := by
  induction runs with
  | nil => rfl
  | cons r runs ih =>
    have hhead : runEntries pf db r.2 r.1 = 0 := if_neg (h r List.mem_cons_self)
    rw [← List.singleton_append, entriesOf_append,
      ih fun q hq => h q (List.mem_cons_of_mem _ hq), entriesOf, List.map_singleton,
      List.sum_singleton, hhead]

theorem Counted.append (h : Counted pf db runs e e') (h' : Counted pf db runs' e' e'') :
    Counted pf db (runs ++ runs') e e'' := by
  refine ⟨?_, ?_, ?_, ?_, ?_, ?_, ?_⟩
  · rw [h'.verified, h.verified, List.map_append, List.sum_append, Nat.add_assoc]
  · rw [h'.inScope, h.inScope, List.map_append, List.sum_append, Nat.add_assoc]
  · rw [h'.matched, h.matched, List.map_append, List.sum_append, Nat.add_assoc]
  · have h₁ := h.confirmed
    have h₂ := h'.confirmed
    omega
  · have h₁ := h.scanned
    have h₂ := h'.scanned
    omega
  · rw [h'.entries, h.entries, entriesOf_append, Nat.add_assoc]
  · rw [h'.chainSteps]
    by_cases hlater : ∃ r ∈ runs', PrefilterRuns db r.2 r.1
    · obtain ⟨r, hr, hruns⟩ := hlater
      rw [if_pos ⟨r, hr, hruns⟩, if_pos ⟨r, List.mem_append_right _ hr, hruns⟩]
    -- the last prefilter run, if any, was before: the counter has not moved since
    · have hzero : entriesOf pf db runs' = 0 := by
        refine entriesOf_eq_zero fun r hr hruns => hlater ⟨r, hr, hruns⟩
      have hsame : e''.tscr.chainSteps = e'.tscr.chainSteps := by
        rw [h'.entries, hzero, Nat.add_zero]
      rw [if_neg hlater, h.chainSteps, hsame]
      refine if_congr ⟨?_, ?_⟩ rfl rfl
      · rintro ⟨r, hr, hruns⟩
        exact ⟨r, List.mem_append_left _ hr, hruns⟩
      · rintro ⟨r, hr, hruns⟩
        rcases List.mem_append.mp hr with hr | hr
        · exact ⟨r, hr, hruns⟩
        · exact absurd ⟨r, hr, hruns⟩ hlater

/-- One call. -/
theorem Call.exec_counted (hdb : db.Loaded) (h : ScratchOk db e) {c : Call}
    (hc : c.counted = true) :
    Runs (c.exec pf db) e fun _ e' => ScratchOk db e' ∧ e'.prefilterOn = c.mode e.prefilterOn ∧
      Counted pf db (c.evaluation e.prefilterOn) e e' := by
  cases c with
  | run ev maxHits => exact (sigmaEvalRun_counted hdb h).bind fun _ _ h' => Runs.pure h'
  | setPrefilter enabled =>
    exact Runs.modify_bind (Runs.pure ⟨h.of_stats e.st _, rfl, Counted.nil rfl rfl rfl⟩)
  | runLinear ev maxHits => exact absurd hc (by simp [Call.counted])
  | resetStats => exact absurd hc (by simp [Call.counted])

/-- **What a sequence of calls counts** between two resets. -/
theorem execAll_counted (hdb : db.Loaded) (h : ScratchOk db e) {cs : List Call}
    (hcs : ∀ c ∈ cs, c.counted = true) :
    Runs (execAll pf db cs) e fun _ e' => Counted pf db (evaluations e.prefilterOn cs) e e' := by
  induction cs generalizing e with
  | nil => exact Runs.pure (Counted.nil rfl rfl rfl)
  | cons c cs ih =>
    refine (Call.exec_counted hdb h (hcs c List.mem_cons_self)).bind ?_
    rintro _ e₁ ⟨h₁, hmode, hcounted⟩
    have hrest := ih h₁ fun c hc => hcs c (List.mem_cons_of_mem _ hc)
    rw [hmode] at hrest
    exact hrest.bind fun _ e₂ h₂ => Runs.pure (hcounted.append h₂)

/-- The chain entries a sequence of calls examines, resets or not. -/
theorem execAll_entries (hdb : db.Loaded) (h : ScratchOk db e) (cs : List Call) :
    Runs (execAll pf db cs) e fun _ e' => e'.tscr.chainSteps =
      e.tscr.chainSteps + entriesOf pf db (evaluations e.prefilterOn cs) := by
  have hcall : ∀ {e} (c : Call), ScratchOk db e → Runs (c.exec pf db) e fun _ e' =>
      ScratchOk db e' ∧ e'.prefilterOn = c.mode e.prefilterOn ∧ e'.tscr.chainSteps =
        e.tscr.chainSteps + entriesOf pf db (c.evaluation e.prefilterOn) := by
    intro e c h
    cases c with
    | run ev maxHits =>
      exact (sigmaEvalRun_counted hdb h).bind fun _ _ h' =>
        Runs.pure ⟨h'.1, h'.2.1, h'.2.2.entries⟩
    | runLinear ev maxHits =>
      exact (sigmaEvalRunLinear_entries hdb h).bind fun _ _ h' =>
        Runs.pure ⟨h'.1, h'.2.1, congrArg TeddyScratch.chainSteps h'.2.2⟩
    | setPrefilter enabled => exact Runs.modify_bind (Runs.pure ⟨h.of_stats e.st _, rfl, rfl⟩)
    | resetStats => exact Runs.modify_bind (Runs.pure ⟨h.of_stats _ e.prefilterOn, rfl, rfl⟩)
  induction cs generalizing e with
  | nil => exact Runs.pure rfl
  | cons c cs ih =>
    refine (hcall c h).bind ?_
    rintro _ e₁ ⟨h₁, hmode, hentries⟩
    refine (ih h₁).bind fun _ e₂ h₂ => Runs.pure ?_
    rw [h₂, hentries, hmode, evaluations, entriesOf_append, Nat.add_assoc]

/-- A sequence that ends in a reset leaves the counters at zero. -/
theorem execAll_reset (cs : List Call) :
    Ensures (execAll pf db (cs ++ [.resetStats])) e fun _ e' => e'.st = ⟨0, 0, 0, 0, 0, 0, 0⟩ := by
  induction cs generalizing e with
  | nil =>
    have hcall : Ensures (Call.exec pf db .resetStats) e fun _ t => t.st = ⟨0, 0, 0, 0, 0, 0, 0⟩ :=
      Ensures.modify_bind (Ensures.pure rfl)
    refine hcall.bind fun _ t ht => Ensures.bind (Q := fun _ u => u.st = t.st) ?_ ?_
    · exact Ensures.pure rfl
    · exact fun _ _ hst => Ensures.pure (hst.trans ht)
  | cons c cs ih => exact Ensures.any_bind fun _ _ => ih.bind fun _ _ hst => Ensures.pure hst

/-! ## When the counters cover the evaluations since a reset

With the numbers known this is arithmetic: a sum of lengths equals a sum of numbers of distinct
entries exactly when no list has a duplicate, and a total equals a difference exactly when it began
at zero or nothing was added. -/

/-- The counters in `e` cover the work logged since `e₀` and these chain entries. -/
structure StatsCover (e₀ e : SigmaEval) (entries : ℕ) : Prop where
  verified : (e.trace Obs.matched).length = (e₀.trace Obs.matched).length + e.st.rulesVerified
  inScope : e.st.rulesVerified ≤ e.st.rulesInScope
  chainSteps : e.st.chainSteps = entries
  confirmed : (e.trace Obs.confirmed).length =
    (e₀.trace Obs.confirmed).length + e.st.needlesConfirmed
  scanned : (e.trace Obs.scanned).sum = (e₀.trace Obs.scanned).sum + e.st.haystackBytes

/-- The rules visited are in the scope. -/
theorem length_runVisits_le (ev : Event) (mode : Int) :
    (runVisits pf db ev mode).length ≤ (runScope db ev).length := by
  unfold runVisits runScope
  split
  · exact Nat.le_refl _
  · dsimp only
    split
    · exact List.length_filter_le _ _
    · exact Nat.le_refl _

theorem length_eraseDups_le (l : List ℕ) : l.eraseDups.length ≤ l.length :=
  (nodup_eraseDups l).length_le_of_subset fun _ h => List.mem_eraseDups.mp h

/-- A list has as many distinct entries as entries when it has no duplicate. -/
theorem length_eraseDups_eq_iff {l : List ℕ} : l.eraseDups.length = l.length ↔ l.Nodup := by
  have hperm : l.eraseDups.Perm l.dedup := by
    refine (List.perm_ext_iff_of_nodup (nodup_eraseDups l) (List.nodup_dedup l)).mpr fun i => ?_
    rw [List.mem_eraseDups, List.mem_dedup]
  rw [hperm.length_eq]
  refine ⟨fun h => ?_, fun h => by rw [h.dedup]⟩
  rw [← (List.dedup_sublist l).eq_of_length h]
  exact List.nodup_dedup l

/-- Sums of smaller numbers are equal when the numbers are. -/
theorem sum_map_eq_iff {α : Type} {f g : α → ℕ} {l : List α} (h : ∀ a ∈ l, f a ≤ g a) :
    (l.map f).sum = (l.map g).sum ↔ ∀ a ∈ l, f a = g a := by
  induction l with
  | nil => simp
  | cons a l ih =>
    have hhead := h a List.mem_cons_self
    have hrest : ∀ b ∈ l, f b ≤ g b := fun b hb => h b (List.mem_cons_of_mem _ hb)
    have hle : (l.map f).sum ≤ (l.map g).sum := List.sum_le_sum hrest
    rw [List.map_cons, List.sum_cons, List.map_cons, List.sum_cons, List.forall_mem_cons,
      ← ih hrest]
    omega

/-- The counters after evaluations that began with counters at zero. -/
theorem Counted.cover_iff (h : Counted pf db runs e e') (hzero : e.st = ⟨0, 0, 0, 0, 0, 0, 0⟩) :
    StatsCover e e' (entriesOf pf db runs) ↔
      (∀ r ∈ runs, (runVisits pf db r.2 r.1).Nodup) ∧
        ((∀ r ∈ runs, ¬ PrefilterRuns db r.2 r.1) ∨ e.tscr.chainSteps = 0) := by
  have hverified := h.verified
  have hscope := h.inScope
  have hconfirmed := h.confirmed
  have hscanned := h.scanned
  have hchain := h.chainSteps
  rw [hzero] at hverified hscope hconfirmed hscanned hchain
  dsimp only at hverified hscope hconfirmed hscanned hchain
  have honce : (e'.trace Obs.matched).length =
      (e.trace Obs.matched).length + e'.st.rulesVerified ↔
        ∀ r ∈ runs, (runVisits pf db r.2 r.1).Nodup := by
    simp only [← length_eraseDups_eq_iff]
    rw [← sum_map_eq_iff fun r _ => length_eraseDups_le _, h.matched, hverified]
    omega
  have hentries : e'.st.chainSteps = entriesOf pf db runs ↔
      (∀ r ∈ runs, ¬ PrefilterRuns db r.2 r.1) ∨ e.tscr.chainSteps = 0 := by
    by_cases hruns : ∃ r ∈ runs, PrefilterRuns db r.2 r.1
    · rw [hchain, if_pos hruns, h.entries]
      have hnot : ¬ ∀ r ∈ runs, ¬ PrefilterRuns db r.2 r.1 := by simpa using hruns
      rw [or_iff_right hnot]
      omega
    · have hnone : ∀ r ∈ runs, ¬ PrefilterRuns db r.2 r.1 :=
        fun r hr hrun => hruns ⟨r, hr, hrun⟩
      rw [hchain, if_neg hruns, entriesOf_eq_zero hnone]
      exact iff_of_true rfl (.inl hnone)
  have hle : e'.st.rulesVerified ≤ e'.st.rulesInScope := by
    rw [hverified, hscope]
    exact Nat.add_le_add_left (List.sum_le_sum fun r _ => length_runVisits_le _ _) _
  constructor
  · exact fun hcover => ⟨honce.mp hcover.verified, hentries.mp hcover.chainSteps⟩
  · rintro ⟨hnodup, hfresh⟩
    exact ⟨honce.mpr hnodup, hle, hentries.mpr hfresh, by omega, by omega⟩

/-- **When the counters cover the evaluations since the last reset**: exactly when no evaluation
since then visits a rule twice, and none since then ran the prefilter or no chain entry was examined
before. -/
theorem stats_cover_iff {buf : Bytes} (hload : sigmaDbLoadBuffer pf buf = .ok db)
    (before since : List Call) (hlast : before = [] ∨ ∃ cs, before = cs ++ [.resetStats])
    (hsince : ∀ c ∈ since, c.counted = true) :
    ∃ rs e₀ rs' e, (execAll pf db before).run (sigmaEvalCreate db) = .ok (rs, e₀) ∧
      (execAll pf db since).run e₀ = .ok (rs', e) ∧
        e.tscr.chainSteps = e₀.tscr.chainSteps +
          entriesOf pf db (evaluations (before.foldl Call.mode 1) since) ∧
        (StatsCover e₀ e (entriesOf pf db (evaluations (before.foldl Call.mode 1) since)) ↔
          (∀ r ∈ evaluations (before.foldl Call.mode 1) since, (runVisits pf db r.2 r.1).Nodup) ∧
            ((∀ r ∈ evaluations (before.foldl Call.mode 1) since, ¬ PrefilterRuns db r.2 r.1) ∨
              entriesOf pf db (evaluations 1 before) = 0)) := by
  have hdb := loaded_of_loadBuffer hload
  have hbefore : Runs (execAll pf db before) _ _ := execAll_runs hdb (scratchOk_create db) before
  obtain ⟨rs, e₀, hrun, ⟨-, hscratch, hmode⟩, hentries⟩ :=
    hbefore.and (Ensures.of_runs (execAll_entries hdb (scratchOk_create db) before))
  obtain ⟨rs', e, hrun', hcounted⟩ := execAll_counted hdb hscratch hsince
  have hzero : e₀.st = ⟨0, 0, 0, 0, 0, 0, 0⟩ := by
    rcases hlast with rfl | ⟨cs, rfl⟩
    · obtain ⟨-, rfl⟩ := Prod.mk.inj (Except.ok.inj hrun)
      rfl
    · exact execAll_reset cs rs e₀ hrun
  have hnone : e₀.tscr.chainSteps = entriesOf pf db (evaluations 1 before) := by
    rw [hentries]
    exact Nat.zero_add _
  rw [hmode] at hcounted
  refine ⟨rs, e₀, rs', e, hrun, hrun', hcounted.entries, ?_⟩
  rw [← hnone]
  exact hcounted.cover_iff hzero

end Sequences

/-! ## An artifact whose buckets overlap -/

/-- The small artifact with its rule in the always-verify bucket as well. -/
def overlapTables : Tables :=
  { sampleTables with
    bucketKeys := [⟨0, 1⟩, ⟨0, 0⟩]
    buckets := [⟨0, 1⟩, ⟨0, 1⟩]
    buckets_length := rfl }

/-- The loader accepts it. -/
theorem load_overlap :
    ∃ db, sigmaDbLoadBuffer samplePlatform (sigmaDbSerialize overlapTables) = .ok db ∧
      overlapTables.Same db.toTables :=
  overlapTables.load_serialize samplePlatform (by decide) (by decide) (by decide)

/-- An event of the first bucket gets to the rule twice. -/
theorem runVisits_overlap {db : SigmaDb}
    (hload : sigmaDbLoadBuffer samplePlatform (sigmaDbSerialize overlapTables) = .ok db)
    (hsame : overlapTables.Same db.toTables) :
    runVisits samplePlatform db sampleEvent 1 = [0, 0] := by
  have hdb := loaded_of_loadBuffer hload
  have hav : db.avBucket = some 1 := by
    rw [hdb.avBucket, hsame.bucketKeys]
    exact ⟨⟨0, 0⟩, rfl, rfl⟩
  have hroute : route db sampleEvent = ([0], true) := by
    rw [route, routeAnswers_eq hdb (by rw [hsame.fields]; decide)]
    unfold routeStep bucketOf keyIs
    simp only [hsame.bucketKeys, hsame.str]
    decide
  have hsel : bucketSel db sampleEvent = [0, 1] := by
    rw [bucketSel, hroute, addAvBucket, hav]
    rfl
  have hbig : isBig db 1 [0, 1] = false := by
    rw [isBig, hav, hsame.buckets]
    decide
  have hscope : [0, 1].flatMap (bucketRules db) = [0, 0] := by
    unfold bucketRules
    rw [hsame.buckets, hsame.bucketIdx]
    decide
  have hrouted : ¬ (db.bucketKeys.length = 0 ∨ hasRoute db sampleEvent = false) := by
    rw [hsame.bucketKeys, hasRoute, hroute]
    decide
  rw [runVisits_of_not_big hrouted (by rw [hsel, hbig]), hsel, hscope]

/-- One evaluation there counts two rules and runs one. -/
theorem rules_verified_overcounts :
    ¬ ∀ (pf : Platform) (buf : Bytes) (db : SigmaDb) (before since : List Call)
        (rs rs' : List (Option Report)) (e₀ e : SigmaEval),
      sigmaDbLoadBuffer pf buf = .ok db →
        (before = [] ∨ ∃ cs, before = cs ++ [.resetStats]) → (∀ c ∈ since, c.counted = true) →
          (execAll pf db before).run (sigmaEvalCreate db) = .ok (rs, e₀) →
            (execAll pf db since).run e₀ = .ok (rs', e) →
              StatsCover e₀ e
                (entriesOf pf db (evaluations (before.foldl Call.mode 1) since)) := by
  intro hall
  obtain ⟨db, hload, hsame⟩ := load_overlap
  have hdb := loaded_of_loadBuffer hload
  have hcalls : ∀ c ∈ [Call.run sampleEvent 4], c.counted = true := by simp [Call.counted]
  have hruns : Runs (execAll samplePlatform db [.run sampleEvent 4]) _ _ :=
    execAll_counted hdb (scratchOk_create db) hcalls
  obtain ⟨rs', e, hrun, hcounted⟩ := hruns
  have hcover := hall _ _ db [] [.run sampleEvent 4] [] rs' _ e hload (.inl rfl) hcalls rfl hrun
  have hnodup := ((hcounted.cover_iff rfl).mp hcover).1 (1, sampleEvent) List.mem_cons_self
  rw [runVisits_overlap hload hsame] at hnodup
  exact absurd hnodup (by decide)

/-- The theorem at the small artifact, with a reset between two evaluations. -/
theorem stats_cover_iff_sample :
    ∃ db rs e₀ rs' e, sigmaDbLoadBuffer samplePlatform (sigmaDbSerialize sampleTables) = .ok db ∧
      (execAll samplePlatform db [.setPrefilter 2, .run sampleEvent 4, .resetStats]).run
        (sigmaEvalCreate db) = .ok (rs, e₀) ∧
      (execAll samplePlatform db [.run sampleEvent 4]).run e₀ = .ok (rs', e) ∧
      (StatsCover e₀ e (entriesOf samplePlatform db [(2, sampleEvent)]) ↔
        (∀ r ∈ [((2 : Int), sampleEvent)], (runVisits samplePlatform db r.2 r.1).Nodup) ∧
          ((∀ r ∈ [((2 : Int), sampleEvent)], ¬ PrefilterRuns db r.2 r.1) ∨
            entriesOf samplePlatform db [(2, sampleEvent)] = 0)) := by
  obtain ⟨db, hload, -⟩ := load_sample
  obtain ⟨rs, e₀, rs', e, hrun, hrun', -, hiff⟩ := stats_cover_iff hload
    [.setPrefilter 2, .run sampleEvent 4, .resetStats] [.run sampleEvent 4]
    (.inr ⟨[.setPrefilter 2, .run sampleEvent 4], rfl⟩) (by simp [Call.counted])
  exact ⟨db, rs, e₀, rs', e, hload, hrun, hrun', hiff⟩

end LibSigma
