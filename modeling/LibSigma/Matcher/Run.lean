import LibSigma.Matcher.Prefilter
import LibSigma.Matcher.Effects

/-!
# A whole evaluation

`sigma_eval_run` picks buckets from the route fields, may run the prefilter, and visits the rules of
the buckets; without a route field it visits every rule.  Which rules are visited, and so the
report, is a function of the tables, the event and the prefilter mode: nothing of the scratch but
that mode matters.

## The report as a function

The functions of the first section compute the visits and the report with no scratch in sight.  They
follow the code where its order can be seen in the report: the buckets in the order of the route
fields, each once, the always-verify bucket last; the rules of a bucket slot after slot.  Everything
about routing and gating that other modules prove is proved about these functions.

## Phases

The code is one long function, and its parts leave the scratch in states that the next part relies
on.  There is a structure for each: after the resets (`Started`), after the route fields are read
(`RoutedScratch`), after the prefilter, if it runs (`PrefilteredScratch`), and at the end
(`Finished`).  Each phase has a lemma from one to the next.  `sigmaEvalRun_phases` is then a rule
for the whole: to show something of an evaluation it is enough to show it of the visits, from a
scratch that has been through the phases before.

## Stamps instead of clearing

The scratch is not cleared between events.  `Started` says what the resets achieve anyway: the memo
is empty, and no stamp of a rule or of a mask is of the current generation.  When a generation wraps
the arrays are cleared, and the lemmas on `LibSigma.Library.Stamp` have both cases.

* `bucketSel`, `hasRoute`, `isBig`, `runVisits`, `runReport`: that function.
* `Started`: the scratch after the resets at the start of an evaluation.
* `sigmaEvalRun_phases`, `sigmaEvalRun_visits`: the rule for an evaluation, phase by phase, and what
  its visits keep.
* `Finished`, `sigmaEvalRun_finishes`: what an evaluation leaves in the scratch.
* `sigmaEvalRun_runs`, `sigmaEvalRunLinear_runs`: **the entry points return it.**
-/

namespace LibSigma

open Library

/-! ## What an evaluation visits -/

section Visits

variable (pf : Platform) (db : SigmaDb) (ev : Event)

/-- Bucket `j` has key `cat`. -/
def keyIs (cat : Bytes) (j : ℕ) : Bool :=
  (db.bucketKeys[j]?).any fun key => decide (0 < cat.length) && db.str key == cat

/-- The first of the `k` buckets from `i` with key `cat`. -/
def bucketOf (cat : Bytes) (i k : ℕ) : Option ℕ := (List.range' i k).find? (keyIs db cat)

/-- The value of route field `i`. -/
def routeAnswer (i : ℕ) (name : Bytes) : Option Bytes :=
  match i, db.catFieldId with
  | 0, some cat => fieldValue db ev cat.toUInt16.toNat
  | _, _ => ev name

/-- The effect of a route value on the buckets selected, and whether a route field is set. -/
def routeStep (acc : List ℕ × Bool) : Option Bytes → List ℕ × Bool
  | none => acc
  | some v =>
    if v.length = 0 then acc
    else match bucketOf db v 0 db.bucketKeys.length with
      | none => (acc.1, true)
      | some b => (addBucket acc.1 b, true)

/-- The values of the route fields. -/
def routeAnswers (names : List Bytes) (i : ℕ) : List (Option Bytes) :=
  (names.zipIdx i).map fun p => routeAnswer db ev p.2 p.1

/-- The buckets the route fields select, and whether one is set. -/
def route : List ℕ × Bool := (routeAnswers db ev routeNames 0).foldl (routeStep db) ([], false)

/-- Some route field is set. -/
def hasRoute : Bool := (route db ev).2

/-- The buckets to evaluate, the always-verify bucket last. -/
def bucketSel : List ℕ := addAvBucket db (route db ev).1

/-- Some bucket, other than the always-verify one, is worth the prefilter. -/
def isBig (mode : Int) (sel : List ℕ) : Bool :=
  sel.any fun b => decide (some b ≠ db.avBucket) &&
    (db.buckets[b]?).any fun bk =>
      decide (mode = 2) || decide (sigmaPrefilterMinBucket ≤ bk.idxCount.toNat)

/-- The rules of bucket `b`, slot after slot. -/
def bucketRules (b : ℕ) : List ℕ :=
  match db.buckets[b]? with
  | none => []
  | some bk => (slice db.bucketIdx bk.idxStart.toNat bk.idxCount.toNat).map UInt32.toNat

open Classical in
/-- The rules that `sigma_eval_run` visits in prefilter mode `mode`, in order. -/
noncomputable def runVisits (mode : Int) : List ℕ :=
  if db.bucketKeys.length = 0 ∨ hasRoute db ev = false then List.range db.rules.length
  else
    let visits := (bucketSel db ev).flatMap (bucketRules db)
    if isBig db mode (bucketSel db ev) = true ∧ Prefilterable db ∧ mode ≠ 0 then
      visits.filter fun ri => decide (Candidate pf db ev (bucketSel db ev) ri)
    else visits

/-- The rules that `sigma_eval_run` would visit without the prefilter. -/
def runScope : List ℕ :=
  if db.bucketKeys.length = 0 ∨ hasRoute db ev = false then List.range db.rules.length
  else (bucketSel db ev).flatMap (bucketRules db)

/-- `sigma_eval_run` runs the prefilter. -/
def PrefilterRuns (mode : Int) : Prop :=
  ¬ (db.bucketKeys.length = 0 ∨ hasRoute db ev = false) ∧
    isBig db mode (bucketSel db ev) = true ∧ Prefilterable db ∧ mode ≠ 0

instance (mode : Int) : Decidable (PrefilterRuns db ev mode) :=
  inferInstanceAs (Decidable (_ ∧ _))

/-- The report of `sigma_eval_run`. -/
noncomputable def runReport (mode maxHits : Int) : Report :=
  reportOf db maxHits (firedOf (ruleAccepts pf db ev) (runVisits pf db ev mode))

/-- The report of `sigma_eval_run_linear`. -/
def linearReport (maxHits : Int) : Report :=
  reportOf db maxHits (firedOf (ruleAccepts pf db ev) (List.range db.rules.length))

end Visits

/-- Small buckets are visited in full. -/
theorem runVisits_of_not_big {pf : Platform} {db : SigmaDb} {ev : Event} {mode : Int}
    (hrouted : ¬ (db.bucketKeys.length = 0 ∨ hasRoute db ev = false))
    (hbig : isBig db mode (bucketSel db ev) = false) :
    runVisits pf db ev mode = (bucketSel db ev).flatMap (bucketRules db) := by
  rw [runVisits, if_neg hrouted]
  exact if_neg fun h => absurd (hbig.symm.trans h.1) (by decide)

/-! ## Routing -/

section Routing

variable {pf : Platform} {db : SigmaDb} {ev : Event}

theorem findBucketLoop_yields (hdb : db.Valid) (cat : Bytes) {k i : ℕ}
    (hin : i + k ≤ db.bucketKeys.length) :
    Yields (memoFrame db ev) (findBucketLoop db cat k i) (bucketOf db cat i k) := by
  induction k generalizing i with
  | zero => exact Yields.pure none
  | succ k ih =>
    have hkey := List.getElem?_eq_getElem (show i < db.bucketKeys.length by omega)
    have hpool := hdb.keyInPool _ (List.mem_of_getElem? hkey)
    have hlen := length_str hpool
    rw [findBucketLoop, bucketOf, List.range'_succ, List.find?_cons, keyIs, hkey, Option.any_some]
    refine (tableAt_yields hkey).bind ?_
    by_cases hcmp : db.bucketKeys[i].len.toNat = cat.length ∧ 0 < cat.length
    · rw [if_pos hcmp, decide_eq_true hcmp.2, Bool.true_and]
      refine (poolStr_yields hpool).bind ?_
      by_cases heq : db.str db.bucketKeys[i] = cat
      · rw [if_pos heq, heq, beq_self_eq_true]
        exact Yields.pure _
      · rw [if_neg heq, beq_eq_false_iff_ne.mpr heq]
        exact ih (by omega)
    · have hfalse : (decide (0 < cat.length) && db.str db.bucketKeys[i] == cat) = false := by
        refine Bool.eq_false_iff.mpr fun htrue => hcmp ?_
        rw [Bool.and_eq_true, decide_eq_true_eq, beq_iff_eq] at htrue
        exact ⟨by rw [← hlen, htrue.2], htrue.1⟩
      rw [if_neg hcmp, hfalse]
      exact ih (by omega)

theorem routeValue_yields (hdb : db.Valid) (i : ℕ) (name : Bytes) :
    Yields (memoFrame db ev) (routeValue db ev i name) (routeAnswer db ev i name) := by
  unfold routeValue routeAnswer
  cases i with
  | zero =>
    cases db.catFieldId with
    | none => exact (log_yields _).bind (Yields.pure _)
    | some cat => exact resolveField_yields hdb _
  | succ i => exact (log_yields _).bind (Yields.pure _)

theorem routeLoop_yields (hdb : db.Valid) (names : List Bytes) (i : ℕ) (sel : List ℕ)
    (hadRoute : Bool) :
    Yields (memoFrame db ev) (routeLoop db ev names i sel hadRoute)
      ((routeAnswers db ev names i).foldl (routeStep db) (sel, hadRoute)) := by
  induction names generalizing i sel hadRoute with
  | nil => exact Yields.pure _
  | cons name names ih =>
    rw [routeLoop, routeAnswers, List.zipIdx_cons, List.map_cons, List.foldl_cons]
    refine (routeValue_yields hdb i name).bind ?_
    cases routeAnswer db ev i name with
    | none => exact ih _ _ _
    | some v =>
      dsimp only [routeStep]
      split
      · exact ih _ _ _
      · refine (findBucketLoop_yields hdb v (by omega)).bind ?_
        cases bucketOf db v 0 db.bucketKeys.length with
        | none => exact ih _ _ _
        | some b => exact ih _ _ _

/-- A selected bucket is a bucket. -/
theorem lt_of_bucketOf {cat : Bytes} {i k b : ℕ} (h : bucketOf db cat i k = some b) :
    keyIs db cat b = true ∧ b < db.bucketKeys.length := by
  have hkey := List.find?_some h
  refine ⟨hkey, ?_⟩
  by_contra hge
  rw [keyIs, List.getElem?_eq_none (Nat.le_of_not_lt hge)] at hkey
  exact absurd hkey (by simp)

theorem mem_addBucket {sel : List ℕ} {b j : ℕ} (h : j ∈ addBucket sel b) : j ∈ sel ∨ j = b := by
  unfold addBucket at h
  split at h
  · exact .inl h
  · split at h
    · exact (List.mem_append.mp h).imp id List.mem_singleton.mp
    · exact .inl h

theorem routeStep_mem {acc : List ℕ × Bool} {v : Option Bytes} {b : ℕ}
    (h : b ∈ (routeStep db acc v).1) :
    b ∈ acc.1 ∨ ∃ s, v = some s ∧ s.length ≠ 0 ∧ bucketOf db s 0 db.bucketKeys.length = some b := by
  unfold routeStep at h
  split at h
  · exact .inl h
  · rename_i s
    split at h
    · exact .inl h
    · rename_i hne
      split at h
      · exact .inl h
      · rename_i b' hb'
        rcases mem_addBucket h with h | rfl
        · exact .inl h
        · exact .inr ⟨s, rfl, hne, hb'⟩

theorem foldl_routeStep_mem {vs : List (Option Bytes)} {acc : List ℕ × Bool} {b : ℕ}
    (h : b ∈ (vs.foldl (routeStep db) acc).1) :
    b ∈ acc.1 ∨ ∃ s, some s ∈ vs ∧ s.length ≠ 0 ∧
      bucketOf db s 0 db.bucketKeys.length = some b := by
  induction vs generalizing acc with
  | nil => exact .inl h
  | cons v vs ih =>
    rw [List.foldl_cons] at h
    rcases ih h with h | ⟨s, hs, hrest⟩
    · rcases routeStep_mem h with h | ⟨s, rfl, hrest⟩
      · exact .inl h
      · exact .inr ⟨s, List.mem_cons_self, hrest⟩
    · exact .inr ⟨s, List.mem_cons_of_mem _ hs, hrest⟩

/-- Every bucket to evaluate is in the table. -/
theorem lt_of_mem_bucketSel (hdb : db.Loaded) {b : ℕ} (h : b ∈ bucketSel db ev) :
    b < db.bucketKeys.length := by
  have hroute : b ∈ (route db ev).1 → b < db.bucketKeys.length := by
    intro hb
    rcases foldl_routeStep_mem hb with hb | ⟨s, -, -, hs⟩
    · exact absurd hb List.not_mem_nil
    · exact (lt_of_bucketOf hs).2
  unfold bucketSel addAvBucket at h
  split at h
  · exact hroute h
  · rename_i av hav
    rcases mem_addBucket h with h | rfl
    · exact hroute h
    · obtain ⟨k, hk, -⟩ := (hdb.avBucket b).mp hav
      exact (List.getElem?_eq_some_iff.mp hk).1

theorem anyBig_yields {F : Frame SigmaEval} (mode : Int) {sel : List ℕ}
    (hsel : ∀ b ∈ sel, b < db.bucketKeys.length) :
    Yields F (anyBig db mode sel) (isBig db mode sel) := by
  induction sel with
  | nil => exact Yields.pure false
  | cons b sel ih =>
    have hrest := ih fun j hj => hsel j (List.mem_cons_of_mem _ hj)
    rw [anyBig, isBig, List.any_cons, ← isBig]
    by_cases hav : some b = db.avBucket
    · rw [if_pos hav, decide_eq_false (not_not.mpr hav), Bool.false_and, Bool.false_or]
      exact hrest
    · have hb : b < db.buckets.length := db.buckets_length ▸ hsel b List.mem_cons_self
      have hget := List.getElem?_eq_getElem hb
      rw [if_neg hav, decide_eq_true hav, Bool.true_and, hget, Option.any_some]
      refine (tableAt_yields hget).bind ?_
      by_cases hbig : mode = 2 ∨ sigmaPrefilterMinBucket ≤ db.buckets[b].idxCount.toNat
      · rw [if_pos hbig, ← Bool.decide_or, decide_eq_true hbig, Bool.true_or]
        exact Yields.pure true
      · rw [if_neg hbig, ← Bool.decide_or, decide_eq_false hbig, Bool.false_or]
        exact hrest

end Routing

/-! ## The start of an evaluation

The two generations are raised, and the memo is emptied.  Whatever the scratch was used for, nothing
in it counts as set after that, which is all that the phases below assume. -/

/-- The scratch after the resets: the memo is empty, and no stamp is current. -/
structure Started (db : SigmaDb) (ev : Event) (e : SigmaEval) : Prop where
  scratch : ScratchOk db e
  memo : MemoOk db ev e
  freshMask : ∀ ri, ¬ Marked e.gen e.ruleGen ri
  freshDone : ∀ ri, ¬ Marked e.gen e.evalDone ri

section Start

variable {pf : Platform} {db : SigmaDb} {ev : Event} {e : SigmaEval}

theorem scratchOk_create (db : SigmaDb) : ScratchOk db (sigmaEvalCreate db) := by
  have hmasks : (db.rules.length ≠ 0 ∧ (db.teddy.isSome = true ∨ db.fwit.length ≠ 0)) ↔
      Prefilterable db := Iff.rfl
  refine ⟨List.length_replicate, List.length_replicate, ?_, ?_, bounded_replicate_zero _ _, ?_, ?_⟩
  · simp only [sigmaEvalCreate, hmasks]
    split <;> simp
  · simp only [sigmaEvalCreate, hmasks]
    split <;> simp
  · simp only [sigmaEvalCreate, hmasks]
    split
    · exact bounded_replicate_zero _ _
    · exact fun c hc => absurd hc List.not_mem_nil
  · intro hpf hteddy
    simp only [sigmaEvalCreate, hmasks]
    rw [if_pos ⟨hpf, hteddy⟩]
    exact ⟨List.length_replicate, bounded_replicate_zero _ _⟩

/-- The resets work whatever the scratch was used for. -/
theorem started_bumpEvalGen (h : ScratchOk db e) (hmemo : MemoOk db ev e) :
    Started db ev (bumpEvalGen e) where
  scratch := ⟨h.memo, (length_nextCells _ _).trans h.evalDone,
    (length_nextCells _ _).trans h.ruleGen, h.ruleMask, h.boundedDone.next, h.boundedGen.next,
    h.tscr⟩
  memo := hmemo.of_memo_eq rfl
  freshMask := notMarked_next h.boundedGen
  freshDone := notMarked_next h.boundedDone

theorem ScratchOk.clearMemo (h : ScratchOk db e) : ScratchOk db (clearMemo e) :=
  ⟨(List.length_map _).trans h.memo, h.evalDone, h.ruleGen, h.ruleMask, h.boundedDone, h.boundedGen,
    h.tscr⟩

/-- Counters, the log and the mode do not matter. -/
theorem ScratchOk.of_stats (h : ScratchOk db e) (st : SigmaEvalStats) (mode : Int) :
    ScratchOk db { e with st := st, prefilterOn := mode } :=
  ⟨h.memo, h.evalDone, h.ruleGen, h.ruleMask, h.boundedDone, h.boundedGen, h.tscr⟩

/-- An evaluation that has visited nothing yet. -/
theorem Started.running (h : Started db ev e) : Running db ev e [] e :=
  ⟨h.memo, rfl, h.scratch.evalDone, h.scratch.boundedDone,
    fun i => iff_of_false (h.freshDone i) List.not_mem_nil⟩

/-- A scratch in the middle of an evaluation is as good as the one the evaluation began with. -/
theorem Running.scratchOk {e₀ : SigmaEval} {visited : List ℕ} (h : Running db ev e₀ visited e)
    (h₀ : ScratchOk db e₀) : ScratchOk db e ∧ e.prefilterOn = e₀.prefilterOn := by
  have hmask : e.ruleMask = e₀.ruleMask := congrArg Prod.fst h.gating
  have hgen : e.ruleGen = e₀.ruleGen := congrArg (fun g => g.2.1) h.gating
  have hcur : e.gen = e₀.gen := congrArg (fun g => g.2.2.1) h.gating
  have hscr : e.tscr = e₀.tscr := congrArg (fun g => g.2.2.2.1) h.gating
  have hmode : e.prefilterOn = e₀.prefilterOn := congrArg (fun g => g.2.2.2.2) h.gating
  exact ⟨⟨h.memo.length, h.length, by rw [hgen]; exact h₀.ruleGen, by rw [hmask]; exact h₀.ruleMask,
    h.bounded, by rw [hcur, hgen]; exact h₀.boundedGen, by rw [hscr]; exact h₀.tscr⟩, hmode⟩

/-- Reading fields before the first visit. -/
theorem Started.yields {α : Type} {m : EvalM α} {a : α} (h : Started db ev e)
    (hm : Yields (memoFrame db ev) m a) :
    Runs m e fun b e' => b = a ∧ Started db ev e' ∧ e'.prefilterOn = e.prefilterOn := by
  refine (h.running.yields hm).mono ?_
  rintro b e' ⟨hb, h'⟩
  obtain ⟨hscratch, hmode⟩ := h'.scratchOk h.scratch
  have hgen : e'.ruleGen = e.ruleGen := congrArg (fun g => g.2.1) h'.gating
  have hcur : e'.gen = e.gen := congrArg (fun g => g.2.2.1) h'.gating
  refine ⟨hb, ⟨hscratch, h'.memo, fun ri => ?_, fun ri => ?_⟩, hmode⟩
  · rw [hgen, hcur]
    exact h.freshMask ri
  · rw [h'.done]
    exact List.not_mem_nil

end Start

/-! ## Visiting buckets

A gate is a decision for each rule that is not changed by the visits.  Without the prefilter it lets
everything through, and after it the candidates; the loops over buckets and slots are treated once
for any gate. -/

section Buckets

variable {pf : Platform} {db : SigmaDb} {ev : Event} {e₀ e : SigmaEval} {visited : List ℕ}
  {maxHits : Int}

/-- The gate of `eval_bucket_prefiltered` lets through exactly the rules in `keep`, for as long as
the masks stay as they are in `e₀`. -/
def Gates (db : SigmaDb) (prefiltered : Bool) (keep : ℕ → Bool) (e₀ : SigmaEval) : Prop :=
  ∀ e : SigmaEval, e.gating = e₀.gating → ∀ ri < db.rules.length,
    Runs (gatedOut db prefiltered ri) e fun b e' => e' = e ∧ b = !keep ri

/-- The rules of a bucket, gated. -/
theorem bucketLoop_runs (hdb : db.Loaded) {prefiltered : Bool} {keep : ℕ → Bool}
    (hgate : Gates db prefiltered keep e₀) {start k i : ℕ}
    (hin : start + i + k ≤ db.bucketIdx.length) (h : Running db ev e₀ visited e) :
    Runs (bucketLoop pf db ev maxHits prefiltered start k i
        (reportOf db maxHits (firedOf (ruleAccepts pf db ev) visited))) e fun rep e' =>
      let kept := ((slice db.bucketIdx (start + i) k).map UInt32.toNat).filter keep
      rep = reportOf db maxHits (firedOf (ruleAccepts pf db ev) (visited ++ kept)) ∧
        Running db ev e₀ (visited ++ kept) e' ∧
        e'.st = { e.st with rulesVerified := e.st.rulesVerified + kept.length } := by
  induction k generalizing i visited e with
  | zero =>
    rw [show slice db.bucketIdx (start + i) 0 = [] from List.take_zero]
    simp only [List.map_nil, List.filter_nil, List.append_nil]
    exact Runs.pure ⟨rfl, h, rfl⟩
  | succ k ih =>
    have hget := List.getElem?_eq_getElem (show start + i < db.bucketIdx.length by omega)
    have hri := hdb.valid.bucketRule _ (List.mem_of_getElem? hget)
    rw [bucketLoop, slice_succ hget, List.map_cons, List.filter_cons]
    refine runs_tableAt hget ((hgate e h.gating _ hri).bind ?_)
    rintro _ e₁ ⟨rfl, rfl⟩
    cases keep db.bucketIdx[start + i].toNat with
    | false =>
      have hrest := ih (i := i + 1) (by omega) h
      rwa [← Nat.add_assoc] at hrest
    | true =>
      refine Runs.modify_bind (((evalOneRule_runs hdb (h.of_stats _ e₁.log) hri).and
        (evalOneRule_stats maxHits _ _ _ trivial)).bind ?_)
      rintro _ e₂ ⟨⟨rfl, h₂⟩, -, hst₂⟩
      have hrest := ih (i := i + 1) (by omega) h₂
      rw [← Nat.add_assoc] at hrest
      simp only [List.append_assoc, List.singleton_append] at hrest
      refine hrest.mono ?_
      rintro rep e₃ ⟨hrep, h₃, hst₃⟩
      refine ⟨hrep, h₃, ?_⟩
      rw [hst₃, hst₂, if_pos rfl, List.length_cons]
      dsimp only
      rw [Nat.add_assoc, Nat.add_comm 1]

/-- One bucket. -/
theorem evalBucketPrefiltered_runs (hdb : db.Loaded) {prefiltered : Bool} {keep : ℕ → Bool}
    (hgate : Gates db prefiltered keep e₀) {b : ℕ} (hb : b < db.bucketKeys.length)
    (h : Running db ev e₀ visited e) :
    Runs (evalBucketPrefiltered pf db ev maxHits prefiltered b
        (reportOf db maxHits (firedOf (ruleAccepts pf db ev) visited))) e fun rep e' =>
      let kept := (bucketRules db b).filter keep
      rep = reportOf db maxHits (firedOf (ruleAccepts pf db ev) (visited ++ kept)) ∧
        Running db ev e₀ (visited ++ kept) e' ∧
        e'.st = { e.st with
          rulesInScope := e.st.rulesInScope + (bucketRules db b).length
          rulesVerified := e.st.rulesVerified + kept.length } := by
  have hlt : b < db.buckets.length := by rwa [db.buckets_length]
  have hget := List.getElem?_eq_getElem hlt
  have hin := hdb.valid.bucketIdx _ (List.mem_of_getElem? hget)
  have hlen : (bucketRules db b).length = (db.buckets[b]).idxCount.toNat := by
    rw [bucketRules, hget]
    dsimp only
    rw [List.length_map, length_slice _ hin]
  rw [evalBucketPrefiltered, hlen, bucketRules, hget]
  refine runs_tableAt hget (Runs.modify_bind ?_)
  exact bucketLoop_runs hdb hgate (by omega) (h.of_stats _ e.log)

/-- The selected buckets, one after the other. -/
theorem evalBuckets_runs (hdb : db.Loaded) {prefiltered : Bool} {keep : ℕ → Bool}
    (hgate : Gates db prefiltered keep e₀) {sel : List ℕ}
    (hsel : ∀ b ∈ sel, b < db.bucketKeys.length) (h : Running db ev e₀ visited e) :
    Runs (evalBuckets pf db ev maxHits prefiltered sel
        (reportOf db maxHits (firedOf (ruleAccepts pf db ev) visited))) e fun rep e' =>
      let kept := (sel.flatMap (bucketRules db)).filter keep
      rep = reportOf db maxHits (firedOf (ruleAccepts pf db ev) (visited ++ kept)) ∧
        Running db ev e₀ (visited ++ kept) e' ∧
        e'.st = { e.st with
          rulesInScope := e.st.rulesInScope + (sel.flatMap (bucketRules db)).length
          rulesVerified := e.st.rulesVerified + kept.length } := by
  induction sel generalizing visited e with
  | nil =>
    simp only [List.flatMap_nil, List.filter_nil, List.append_nil]
    exact Runs.pure ⟨rfl, h, rfl⟩
  | cons b sel ih =>
    rw [evalBuckets, List.flatMap_cons, List.filter_append]
    refine (evalBucketPrefiltered_runs hdb hgate (hsel b List.mem_cons_self) h).bind ?_
    rintro _ e₁ ⟨rfl, h₁, hst₁⟩
    have hrest := ih (fun j hj => hsel j (List.mem_cons_of_mem _ hj)) h₁
    simp only [List.append_assoc] at hrest
    refine hrest.mono ?_
    rintro rep e₂ ⟨hrep, h₂, hst₂⟩
    refine ⟨hrep, h₂, ?_⟩
    rw [hst₂, hst₁, List.length_append, List.length_append]
    simp only [Nat.add_assoc]

/-- Without the prefilter nothing is gated. -/
theorem gates_nothing (db : SigmaDb) (e₀ : SigmaEval) : Gates db false (fun _ => true) e₀ :=
  fun _ _ _ _ => Runs.pure ⟨rfl, rfl⟩

open Classical in
/-- After the prefilter the candidates pass. -/
theorem gates_candidates (hdb : db.Loaded) {buckets : List ℕ}
    (h : Credit db ev e₀ (AlwaysVerified db) (ClauseCredited pf db ev buckets) e) :
    Gates db true (fun ri => decide (Candidate pf db ev buckets ri)) e := by
  intro e₁ hgating ri hri
  refine (pfIsCandidate_runs hdb h hgating hri).bind ?_
  rintro b e₂ ⟨rfl, hb⟩
  refine Runs.pure ⟨rfl, congrArg (!·) ?_⟩
  rw [Bool.eq_iff_iff, hb, decide_eq_true_eq]

end Buckets

/-! ## Entry points

A full scan, and the buckets with and without the prefilter, each from a scratch that has been
started.  Besides the report the lemmas say what is counted, as the statistics are asked about in a
later module. -/

section Entry

variable {pf : Platform} {db : SigmaDb} {ev : Event} {e₀ e : SigmaEval} {maxHits : Int}

theorem Started.of_stats (h : Started db ev e) (st : SigmaEvalStats) :
    Started db ev { e with st := st } :=
  ⟨h.scratch.of_stats st e.prefilterOn, h.memo.of_memo_eq rfl, h.freshMask, h.freshDone⟩

theorem reportOf_nil (accepts : ℕ → Bool) :
    reportOf db maxHits (firedOf accepts []) = ⟨0, []⟩ := by
  rw [firedOf, List.eraseDups_nil, List.filter_nil, reportOf, List.take_nil]
  rfl

/-- The scratch when an evaluation has visited `visits` out of `scope`. -/
structure Finished (db : SigmaDb) (e₀ : SigmaEval) (scope visits : List ℕ) (e : SigmaEval) :
    Prop where
  scratch : ScratchOk db e
  mode : e.prefilterOn = e₀.prefilterOn
  done : ∀ i, Marked e.gen e.evalDone i ↔ i ∈ visits
  inScope : e.st.rulesInScope = e₀.st.rulesInScope + scope.length
  verified : e.st.rulesVerified = e₀.st.rulesVerified + visits.length

/-- A full scan. -/
theorem evalAll_started (hdb : db.Loaded) (h : Started db ev e) :
    Runs (evalAll pf db ev maxHits db.rules.length 0 ⟨0, []⟩) e fun rep e' =>
      rep = linearReport pf db ev maxHits ∧ ScratchOk db e' ∧ e'.prefilterOn = e.prefilterOn ∧
        (∀ i, Marked e'.gen e'.evalDone i ↔ i ∈ List.range db.rules.length) ∧ e'.st = e.st := by
  have hin : 0 + db.rules.length ≤ db.rules.length := by omega
  have hstats : Keeps statsFrame (evalAll pf db ev maxHits db.rules.length 0 ⟨0, []⟩) :=
    evalAll_keeps (evalOneRule_stats maxHits) _ _ _
  rw [← reportOf_nil (ruleAccepts pf db ev)] at hstats ⊢
  refine ((evalAll_runs hdb hin h.running).and (hstats e trivial)).mono ?_
  rintro rep e' ⟨⟨hrep, h'⟩, -, hst⟩
  rw [List.nil_append, ← List.range_eq_range'] at hrep h'
  obtain ⟨hscratch, hmode⟩ := h'.scratchOk h.scratch
  exact ⟨hrep, hscratch, hmode, h'.done, hst⟩

theorem evalUnrouted_runs (hdb : db.Loaded) (h : Started db ev e) :
    Runs (evalUnrouted pf db ev maxHits) e fun rep e' =>
      rep = linearReport pf db ev maxHits ∧
        Finished db e (List.range db.rules.length) (List.range db.rules.length) e' := by
  refine Runs.modify_bind ((evalAll_started hdb (h.of_stats _)).mono ?_)
  rintro rep e' ⟨hrep, hscratch, hmode, hdone, hst⟩
  refine ⟨hrep, hscratch, hmode, hdone, ?_, ?_⟩
  · rw [hst, List.length_range]
  · rw [hst, List.length_range]

/-- The buckets without the prefilter. -/
theorem evalBuckets_full (hdb : db.Loaded) (h : Started db ev e) {sel : List ℕ}
    (hsel : ∀ b ∈ sel, b < db.bucketKeys.length) :
    Runs (evalBuckets pf db ev maxHits false sel ⟨0, []⟩) e fun rep e' =>
      rep = reportOf db maxHits
          (firedOf (ruleAccepts pf db ev) (sel.flatMap (bucketRules db))) ∧
        Finished db e (sel.flatMap (bucketRules db)) (sel.flatMap (bucketRules db)) e' := by
  rw [← reportOf_nil (ruleAccepts pf db ev)]
  refine (evalBuckets_runs hdb (gates_nothing db e) hsel h.running).mono ?_
  rintro rep e' ⟨hrep, h', hst⟩
  rw [List.nil_append, List.filter_true] at hrep h'
  rw [List.filter_true] at hst
  obtain ⟨hscratch, hmode⟩ := h'.scratchOk h.scratch
  exact ⟨hrep, hscratch, hmode, h'.done, by rw [hst], by rw [hst]⟩

/-- What the prefilter leaves is a good scratch. -/
theorem Credit.scratchOk {av : ℕ → Prop} {C : ℕ → ℕ → Prop} (h : Credit db ev e₀ av C e)
    (h₀ : ScratchOk db e₀) (hpf : Prefilterable db) : ScratchOk db e where
  memo := h.memo.length
  evalDone := by rw [h.evalDone]; exact h₀.evalDone
  ruleGen := by rw [h.genLength, if_pos hpf]
  ruleMask := by rw [h.maskLength, if_pos hpf]
  boundedDone := by rw [h.evalDone, h.gen]; exact h₀.boundedDone
  boundedGen := h.bounded
  tscr _ := h.tscr

/-- What leaves the counters of rules alone. -/
def ruleCountFrame : Frame SigmaEval := sameFrame fun e => (e.st.rulesInScope, e.st.rulesVerified)

/-- The prefilter counts no rule. -/
theorem prefilterCandidates_counts (buckets : List ℕ) :
    Keeps ruleCountFrame (prefilterCandidates pf db ev buckets) := by
  have hresolve : ∀ f, Keeps ruleCountFrame (resolveField db ev f) :=
    resolveField_keeps (fun _ _ _ => ⟨trivial, rfl⟩) fun _ _ _ _ _ => ⟨trivial, rfl⟩
  have hmask : SkipsMasks ruleCountFrame := fun _ _ _ _ => ⟨trivial, rfl⟩
  have hmark : ∀ k, Keeps ruleCountFrame (markPostings db k) :=
    markPostings_keeps hmask fun _ _ _ => ⟨trivial, rfl⟩
  exact prefilterCandidates_keeps hresolve hmask
    (fun t f => scanOneField_keeps hresolve hmark (fun _ _ _ _ => ⟨trivial, rfl⟩)
      (fun _ _ _ _ => ⟨trivial, rfl⟩) t buckets f)
    (Keeps.modify fun _ _ => ⟨trivial, rfl⟩)

open Classical in
/-- The buckets after the prefilter, which may have declined. -/
theorem evalBuckets_gated (hdb : db.Loaded) (h : Started db ev e) {sel : List ℕ}
    (hsel : ∀ b ∈ sel, b < db.bucketKeys.length) :
    Runs (prefilterCandidates pf db ev sel >>= fun prefiltered =>
        evalBuckets pf db ev maxHits prefiltered sel ⟨0, []⟩) e fun rep e' =>
      let visits := if Prefilterable db ∧ e.prefilterOn ≠ 0 then
          (sel.flatMap (bucketRules db)).filter fun ri => decide (Candidate pf db ev sel ri)
        else sel.flatMap (bucketRules db)
      rep = reportOf db maxHits (firedOf (ruleAccepts pf db ev) visits) ∧
        Finished db e (sel.flatMap (bucketRules db)) visits e' := by
  refine ((prefilterCandidates_runs hdb h.scratch h.memo h.freshMask).and
    (prefilterCandidates_counts sel e trivial)).bind ?_
  rintro _ e₁ ⟨⟨rfl, hfalse, htrue⟩, -, hcounts⟩
  obtain ⟨hscope, hverified⟩ := Prod.mk.inj hcounts
  by_cases hrun : Prefilterable db ∧ e.prefilterOn ≠ 0
  · rw [decide_eq_true hrun, if_pos hrun]
    have hcredit := htrue (decide_eq_true hrun)
    have hrunning : Running db ev e₁ [] e₁ := by
      refine ⟨hcredit.memo, rfl, by rw [hcredit.evalDone]; exact h.scratch.evalDone, ?_, fun i => ?_⟩
      · rw [hcredit.evalDone, hcredit.gen]
        exact h.scratch.boundedDone
      · rw [hcredit.evalDone, hcredit.gen]
        exact iff_of_false (h.freshDone i) List.not_mem_nil
    rw [← reportOf_nil (ruleAccepts pf db ev)]
    refine (evalBuckets_runs hdb (gates_candidates hdb hcredit) hsel hrunning).mono ?_
    rintro rep e' ⟨hrep, h', hst⟩
    rw [List.nil_append] at hrep h'
    obtain ⟨hscratch, hmode⟩ := h'.scratchOk (hcredit.scratchOk h.scratch hrun.1)
    refine ⟨hrep, hscratch, hmode.trans hcredit.prefilterOn, h'.done, ?_, ?_⟩
    · rw [hst, ← hscope]
    · rw [hst, ← hverified]
  · rw [decide_eq_false hrun, if_neg hrun, hfalse (decide_eq_false hrun)]
    exact evalBuckets_full hdb h hsel

/-- **`sigma_eval_run_linear` returns the report of a full scan.** -/
theorem sigmaEvalRunLinear_runs (hdb : db.Loaded) (h : ScratchOk db e) :
    Runs (sigmaEvalRunLinear pf db ev maxHits) e fun rep e' =>
      rep = linearReport pf db ev maxHits ∧ ScratchOk db e' ∧ e'.prefilterOn = e.prefilterOn := by
  refine Runs.modify_bind (Runs.modify_bind ?_)
  refine (evalAll_started hdb (started_bumpEvalGen h.clearMemo (memoOk_clearMemo h.memo ev))).mono ?_
  rintro rep e' ⟨hrep, hscratch, hmode, -, -⟩
  exact ⟨hrep, hscratch, hmode⟩

/-! ### The phases of `sigma_eval_run`

The one entry point with phases.  The rule takes what is to be shown of each way to go on after the
routing, and what is to be shown of the visits is stated relative to the scratch at that point. -/

/-- The scratch at the start of `sigma_eval_run`. -/
def startRun (e : SigmaEval) : SigmaEval :=
  bumpEvalGen { clearMemo e with st := { e.st with events := e.st.events + 1 } }

/-- It is fresh for any event, whatever the scratch was used for. -/
theorem ScratchOk.started (h : ScratchOk db e) (ev : Event) : Started db ev (startRun e) :=
  started_bumpEvalGen (h.clearMemo.of_stats _ _) ((memoOk_clearMemo h.memo ev).of_memo_eq rfl)

/-- The scratch once the route fields are read. -/
structure RoutedScratch (db : SigmaDb) (ev : Event) (e₀ e : SigmaEval) : Prop where
  started : Started db ev e
  mode : e.prefilterOn = e₀.prefilterOn
  reached : if db.bucketKeys.length = 0 then e = startRun e₀ else
    (routeLoop db ev routeNames 0 [] false).run (startRun e₀) = .ok (route db ev, e)

/-- The rule for `sigma_eval_run`: routing, and then a full scan, the selected buckets, or the
prefilter and the selected buckets. -/
theorem sigmaEvalRun_phases (hdb : db.Loaded) (h : ScratchOk db e) {P : Report → SigmaEval → Prop}
    (hall : ∀ e₁, RoutedScratch db ev e e₁ → db.bucketKeys.length = 0 ∨ hasRoute db ev = false →
      Runs (evalUnrouted pf db ev maxHits) e₁ P)
    (hfull : ∀ e₁, RoutedScratch db ev e e₁ → ¬ (db.bucketKeys.length = 0 ∨ hasRoute db ev = false) →
      isBig db e.prefilterOn (bucketSel db ev) = false →
        Runs (evalBuckets pf db ev maxHits false (bucketSel db ev) ⟨0, []⟩) e₁ P)
    (hgated : ∀ e₁, RoutedScratch db ev e e₁ →
      ¬ (db.bucketKeys.length = 0 ∨ hasRoute db ev = false) →
        isBig db e.prefilterOn (bucketSel db ev) = true →
          Runs (prefilterCandidates pf db ev (bucketSel db ev) >>= fun prefiltered =>
            evalBuckets pf db ev maxHits prefiltered (bucketSel db ev) ⟨0, []⟩) e₁ P) :
    Runs (sigmaEvalRun pf db ev maxHits) e P := by
  have hstart := h.started ev
  refine Runs.modify_bind (Runs.modify_bind (Runs.modify_bind ?_))
  change Runs _ (startRun e) P
  by_cases hnone : db.bucketKeys.length = 0
  · rw [if_pos hnone]
    exact hall _ ⟨hstart, rfl, by rw [if_pos hnone]⟩ (.inl hnone)
  · rw [if_neg hnone]
    have hruns := hstart.yields (routeLoop_yields hdb.valid routeNames 0 [] false)
    obtain ⟨acc, e₁, hrun, hacc, h₁, hmode₁⟩ := hruns
    change acc = route db ev at hacc
    subst hacc
    have hrouted : RoutedScratch db ev e e₁ := ⟨h₁, hmode₁, by rw [if_neg hnone]; exact hrun⟩
    refine Runs.bind (Q := fun a t => a = route db ev ∧ t = e₁) ⟨_, _, hrun, rfl, rfl⟩ ?_
    rintro _ e₁ ⟨rfl, rfl⟩
    have hin : ∀ b ∈ bucketSel db ev, b < db.bucketKeys.length :=
      fun b hb => lt_of_mem_bucketSel hdb hb
    change Runs (if hasRoute db ev = true then _ else _) e₁ P
    cases hroute : hasRoute db ev with
    | false => exact hall e₁ hrouted (.inr hroute)
    | true =>
      have hcond : ¬ (db.bucketKeys.length = 0 ∨ hasRoute db ev = false) := by simp [hnone, hroute]
      rw [if_pos rfl]
      refine Runs.get_bind ((anyBig_yields (F := stillFrame) e₁.prefilterOn hin e₁ trivial).bind ?_)
      rintro _ e₁ ⟨rfl, -, rfl⟩
      rw [show e₁.prefilterOn = e.prefilterOn from hmode₁]
      cases hbig : isBig db e.prefilterOn (bucketSel db ev) with
      | false => exact hfull e₁ hrouted hcond hbig
      | true => exact hgated e₁ hrouted hcond hbig

/-- What `sigma_eval_run` returns, and what it leaves behind relative to the scratch after the
routing. -/
theorem sigmaEvalRun_finishes (hdb : db.Loaded) (h : ScratchOk db e) :
    Runs (sigmaEvalRun pf db ev maxHits) e fun rep e' =>
      rep = runReport pf db ev e.prefilterOn maxHits ∧ ∃ e₁, RoutedScratch db ev e e₁ ∧
        Finished db e₁ (runScope db ev) (runVisits pf db ev e.prefilterOn) e' := by
  have hin : ∀ b ∈ bucketSel db ev, b < db.bucketKeys.length :=
    fun b hb => lt_of_mem_bucketSel hdb hb
  refine sigmaEvalRun_phases hdb h ?_ ?_ ?_
  · intro e₁ h₁ hcond
    refine (evalUnrouted_runs hdb h₁.started).mono ?_
    rintro rep e' ⟨hrep, hfin⟩
    rw [runReport, runVisits, runScope, if_pos hcond, if_pos hcond]
    exact ⟨hrep, e₁, h₁, hfin⟩
  · intro e₁ h₁ hcond hbig
    refine (evalBuckets_full hdb h₁.started hin).mono ?_
    rintro rep e' ⟨hrep, hfin⟩
    rw [runReport, runVisits_of_not_big hcond hbig, runScope, if_neg hcond]
    exact ⟨hrep, e₁, h₁, hfin⟩
  · intro e₁ h₁ hcond hbig
    refine (evalBuckets_gated hdb h₁.started hin).mono ?_
    rintro rep e' ⟨hrep, hfin⟩
    rw [runReport, runVisits, runScope, if_neg hcond, if_neg hcond]
    simp only [h₁.mode] at hrep hfin
    simp only [hbig, true_and]
    exact ⟨hrep, e₁, h₁, hfin⟩

variable (pf) in
/-- The scratch once the prefilter has run, if it runs. -/
def PrefilteredScratch (db : SigmaDb) (ev : Event) (mode : Int) (e₁ e₂ : SigmaEval) : Prop :=
  if PrefilterRuns db ev mode then
    (prefilterCandidates pf db ev (bucketSel db ev)).run e₁ = .ok (true, e₂)
  else e₂ = e₁

/-- What the visits of `sigma_eval_run` keep, relative to the scratch after the prefilter. -/
theorem sigmaEvalRun_visits (hdb : db.Loaded) (h : ScratchOk db e) {F : Frame SigmaEval}
    (hvisit : ∀ i rep, Keeps F (evalOneRule pf db ev maxHits i rep)) (hcount : SkipsCounters F)
    (hinv : ∀ e₁ e₂, RoutedScratch db ev e e₁ →
      PrefilteredScratch pf db ev e.prefilterOn e₁ e₂ → F.inv e₂) :
    Runs (sigmaEvalRun pf db ev maxHits) e fun _ e' => ∃ e₁ e₂, RoutedScratch db ev e e₁ ∧
      PrefilteredScratch pf db ev e.prefilterOn e₁ e₂ ∧ F.keeps e₂ e' := by
  have hin : ∀ b ∈ bucketSel db ev, b < db.bucketKeys.length :=
    fun b hb => lt_of_mem_bucketSel hdb hb
  have hbuckets := evalBuckets_keeps hvisit hcount
  have hdeclined : ∀ e₁, ¬ PrefilterRuns db ev e.prefilterOn →
      PrefilteredScratch pf db ev e.prefilterOn e₁ e₁ := fun _ hno => by
    rw [PrefilteredScratch, if_neg hno]
  refine sigmaEvalRun_phases hdb h ?_ ?_ ?_
  · intro e₁ h₁ hcond
    have hpre := hdeclined e₁ fun hruns => hruns.1 hcond
    refine ((evalUnrouted_runs hdb h₁.started).and
      (evalUnrouted_keeps hvisit hcount e₁ (hinv e₁ e₁ h₁ hpre))).mono ?_
    rintro _ e' ⟨-, -, hkept⟩
    exact ⟨e₁, e₁, h₁, hpre, hkept⟩
  · intro e₁ h₁ hcond hbig
    have hpre := hdeclined e₁ fun hruns => absurd (hbig.symm.trans hruns.2.1) (by decide)
    refine ((evalBuckets_full hdb h₁.started hin).and
      (hbuckets false _ _ e₁ (hinv e₁ e₁ h₁ hpre))).mono ?_
    rintro _ e' ⟨-, -, hkept⟩
    exact ⟨e₁, e₁, h₁, hpre, hkept⟩
  · intro e₁ h₁ hcond hbig
    have hpre : Ensures (prefilterCandidates pf db ev (bucketSel db ev)) e₁ fun _ e₂ =>
        PrefilteredScratch pf db ev e.prefilterOn e₁ e₂ := by
      intro b e₂ hrun
      have hstarted := h₁.started
      obtain ⟨hb, hfalse, -⟩ := (prefilterCandidates_runs hdb hstarted.scratch hstarted.memo
        hstarted.freshMask).result hrun
      rw [h₁.mode] at hb
      cases b with
      | false =>
        rw [hfalse rfl]
        rw [eq_comm, decide_eq_false_iff_not] at hb
        exact hdeclined e₁ fun hruns => hb hruns.2.2
      | true =>
        rw [eq_comm, decide_eq_true_eq] at hb
        rw [PrefilteredScratch, if_pos ⟨hcond, hbig, hb⟩]
        exact hrun
    have hvisits : Ensures (prefilterCandidates pf db ev (bucketSel db ev) >>= fun prefiltered =>
        evalBuckets pf db ev maxHits prefiltered (bucketSel db ev) ⟨0, []⟩) e₁ fun _ e' =>
          ∃ e₂, PrefilteredScratch pf db ev e.prefilterOn e₁ e₂ ∧ F.keeps e₂ e' := by
      refine hpre.bind fun b e₂ h₂ => (hbuckets b _ _ e₂ (hinv e₁ e₂ h₁ h₂)).mono ?_
      exact fun _ e' h' => ⟨e₂, h₂, h'.2⟩
    refine ((evalBuckets_gated hdb h₁.started hin).and hvisits).mono ?_
    rintro _ e' ⟨-, e₂, h₂, hkept⟩
    exact ⟨e₁, e₂, h₁, h₂, hkept⟩

/-- **`sigma_eval_run` returns the report of its visits.** -/
theorem sigmaEvalRun_runs (hdb : db.Loaded) (h : ScratchOk db e) :
    Runs (sigmaEvalRun pf db ev maxHits) e fun rep e' =>
      rep = runReport pf db ev e.prefilterOn maxHits ∧ ScratchOk db e' ∧
        e'.prefilterOn = e.prefilterOn := by
  refine (sigmaEvalRun_finishes hdb h).mono ?_
  rintro rep e' ⟨hrep, e₁, h₁, hfin⟩
  exact ⟨hrep, hfin.scratch, hfin.mode.trans h₁.mode⟩

end Entry

end LibSigma
