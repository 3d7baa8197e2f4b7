import LibSigma.Matcher.Denotation

/-!
# Visiting rules

The entry points differ in which rules they visit and in what order.  Given the visits, the report
is determined: the rules that fire, each at its first visit.

## The report of a list

A report is a count and a buffer of hits.  The count is of all rules that fire, the buffer holds as
many as the caller had room for, in the order of their first visits.  Both come from one list
without repetitions, `firedOf`, so that a caller with a small buffer and one with a large one see
the same count, and the same beginning.

## The invariant of the loop

`Running` is the state in the middle: the visits so far, the hits so far as the report of these, and
the stamps of exactly the rules visited.  One visit keeps it (`evalOneRule_runs`), also the visit of
a rule that is visited already, which the code leaves at once.  The invariant speaks of the verdict
of a rule only through `ruleAccepts`, so nothing here knows how rules are matched.

What decides about gating is not touched by a visit (`SigmaEval.gating`), so the gate of a bucket is
the same function from the first visit to the last.

* `firedOf`, `reportOf`: the report of a list of visits.
* `Running`: the scratch in the middle of an evaluation, with the rules visited so far.
* `evalOneRule_runs`: one visit; `evalAll_runs`: a full scan.
-/

namespace LibSigma

open Library

/-! ## The report of a list of visits -/

/-- The verdict of rule `i`. -/
def ruleAccepts (pf : Platform) (db : SigmaDb) (ev : Event) (i : ℕ) : Bool :=
  (db.rules[i]?).any (ruleHolds pf db ev)

/-- The rules that fire, each at its first visit. -/
def firedOf (accepts : ℕ → Bool) (visits : List ℕ) : List ℕ := visits.eraseDups.filter accepts

theorem mem_firedOf {accepts : ℕ → Bool} {visits : List ℕ} {i : ℕ} :
    i ∈ firedOf accepts visits ↔ i ∈ visits ∧ accepts i = true := by
  rw [firedOf, List.mem_filter, List.mem_eraseDups]

theorem nodup_eraseDups (visits : List ℕ) : visits.eraseDups.Nodup := by
  induction hn : visits.length using Nat.strong_induction_on generalizing visits with
  | _ n ih =>
    cases visits with
    | nil => exact List.nodup_nil
    | cons a as =>
      have hlt : (as.filter fun b => !b == a).length < n := by
        rw [← hn, List.length_cons]
        exact Nat.lt_succ_of_le (List.length_filter_le _ _)
      rw [List.eraseDups_cons, List.nodup_cons]
      refine ⟨fun hmem => ?_, ih _ hlt _ rfl⟩
      rw [List.mem_eraseDups, List.mem_filter] at hmem
      simp at hmem

theorem nodup_firedOf (accepts : ℕ → Bool) (visits : List ℕ) : (firedOf accepts visits).Nodup :=
  (nodup_eraseDups visits).filter accepts

/-- A second visit changes nothing. -/
theorem firedOf_concat_of_mem {accepts : ℕ → Bool} {visits : List ℕ} {i : ℕ} (h : i ∈ visits) :
    firedOf accepts (visits ++ [i]) = firedOf accepts visits := by
  rw [firedOf, firedOf, List.eraseDups_append]
  simp [List.removeAll, h]

/-- A first visit appends the rule if it fires. -/
theorem firedOf_concat_of_not_mem {accepts : ℕ → Bool} {visits : List ℕ} {i : ℕ}
    (h : i ∉ visits) :
    firedOf accepts (visits ++ [i]) =
      firedOf accepts visits ++ if accepts i = true then [i] else [] := by
  have hsingle : [i].eraseDups = [i] := by simp [List.eraseDups_cons]
  rw [firedOf, firedOf, List.eraseDups_append]
  simp [List.removeAll, h, hsingle, List.filter_singleton]

theorem eraseDups_filter (keep : ℕ → Bool) (visits : List ℕ) :
    (visits.filter keep).eraseDups = visits.eraseDups.filter keep := by
  induction hn : visits.length using Nat.strong_induction_on generalizing visits with
  | _ n ih =>
    cases visits with
    | nil => rfl
    | cons a as =>
      have hlt : (as.filter fun b => !b == a).length < n := by
        rw [← hn, List.length_cons]
        exact Nat.lt_succ_of_le (List.length_filter_le _ _)
      have hrest := ih _ hlt (as.filter fun b => !b == a) rfl
      have hswap : (as.filter keep).filter (fun b => !b == a) =
          (as.filter fun b => !b == a).filter keep := by
        rw [List.filter_filter, List.filter_filter]
        exact List.filter_congr fun b _ => Bool.and_comm _ _
      rw [List.eraseDups_cons, List.filter_cons, List.filter_cons, ← hrest, ← hswap]
      by_cases hk : keep a = true
      · rw [if_pos hk, if_pos hk, List.eraseDups_cons]
      · have hself : (as.filter keep).filter (fun b => !b == a) = as.filter keep := by
          refine List.filter_eq_self.mpr fun b hb => ?_
          have hne : b ≠ a := fun heq => hk (heq ▸ (List.mem_filter.mp hb).2)
          simp [hne]
        rw [if_neg hk, if_neg hk, hself]

/-- Rules that do not fire need not be visited. -/
theorem firedOf_filter {accepts keep : ℕ → Bool} {visits : List ℕ}
    (h : ∀ i ∈ visits, accepts i = true → keep i = true) :
    firedOf accepts (visits.filter keep) = firedOf accepts visits := by
  rw [firedOf, firedOf, eraseDups_filter, List.filter_filter]
  refine List.filter_congr fun i hi => ?_
  have hi' := h i (List.mem_eraseDups.mp hi)
  cases hacc : accepts i with
  | false => rfl
  | true => rw [hi' hacc]; rfl

section Report

variable (db : SigmaDb)

/-- The hit of a rule. -/
def hitOfRule (r : SigmaRule) : SigmaHit :=
  ⟨r.ruleId, r.verdict, r.severity, r.scoreX100,
    if r.mitreId ≠ sigmaNoValue then (db.values[r.mitreId.toNat]?).map db.str else none⟩

/-- The count of the rules that fired, and the hits of as many as there is room for. -/
def reportOf (maxHits : Int) (fired : List ℕ) : Report :=
  ⟨fired.length,
    (fired.take maxHits.toNat).filterMap fun i => (db.rules[i]?).map (hitOfRule db)⟩

variable {db}

theorem reportOf_concat {maxHits : Int} {fired : List ℕ} {i : ℕ} {r : SigmaRule}
    (hr : db.rules[i]? = some r) :
    reportOf db maxHits (fired ++ [i]) =
      ⟨(reportOf db maxHits fired).fired + 1,
        if ((reportOf db maxHits fired).fired : Int) < maxHits then
          (reportOf db maxHits fired).out ++ [hitOfRule db r]
        else (reportOf db maxHits fired).out⟩ := by
  by_cases hroom : ((reportOf db maxHits fired).fired : Int) < maxHits
  · rw [if_pos hroom]
    have hlen : fired.length < maxHits.toNat := by
      change (fired.length : Int) < maxHits at hroom
      omega
    simp only [reportOf]
    rw [List.take_of_length_le (by rw [List.length_append, List.length_singleton]; omega),
      List.take_of_length_le hlen.le, List.filterMap_append, List.length_append]
    simp [hr]
  · rw [if_neg hroom]
    have hlen : maxHits.toNat ≤ fired.length := by
      change ¬ (fired.length : Int) < maxHits at hroom
      omega
    simp only [reportOf]
    rw [List.take_append_of_le_length hlen, List.length_append]
    rfl

end Report

/-! ## The scratch during an evaluation -/

/-- What decides which rules are gated out, and what stays for the next evaluation. -/
def SigmaEval.gating (e : SigmaEval) :
    List UInt32 × List UInt32 × UInt32 × TeddyScratch × Int :=
  (e.ruleMask, e.ruleGen, e.gen, e.tscr, e.prefilterOn)

/-- An evaluation of `ev` that has visited these rules. -/
structure Running (db : SigmaDb) (ev : Event) (e₀ : SigmaEval) (visited : List ℕ)
    (e : SigmaEval) : Prop where
  memo : MemoOk db ev e
  gating : e.gating = e₀.gating
  length : e.evalDone.length = db.rules.length
  bounded : Bounded e.gen e.evalDone
  done : ∀ i, Marked e.gen e.evalDone i ↔ i ∈ visited

section Visit

variable {pf : Platform} {db : SigmaDb} {ev : Event} {e₀ e : SigmaEval} {visited : List ℕ}
  {maxHits : Int}

/-- Matching a rule is invisible to the evaluation. -/
theorem Running.of_frozen (h : Running db ev e₀ visited e) {e' : SigmaEval}
    (hmemo : MemoOk db ev e') (hfrozen : e'.frozen = e.frozen) : Running db ev e₀ visited e' := by
  have hgating : e'.frozen.gating = e.frozen.gating := congrArg _ hfrozen
  have hdone : e'.frozen.evalDone = e.frozen.evalDone := congrArg _ hfrozen
  have hgen : e'.frozen.gen = e.frozen.gen := congrArg _ hfrozen
  change e'.evalDone = e.evalDone at hdone
  change e'.gen = e.gen at hgen
  exact ⟨hmemo, hgating.trans h.gating, by rw [hdone, h.length], by rw [hgen, hdone]; exact h.bounded,
    fun i => by rw [hgen, hdone, h.done]⟩

/-- Counters and the log are invisible too. -/
theorem Running.of_stats (h : Running db ev e₀ visited e) (st : SigmaEvalStats) (log : List Obs) :
    Running db ev e₀ visited { e with st := st, log := log } :=
  ⟨h.memo.of_memo_eq rfl, h.gating, h.length, h.bounded, h.done⟩

/-- A read-only computation in the middle of an evaluation. -/
theorem Running.yields {α : Type} {m : EvalM α} {a : α} (h : Running db ev e₀ visited e)
    (hm : Yields (memoFrame db ev) m a) :
    Runs m e fun b e' => b = a ∧ Running db ev e₀ visited e' :=
  (hm e h.memo).mono fun _ _ hb => ⟨hb.1, h.of_frozen hb.2.1 hb.2.2⟩

theorem hitOf_yields (hdb : db.Valid) (r : SigmaRule) :
    Yields (memoFrame db ev) (hitOf db r) (hitOfRule db r) := by
  unfold hitOf hitOfRule
  by_cases hno : r.mitreId ≠ sigmaNoValue
  · by_cases hlt : r.mitreId.toNat < db.values.length
    · have hget := List.getElem?_eq_getElem hlt
      rw [if_pos ⟨hno, hlt⟩, if_pos hno, hget]
      exact (tableAt_yields hget).bind ((poolStr_yields (hdb.valueInPool _
        (List.mem_of_getElem? hget))).bind ((Yields.pure _).bind (Yields.pure _)))
    · rw [if_neg (fun h => hlt h.2), if_pos hno, List.getElem?_eq_none (Nat.le_of_not_lt hlt)]
      exact (Yields.pure _).bind (Yields.pure _)
  · rw [if_neg (fun h => hno h.1), if_neg hno]
    exact (Yields.pure _).bind (Yields.pure _)

/-- The first visit is told from later ones, and recorded. -/
theorem firstVisit_runs (h : Running db ev e₀ visited e) {i : ℕ} (hi : i < db.rules.length) :
    Runs (firstVisit i) e fun b e' => b = decide (i ∉ visited) ∧
      Running db ev e₀ (visited ++ [i]) e' := by
  have hlt : i < e.evalDone.length := by rw [h.length]; exact hi
  have hstamp := List.getElem?_eq_getElem hlt
  have hne : e.evalDone ≠ [] := List.ne_nil_of_length_pos (Nat.zero_lt_of_lt hlt)
  unfold firstVisit
  refine Runs.get_bind ?_
  rw [if_neg hne]
  refine runs_tableAt hstamp ?_
  split
  · rename_i hmark
    have hmem : i ∈ visited := (h.done i).mp (by rw [Marked, hstamp, hmark])
    refine Runs.pure ⟨by simp [hmem], h.memo, h.gating, h.length, h.bounded, fun j => ?_⟩
    rw [h.done, List.mem_append, List.mem_singleton]
    exact ⟨.inl, fun hj => hj.elim id fun heq => heq ▸ hmem⟩
  · rename_i hmark
    have hnew : i ∉ visited := by
      intro hmem
      have hm := (h.done i).mpr hmem
      rw [Marked, hstamp] at hm
      exact hmark (Option.some.inj hm)
    refine Runs.modify_bind (Runs.pure ⟨by simp [hnew], h.memo.of_memo_eq rfl, h.gating, ?_, ?_, ?_⟩)
    · rw [List.length_set, h.length]
    · exact h.bounded.set i
    · intro j
      rw [marked_set hlt, h.done, List.mem_append, List.mem_singleton]
      exact or_comm

/-- **One visit.**  The report stays the report of the visits. -/
theorem evalOneRule_runs (hdb : db.Loaded) (h : Running db ev e₀ visited e) {i : ℕ}
    (hi : i < db.rules.length) :
    Runs (evalOneRule pf db ev maxHits i
        (reportOf db maxHits (firedOf (ruleAccepts pf db ev) visited))) e fun rep e' =>
      rep = reportOf db maxHits (firedOf (ruleAccepts pf db ev) (visited ++ [i])) ∧
        Running db ev e₀ (visited ++ [i]) e' := by
  have hr := List.getElem?_eq_getElem hi
  have hmem : db.rules[i] ∈ db.rules := List.getElem_mem hi
  have haccepts : ruleAccepts pf db ev i = ruleHolds pf db ev db.rules[i] := by
    rw [ruleAccepts, hr, Option.any_some]
  unfold evalOneRule
  refine (firstVisit_runs h hi).bind ?_
  rintro _ e₁ ⟨rfl, h₁⟩
  by_cases hvisited : i ∈ visited
  · rw [if_neg (by simp [hvisited]), firedOf_concat_of_mem hvisited]
    exact Runs.pure ⟨rfl, h₁⟩
  · rw [if_pos (by simp [hvisited]), firedOf_concat_of_not_mem hvisited]
    refine runs_tableAt hr (Runs.modify_bind ?_)
    refine ((h₁.of_stats e₁.st _).yields (ruleMatch_yields hdb hmem)).bind ?_
    rintro _ e₂ ⟨rfl, h₂⟩
    rw [haccepts]
    split
    · rw [reportOf_concat hr]
      split
      · refine (h₂.yields (hitOf_yields hdb.valid _)).bind ?_
        rintro _ e₃ ⟨rfl, h₃⟩
        exact Runs.pure ⟨rfl, h₃⟩
      · exact Runs.pure ⟨rfl, h₂⟩
    · rw [List.append_nil]
      exact Runs.pure ⟨rfl, h₂⟩

/-- A full scan visits the rules in table order. -/
theorem evalAll_runs (hdb : db.Loaded) {k i : ℕ} (hin : i + k ≤ db.rules.length)
    (h : Running db ev e₀ visited e) :
    Runs (evalAll pf db ev maxHits k i
        (reportOf db maxHits (firedOf (ruleAccepts pf db ev) visited))) e fun rep e' =>
      rep = reportOf db maxHits (firedOf (ruleAccepts pf db ev) (visited ++ List.range' i k)) ∧
        Running db ev e₀ (visited ++ List.range' i k) e' := by
  induction k generalizing i visited e with
  | zero =>
    rw [List.range'_zero, List.append_nil]
    exact Runs.pure ⟨rfl, h⟩
  | succ k ih =>
    rw [evalAll]
    refine (evalOneRule_runs hdb h (by omega)).bind ?_
    rintro _ e₁ ⟨rfl, h₁⟩
    have hassoc : visited ++ i :: List.range' (i + 1) k = visited ++ [i] ++ List.range' (i + 1) k := by
      rw [List.append_assoc, List.singleton_append]
    rw [List.range'_succ, hassoc]
    exact ih (i := i + 1) (by omega) h₁

end Visit

end LibSigma
