import LibSigma.Matcher.Stats
import LibSigma.Matcher.FieldReads

/-!
# How often the callback is asked

`resolve_field` asks the callback for a field once per event and answers from the memo afterwards.
The routing asks for the route names itself, the category excepted when a compiled field has that
name, and so a compiled field with another route name may be asked for twice.

## Fields and names

The memo is by field number and the callback is asked by name.  These are different questions for
two reasons: an artifact may list one name twice, and the routing has names of its own.  The claim
is about names, so the calls are a list of names, and what is asked is whether one of them is there
twice.  That the artifact lists its names once is assumed; the builder sees to it.

## The calls of an evaluation

The part through the memo is a frame over the whole evaluation (`memoCallFrame`): the fields that
are in the memo at the end and were not at the start are exactly those asked for in between, each
once.  The part past the memo is the loop over the route names.  Together they give the calls as one
list (`sigmaEvalRun_calls`), and everything about a name being asked twice is then counting.

## The condition

With the names distinct there is one way to ask twice: a field that is resolved has a name that the
routing asks for past the memo.  Without buckets there is no routing.  Which fields are resolved is
a function of tables, event and mode, by `LibSigma.Matcher.FieldReads`, so the condition of
`callback_once_iff` is about the call's inputs.

* `Resolved`, `MemoCalls`: the memo, and the calls made through it.
* `ruleReads`, `prefilterReads`, `RunReads`: the fields that an evaluation resolves.
* `routeCalls`: the names that the routing asks for past the memo.
* `sigmaEvalRun_calls`: **the calls of an evaluation**: one for each field it resolves, and those of
  the routing.
* `callback_once_iff`: when no name is asked for twice.
-/

namespace LibSigma

open Library

/-! ## Calls through the memo

From one scratch to a later one of the same event: which fields came into the memo, and that the
callback was asked for each of them once and for nothing else.  It composes, as the fields of a
later stretch are not in the memo at its start. -/

/-- Field `f` is in the memo. -/
def Resolved (e : SigmaEval) (f : ℕ) : Prop := ∃ v, e.memo[f]? = some (some v)

/-- The name of field `f`. -/
def SigmaDb.nameOf (db : SigmaDb) (f : ℕ) : Bytes := ((db.fields[f]?).map db.str).getD []

/-- From `s` to `t` the callback was asked once for each field that was resolved for the first
time, and for nothing else. -/
structure MemoCalls (db : SigmaDb) (s t : SigmaEval) : Prop where
  called : ∃ new, t.trace Obs.called = s.trace Obs.called ++ new.map db.nameOf ∧
    Firsts (Resolved s) (Resolved t) new
  reads : ∃ read, t.trace Obs.fieldRead = s.trace Obs.fieldRead ++ read ∧
    ∀ f, Resolved t f ↔ Resolved s f ∨ f < db.fields.length ∧ f ∈ read

namespace MemoCalls

variable {db : SigmaDb} {s t u : SigmaEval}

/-- Nothing was resolved. -/
theorem quiet (hmemo : t.memo = s.memo) (hcalled : t.trace Obs.called = s.trace Obs.called)
    (hread : t.trace Obs.fieldRead = s.trace Obs.fieldRead) : MemoCalls db s t := by
  have hsame : Resolved t = Resolved s := by
    funext f
    rw [Resolved, Resolved, hmemo]
  refine ⟨⟨[], ?_, ?_⟩, [], ?_, fun f => ?_⟩
  · rw [hcalled, List.map_nil, List.append_nil]
  · rw [hsame]
    exact Firsts.refl _
  · rw [hread, List.append_nil]
  · rw [hsame]
    exact ⟨.inl, fun h => h.elim id fun hf => absurd hf.2 List.not_mem_nil⟩

theorem refl (s : SigmaEval) : MemoCalls db s s := quiet rfl rfl rfl

theorem trans (h : MemoCalls db s t) (h' : MemoCalls db t u) : MemoCalls db s u := by
  obtain ⟨⟨new, hcalled, hfirsts⟩, read, hread, hres⟩ := h
  obtain ⟨⟨new', hcalled', hfirsts'⟩, read', hread', hres'⟩ := h'
  refine ⟨⟨new ++ new', ?_, hfirsts.trans hfirsts'⟩, read ++ read', ?_, fun f => ?_⟩
  · rw [hcalled', hcalled, List.map_append, List.append_assoc]
  · rw [hread', hread, List.append_assoc]
  · rw [hres', hres, List.mem_append, and_or_left, or_assoc]

/-- A field that is out of range, or in the memo already. -/
theorem known {f : ℕ} (hmemo : t.memo = s.memo) (hlog : t.log = .resolve f :: s.log)
    (hf : f < db.fields.length → Resolved s f) : MemoCalls db s t := by
  have hsame : Resolved t = Resolved s := by
    funext g
    rw [Resolved, Resolved, hmemo]
  refine ⟨⟨[], ?_, ?_⟩, [f], trace_snoc hlog rfl, fun g => ?_⟩
  · rw [trace_skip hlog rfl, List.map_nil, List.append_nil]
  · rw [hsame]
    exact Firsts.refl _
  · rw [hsame, List.mem_singleton]
    refine ⟨.inl, fun h => h.elim id ?_⟩
    rintro ⟨hlt, rfl⟩
    exact hf hlt

/-- A field that is not in the memo yet. -/
theorem first {f : ℕ} {v : Option Bytes} (hmemo : t.memo = s.memo.set f (some v))
    (hlog : t.log = .call (db.nameOf f) :: .resolve f :: s.log) (hf : f < db.fields.length)
    (hslot : s.memo[f]? = some none) : MemoCalls db s t := by
  have hlt : f < s.memo.length := (List.getElem?_eq_some_iff.mp hslot).1
  have hlog' : t.log = .call (db.nameOf f) :: { s with log := .resolve f :: s.log }.log := hlog
  have hnew : ¬ Resolved s f := by
    rintro ⟨w, hw⟩
    exact absurd (hw.symm.trans hslot) (by simp)
  have hset : ∀ g, Resolved t g ↔ g = f ∨ Resolved s g := by
    intro g
    rw [Resolved, Resolved, hmemo]
    by_cases hg : g = f
    · subst hg
      rw [List.getElem?_set_self hlt]
      exact iff_of_true ⟨v, rfl⟩ (.inl rfl)
    · rw [List.getElem?_set_ne (Ne.symm hg), or_iff_right hg]
  refine ⟨⟨[f], ?_, Firsts.single hnew hset⟩, [f], ?_, fun g => ?_⟩
  · have hcalled : t.trace Obs.called = _ ++ [db.nameOf f] := trace_snoc hlog' rfl
    rw [hcalled, trace_skip rfl rfl, List.map_singleton]
  · rw [trace_skip hlog' rfl]
    exact trace_snoc rfl rfl
  · rw [hset, List.mem_singleton, or_comm]
    refine or_congr_right ⟨?_, And.right⟩
    rintro rfl
    exact ⟨hf, rfl⟩

end MemoCalls

/-- The memo has its size, and the callback is asked through it. -/
def memoCallFrame (db : SigmaDb) : Frame SigmaEval where
  inv e := e.memo.length = max 1 db.fields.length
  keeps := MemoCalls db
  refl := MemoCalls.refl
  trans _ _ _ := MemoCalls.trans

section Calls

variable {pf : Platform} {db : SigmaDb} {ev : Event} {e e₁ e' : SigmaEval} {maxHits : Int}

/-- A step that leaves the memo alone, reads no field and calls nothing. -/
theorem memoCallFrame_quiet (he : (memoCallFrame db).inv e) (hmemo : e'.memo = e.memo)
    (hlog : e'.log = e.log ∨ ∃ o : Obs, e'.log = o :: e.log ∧ o.called = none ∧
      o.fieldRead = none) :
    (memoCallFrame db).inv e' ∧ (memoCallFrame db).keeps e e' := by
  refine ⟨?_, ?_⟩
  · show e'.memo.length = max 1 db.fields.length
    rw [hmemo]
    exact he
  · rcases hlog with hlog | ⟨o, hlog, hcalled, hread⟩
    · exact MemoCalls.quiet hmemo (trace_congr hlog) (trace_congr hlog)
    · exact MemoCalls.quiet hmemo (trace_skip hlog hcalled) (trace_skip hlog hread)

/-- **`resolve_field`** asks for a field when it is not in the memo. -/
theorem resolveField_calls (f : UInt16) : Keeps (memoCallFrame db) (resolveField db ev f) := by
  intro e he
  refine Ensures.modify_bind ?_
  split
  · rename_i hout
    exact Ensures.pure ⟨he, MemoCalls.known rfl rfl fun hlt => absurd hlt (Nat.not_lt.mpr hout)⟩
  · rename_i hin
    refine Ensures.get_bind (Ensures.bind (Q := fun slot t => e.memo[f.toNat]? = some slot ∧
      t = { e with log := .resolve f.toNat :: e.log }) ?_ ?_)
    · exact Ensures.lift fun slot hslot => ⟨getElem?_of_readAt hslot, rfl⟩
    rintro slot _ ⟨hslot, rfl⟩
    cases slot with
    | some v => exact Ensures.pure ⟨he, MemoCalls.known rfl rfl fun _ => ⟨v, hslot⟩⟩
    | none =>
      refine Ensures.bind (Q := fun s t => db.fields[f.toNat]? = some s ∧
        t = { e with log := .resolve f.toNat :: e.log }) ?_ ?_
      · exact Ensures.lift fun s hs => ⟨getElem?_of_readAt hs, rfl⟩
      rintro s _ ⟨hs, rfl⟩
      unfold SigmaDb.poolName
      split
      · have hname : db.str s = db.nameOf f.toNat := by
          rw [SigmaDb.nameOf, hs]
          rfl
        rw [pure_bind, hname]
        refine Ensures.modify_bind (Ensures.pure ⟨?_, ?_⟩)
        · show (e.memo.set _ _).length = max 1 db.fields.length
          rw [List.length_set]
          exact he
        · exact MemoCalls.first rfl rfl (Nat.lt_of_not_le hin) hslot
      · exact fun _ _ hrun => nomatch hrun

theorem evalOneRule_calls (i : ℕ) (rep : Report) :
    Keeps (memoCallFrame db) (evalOneRule pf db ev maxHits i rep) :=
  evalOneRule_keeps resolveField_calls (fun _ _ he => memoCallFrame_quiet he rfl (.inl rfl))
    (fun _ i he => memoCallFrame_quiet he rfl (.inr ⟨.ruleMatch i, rfl, rfl, rfl⟩)) maxHits i rep

theorem skipsCounters_memoCall : SkipsCounters (memoCallFrame db) :=
  fun _ _ _ he => memoCallFrame_quiet he rfl (.inl rfl)

theorem skipsMasks_memoCall : SkipsMasks (memoCallFrame db) :=
  fun _ _ _ he => memoCallFrame_quiet he rfl (.inl rfl)

theorem prefilterCandidates_calls (buckets : List ℕ) :
    Keeps (memoCallFrame db) (prefilterCandidates pf db ev buckets) := by
  have hmark : ∀ k, Keeps (memoCallFrame db) (markPostings db k) :=
    markPostings_keeps skipsMasks_memoCall fun _ k he =>
      memoCallFrame_quiet he rfl (.inr ⟨.confirm k, rfl, rfl, rfl⟩)
  exact prefilterCandidates_keeps resolveField_calls skipsMasks_memoCall
    (fun t f => scanOneField_keeps resolveField_calls hmark
      (fun _ f len he => memoCallFrame_quiet he rfl (.inr ⟨.scan f len, rfl, rfl, rfl⟩))
      (fun _ _ _ he => memoCallFrame_quiet he rfl (.inl rfl)) t buckets f)
    (Keeps.modify fun _ he => memoCallFrame_quiet he rfl (.inl rfl))

end Calls

/-! ## The fields that an evaluation resolves

As lists, in the order of the code: the prefilter resolves a field for each witness and each scan,
and a rule that is run resolves those it reads. -/

section Reads

variable (pf : Platform) (db : SigmaDb) (ev : Event)

/-- The fields that a visit of rule `i` resolves. -/
def ruleReads (i : ℕ) : List ℕ :=
  match db.rules[i]? with
  | none => []
  | some r => (ruleVisits pf db ev r).flatMap (predReads db ev)

/-- The field that the scan for field `f` resolves. -/
def scanReads (buckets : List ℕ) (f : ℕ) : List ℕ :=
  if scanField db buckets f ∧ (db.teddy.bind fun t => fieldMatcher db t f).isSome then
    [f.toUInt16.toNat]
  else []

/-- The fields that the prefilter resolves: those with a witness, and those it scans. -/
def prefilterReads (buckets : List ℕ) : List ℕ :=
  db.fwit.map (fun w => w.fieldId.toNat) ++
    (List.range db.fields.length).flatMap (scanReads db buckets)

/-- `sigma_eval_run` resolves field `f` in prefilter mode `mode`. -/
def RunReads (mode : Int) (f : ℕ) : Prop :=
  (∃ cat, db.catFieldId = some cat ∧ f = cat.toUInt16.toNat) ∨
    (PrefilterRuns db ev mode ∧ f ∈ prefilterReads db (bucketSel db ev)) ∨
      ∃ i ∈ runVisits pf db ev mode, f ∈ ruleReads pf db ev i

/-- The names that the routing asks the callback for itself. -/
def routeCalls : List Bytes :=
  if db.bucketKeys.length = 0 then []
  else match db.catFieldId with
    | none => routeNames
    | some _ => routeNames.tail

end Reads

section Phases

variable {pf : Platform} {db : SigmaDb} {ev : Event} {e e₁ : SigmaEval} {maxHits : Int}

theorem resolveField_appends (f : UInt16) :
    Appends (SigmaEval.trace Obs.fieldRead) (resolveField db ev f) [f.toNat] := by
  refine Appends.bind_skip (Appends.modify fun e => trace_snoc rfl rfl) fun _ => ?_
  split
  · exact Appends.pure _
  · refine Appends.skip_bind Appends.get fun e => Appends.skip_bind (Appends.lift _) fun slot => ?_
    cases slot with
    | some v => exact Appends.pure _
    | none =>
      refine Appends.skip_bind (Appends.lift _) fun s => ?_
      refine Appends.skip_bind (Appends.of_keeps poolName_keeps) fun name => ?_
      refine Appends.skip_bind (Appends.modify fun e => ?_) fun _ => Appends.pure _
      rw [List.append_nil]
      exact trace_skip rfl rfl

/-- What leaves the trace of resolved fields alone. -/
def unreadFrame : Frame SigmaEval := sameFrame (SigmaEval.trace Obs.fieldRead)

theorem skipsMasks_unread : SkipsMasks unreadFrame :=
  fun _ _ _ _ => ⟨trivial, rfl⟩

theorem markPostings_unread (k : ℕ) : Keeps unreadFrame (markPostings db k) :=
  markPostings_keeps skipsMasks_unread (fun _ _ _ => ⟨trivial, trace_skip rfl rfl⟩) k

theorem fwitHolds_appends (w : SigmaFwit) :
    Appends (SigmaEval.trace Obs.fieldRead) (fwitHolds pf db ev w) [w.fieldId.toNat] := by
  refine Appends.bind_skip (resolveField_appends _) fun val => ?_
  cases val with
  | none => exact Appends.pure _
  | some v =>
    dsimp only
    split
    · exact Appends.pure _
    · split
      · split
        · exact Appends.pure _
        · exact Appends.skip_bind (Appends.lift _) fun _ => Appends.pure _
      · split
        · exact Appends.pure _
        · exact Appends.pure _

/-- Every field witness resolves its field. -/
theorem fwits_appends :
    Ensures (forRange db.fwit.length fun i => do
      let w ← tableAt .fwit db.fwit i
      let holds ← fwitHolds pf db ev w
      if holds then creditClause w.ruleIdx.toNat w.clauseIdx else pure ⟨⟩) e fun _ e' =>
        e'.trace Obs.fieldRead =
          e.trace Obs.fieldRead ++ db.fwit.map fun w => w.fieldId.toNat := by
  -- after `i` witnesses their fields have been resolved
  refine Ensures.mono (Ensures.forRange (fun i e' => e'.trace Obs.fieldRead =
    e.trace Obs.fieldRead ++ (db.fwit.take i).map fun w => w.fieldId.toNat) ?_ ?_) ?_
  · rw [List.take_zero, List.map_nil, List.append_nil]
  · intro i t _ ht
    refine Ensures.bind (Q := fun w u => db.fwit[i]? = some w ∧ u = t)
      (Ensures.lift fun w hw => ⟨getElem?_of_readAt hw, rfl⟩) ?_
    rintro w _ ⟨hw, rfl⟩
    have hcredit : Appends (SigmaEval.trace Obs.fieldRead) (do
        let holds ← fwitHolds pf db ev w
        if holds then creditClause w.ruleIdx.toNat w.clauseIdx else pure ⟨⟩) [w.fieldId.toNat] := by
      refine Appends.bind_skip (fwitHolds_appends w) fun holds => ?_
      split
      · exact Appends.of_keeps (creditClause_keeps skipsMasks_unread _ _)
      · exact Appends.pure _
    refine (hcredit _).mono fun _ u hu => ?_
    rw [hu, ht, List.take_add_one, hw, Option.toList_some, List.map_append, List.map_singleton,
      List.append_assoc]
  · intro _ e' h
    rwa [List.take_length] at h

theorem scanOneField_appends {t : SigmaTeddy} (ht : db.teddy = some t) (buckets : List ℕ)
    (f : ℕ) : Appends (SigmaEval.trace Obs.fieldRead) (scanOneField pf db ev t buckets f)
      (scanReads db buckets f) := by
  unfold scanOneField scanReads
  rw [ht, Option.bind_some]
  cases scanField db buckets f with
  | false => exact Appends.pure _
  | true =>
    cases fieldMatcher db t f with
    | none => exact Appends.pure _
    | some tf =>
      refine Appends.bind_skip (resolveField_appends _) fun val => ?_
      cases val with
      | none => exact Appends.pure _
      | some v =>
        dsimp only
        split
        · exact Appends.pure _
        · refine Appends.of_keeps ?_
          refine Keeps.bind (Keeps.modify fun e _ => ⟨trivial, trace_skip rfl rfl⟩) fun _ =>
            Keeps.get.bind fun e => ?_
          refine (teddyConfirm_keeps markPostings_unread v pf.simd e.tscr).bind fun scr => ?_
          exact Keeps.modify fun e _ => ⟨trivial, rfl⟩

/-- **The prefilter** resolves its fields in a fixed order. -/
theorem prefilterCandidates_reads (buckets : List ℕ) :
    Ensures (prefilterCandidates pf db ev buckets) e fun b e' =>
      b = true → e'.trace Obs.fieldRead = e.trace Obs.fieldRead ++ prefilterReads db buckets := by
  unfold prefilterCandidates
  refine Ensures.get_bind ?_
  split
  · exact Ensures.pure nofun
  split
  · exact Ensures.pure nofun
  refine (litav_keeps skipsMasks_unread e trivial).bind fun _ e₁ ⟨_, h₁⟩ => ?_
  have h₁ : e₁.trace Obs.fieldRead = e.trace Obs.fieldRead := h₁
  refine fwits_appends.bind fun _ e₂ h₂ => ?_
  rw [h₁] at h₂
  cases ht : db.teddy with
  | none =>
    refine Ensures.modify_bind (Ensures.pure fun _ => ?_)
    have hnone : scanReads db buckets = fun _ => [] := by
      funext f
      rw [scanReads, ht]
      exact if_neg fun h => nomatch h.2
    rw [prefilterReads, hnone, List.flatMap_eq_nil_iff.mpr fun _ _ => rfl, List.append_nil]
    exact h₂
  | some t =>
    refine (Appends.forRange (scanOneField_appends ht buckets) _ e₂).bind fun _ e₃ h₃ => ?_
    refine Ensures.modify_bind (Ensures.pure fun _ => ?_)
    rw [prefilterReads, ← List.append_assoc, ← h₂]
    exact h₃

/-! ### Visits -/

theorem resolveField_matched (f : UInt16) :
    Keeps (sameFrame (SigmaEval.trace Obs.matched)) (resolveField db ev f) :=
  resolveField_keeps (fun _ _ _ => ⟨trivial, trace_skip rfl rfl⟩)
    (fun _ _ _ _ _ => ⟨trivial, trace_skip rfl rfl⟩) f

/-- The prefilter runs no rule. -/
theorem prefilterCandidates_matched (buckets : List ℕ) :
    Keeps (sameFrame (SigmaEval.trace Obs.matched)) (prefilterCandidates pf db ev buckets) := by
  have hmask : SkipsMasks (sameFrame (SigmaEval.trace Obs.matched)) :=
    fun _ _ _ _ => ⟨trivial, rfl⟩
  have hmark : ∀ k, Keeps (sameFrame (SigmaEval.trace Obs.matched)) (markPostings db k) :=
    markPostings_keeps hmask fun _ _ _ => ⟨trivial, trace_skip rfl rfl⟩
  exact prefilterCandidates_keeps resolveField_matched hmask
    (fun t f => scanOneField_keeps resolveField_matched hmark
      (fun _ _ _ _ => ⟨trivial, trace_skip rfl rfl⟩) (fun _ _ _ _ => ⟨trivial, rfl⟩) t buckets f)
    (Keeps.modify fun _ _ => ⟨trivial, rfl⟩)

/-- The rules that are run resolve the fields they read. -/
def visitFrame (pf : Platform) (db : SigmaDb) (ev : Event) : Frame SigmaEval where
  inv := MemoOk db ev
  keeps s t := ∃ new, t.trace Obs.matched = s.trace Obs.matched ++ new ∧
    t.trace Obs.fieldRead = s.trace Obs.fieldRead ++ new.flatMap (ruleReads pf db ev)
  refl s := ⟨[], (List.append_nil _).symm, (List.append_nil _).symm⟩
  trans s t u := by
    rintro ⟨new, hmatched, hread⟩ ⟨new', hmatched', hread'⟩
    refine ⟨new ++ new', ?_, ?_⟩
    · rw [hmatched', hmatched, List.append_assoc]
    · rw [hread', hread, List.flatMap_append, List.append_assoc]

theorem evalOneRule_visits (hdb : db.Loaded) (i : ℕ) (rep : Report) :
    Keeps (visitFrame pf db ev) (evalOneRule pf db ev maxHits i rep) := by
  intro e he
  have hfirst : Ensures (firstVisit i) e fun _ t => t.memo = e.memo ∧ t.log = e.log := by
    refine Ensures.get_bind ?_
    split
    · exact Ensures.pure ⟨rfl, rfl⟩
    · refine Ensures.bind (Q := fun _ t => t = e) (Ensures.lift fun _ _ => rfl) ?_
      rintro done _ rfl
      split
      · exact Ensures.pure ⟨rfl, rfl⟩
      · exact Ensures.modify_bind (Ensures.pure ⟨rfl, rfl⟩)
  refine hfirst.bind fun first t ⟨hmemo, hlog⟩ => ?_
  have ht : MemoOk db ev t := MemoOk.of_memo_eq he hmemo
  split
  · refine Ensures.bind (Q := fun r u => db.rules[i]? = some r ∧ t = u)
      (Ensures.lift fun r hr => ⟨getElem?_of_readAt hr, rfl⟩) ?_
    rintro r _ ⟨hr, rfl⟩
    refine Ensures.modify_bind ?_
    have hmem := List.mem_of_getElem? hr
    have hu : MemoOk db ev { t with log := .ruleMatch i :: t.log } := ht.of_memo_eq rfl
    have hunread : SigmaEval.trace Obs.fieldRead { t with log := .ruleMatch i :: t.log } =
        t.trace Obs.fieldRead := trace_skip rfl rfl
    have hreads : Ensures (ruleMatch pf db ev r) { t with log := .ruleMatch i :: t.log }
        fun _ u => u.trace Obs.fieldRead =
          t.trace Obs.fieldRead ++ (ruleVisits pf db ev r).flatMap (predReads db ev) := by
      rw [← hunread]
      exact ruleMatch_reads hdb hmem _ hu
    refine Ensures.bind ((Ensures.of_runs (ruleMatch_yields hdb hmem _ hu)).and
      (((ruleMatch_keeps resolveField_matched r) _ trivial).and hreads)) ?_
    rintro hit u ⟨⟨-, hu', -⟩, ⟨-, hsame⟩, hread⟩
    have hmatched : SigmaEval.trace Obs.matched { t with log := .ruleMatch i :: t.log } =
        t.trace Obs.matched ++ [i] := trace_snoc rfl rfl
    have hkept : (visitFrame pf db ev).keeps e u := by
      refine ⟨[i], ?_, ?_⟩
      · rw [show u.trace Obs.matched = _ from hsame, hmatched, trace_congr hlog]
      · rw [hread, trace_congr hlog, List.flatMap_singleton, ruleReads, hr]
    -- what follows changes nothing
    have hrest : Keeps stillFrame (do
        if hit then do
          if (rep.fired : Int) < maxHits then do
            let h ← hitOf db r
            pure ⟨rep.fired + 1, rep.out ++ [h]⟩
          else pure ⟨rep.fired + 1, rep.out⟩
        else pure rep : EvalM Report) := by
      split
      · split
        · exact (hitOf_keeps r).bind fun _ => Keeps.pure _
        · exact Keeps.pure _
      · exact Keeps.pure _
    refine (hrest u trivial).mono ?_
    rintro _ v ⟨-, rfl⟩
    exact ⟨hu', hkept⟩
  · refine Ensures.pure ⟨ht, [], ?_, ?_⟩
    · rw [trace_congr hlog, List.append_nil]
    · rw [trace_congr hlog, List.flatMap_nil, List.append_nil]

theorem skipsCounters_visit : SkipsCounters (visitFrame pf db ev) := by
  intro e _ _ he
  exact ⟨MemoOk.of_memo_eq he rfl, [], (List.append_nil _).symm, (List.append_nil _).symm⟩

/-! ### Routing

The category is taken through the memo if it is a compiled field.  All other route fields are asked
for by name, past the memo, whether or not they are compiled. -/

/-- From `s` to `t` the callback was asked for `names`, past the memo. -/
structure AskedFor (names : List Bytes) (s t : SigmaEval) : Prop where
  memo : t.memo = s.memo
  called : t.trace Obs.called = s.trace Obs.called ++ names
  reads : t.trace Obs.fieldRead = s.trace Obs.fieldRead
  matched : t.trace Obs.matched = s.trace Obs.matched

theorem AskedFor.refl (s : SigmaEval) : AskedFor [] s s :=
  ⟨rfl, (List.append_nil _).symm, rfl, rfl⟩

theorem AskedFor.trans {names names' : List Bytes} {s t u : SigmaEval} (h : AskedFor names s t)
    (h' : AskedFor names' t u) : AskedFor (names ++ names') s u := by
  refine ⟨h'.memo.trans h.memo, ?_, h'.reads.trans h.reads, h'.matched.trans h.matched⟩
  rw [h'.called, h.called, List.append_assoc]

theorem routeValue_asks {name : Bytes} {i : ℕ} (h : i ≠ 0 ∨ db.catFieldId = none) :
    Ensures (routeValue db ev i name) e fun _ t => AskedFor [name] e t := by
  have hasked : AskedFor [name] e { e with log := .call name :: e.log } :=
    ⟨rfl, trace_snoc rfl rfl, trace_skip rfl rfl, trace_skip rfl rfl⟩
  unfold routeValue
  split
  · rename_i hcat
    rcases h with hne | hnone
    · exact absurd rfl hne
    · rw [hnone] at hcat
      exact nomatch hcat
  · exact Ensures.modify_bind (Ensures.pure hasked)

/-- One route field, and then the others. -/
theorem routeLoop_cons {name : Bytes} {names : List Bytes} {i : ℕ} {sel : List ℕ} {had : Bool}
    {Q P : SigmaEval → Prop} (hvalue : Ensures (routeValue db ev i name) e fun _ t => Q t)
    (hrest : ∀ sel had t, Q t →
      Ensures (routeLoop db ev names (i + 1) sel had) t fun _ u => P u) :
    Ensures (routeLoop db ev (name :: names) i sel had) e fun _ u => P u := by
  refine hvalue.bind fun v t ht => ?_
  cases v with
  | none => exact hrest _ _ _ ht
  | some v =>
    dsimp only
    split
    · exact hrest _ _ _ ht
    · have hstill : Keeps stillFrame (findCategoryBucket db v) := findCategoryBucket_keeps v
      refine (hstill t trivial).bind ?_
      rintro b _ ⟨-, rfl⟩
      cases b with
      | none => exact hrest _ _ _ ht
      | some b => exact hrest _ _ _ ht

/-- The route fields after the first are asked for. -/
theorem routeLoop_asks {names : List Bytes} {i : ℕ} {sel : List ℕ} {had : Bool}
    (h : i ≠ 0 ∨ db.catFieldId = none) :
    Ensures (routeLoop db ev names i sel had) e fun _ t => AskedFor names e t := by
  induction names generalizing i sel had e with
  | nil => exact Ensures.pure (AskedFor.refl e)
  | cons name names ih =>
    refine routeLoop_cons (routeValue_asks h) fun sel had t ht => ?_
    exact (ih (.inl (Nat.succ_ne_zero i))).mono fun _ u hu => ht.trans hu

/-- The fields that the routing resolves. -/
def routeReads (db : SigmaDb) : List ℕ :=
  match db.catFieldId with
  | none => []
  | some cat => [cat.toUInt16.toNat]

/-- **The routing** resolves the category field, if there is one, and asks for the others. -/
theorem RoutedScratch.calls (hdb : db.Loaded) (h : ScratchOk db e)
    (h₁ : RoutedScratch db ev e e₁) : ∃ s, MemoCalls db (startRun e) s ∧
      s.trace Obs.fieldRead = (startRun e).trace Obs.fieldRead ++ routeReads db ∧
      s.trace Obs.matched = (startRun e).trace Obs.matched ∧ AskedFor (routeCalls db) s e₁ := by
  have hlen : (memoCallFrame db).inv (startRun e) := (List.length_map _).trans h.memo
  have hreached := h₁.reached
  unfold routeReads routeCalls
  split at hreached
  · rename_i hzero
    have hcat : db.catFieldId = none := by
      rw [hdb.catFieldId, Tables.catFieldIdOf, if_pos hzero]
    rw [if_pos hzero, hcat, hreached]
    exact ⟨_, MemoCalls.refl _, (List.append_nil _).symm, rfl, AskedFor.refl _⟩
  · rename_i hsome
    rw [if_neg hsome]
    cases hcat : db.catFieldId with
    | none =>
      refine ⟨_, MemoCalls.refl _, (List.append_nil _).symm, rfl, ?_⟩
      exact routeLoop_asks (.inr hcat) _ _ hreached
    | some cat =>
      have hfirst : Ensures (routeValue db ev 0 (ascii "event.category")) (startRun e) fun _ t =>
          MemoCalls db (startRun e) t ∧
            t.trace Obs.fieldRead =
              (startRun e).trace Obs.fieldRead ++ [cat.toUInt16.toNat] ∧
            t.trace Obs.matched = (startRun e).trace Obs.matched := by
        unfold routeValue
        rw [hcat]
        refine ((resolveField_calls cat.toUInt16 _ hlen).and ((resolveField_appends _ _).and
          (resolveField_matched _ _ trivial))).mono ?_
        rintro _ t ⟨⟨-, hcalls⟩, hread, -, hmatched⟩
        exact ⟨hcalls, hread, hmatched⟩
      have hloop := routeLoop_cons (Q := fun t => _) (P := fun u => ∃ s, _ ∧ AskedFor _ s u) hfirst
        (fun sel had t ht => (routeLoop_asks (.inl Nat.one_ne_zero)).mono fun _ u hu =>
          ⟨t, ht, hu⟩) _ _ hreached
      obtain ⟨s, ⟨hcalls, hread, hmatched⟩, hasked⟩ := hloop
      exact ⟨s, hcalls, hread, hmatched, hasked⟩

/-! ### The whole evaluation -/

/-- The fields that are resolved after the routing. -/
theorem sigmaEvalRun_reads (hdb : db.Loaded) (h : ScratchOk db e) :
    Runs (sigmaEvalRun pf db ev maxHits) e fun _ e' => ∃ e₁, RoutedScratch db ev e e₁ ∧
      MemoCalls db e₁ e' ∧ ∃ new, e'.trace Obs.matched = e₁.trace Obs.matched ++ new ∧
        e'.trace Obs.fieldRead = e₁.trace Obs.fieldRead ++
          ((if PrefilterRuns db ev e.prefilterOn then prefilterReads db (bucketSel db ev) else []) ++
            new.flatMap (ruleReads pf db ev)) := by
  -- what the prefilter leaves, if it runs
  have hpre : ∀ e₁ e₂, RoutedScratch db ev e e₁ → PrefilteredScratch pf db ev e.prefilterOn e₁ e₂ →
      MemoOk db ev e₂ ∧ MemoCalls db e₁ e₂ ∧ e₂.trace Obs.matched = e₁.trace Obs.matched ∧
        e₂.trace Obs.fieldRead = e₁.trace Obs.fieldRead ++
          if PrefilterRuns db ev e.prefilterOn then prefilterReads db (bucketSel db ev) else [] := by
    intro e₁ e₂ h₁ h₂
    have hstarted := h₁.started
    unfold PrefilteredScratch at h₂
    split at h₂
    · rename_i hruns
      obtain ⟨-, -, hcredit⟩ := (prefilterCandidates_runs hdb hstarted.scratch hstarted.memo
        hstarted.freshMask).result h₂
      rw [if_pos hruns]
      exact ⟨(hcredit rfl).memo, (prefilterCandidates_calls _ e₁ hstarted.memo.length _ _ h₂).2,
        (prefilterCandidates_matched _ e₁ trivial _ _ h₂).2,
        prefilterCandidates_reads _ _ _ h₂ rfl⟩
    · rename_i hno
      rw [if_neg hno, h₂, List.append_nil]
      exact ⟨hstarted.memo, MemoCalls.refl e₁, rfl, rfl⟩
  refine (sigmaEvalRun_visits hdb h
    (fun i rep => (evalOneRule_calls i rep).and (evalOneRule_visits hdb i rep))
    (skipsCounters_memoCall.and skipsCounters_visit) fun e₁ e₂ h₁ h₂ =>
      ⟨(hpre e₁ e₂ h₁ h₂).1.length, (hpre e₁ e₂ h₁ h₂).1⟩).mono ?_
  rintro _ e' ⟨e₁, e₂, h₁, h₂, hcalls, new, hmatched, hread⟩
  obtain ⟨-, hcalls₂, hmatched₂, hread₂⟩ := hpre e₁ e₂ h₁ h₂
  refine ⟨e₁, h₁, hcalls₂.trans hcalls, new, ?_, ?_⟩
  · rw [hmatched, hmatched₂]
  · rw [hread, hread₂, List.append_assoc]

/-- **The calls of an evaluation**: one for each field that it resolves, and those of the
routing. -/
theorem sigmaEvalRun_calls (hdb : db.Loaded) (h : ScratchOk db e) :
    Runs (sigmaEvalRun pf db ev maxHits) e fun _ e' => ∃ (fields : List ℕ) (calls : List Bytes),
      e'.trace Obs.called = e.trace Obs.called ++ calls ∧
        calls.Perm (fields.map db.nameOf ++ routeCalls db) ∧ fields.Nodup ∧
          ∀ f, f ∈ fields ↔ f < db.fields.length ∧ RunReads pf db ev e.prefilterOn f := by
  refine ((sigmaEvalRun_reads hdb h).and ((Ensures.of_runs (sigmaEvalRun_finishes hdb h)).and
    (sigmaEvalRun_accounts hdb h))).mono ?_
  rintro _ e' ⟨⟨e₁, h₁, hlater, visits, hmatched, hread⟩, ⟨-, _, -, hfin⟩, haccount, -⟩
  obtain ⟨s, hrouting, hread₁, hmatched₁, hasked⟩ := h₁.calls hdb h
  obtain ⟨⟨new, hcalled, hfirsts⟩, read, hread', hresolved⟩ := hrouting
  obtain ⟨⟨new', hcalled', hfirsts'⟩, read', hread'', hresolved'⟩ := hlater
  -- the rules that were run are those of `runVisits`
  obtain ⟨visits', hmatched', hvisits⟩ := haccount.matched
  have hvisited : ∀ i, i ∈ visits ↔ i ∈ runVisits pf db ev e.prefilterOn := by
    intro i
    rw [hmatched, hasked.matched, hmatched₁] at hmatched'
    obtain rfl := List.append_cancel_left hmatched'
    rw [← hfin.done, hvisits.record]
    exact (or_iff_right (notMarked_next h.boundedDone i)).symm
  -- the memo is empty when the evaluation starts, and the routing does not empty it
  have hempty : ∀ f, ¬ Resolved (startRun e) f := by
    rintro f ⟨v, hv⟩
    have hmemo : (startRun e).memo = e.memo.map fun _ => none := rfl
    rw [hmemo, List.getElem?_map] at hv
    obtain ⟨_, -, hnone⟩ := Option.map_eq_some_iff.mp hv
    exact nomatch hnone
  have hsame : Resolved e₁ = Resolved s := by
    funext f
    rw [Resolved, Resolved, hasked.memo]
  rw [hsame] at hfirsts' hresolved'
  have hall := hfirsts.trans hfirsts'
  obtain rfl : read = routeReads db := List.append_cancel_left (hread'.symm.trans hread₁)
  obtain rfl := List.append_cancel_left (hread''.symm.trans hread)
  refine ⟨new ++ new', new.map db.nameOf ++ routeCalls db ++ new'.map db.nameOf, ?_, ?_,
    hall.nodup, fun f => ?_⟩
  · rw [hcalled', hasked.called, hcalled, List.append_assoc, List.append_assoc, List.append_assoc]
    rfl
  · rw [List.map_append, List.append_assoc, List.append_assoc]
    exact List.Perm.append_left _ List.perm_append_comm
  · have hroute : f ∈ routeReads db ↔ ∃ cat, db.catFieldId = some cat ∧ f = cat.toUInt16.toNat := by
      unfold routeReads
      cases db.catFieldId with
      | none => simp
      | some cat => simp
    have hprefilter : (f ∈ if PrefilterRuns db ev e.prefilterOn then
        prefilterReads db (bucketSel db ev) else []) ↔ PrefilterRuns db ev e.prefilterOn ∧
          f ∈ prefilterReads db (bucketSel db ev) := by
      split
      · rename_i hruns
        exact (and_iff_right hruns).symm
      · rename_i hruns
        exact iff_of_false List.not_mem_nil fun h => hruns h.1
    have hrules : f ∈ visits.flatMap (ruleReads pf db ev) ↔
        ∃ i ∈ runVisits pf db ev e.prefilterOn, f ∈ ruleReads pf db ev i := by
      rw [List.mem_flatMap]
      simp only [hvisited]
    have hrecord : f ∈ new ++ new' ↔ Resolved e' f :=
      ((hall.record f).trans (or_iff_right (hempty f))).symm
    rw [hrecord, hresolved', hresolved, or_iff_right (hempty f), ← and_or_left, List.mem_append,
      hroute, hprefilter, hrules, RunReads]

end Phases

/-! ## When no name is asked for twice

The calls are two lists: the names of the fields resolved, and those of the routing.  The second has
no duplicates, and the first has none when the names of the artifact are distinct.  So a name is
there twice exactly when it is in both. -/

section Once

variable {pf : Platform} {db : SigmaDb} {ev : Event}

theorem nodup_routeCalls : (routeCalls db).Nodup := by
  unfold routeCalls
  split
  · exact List.nodup_nil
  · split
    · decide
    · decide

/-- The routing does not ask for the category when a compiled field has that name. -/
theorem mem_routeCalls_iff (hdb : db.Loaded) {f : ℕ} {s : SigmaStr}
    (hf : db.fields[f]? = some s) :
    db.str s ∈ routeCalls db ↔ db.bucketKeys ≠ [] ∧ db.str s ∈ routeNames.tail := by
  unfold routeCalls
  by_cases hzero : db.bucketKeys.length = 0
  · rw [if_pos hzero]
    have hnil := List.eq_nil_of_length_eq_zero hzero
    exact iff_of_false List.not_mem_nil fun h => h.1 hnil
  · have hsome : db.bucketKeys ≠ [] := fun hnil => hzero (by rw [hnil]; rfl)
    rw [if_neg hzero, and_iff_right hsome]
    cases hcat : db.catFieldId with
    | some cat => rfl
    | none =>
      have hnone := hdb.catFieldId.symm.trans hcat
      rw [Tables.catFieldIdOf, if_neg hzero, List.findIdx?_eq_none_iff] at hnone
      have hmem := List.mem_of_getElem? hf
      have hother : db.str s ≠ ascii "event.category" := by
        intro heq
        have hend := (List.getElem?_eq_some_iff.mp (hdb.valid.fieldName s hmem)).1
        have hlen : (db.str s).length = s.len.toNat := length_str (Nat.le_of_lt hend)
        have hfalse := hnone s hmem
        rw [← hlen, show db.str s = catf from heq] at hfalse
        simp at hfalse
      show db.str s ∈ ascii "event.category" :: routeNames.tail ↔ _
      rw [List.mem_cons, or_iff_right hother]

/-- Calls for distinct fields of distinct names, and the routing's own calls. -/
theorem nodup_calls_iff (hdb : db.Loaded) (hnames : (db.fields.map db.str).Nodup) {mode : Int}
    {fields : List ℕ} {calls : List Bytes}
    (hcalls : calls.Perm (fields.map db.nameOf ++ routeCalls db)) (hnodup : fields.Nodup)
    (hmem : ∀ f, f ∈ fields ↔ f < db.fields.length ∧ RunReads pf db ev mode f) :
    calls.Nodup ↔ db.bucketKeys = [] ∨ ∀ f s, RunReads pf db ev mode f →
      db.fields[f]? = some s → db.str s ∉ routeNames.tail := by
  have hname : ∀ {f s}, db.fields[f]? = some s → db.nameOf f = db.str s := by
    intro f s hs
    rw [SigmaDb.nameOf, hs]
    rfl
  have hinj : (fields.map db.nameOf).Nodup := by
    refine hnodup.map_on fun f hf g hg heq => ?_
    have hlt := ((hmem f).mp hf).1
    have hf' := List.getElem?_eq_getElem hlt
    have hg' := List.getElem?_eq_getElem ((hmem g).mp hg).1
    rw [hname hf', hname hg'] at heq
    refine (List.getElem?_inj (by rwa [List.length_map]) hnames).mp ?_
    rw [List.getElem?_map, List.getElem?_map, hf', hg', Option.map_some, Option.map_some, heq]
  rw [hcalls.nodup_iff, List.nodup_append', and_iff_right hinj, and_iff_right nodup_routeCalls]
  constructor
  · intro hdisjoint
    refine or_iff_not_imp_left.mpr fun hsome f s hread hs htail => ?_
    have hlt := (List.getElem?_eq_some_iff.mp hs).1
    refine hdisjoint (List.mem_map.mpr ⟨f, (hmem f).mpr ⟨hlt, hread⟩, hname hs⟩) ?_
    exact (mem_routeCalls_iff hdb hs).mpr ⟨hsome, htail⟩
  · intro h name hasked hroute
    obtain ⟨f, hf, rfl⟩ := List.mem_map.mp hasked
    obtain ⟨hlt, hread⟩ := (hmem f).mp hf
    have hs := List.getElem?_eq_getElem hlt
    rw [hname hs] at hroute
    obtain ⟨hsome, htail⟩ := (mem_routeCalls_iff hdb hs).mp hroute
    exact h.resolve_left hsome f _ hread hs htail

/-- **When the callback is asked at most once for a name**: when there are no buckets, or no field
that the evaluation resolves has the name of a route field other than the category. -/
theorem callback_once_iff {buf : Bytes} (hload : sigmaDbLoadBuffer pf buf = .ok db)
    (hnames : (db.fields.map db.str).Nodup) (ev : Event) (maxHits : Int) {e : SigmaEval}
    (he : Reached pf db e) :
    ∃ rep e' calls, (sigmaEvalRun pf db ev maxHits).run e = .ok (rep, e') ∧
      e'.trace Obs.called = e.trace Obs.called ++ calls ∧
        (calls.Nodup ↔ db.bucketKeys = [] ∨ ∀ f s, RunReads pf db ev e.prefilterOn f →
          db.fields[f]? = some s → db.str s ∉ routeNames.tail) := by
  have hdb := loaded_of_loadBuffer hload
  have hruns : Runs (sigmaEvalRun pf db ev maxHits) e _ :=
    sigmaEvalRun_calls hdb (he.scratchOk hdb).1
  obtain ⟨rep, e', hrun, fields, calls, hcalled, hperm, hnodup, hmem⟩ := hruns
  exact ⟨rep, e', calls, hrun, hcalled, nodup_calls_iff hdb hnames hperm hnodup hmem⟩

end Once

/-- The theorem at the small artifact, whose field has no route name. -/
theorem callback_once_iff_sample :
    ∃ db rep e' calls, sigmaDbLoadBuffer samplePlatform (sigmaDbSerialize sampleTables) = .ok db ∧
      (sigmaEvalRun samplePlatform db sampleEvent 4).run (sigmaEvalCreate db) = .ok (rep, e') ∧
      e'.trace Obs.called = calls ∧ calls.Nodup := by
  obtain ⟨db, hload, hsame⟩ := load_sample
  have hnames : (db.fields.map db.str).Nodup := by
    rw [hsame.fields]
    exact List.nodup_singleton _
  obtain ⟨rep, e', calls, hrun, hcalled, honce⟩ :=
    callback_once_iff hload hnames sampleEvent 4 (reached_create samplePlatform db)
  refine ⟨db, rep, e', calls, hload, hrun, hcalled, honce.mpr (.inr fun f s _ hs => ?_)⟩
  rw [hsame.fields] at hs
  obtain rfl := List.mem_singleton.mp (List.mem_of_getElem? hs)
  rw [hsame.str]
  decide

/-! ## An artifact with a route field -/

/-- The small artifact with its field named `techno`. -/
def technoTables : Tables :=
  { sampleTables with
    fields := [⟨0, 6⟩]
    values := [⟨7, 2⟩]
    bucketKeys := [⟨9, 1⟩]
    litndl := [⟨7, 2⟩]
    strpool := ascii "techno" ++ [0, 120, 121, 97] }

/-- The loader accepts it. -/
theorem load_techno :
    ∃ db, sigmaDbLoadBuffer samplePlatform (sigmaDbSerialize technoTables) = .ok db ∧
      technoTables.Same db.toTables :=
  technoTables.load_serialize samplePlatform (by decide) (by decide) (by decide)

/-- Its rule reads the field. -/
theorem runReads_techno {db : SigmaDb}
    (hload : sigmaDbLoadBuffer samplePlatform (sigmaDbSerialize technoTables) = .ok db)
    (hsame : technoTables.Same db.toTables) : RunReads samplePlatform db sampleEvent 1 0 := by
  have hdb := loaded_of_loadBuffer hload
  have hav : db.avBucket = none := by
    cases hav : db.avBucket with
    | none => rfl
    | some b =>
      obtain ⟨k, hk, hlen⟩ := (hdb.avBucket b).mp hav
      rw [hsame.bucketKeys] at hk
      obtain rfl := List.mem_singleton.mp (List.mem_of_getElem? hk)
      exact absurd hlen (by decide)
  have hroute : route db sampleEvent = ([0], true) := by
    rw [route, routeAnswers_eq hdb (by rw [hsame.fields]; decide)]
    unfold routeStep bucketOf keyIs
    simp only [hsame.bucketKeys, hsame.str]
    decide
  have hsel : bucketSel db sampleEvent = [0] := by
    rw [bucketSel, hroute, addAvBucket, hav]
  have hbig : isBig db 1 [0] = false := by
    rw [isBig, hav, hsame.buckets]
    decide
  have hscope : [0].flatMap (bucketRules db) = [0] := by
    unfold bucketRules
    rw [hsame.buckets, hsame.bucketIdx]
    decide
  have hrouted : ¬ (db.bucketKeys.length = 0 ∨ hasRoute db sampleEvent = false) := by
    rw [hsame.bucketKeys, hasRoute, hroute]
    decide
  refine .inr (.inr ⟨0, ?_, ?_⟩)
  · rw [runVisits_of_not_big hrouted (by rw [hsel, hbig]), hsel, hscope]
    exact List.mem_singleton_self 0
  · have hrules : db.rules = sampleTables.rules := hsame.rules
    have hsels : db.sels = sampleTables.sels := hsame.sels
    have hpreds : db.preds = sampleTables.preds := hsame.preds
    simp [ruleReads, ruleVisits, ruleSelections, andSelections, ruleSelVisits, selVisits,
      loopVisits, predReads, hrules, hsels, hpreds, sampleTables]

/-- One evaluation there asks for `techno` twice. -/
theorem callback_asked_twice :
    ¬ ∀ (pf : Platform) (buf : Bytes) (db : SigmaDb) (ev : Event) (maxHits : Int)
        (e e' : SigmaEval) (rep : Report) (calls : List Bytes),
      sigmaDbLoadBuffer pf buf = .ok db → (db.fields.map db.str).Nodup → Reached pf db e →
        (sigmaEvalRun pf db ev maxHits).run e = .ok (rep, e') →
          e'.trace Obs.called = e.trace Obs.called ++ calls → calls.Nodup := by
  intro hall
  obtain ⟨db, hload, hsame⟩ := load_techno
  have hdb := loaded_of_loadBuffer hload
  have hnames : (db.fields.map db.str).Nodup := by
    rw [hsame.fields]
    exact List.nodup_singleton _
  have hfield : db.fields[0]? = some ⟨0, 6⟩ := by
    rw [hsame.fields]
    rfl
  have hname : db.str ⟨0, 6⟩ ∈ routeNames.tail := by
    rw [hsame.str]
    decide
  have hruns : Runs (sigmaEvalRun samplePlatform db sampleEvent 4) (sigmaEvalCreate db) _ :=
    sigmaEvalRun_calls hdb (scratchOk_create db)
  obtain ⟨rep, e', hrun, fields, calls, hcalled, hperm, hnodup, hmem⟩ := hruns
  have honce := hall _ _ db sampleEvent 4 _ e' rep calls hload hnames (reached_create _ db) hrun
    hcalled
  rcases (nodup_calls_iff hdb hnames hperm hnodup hmem).mp honce with hnone | hother
  · rw [hsame.bucketKeys] at hnone
    exact absurd hnone (List.cons_ne_nil _ _)
  · exact hother 0 _ (runReads_techno hload hsame) hfield hname

end LibSigma
