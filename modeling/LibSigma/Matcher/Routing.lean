import LibSigma.Matcher.Calls

/-!
# Routing

With the prefilter off, an evaluation reports the rules of the buckets that the route fields name.

## Buckets in a fixed array

The code collects the numbers of the selected buckets in an array of fixed size, leaves out those it
has already, and adds the always-verify bucket at the end.  An event may set all nine route fields
to different keys.  That all of them and the always-verify bucket fit is counting; that nothing is
lost or doubled is `mem_bucketSel_iff`.

## A name that two fields have

The category is special: if a compiled field has its name, its value is taken through the memo, by
number; the other route fields are asked for by name.  The value is the same either way, because
both go to the callback with one name, and the callback answers a name in one way.  So `RoutedTo`
speaks of names only.

## Nothing routed

An event that sets no route field is evaluated against every rule, in the order of the rules, and
one that sets some of them, but to no key of the artifact, against the always-verify bucket alone.
These are different cases, and `Routed` decides which applies: a field is set when it is present and
not empty.

* `RoutedTo`: the buckets an event goes to, in the words of the documentation.
* `mem_bucketSel_iff`: the fixed-size, deduplicated list of buckets is that set.
* `evaluation_reports_routed`: **the report of an event.**
-/

namespace LibSigma

open Library

/-! ## The buckets of an event -/

/-- Some route field is present and not empty. -/
def Routed (ev : Event) : Prop := ∃ name ∈ routeNames, ∃ v, ev name = some v ∧ v ≠ []

/-- Bucket `b` is the always-verify bucket, or its key is the value of a route field. -/
def RoutedTo (db : SigmaDb) (ev : Event) (b : ℕ) : Prop :=
  ∃ k, db.bucketKeys[b]? = some k ∧
    (k.len = 0 ∨ ∃ name ∈ routeNames, ∃ v, ev name = some v ∧ v ≠ [] ∧ db.str k = v)

/-- `rule_match` accepts rule `i`. -/
def RuleAccepted (pf : Platform) (db : SigmaDb) (ev : Event) (i : ℕ) : Prop :=
  ∃ r, db.rules[i]? = some r ∧
    ∃ e, (ruleMatch pf db ev r).run (sigmaEvalCreate db) = .ok (true, e)

section Selection

variable {pf : Platform} {db : SigmaDb} {ev : Event}

theorem ruleAccepts_iff (hdb : db.Loaded) {i : ℕ} :
    ruleAccepts pf db ev i = true ↔ RuleAccepted pf db ev i := by
  unfold ruleAccepts RuleAccepted
  cases hr : db.rules[i]? with
  | none => simp
  | some r =>
    have hruns : Runs (ruleMatch pf db ev r) (sigmaEvalCreate db) _ :=
      ruleMatch_yields hdb (List.mem_of_getElem? hr) _ (memoOk_create db ev)
    obtain ⟨b, e, hrun, rfl, -⟩ := hruns
    rw [Option.any_some]
    constructor
    · intro hholds
      exact ⟨r, rfl, e, by rw [hrun, hholds]⟩
    · rintro ⟨r', hr', e', hrun'⟩
      obtain rfl := Option.some.inj hr'
      rw [hrun] at hrun'
      exact (Prod.mk.inj (Except.ok.inj hrun')).1

theorem mem_addBucket_iff {sel : List ℕ} {b j : ℕ} (hroom : sel.length < sigmaMaxRouteBuckets) :
    j ∈ addBucket sel b ↔ j ∈ sel ∨ j = b := by
  refine ⟨mem_addBucket, ?_⟩
  unfold addBucket
  split
  · rename_i hb
    exact fun h => h.elim id fun heq => heq ▸ hb
  · rw [List.mem_append, List.mem_singleton]
    exact id

theorem length_addBucket_le (sel : List ℕ) (b : ℕ) :
    (addBucket sel b).length ≤ sel.length + 1 := by
  unfold addBucket
  split
  · omega
  · split
    · rw [List.length_append, List.length_singleton]
    · omega

/-- A route value selects at most one more bucket. -/
theorem length_routeStep_le (acc : List ℕ × Bool) (v : Option Bytes) :
    (routeStep db acc v).1.length ≤ acc.1.length + 1 := by
  unfold routeStep
  split
  · omega
  · split
    · omega
    · split
      · exact Nat.le_succ _
      · exact length_addBucket_le _ _

theorem length_foldl_routeStep_le (vs : List (Option Bytes)) (acc : List ℕ × Bool) :
    (vs.foldl (routeStep db) acc).1.length ≤ acc.1.length + vs.length := by
  induction vs generalizing acc with
  | nil => exact Nat.le_refl _
  | cons v vs ih =>
    have hstep : (routeStep db acc v).1.length ≤ acc.1.length + 1 := length_routeStep_le acc v
    have hrest := ih (routeStep db acc v)
    rw [List.foldl_cons, List.length_cons]
    omega

/-- While there is room no selected bucket is lost. -/
theorem mem_routeStep {acc : List ℕ × Bool} (hroom : acc.1.length < sigmaMaxRouteBuckets)
    {v : Option Bytes} {b : ℕ}
    (h : b ∈ acc.1 ∨ ∃ s, v = some s ∧ s.length ≠ 0 ∧
      bucketOf db s 0 db.bucketKeys.length = some b) : b ∈ (routeStep db acc v).1 := by
  rcases h with hb | ⟨s, rfl, hne, hs⟩
  · unfold routeStep
    split
    · exact hb
    · split
      · exact hb
      · split
        · exact hb
        · exact (mem_addBucket_iff hroom).mpr (.inl hb)
  · rw [routeStep, if_neg hne, hs]
    exact (mem_addBucket_iff hroom).mpr (.inr rfl)

theorem mem_foldl_routeStep_iff {vs : List (Option Bytes)} {acc : List ℕ × Bool} {b : ℕ}
    (hroom : acc.1.length + vs.length ≤ sigmaMaxRouteBuckets) :
    b ∈ (vs.foldl (routeStep db) acc).1 ↔ b ∈ acc.1 ∨ ∃ s, some s ∈ vs ∧ s.length ≠ 0 ∧
      bucketOf db s 0 db.bucketKeys.length = some b := by
  refine ⟨foldl_routeStep_mem, ?_⟩
  induction vs generalizing acc with
  | nil => simp
  | cons v vs ih =>
    intro h
    rw [List.length_cons] at hroom
    have hstep : (routeStep db acc v).1.length ≤ acc.1.length + 1 := length_routeStep_le acc v
    rw [List.foldl_cons]
    refine ih (by omega) ?_
    rcases h with hb | ⟨s, hs, hrest⟩
    · exact .inl (mem_routeStep (by omega) (.inl hb))
    · rcases List.mem_cons.mp hs with rfl | hmem
      · exact .inl (mem_routeStep (by omega) (.inr ⟨s, rfl, hrest⟩))
      · exact .inr ⟨s, hmem, hrest⟩

theorem foldl_routeStep_snd {vs : List (Option Bytes)} {acc : List ℕ × Bool} :
    (vs.foldl (routeStep db) acc).2 = true ↔
      acc.2 = true ∨ ∃ s, some s ∈ vs ∧ s.length ≠ 0 := by
  induction vs generalizing acc with
  | nil => simp
  | cons v vs ih =>
    have hstep : (routeStep db acc v).2 = true ↔
        acc.2 = true ∨ ∃ s, v = some s ∧ s.length ≠ 0 := by
      unfold routeStep
      split
      · simp
      · split
        · rename_i s hempty
          refine (or_iff_left ?_).symm
          rintro ⟨s', hs', hne⟩
          exact hne (Option.some.inj hs' ▸ hempty)
        · rename_i s hne
          have hset : ∃ s', some s = some s' ∧ s'.length ≠ 0 := ⟨s, rfl, hne⟩
          split <;> exact iff_of_true rfl (.inr hset)
    rw [List.foldl_cons, ih, hstep, or_assoc]
    refine or_congr_right ⟨?_, ?_⟩
    · rintro (⟨s, rfl, hs⟩ | ⟨s, hmem, hs⟩)
      · exact ⟨s, List.mem_cons_self, hs⟩
      · exact ⟨s, List.mem_cons_of_mem _ hmem, hs⟩
    · rintro ⟨s, hmem, hs⟩
      rcases List.mem_cons.mp hmem with rfl | hmem
      · exact .inl ⟨s, rfl, hs⟩
      · exact .inr ⟨s, hmem, hs⟩

/-- The cached category field has the name it stands for. -/
theorem routeAnswer_zero (hdb : db.Loaded) (hfields : db.fields.length ≤ 65536) :
    routeAnswer db ev 0 catf = ev catf := by
  unfold routeAnswer
  cases hcat : db.catFieldId with
  | none => rfl
  | some f =>
    obtain ⟨-, ⟨s, hs, hstr, -⟩, -⟩ := catFieldIdOf_eq_some_iff.mp (hdb.catFieldId ▸ hcat)
    have hlt := (List.getElem?_eq_some_iff.mp hs).1
    have hcast : f.toUInt16.toNat = f := by
      rw [Nat.toUInt16_eq, UInt16.toNat_ofNat']
      omega
    change fieldValue db ev f.toUInt16.toNat = ev catf
    rw [hcast, fieldValue_of_lt hs, hstr]

/-- The answers are those of the callback for the nine names. -/
theorem routeAnswers_eq (hdb : db.Loaded) (hfields : db.fields.length ≤ 65536) :
    routeAnswers db ev routeNames 0 = routeNames.map ev := by
  have hsucc : ∀ i name, routeAnswer db ev (i + 1) name = ev name := fun _ _ => rfl
  have hzero : routeAnswer db ev 0 catf = ev catf := routeAnswer_zero hdb hfields
  simp only [routeAnswers, routeNames, List.zipIdx_cons, List.zipIdx_nil, List.map_cons,
    List.map_nil, hsucc, Nat.zero_add]
  rw [show ascii "event.category" = catf from rfl, hzero]

theorem hasRoute_iff (hdb : db.Loaded) (hfields : db.fields.length ≤ 65536) :
    hasRoute db ev = true ↔ Routed ev := by
  rw [hasRoute, route, routeAnswers_eq hdb hfields, foldl_routeStep_snd, Routed]
  simp only [Bool.false_eq_true, false_or, List.mem_map, ne_eq, List.length_eq_zero_iff]
  constructor
  · rintro ⟨v, ⟨name, hname, hv⟩, hne⟩
    exact ⟨name, hname, v, hv, hne⟩
  · rintro ⟨name, hname, v, hv, hne⟩
    exact ⟨v, ⟨name, hname, hv⟩, hne⟩

/-- Distinct keys: the first bucket with a key is the only one. -/
theorem bucketOf_eq_some_iff (hdistinct : (db.bucketKeys.map db.str).Nodup) {cat : Bytes} {b : ℕ} :
    bucketOf db cat 0 db.bucketKeys.length = some b ↔
      cat ≠ [] ∧ ∃ k, db.bucketKeys[b]? = some k ∧ db.str k = cat := by
  have hkeyIs : ∀ j, keyIs db cat j = true ↔
      cat ≠ [] ∧ ∃ k, db.bucketKeys[j]? = some k ∧ db.str k = cat := by
    intro j
    rw [keyIs, Option.any_eq_true]
    simp only [Bool.and_eq_true, decide_eq_true_eq, beq_iff_eq, List.length_pos_iff]
    constructor
    · rintro ⟨k, hk, hne, hstr⟩
      exact ⟨hne, k, hk, hstr⟩
    · rintro ⟨hne, k, hk, hstr⟩
      exact ⟨k, hk, hne, hstr⟩
  constructor
  · exact fun h => (hkeyIs b).mp (lt_of_bucketOf h).1
  · rintro ⟨hne, k, hk, hstr⟩
    cases hfind : bucketOf db cat 0 db.bucketKeys.length with
    | none =>
      have hlt := (List.getElem?_eq_some_iff.mp hk).1
      have hnone := List.find?_eq_none.mp hfind b (List.mem_range'_1.mpr (by omega))
      exact absurd ((hkeyIs b).mpr ⟨hne, k, hk, hstr⟩) hnone
    | some b' =>
      obtain ⟨-, k', hk', hstr'⟩ := (hkeyIs b').mp (lt_of_bucketOf hfind).1
      have hlt' := (lt_of_bucketOf hfind).2
      have hlen : b' < (db.bucketKeys.map db.str).length := by rwa [List.length_map]
      refine congrArg some ((List.getElem?_inj hlen hdistinct).mp ?_)
      rw [List.getElem?_map, List.getElem?_map, hk, hk', Option.map_some, Option.map_some, hstr,
        hstr']

/-- **The selected buckets are those the event goes to.**  Nine values and the always-verify bucket
always fit. -/
theorem mem_bucketSel_iff (hdb : db.Loaded) (hdistinct : (db.bucketKeys.map db.str).Nodup)
    (hfields : db.fields.length ≤ 65536) {b : ℕ} : b ∈ bucketSel db ev ↔ RoutedTo db ev b := by
  have hroom : ([] : List ℕ).length + (routeNames.map ev).length ≤ sigmaMaxRouteBuckets := by
    rw [List.length_map]
    decide
  have hroute : ∀ j, j ∈ (route db ev).1 ↔ ∃ name ∈ routeNames, ∃ v, ev name = some v ∧ v ≠ [] ∧
      ∃ k, db.bucketKeys[j]? = some k ∧ db.str k = v := by
    intro j
    rw [route, routeAnswers_eq hdb hfields, mem_foldl_routeStep_iff hroom]
    simp only [List.not_mem_nil, false_or, List.mem_map, bucketOf_eq_some_iff hdistinct]
    constructor
    · rintro ⟨v, ⟨name, hname, hv⟩, -, hne, hk⟩
      exact ⟨name, hname, v, hv, hne, hk⟩
    · rintro ⟨name, hname, v, hv, hne, hk⟩
      exact ⟨v, ⟨name, hname, hv⟩, fun h => hne (List.eq_nil_of_length_eq_zero h), hne, hk⟩
  have hsmall : (route db ev).1.length < sigmaMaxRouteBuckets := by
    rw [route, routeAnswers_eq hdb hfields]
    refine Nat.lt_of_le_of_lt (length_foldl_routeStep_le _ _) ?_
    rw [List.length_map]
    decide
  have hsel : b ∈ bucketSel db ev ↔ b ∈ (route db ev).1 ∨ db.avBucket = some b := by
    rw [bucketSel, addAvBucket]
    cases db.avBucket with
    | none => simp
    | some av =>
      dsimp only
      rw [mem_addBucket_iff hsmall, Option.some_inj, eq_comm (a := b)]
  rw [hsel, hroute, hdb.avBucket, RoutedTo]
  constructor
  · rintro (⟨name, hname, v, hv, hne, k, hk, hstr⟩ | ⟨k, hk, hlen⟩)
    · exact ⟨k, hk, .inr ⟨name, hname, v, hv, hne, hstr⟩⟩
    · exact ⟨k, hk, .inl hlen⟩
  · rintro ⟨k, hk, hlen | ⟨name, hname, v, hv, hne, hstr⟩⟩
    · exact .inr ⟨k, hk, hlen⟩
    · exact .inl ⟨name, hname, v, hv, hne, k, hk, hstr⟩

/-- **What an event reports with the prefilter off.**  If a route field is set: exactly the accepted
rules of the always-verify bucket and of the buckets whose key is a route value, each once; if none
is: what the full scan reports. -/
theorem evaluation_reports_routed {buf : Bytes} (hload : sigmaDbLoadBuffer pf buf = .ok db)
    (hbuckets : db.bucketKeys ≠ []) (hdistinct : (db.bucketKeys.map db.str).Nodup)
    (hfields : db.fields.length ≤ 65536) (ev : Event) (maxHits : Int) {e : SigmaEval}
    (he : Reached pf db e) (hoff : e.prefilterOn = 0) :
    ∃ rep e', (sigmaEvalRun pf db ev maxHits).run e = .ok (rep, e') ∧
      (Routed ev → ∃ fired : List ℕ, fired.Nodup ∧
        (∀ i, i ∈ fired ↔ (∃ b, RoutedTo db ev b ∧ i ∈ bucketRules db b) ∧
          RuleAccepted pf db ev i) ∧
        rep = reportOf db maxHits fired) ∧
      (¬ Routed ev → ∃ e'', (sigmaEvalRunLinear pf db ev maxHits).run e = .ok (rep, e'')) := by
  have hdb := loaded_of_loadBuffer hload
  obtain ⟨hscratch, -⟩ := he.scratchOk hdb
  have hruns : Runs (sigmaEvalRun pf db ev maxHits) e _ := sigmaEvalRun_runs hdb hscratch
  obtain ⟨rep, e', hrun, hrep, -⟩ := hruns
  have hsome : ¬ db.bucketKeys.length = 0 := fun h => hbuckets (List.eq_nil_of_length_eq_zero h)
  rw [hoff, runReport, runVisits] at hrep
  refine ⟨rep, e', hrun, fun hrouted => ?_, fun hunrouted => ?_⟩
  · have hroute := (hasRoute_iff hdb hfields).mpr hrouted
    rw [if_neg (by simp [hsome, hroute]), if_neg (fun h => h.2.2 rfl)] at hrep
    refine ⟨_, nodup_firedOf _ _, fun i => ?_, hrep⟩
    rw [mem_firedOf, List.mem_flatMap, ruleAccepts_iff hdb]
    simp only [mem_bucketSel_iff hdb hdistinct hfields]
  · have hroute := mt (hasRoute_iff hdb hfields).mp hunrouted
    rw [if_pos (.inr (by simpa using hroute))] at hrep
    have hruns : Runs (sigmaEvalRunLinear pf db ev maxHits) e _ :=
      sigmaEvalRunLinear_runs hdb hscratch
    obtain ⟨rep', e'', hrun', hrep', -⟩ := hruns
    refine ⟨e'', ?_⟩
    rw [hrun', hrep', hrep]
    rfl

end Selection

/-- An event with `techno` set to `a` and no other field. -/
def sampleEvent : Event := fun name => if name = ascii "techno" then some [97] else none

/-- The theorem at the small artifact, whose bucket is `a`. -/
theorem evaluation_reports_routed_sample :
    ∃ db e rep e', sigmaDbLoadBuffer samplePlatform (sigmaDbSerialize sampleTables) = .ok db ∧
      (sigmaEvalRun samplePlatform db sampleEvent 4).run e = .ok (rep, e') ∧
      ∃ fired : List ℕ, fired.Nodup ∧
        (∀ i, i ∈ fired ↔ (∃ b, RoutedTo db sampleEvent b ∧ i ∈ bucketRules db b) ∧
          RuleAccepted samplePlatform db sampleEvent i) ∧
        rep = reportOf db 4 fired := by
  obtain ⟨db, hload, hsame⟩ := load_sample
  have hbuckets : db.bucketKeys ≠ [] := by
    rw [hsame.bucketKeys]
    exact List.cons_ne_nil _ _
  have hdistinct : (db.bucketKeys.map db.str).Nodup := by
    rw [hsame.bucketKeys]
    exact List.nodup_cons.mpr ⟨List.not_mem_nil, List.nodup_nil⟩
  have hfields : db.fields.length ≤ 65536 := by
    rw [hsame.fields]
    decide
  have hrouted : Routed sampleEvent := ⟨ascii "techno", by decide, [97], by decide, by decide⟩
  obtain ⟨rep, e', hrun, hreport, -⟩ := evaluation_reports_routed hload hbuckets hdistinct hfields
    sampleEvent 4 ⟨[.setPrefilter 0], [none], rfl⟩ rfl
  exact ⟨db, _, rep, e', hload, hrun, hreport hrouted⟩

end LibSigma
