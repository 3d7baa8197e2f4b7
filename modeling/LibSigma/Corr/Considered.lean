import Mathlib.Data.Nat.Log
import LibSigma.Corr.Order
import LibSigma.Corr.Life

/-!
# The rule id index and a full scan

`corr_on_event_apply` walks the index instead of the rules.  The `visited` bytes of its loop say
which correlations it considered.  The size of the index, the positions it holds and the room for
them are numbers of 32 bits.

## The index as a list

The engine of `LibSigma.Corr.Engine` has an index with as many chains as it likes. For that one the
question is easy: the loop considers what the chains hold for the matched ids, each correlation
once, and the chains hold what `corr_rule_hits` says.

## The index in 32 bits

The source doubles a size until it is large enough, `next_pow2`, and the doubling is that of a
`uint32_t`. For more than 2^31 chains the result is 0, and the index has no chain to put an entry
into. The capacity of a watch list doubles as well. `ridIndexNew32` has these sizes, and
`corrEngineNew32` is `corr_engine_new` with them. `Watches` is what the index holds while it is
built: for every rule id the positions that were added, in order. Each addition keeps it if it fits.

`IndexFits` says when all of it fits, in terms of the admitted rules, and the result is an
equivalence: with rules that fit, every event of every run is scanned in full; with others, building
the index or some event fails. Up to 2^29 - 2 admitted rules always fit.

* `corrRuleHits`: whether a scan of all rules would consider a rule.
* `mem_considered`, `nodup_considered`: the index considers what it finds, each once.
* `mem_considered_of_outcome`: only what is considered decides.
* `Watches`: **what the index holds while it is built**.
* `corrEngineNew32_eq`: the engine in 32 bits, for fewer than 2^29 - 1 admitted rules.
* `rid_index_full_scan_iff`: **the index does what a full scan would exactly if it fits 32 bits.**
-/

namespace LibSigma

open Library

/-- `corr_rule_hits`. -/
def corrRuleHits (r : CorrRule) (rids : List UInt32) : Bool :=
  r.baseRuleIds.any fun base => rids.any fun rid => rid == base

theorem corrRuleHits_iff {r : CorrRule} {rids : List UInt32} :
    corrRuleHits r rids = true ↔ ∃ rid ∈ rids, rid ∈ r.baseRuleIds := by
  rw [corrRuleHits, List.any_eq_true]
  constructor
  · rintro ⟨base, hbase, hany⟩
    obtain ⟨rid, hrid, heq⟩ := List.any_eq_true.mp hany
    exact ⟨rid, hrid, beq_iff_eq.mp heq ▸ hbase⟩
  · rintro ⟨rid, hrid, hbase⟩
    exact ⟨rid, hbase, List.any_eq_true.mpr ⟨rid, hrid, beq_self_eq_true rid⟩⟩

/-! ## The loop

The loop of `corr_on_event_apply` goes over the matched ids and, for each, over the correlations
that watch it.  A correlation that was visited is passed over.  What it considers are thus the first
entries, and what it does at each is in `LibSigma.Corr.Order`. -/

section Loop

variable (fp : Doubles) (e : CorrEngine) (ev : CorrEvent)
  (apply : Option (CorrRule → List CStr → Bool))

/-- The state that the loop of `corr_on_event_apply` leaves. -/
def visitState : VisitState :=
  (ev.rids.flatMap fun rid => (ridIndexFind (e.sweepIfDue ev.ts).ridBuckets rid).map (rid, ·)).foldl
    (visitStep fp (e.sweepIfDue ev.ts).caps ev apply) ⟨(e.sweepIfDue ev.ts).states, [], [], []⟩

/-- The correlations that `corr_on_event_apply` considers: one entry each time its loop gets past
the `visited` byte. -/
def considered : List ℕ :=
  if e.states.length = 0 ∨ ev.rids.length = 0 then [] else (visitState fp e ev apply).visited

theorem corrOnEventApply_eq (h : ¬ (e.states.length = 0 ∨ ev.rids.length = 0)) :
    corrOnEventApply fp e ev apply =
      ({ e.sweepIfDue ev.ts with states := (visitState fp e ev apply).states }.inc
        (visitState fp e ev apply).incs, (visitState fp e ev apply).outcomes) := by
  rw [corrOnEventApply, if_neg h]
  rfl

variable {fp e ev apply}

/-- The loop considers the first entry of each correlation. -/
theorem visited_foldl {caps : CorrCaps} (ps : List (UInt32 × ℕ)) (acc : VisitState) :
    (ps.foldl (visitStep fp caps ev apply) acc).visited =
      ((firstEntries ps acc.visited).map Prod.snd).reverse ++ acc.visited := by
  induction ps generalizing acc with
  | nil => rfl
  | cons p ps ih =>
    rw [List.foldl_cons, ih, firstEntries]
    by_cases hmem : p.2 ∈ acc.visited
    · have hstep : visitStep fp caps ev apply acc p = acc := by
        rw [visitStep, if_pos hmem]
      rw [hstep, if_pos hmem]
    · rw [(visitStep_gain fp caps ev apply hmem).1, if_neg hmem, List.map_cons,
        List.reverse_cons, List.append_assoc, List.singleton_append]

/-- Only a considered correlation decides. -/
theorem mem_visited_of_outcome {caps : CorrCaps} (ps : List (UInt32 × ℕ)) {acc : VisitState}
    (h : ∀ o ∈ acc.outcomes, o.corr ∈ acc.visited) :
    ∀ o ∈ (ps.foldl (visitStep fp caps ev apply) acc).outcomes,
      o.corr ∈ (ps.foldl (visitStep fp caps ev apply) acc).visited := by
  induction ps generalizing acc with
  | nil => exact h
  | cons p ps ih =>
    refine ih ?_
    have hold : ∀ o ∈ acc.outcomes, o.corr ∈ p.2 :: acc.visited := fun o ho =>
      List.mem_cons_of_mem _ (h o ho)
    unfold visitStep
    by_cases hmem : p.2 ∈ acc.visited
    · rw [if_pos hmem]
      exact h
    · rw [if_neg hmem]
      dsimp only
      split
      · exact hold
      · split
        · exact hold
        · split
          · intro o ho
            rcases List.mem_append.mp ho with ho | ho
            · exact hold o ho
            · rw [List.mem_singleton.mp ho]
              exact List.mem_cons_self
          · exact hold

theorem mem_considered_of_outcome {o : CorrOutcome}
    (h : o ∈ (corrOnEventApply fp e ev apply).2) : o.corr ∈ considered fp e ev apply := by
  by_cases hempty : e.states.length = 0 ∨ ev.rids.length = 0
  · rw [corrOnEventApply, if_pos hempty] at h
    exact absurd h List.not_mem_nil
  · rw [corrOnEventApply_eq fp e ev apply hempty] at h
    rw [considered, if_neg hempty]
    exact mem_visited_of_outcome _ (fun o ho => absurd ho List.not_mem_nil) o h

theorem nodup_considered : (considered fp e ev apply).Nodup := by
  unfold considered
  split
  · exact .nil
  · rw [visitState, visited_foldl, List.append_nil, List.nodup_reverse]
    exact nodup_firstEntries _ _

/-- **The loop considers what the index finds.** -/
theorem mem_considered {ci : ℕ} : ci ∈ considered fp e ev apply ↔
    e.states.length ≠ 0 ∧ ∃ rid ∈ ev.rids, ci ∈ ridIndexFind e.ridBuckets rid := by
  by_cases hempty : e.states.length = 0 ∨ ev.rids.length = 0
  · rw [considered, if_pos hempty]
    refine ⟨fun hci => absurd hci List.not_mem_nil, ?_⟩
    rintro ⟨hstates, rid, hrid, -⟩
    rcases hempty with hlen | hlen
    · exact absurd hlen hstates
    · rw [List.length_eq_zero_iff.mp hlen] at hrid
      exact absurd hrid List.not_mem_nil
  · rw [considered, if_neg hempty, visitState, visited_foldl, List.append_nil, List.mem_reverse,
      mem_map_snd_firstEntries, and_iff_left List.not_mem_nil,
      and_iff_right fun hlen => hempty (Or.inl hlen)]
    simp only [List.map_flatMap, List.map_map, Function.comp_def, List.map_id', List.mem_flatMap,
      sweepIfDue_ridBuckets]

end Loop

/-! ## Calls -/

section Calls

variable (fp : Doubles)

/-- Two engines with one index and as many correlations. -/
structure SameIndex (e e' : CorrEngine) : Prop where
  index : e'.ridBuckets = e.ridBuckets
  length : e'.states.length = e.states.length

theorem SameIndex.trans {e e' e'' : CorrEngine} (h : SameIndex e e') (h' : SameIndex e' e'') :
    SameIndex e e'' := ⟨h'.index.trans h.index, h'.length.trans h.length⟩

theorem sameIndex_sweepIfDue (e : CorrEngine) (now : ℚ) : SameIndex e (e.sweepIfDue now) := by
  refine ⟨sweepIfDue_ridBuckets e now, ?_⟩
  rcases sweepIfDue_states e now with heq | heq
  · rw [heq]
  · rw [heq, List.length_map]

theorem sameIndex_corrOnEventApply (e : CorrEngine) (ev : CorrEvent)
    (apply : Option (CorrRule → List CStr → Bool)) :
    SameIndex e (corrOnEventApply fp e ev apply).1 := by
  by_cases hempty : e.states.length = 0 ∨ ev.rids.length = 0
  · rw [corrOnEventApply, if_pos hempty]
    exact ⟨rfl, rfl⟩
  · rw [corrOnEventApply_eq fp e ev apply hempty]
    exact (sameIndex_sweepIfDue e ev.ts).trans ⟨rfl, length_visitFold fp _ _ _ _ _⟩

/-- A call leaves the index alone. -/
theorem sameIndex_corrCall (e : CorrEngine) (c : CorrCall) :
    SameIndex e (corrCall fp e c).1 := by
  cases c with
  | event ev apply => exact sameIndex_corrOnEventApply fp e ev apply
  | contribution c field =>
    rw [corrCall, corrOnContribution]
    have hsweep := sameIndex_sweepIfDue e c.ts
    split
    · exact sameIndex_corrOnEventApply fp e _ none
    · split
      · exact ⟨rfl, rfl⟩
      · exact ⟨rfl, rfl⟩
      · dsimp only
        split
        · exact hsweep
        · split
          · exact hsweep
          · split
            · exact hsweep.trans ⟨rfl, rfl⟩
            · split
              · exact hsweep.trans ⟨rfl, rfl⟩
              · exact hsweep.trans ⟨rfl, List.length_set⟩

/-- Calls leave the index alone. -/
theorem sameIndex_corrRun (e : CorrEngine) (cs : List CorrCall) :
    SameIndex e (corrRun fp e cs) := by
  induction cs generalizing e with
  | nil => exact ⟨rfl, rfl⟩
  | cons c cs ih => exact (sameIndex_corrCall fp e c).trans (ih _)

end Calls

/-! ## The index in 32 bits

Sizes, positions and capacities of the index are 32-bit numbers, and each of them may wrap when
there are very many rules.  The engine of the other modules has the index with natural numbers.
Here it is built with the widths, and is compared with that one.  An index that cannot be built
stands for a constructor that fails or writes where it must not. -/

/-- `next_pow2`. -/
def nextPow2U32 (v : UInt32) : UInt32 :=
  if v < 8 then 8
  else
    let v := v - 1
    let v := v ||| v >>> 1
    let v := v ||| v >>> 2
    let v := v ||| v >>> 4
    let v := v ||| v >>> 8
    let v := v ||| v >>> 16
    v + 1

/-- `w->cap` of a watch of `n` correlations: 4, doubled as often as it was too small. -/
def watchCap (n : ℕ) : ℕ := if n ≤ 4 then 4 else 2 ^ Nat.clog 2 n

/-- `rid_index_add`.  Nothing comes of it where there is no chain at all, so that the one of the rule
id lies outside of the index, and where the capacity of a full watch doubles to 0, so that `realloc`
frees it. -/
def ridIndexAdd32 (index : List (List RidWatch)) (rid : UInt32) (ci : ℕ) :
    Option (List (List RidWatch)) :=
  let cis := ridIndexFind index rid
  if index.length = 0 then none
  else if ci ∉ cis ∧ cis.length = watchCap cis.length ∧ 2 * watchCap cis.length % 2 ^ 32 = 0 then none
  else some (ridIndexAdd index rid ci)

/-- The base rules of the admitted rules, each with the position of its rule as it is stored. -/
def indexEntries (rs : List CorrRule) : List (UInt32 × ℕ) :=
  rs.zipIdx.flatMap fun p => p.1.baseRuleIds.map (·, p.2 % 2 ^ 32)

/-- The index that `corr_engine_new` builds for the rules it admitted. -/
def ridIndexNew32 (rs : List CorrRule) : Option (List (List RidWatch)) :=
  (indexEntries rs).foldlM (fun index p => ridIndexAdd32 index p.1 p.2)
    (List.replicate (nextPow2U32 (UInt32.ofNat (rs.length * 4 + 8))).toNat [])

/-- `corr_engine_new`, with the index in 32 bits. -/
def corrEngineNew32 (rules : List CorrRule) (caps : CorrCaps) : Option CorrEngine :=
  (ridIndexNew32 (admittedRules rules)).map fun index =>
    { corrEngineNew rules caps with ridBuckets := index }

/-! ### Its size

The next power of two is computed by spreading bits downwards and adding one, in 32 bits. -/

/-- One step of `next_pow2`: bits that are set spread downwards. -/
theorem testBit_or_shiftRight {x lo : ℕ} (k : ℕ) (hk : lo + k ≤ 32)
    (h : ∀ i, lo ≤ i → i < 32 → x.testBit i = true) (i : ℕ) (hlo : lo - k ≤ i) (hi : i < 32) :
    (x ||| x >>> k).testBit i = true := by
  rw [Nat.testBit_or, Nat.testBit_shiftRight, Bool.or_eq_true]
  rcases Nat.lt_or_ge i lo with hlt | hge
  · exact Or.inr (h _ (by omega) (by omega))
  · exact Or.inl (h i hge hi)

/-- One more than 32 set bits is 0. -/
theorem succ_mod_of_testBit {x : ℕ} (hx : x < 2 ^ 32)
    (h : ∀ i, 0 ≤ i → i < 32 → x.testBit i = true) : (x + 1) % 2 ^ 32 = 0 := by
  have hones : x = 2 ^ 32 - 1 := by
    refine Nat.eq_of_testBit_eq fun i => ?_
    rw [Nat.testBit_two_pow_sub_one]
    by_cases hi : i < 32
    · rw [h i (Nat.zero_le i) hi, decide_eq_true hi]
    · rw [decide_eq_false hi]
      exact Nat.testBit_lt_two_pow (lt_of_lt_of_le hx (Nat.pow_le_pow_right (by decide) (by omega)))
  omega

/-- Up to 2^31 the size in 32 bits is the size. -/
theorem toNat_nextPow2U32 {v : UInt32} (hv : v.toNat ≤ 2 ^ 31) :
    (nextPow2U32 v).toNat = nextPow2 v.toNat := by
  have hstep : ∀ {a : ℕ} (k : ℕ), a < 2 ^ 31 → a ||| a >>> k < 2 ^ 31 := fun k ha =>
    Nat.or_lt_two_pow ha (lt_of_le_of_lt (Nat.shiftRight_le _ k) ha)
  unfold nextPow2U32 nextPow2
  by_cases hsmall : v < 8
  · have hlt : v.toNat < 8 := UInt32.lt_iff_toNat_lt.mp hsmall
    rw [if_pos hsmall, if_pos hlt]
    rfl
  · have hle : 8 ≤ v.toNat := not_lt.mp fun hlt => hsmall (UInt32.lt_iff_toNat_lt.mpr hlt)
    have hpred : (v - 1).toNat = v.toNat - 1 :=
      UInt32.toNat_sub_of_le _ _ (UInt32.le_iff_toNat_le.mpr (by simpa using by omega))
    have hlt : v.toNat - 1 < 2 ^ 31 := by omega
    rw [if_neg hsmall, if_neg (not_lt.mpr hle)]
    have hbound := hstep 16 (hstep 8 (hstep 4 (hstep 2 (hstep 1 hlt))))
    simp only [UInt32.toNat_add, UInt32.toNat_or, UInt32.toNat_shiftRight, hpred]
    exact Nat.mod_eq_of_lt (lt_trans (Nat.succ_lt_succ hbound) (by decide))

/-- **Beyond 2^31 the size in 32 bits is 0.** -/
theorem nextPow2U32_eq_zero_iff {v : UInt32} : (nextPow2U32 v).toNat = 0 ↔ 2 ^ 31 < v.toNat := by
  constructor
  · intro hzero
    by_contra hle
    rw [toNat_nextPow2U32 (not_lt.mp hle)] at hzero
    exact absurd hzero (nextPow2_pos _).ne'
  · intro hlt
    have hv := v.toNat_lt
    have hsmall : ¬ v < 8 := fun h => by
      have h8 : v.toNat < 8 := UInt32.lt_iff_toNat_lt.mp h
      omega
    have hpred : (v - 1).toNat = v.toNat - 1 :=
      UInt32.toNat_sub_of_le _ _ (UInt32.le_iff_toNat_le.mpr (by simpa using by omega))
    -- the highest bit of v - 1 is set, and each step doubles the bits below it
    have hbit : ∀ i, 31 ≤ i → i < 32 → (v.toNat - 1).testBit i = true := fun i hlo hi => by
      obtain rfl : i = 31 := by omega
      exact Nat.testBit_of_two_pow_le_and_two_pow_add_one_gt (by omega) (by omega)
    have hall := testBit_or_shiftRight 16 (by omega) <| testBit_or_shiftRight 8 (by omega) <|
      testBit_or_shiftRight 4 (by omega) <| testBit_or_shiftRight 2 (by omega) <|
      testBit_or_shiftRight 1 (by omega) hbit
    rw [nextPow2U32, if_neg hsmall]
    simp only [UInt32.toNat_add, UInt32.toNat_or, UInt32.toNat_shiftRight, hpred]
    have hor : ∀ {a : ℕ} (k : ℕ), a < 2 ^ 32 → a ||| a >>> k < 2 ^ 32 := fun k ha =>
      Nat.or_lt_two_pow ha (lt_of_le_of_lt (Nat.shiftRight_le _ k) ha)
    exact succ_mod_of_testBit (hor 16 (hor 8 (hor 4 (hor 2 (hor 1 (by omega)))))) hall

/-! ### Its watches -/

/-- A full watch has no room for a larger capacity exactly when it holds 2^31 correlations. -/
theorem watchCap_wraps_iff {n : ℕ} (hn : n ≤ 2 ^ 31) :
    n = watchCap n ∧ 2 * watchCap n % 2 ^ 32 = 0 ↔ n = 2 ^ 31 := by
  constructor
  · rintro ⟨hfull, hzero⟩
    have hpos : n ≠ 0 := fun h0 => by
      rw [h0] at hfull
      exact absurd hfull (by decide)
    rw [← hfull] at hzero
    omega
  · rintro rfl
    have hcap : watchCap (2 ^ 31) = 2 ^ 31 := by
      rw [watchCap, if_neg (by decide), Nat.clog_pow 2 31 (by decide)]
    exact ⟨hcap.symm, by rw [hcap]; decide⟩

/-- What the index holds after some entries were added to it. -/
structure Watches (index : List (List RidWatch)) (ps : List (UInt32 × ℕ)) : Prop where
  mem : ∀ rid c, c ∈ ridIndexFind index rid ↔ (rid, c) ∈ ps
  nodup : ∀ rid, (ridIndexFind index rid).Nodup
  short : ∀ rid, (ridIndexFind index rid).length ≤ 2 ^ 31

theorem watches_replicate (n : ℕ) : Watches (List.replicate n []) [] where
  mem rid c := by simp [ridIndexFind_replicate]
  nodup rid := ridIndexFind_replicate n rid ▸ .nil
  short rid := by
    rw [ridIndexFind_replicate]
    exact Nat.zero_le _

section Build

variable {index index' : List (List RidWatch)} {ps : List (UInt32 × ℕ)}

/-- An entry is added if there are chains and, if it is new, its watch is not full. -/
theorem Watches.add_eq_some_iff (h : Watches index ps) (rid : UInt32) (ci : ℕ) :
    ridIndexAdd32 index rid ci = some index' ↔
      0 < index.length ∧ ¬ (ci ∉ ridIndexFind index rid ∧ (ridIndexFind index rid).length = 2 ^ 31) ∧
        index' = ridIndexAdd index rid ci := by
  rw [ridIndexAdd32]
  simp only [watchCap_wraps_iff (h.short rid)]
  by_cases hzero : index.length = 0
  · rw [if_pos hzero]
    exact ⟨fun hsome => absurd hsome (Option.some_ne_none _).symm, fun hall => by omega⟩
  · rw [if_neg hzero, and_iff_right (Nat.pos_of_ne_zero hzero)]
    by_cases hfull : ci ∉ ridIndexFind index rid ∧ (ridIndexFind index rid).length = 2 ^ 31
    · rw [if_pos hfull]
      exact ⟨fun hsome => absurd hsome (Option.some_ne_none _).symm, fun hall => absurd hfull hall.1⟩
    · rw [if_neg hfull, and_iff_right hfull, Option.some.injEq]
      exact eq_comm

/-- **Adding an entry.** -/
theorem Watches.add (h : Watches index ps) {rid : UInt32} {ci : ℕ}
    (hadd : ridIndexAdd32 index rid ci = some index') :
    Watches index' (ps ++ [(rid, ci)]) ∧ 0 < index.length ∧ index'.length = index.length := by
  obtain ⟨hpos, hroom, rfl⟩ := (h.add_eq_some_iff rid ci).mp hadd
  refine ⟨⟨fun rid' c => ?_, fun rid' => ?_, fun rid' => ?_⟩, hpos, length_ridIndexAdd _ _ _⟩
  · rw [mem_ridIndexFind_add hpos, h.mem, List.mem_append, List.mem_singleton, Prod.mk.injEq]
  · rw [ridIndexFind_add hpos]
    split
    · unfold watchAdd
      split
      · exact h.nodup rid
      · rename_i hnew
        exact List.nodup_append.mpr ⟨h.nodup rid, List.nodup_singleton ci, fun a ha b hb heq => hnew
          (by rwa [← List.mem_singleton.mp hb, ← heq])⟩
    · exact h.nodup rid'
  · rw [ridIndexFind_add hpos]
    split
    · unfold watchAdd
      split
      · exact h.short rid
      · rename_i hnew
        have hne : (ridIndexFind index rid).length ≠ 2 ^ 31 := fun heq => hroom ⟨hnew, heq⟩
        have hle := h.short rid
        rw [List.length_append, List.length_singleton]
        omega
    · exact h.short rid'

/-- **Adding entries.** -/
theorem Watches.foldlM {qs : List (UInt32 × ℕ)} (h : Watches index ps)
    (hadd : qs.foldlM (fun index p => ridIndexAdd32 index p.1 p.2) index = some index') :
    Watches index' (ps ++ qs) ∧ (qs ≠ [] → 0 < index.length) ∧ index'.length = index.length := by
  induction qs generalizing index ps with
  | nil =>
    cases hadd
    rw [List.append_nil]
    exact ⟨h, fun hne => absurd rfl hne, rfl⟩
  | cons q qs ih =>
    rw [List.foldlM_cons] at hadd
    obtain ⟨index₁, hfirst, hrest⟩ := Option.bind_eq_some_iff.mp hadd
    obtain ⟨hwatches, hpos, hlen⟩ := h.add hfirst
    obtain ⟨hwatches', -, hlen'⟩ := ih hwatches hrest
    rw [List.append_assoc, List.singleton_append] at hwatches'
    exact ⟨hwatches', fun _ => hpos, hlen'.trans hlen⟩

/-- **Entries that fit can be added**, one after the other. -/
theorem Watches.exists_foldlM {qs : List (UInt32 × ℕ)} (h : Watches index ps) (hpos : 0 < index.length)
    (hfit : ∀ rid (cis : List ℕ), cis.Nodup → (∀ ci ∈ cis, (rid, ci) ∈ ps ++ qs) →
      cis.length ≤ 2 ^ 31) :
    qs.foldlM (fun index p => ridIndexAdd32 index p.1 p.2) index =
      some (qs.foldl (fun index p => ridIndexAdd index p.1 p.2) index) := by
  induction qs generalizing index ps with
  | nil => rfl
  | cons q qs ih =>
    obtain ⟨rid, ci⟩ := q
    have hroom : ¬ (ci ∉ ridIndexFind index rid ∧ (ridIndexFind index rid).length = 2 ^ 31) := by
      rintro ⟨hnew, hlen⟩
      have hle := hfit rid (ci :: ridIndexFind index rid) (List.nodup_cons.mpr ⟨hnew, h.nodup rid⟩)
        fun c hc => by
          rcases List.mem_cons.mp hc with rfl | hc
          · exact List.mem_append_right _ List.mem_cons_self
          · exact List.mem_append_left _ ((h.mem rid c).mp hc)
      rw [List.length_cons, hlen] at hle
      omega
    have hadd := (h.add_eq_some_iff rid ci).mpr ⟨hpos, hroom, rfl⟩
    obtain ⟨hwatches, -, hlen⟩ := h.add hadd
    rw [List.foldlM_cons, hadd, List.foldl_cons]
    refine ih hwatches (hlen ▸ hpos) ?_
    rwa [List.append_assoc, List.singleton_append]

end Build

/-! ### The engine

From the parts to the engine: the rules that fit are those for which the size, the positions and the
capacity of every watch fit, and for these the two engines are one. -/

theorem mem_indexEntries {rs : List CorrRule} {rid : UInt32} {c : ℕ} :
    (rid, c) ∈ indexEntries rs ↔
      ∃ i r, rs[i]? = some r ∧ rid ∈ r.baseRuleIds ∧ i % 2 ^ 32 = c := by
  rw [indexEntries, List.mem_flatMap]
  constructor
  · rintro ⟨⟨r, i⟩, hp, hmem⟩
    obtain ⟨rid', hrid, heq⟩ := List.mem_map.mp hmem
    obtain ⟨rfl, hc⟩ := Prod.mk.injEq .. ▸ heq
    exact ⟨i, r, List.mem_zipIdx_iff_getElem?.mp hp, hrid, hc⟩
  · rintro ⟨i, r, hr, hrid, rfl⟩
    exact ⟨(r, i), List.mem_zipIdx_iff_getElem?.mpr hr, List.mem_map.mpr ⟨rid, hrid, rfl⟩⟩

/-- The rules with a base rule. -/
def watchers (rs : List CorrRule) (rid : UInt32) : List ℕ :=
  (List.range rs.length).filter fun i => (rs[i]?).any fun r => decide (rid ∈ r.baseRuleIds)

theorem mem_watchers {rs : List CorrRule} {rid : UInt32} {i : ℕ} :
    i ∈ watchers rs rid ↔ ∃ r, rs[i]? = some r ∧ rid ∈ r.baseRuleIds := by
  rw [watchers, List.mem_filter, List.mem_range, Option.any_eq_true]
  constructor
  · rintro ⟨-, r, hr, hrid⟩
    exact ⟨r, hr, of_decide_eq_true hrid⟩
  · rintro ⟨r, hr, hrid⟩
    exact ⟨(List.getElem?_eq_some_iff.mp hr).1, r, hr, decide_eq_true hrid⟩

theorem nodup_watchers (rs : List CorrRule) (rid : UInt32) : (watchers rs rid).Nodup :=
  List.nodup_range.filter _

/-- The admitted rules fit the 32 bits of the index: its size, the positions it stores, and the
capacity of its watches. -/
structure IndexFits (rs : List CorrRule) : Prop where
  size : (rs.length * 4 + 8) % 2 ^ 32 ≤ 2 ^ 31
  positions : rs.length ≤ 2 ^ 32
  watchers : ∀ rid, (watchers rs rid).length ≤ 2 ^ 31

/-- An index without chains is built for no rules only. -/
theorem size_pos_iff (n : ℕ) :
    0 < (nextPow2U32 (UInt32.ofNat (n * 4 + 8))).toNat ↔ (n * 4 + 8) % 2 ^ 32 ≤ 2 ^ 31 := by
  rw [Nat.pos_iff_ne_zero, ne_eq, nextPow2U32_eq_zero_iff, UInt32.toNat_ofNat', not_lt]

/-- **The index is built for rules that fit.** -/
theorem ridIndexNew32_eq {rs : List CorrRule} (h : IndexFits rs) :
    ridIndexNew32 rs = some ((indexEntries rs).foldl (fun index p => ridIndexAdd index p.1 p.2)
      (List.replicate (nextPow2U32 (UInt32.ofNat (rs.length * 4 + 8))).toNat [])) := by
  refine (watches_replicate _).exists_foldlM ?_ fun rid cis hnodup hcis => ?_
  · rw [List.length_replicate]
    exact (size_pos_iff _).mpr h.size
  · refine le_trans (List.Subperm.length_le (hnodup.subperm fun c hc => ?_)) (h.watchers rid)
    obtain ⟨i, r, hr, hrid, rfl⟩ := mem_indexEntries.mp (hcis c hc)
    have hlt : i < rs.length := (List.getElem?_eq_some_iff.mp hr).1
    rw [Nat.mod_eq_of_lt (lt_of_lt_of_le hlt h.positions)]
    exact mem_watchers.mpr ⟨r, hr, hrid⟩

/-- **Up to 2^29 - 2 admitted rules** the engine in 32 bits is the engine. -/
theorem corrEngineNew32_eq {rules : List CorrRule} (caps : CorrCaps)
    (hfew : (admittedRules rules).length < 2 ^ 29 - 1) :
    corrEngineNew32 rules caps = some (corrEngineNew rules caps) := by
  have hwatchers : ∀ rid, (watchers (admittedRules rules) rid).length ≤ 2 ^ 31 := fun rid => by
    have hle := List.length_filter_le (fun i => ((admittedRules rules)[i]?).any fun r =>
      decide (rid ∈ r.baseRuleIds)) (List.range (admittedRules rules).length)
    rw [List.length_range] at hle
    exact le_trans hle (by omega)
  have hentries : indexEntries (admittedRules rules) =
      (admittedRules rules).zipIdx.flatMap fun p => p.1.baseRuleIds.map (·, p.2) := by
    refine List.flatMap_congr fun p hp => ?_
    have hlt := (List.getElem?_eq_some_iff.mp (List.mem_zipIdx_iff_getElem?.mp hp)).1
    rw [Nat.mod_eq_of_lt (by omega)]
  rw [corrEngineNew32, ridIndexNew32_eq ⟨by omega, by omega, hwatchers⟩, hentries,
    List.foldl_flatMap, Option.map_some, toNat_nextPow2U32, UInt32.toNat_ofNat', Nat.mod_eq_of_lt]
  · simp only [List.foldl_map]
    rfl
  · omega
  · rw [UInt32.toNat_ofNat', Nat.mod_eq_of_lt] <;> omega

/-- An engine whose index does what a full scan would: after any calls, an event considers each
admitted rule that it hits once, no other, and each of them with hits. -/
def ScansFully (fp : Doubles) (rules : List CorrRule) (e : CorrEngine) : Prop :=
  ∀ (cs : List CorrCall) (ev : CorrEvent) (apply : Option (CorrRule → List CStr → Bool)),
    (∀ ci r, (admittedRules rules)[ci]? = some r →
      (considered fp (corrRun fp e cs) ev apply).count ci =
        if corrRuleHits r ev.rids then 1 else 0) ∧
    ∀ ci ∈ considered fp (corrRun fp e cs) ev apply,
      ∃ r, (admittedRules rules)[ci]? = some r ∧ hitBuf r ev.rids ≠ []

section Scan

variable {fp : Doubles} {rules : List CorrRule} {caps : CorrCaps} {e : CorrEngine}

/-- What an engine considers, by the rules it was built from. -/
theorem mem_considered_new32 (hnew : corrEngineNew32 rules caps = some e) (cs : List CorrCall)
    (ev : CorrEvent) (apply : Option (CorrRule → List CStr → Bool)) (c : ℕ) :
    c ∈ considered fp (corrRun fp e cs) ev apply ↔
      ∃ i r, (admittedRules rules)[i]? = some r ∧ corrRuleHits r ev.rids = true ∧ i % 2 ^ 32 = c := by
  obtain ⟨index, hindex, rfl⟩ := Option.map_eq_some_iff.mp hnew
  obtain ⟨hwatches, -, -⟩ := (watches_replicate _).foldlM hindex
  have hsame := sameIndex_corrRun fp { corrEngineNew rules caps with ridBuckets := index } cs
  rw [mem_considered, hsame.index, hsame.length]
  simp only [hwatches.mem, List.nil_append, mem_indexEntries, corrRuleHits_iff]
  constructor
  · rintro ⟨-, rid, hrid, i, r, hr, hbase, hc⟩
    exact ⟨i, r, hr, ⟨rid, hrid, hbase⟩, hc⟩
  · rintro ⟨i, r, hr, ⟨rid, hrid, hbase⟩, hc⟩
    have hlt := (List.getElem?_eq_some_iff.mp hr).1
    refine ⟨?_, rid, hrid, i, r, hr, hbase, hc⟩
    have hlen : (corrEngineNew rules caps).states.length = (admittedRules rules).length := by
      rw [← (engineOk_new rules caps).states, List.length_map]
    show (corrEngineNew rules caps).states.length ≠ 0
    omega

/-- **Rules that fit** are scanned. -/
theorem scansFully_of_fits (hfits : IndexFits (admittedRules rules))
    (hnew : corrEngineNew32 rules caps = some e) : ScansFully fp rules e := by
  intro cs ev apply
  have hmem : ∀ c, c ∈ considered fp (corrRun fp e cs) ev apply ↔
      ∃ r, (admittedRules rules)[c]? = some r ∧ corrRuleHits r ev.rids = true := by
    intro c
    rw [mem_considered_new32 hnew]
    constructor
    · rintro ⟨i, r, hr, hhits, rfl⟩
      have hlt := (List.getElem?_eq_some_iff.mp hr).1
      rw [Nat.mod_eq_of_lt (lt_of_lt_of_le hlt hfits.positions)]
      exact ⟨r, hr, hhits⟩
    · rintro ⟨r, hr, hhits⟩
      have hlt := (List.getElem?_eq_some_iff.mp hr).1
      exact ⟨c, r, hr, hhits, Nat.mod_eq_of_lt (lt_of_lt_of_le hlt hfits.positions)⟩
  refine ⟨fun ci r hr => ?_, fun ci hci => ?_⟩
  · by_cases hhits : corrRuleHits r ev.rids = true
    · rw [if_pos hhits]
      exact List.count_eq_one_of_mem nodup_considered ((hmem ci).mpr ⟨r, hr, hhits⟩)
    · rw [if_neg hhits]
      refine List.count_eq_zero_of_not_mem fun hci => hhits ?_
      obtain ⟨r', hr', hhits'⟩ := (hmem ci).mp hci
      cases hr.symm.trans hr'
      exact hhits'
  · obtain ⟨r, hr, hhits⟩ := (hmem ci).mp hci
    obtain ⟨rid, hrid, hbase⟩ := corrRuleHits_iff.mp hhits
    exact ⟨r, hr, hitBuf_ne_nil hrid hbase⟩

/-- The index of rules that do not fit is not built, or misses one. -/
theorem fits_of_scansFully (hnew : corrEngineNew32 rules caps = some e)
    (hscans : ScansFully fp rules e) : IndexFits (admittedRules rules) := by
  obtain ⟨index, hindex, -⟩ := Option.map_eq_some_iff.mp hnew
  obtain ⟨hwatches, hpos, -⟩ := (watches_replicate _).foldlM hindex
  rw [List.nil_append] at hwatches
  have hbase : ∀ {i : ℕ} {r : CorrRule}, (admittedRules rules)[i]? = some r →
      ∃ rid, rid ∈ r.baseRuleIds := fun hr =>
    List.exists_mem_of_ne_nil _ (baseRuleIds_ne_nil (ruleValid_of_admitted hr))
  have hpositions : (admittedRules rules).length ≤ 2 ^ 32 := by
    by_contra hlong
    obtain ⟨r, hr⟩ : ∃ r, (admittedRules rules)[2 ^ 32]? = some r :=
      ⟨_, List.getElem?_eq_getElem (not_le.mp hlong)⟩
    obtain ⟨rid, hrid⟩ := hbase hr
    have hhits : corrRuleHits r [rid] = true :=
      corrRuleHits_iff.mpr ⟨rid, List.mem_singleton_self rid, hrid⟩
    -- an event with a base rule of the first rule whose position is stored as another one
    have hcount := (hscans [] ⟨[rid], fun _ => none, 0⟩ none).1 _ r hr
    rw [if_pos hhits] at hcount
    have hconsidered := List.count_pos_iff.mp (hcount ▸ Nat.one_pos)
    obtain ⟨i, -, -, -, hi⟩ := (mem_considered_new32 hnew _ _ _ _).mp hconsidered
    omega
  refine ⟨?_, hpositions, fun rid => ?_⟩
  · by_cases hnil : indexEntries (admittedRules rules) = []
    · cases hrules : (admittedRules rules)[0]? with
      | none =>
        rw [List.getElem?_eq_none_iff] at hrules
        omega
      | some r =>
        obtain ⟨rid, hrid⟩ := hbase hrules
        have hmem := mem_indexEntries.mpr ⟨0, r, hrules, hrid, rfl⟩
        rw [hnil] at hmem
        exact absurd hmem List.not_mem_nil
    · have hlen := hpos hnil
      rw [List.length_replicate] at hlen
      exact (size_pos_iff _).mp hlen
  · refine le_trans (List.Subperm.length_le ((nodup_watchers _ rid).subperm fun i hi => ?_))
      (hwatches.short rid)
    obtain ⟨r, hr, hrid⟩ := mem_watchers.mp hi
    have hlt := (List.getElem?_eq_some_iff.mp hr).1
    rw [hwatches.mem, mem_indexEntries]
    exact ⟨i, r, hr, hrid, Nat.mod_eq_of_lt (lt_of_lt_of_le hlt hpositions)⟩

end Scan

/-- **The index equals a full scan exactly if it fits 32 bits.** -/
theorem rid_index_full_scan_iff (fp : Doubles) (rules : List CorrRule) (caps : CorrCaps) :
    (∃ e, corrEngineNew32 rules caps = some e ∧ ScansFully fp rules e) ↔
      IndexFits (admittedRules rules) := by
  constructor
  · rintro ⟨e, hnew, hscans⟩
    exact fits_of_scansFully hnew hscans
  · intro hfits
    have hnew := congrArg (Option.map fun index => { corrEngineNew rules caps with ridBuckets := index })
      (ridIndexNew32_eq hfits)
    exact ⟨_, hnew, scansFully_of_fits hfits hnew⟩

/-- **An index without chains**: 2^29 - 1 rules make a size of 2^31 + 4, whose next power of two is 0
in 32 bits. -/
theorem rid_index_size_wraps :
    ¬ ∀ (fp : Doubles) (rules : List CorrRule) (caps : CorrCaps),
      ∃ e, corrEngineNew32 rules caps = some e ∧ ScansFully fp rules e := by
  intro hclaim
  obtain ⟨e, hnew, hscans⟩ := hclaim .bare (List.replicate (2 ^ 29 - 1) tripleRule) capsZero
  have hadmitted : admittedRules (List.replicate (2 ^ 29 - 1) tripleRule) =
      List.replicate (2 ^ 29 - 1) tripleRule :=
    List.filter_eq_self.mpr fun r hr => by
      rw [List.eq_of_mem_replicate hr]
      decide
  have hsize := (fits_of_scansFully hnew hscans).size
  rw [hadmitted, List.length_replicate] at hsize
  exact absurd hsize (by decide)

end LibSigma
