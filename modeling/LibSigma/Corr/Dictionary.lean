import LibSigma.Library.LruTable
import LibSigma.Corr.Engine

/-!
# Groups and distinct values as dictionaries

The map of the groups of a correlation and the set of the distinct values of a group are linked
tables.  What their operations return is what they would return on an insertion-ordered dictionary.

## Three levels

The dictionary is the purpose: entries in order of their last use, of which a new one at the cap
takes the place of the first. The linked table is the program: nodes in chains by hash, links
through the nodes in order of use, 32-bit counts, chains that double. Between them stands the map of
the engine, `HashLru`, with the same chains but lists for links. `LibSigma.Library.LruTable` has the
general part, for any keys and values and any hash; here are the three operations that the source
makes, as it makes them.

## Where a table parts from its dictionary

A table doubles its chains when it is three quarters full, and doubling 2^31 chains leaves none. So
a table runs as its dictionary as long as no entry joins too many others (`ChainsFit`). Which joins
a run makes can be read off the dictionary, so the result is an equivalence: it compares the run
with its dictionary, and says when the two agree, without assuming it.

With a cap of at most `3 * 2 ^ 28` this never happens, and the operations are those of the maps of
the engine (`mirrors_cstateGetOrCreate`, `mirrors_cstateDropExpired`, `mirrors_dsetObserve`).
`LibSigma.Corr.Linked` puts them together over a run.

* `implements_groupMap`, `implements_dset`: one operation on a table and on its dictionary.
* `group_apart`: a tuple never touches the group of another one.
* `bounded_maps_refine_iff`: **the tables run as dictionaries exactly as long as their chains fit 32
  bits.**
* `distinct_set_outgrown`: a set that does not.
-/

namespace LibSigma

open Library

/-! ## The operations -/

namespace Library.LruTable

/-- `cstate_get_or_create`. -/
def cstateGetOrCreate (hash : List CStr → UInt64) (maxGroups : UInt32) (evCap : ℕ)
    (vals : List CStr) (st : LruTable (List CStr) Group) :
    Option (LruTable (List CStr) Group × Group × List CorrCounter) :=
  (st.getOrCreate hash maxGroups vals (groupNew evCap)).map fun p =>
    (p.1, p.2.1, if p.2.2 then [.groupsEvicted] else [])

/-- `cstate_drop_expired`. -/
def cstateDropExpired (hash : List CStr → UInt64) (horizon : ℚ) (st : LruTable (List CStr) Group) :
    Option (LruTable (List CStr) Group) :=
  st.dropExpired hash fun g => g.lastUpdate < horizon

/-- `dset_observe`. -/
def dsetObserve (hash : CStr → UInt64) (maxDistinct : UInt32) (val : CStr) (ts windowStart : ℚ)
    (d : LruTable CStr ℚ) : Option (LruTable CStr ℚ × UInt32 × List CorrCounter) :=
  (d.dropExpired hash fun t => t < windowStart).bind fun d =>
    (d.getOrCreate hash maxDistinct val ts).map fun p =>
      (p.1.set hash val ts, p.1.count, if p.2.2 then [.distinctEvicted] else [])

end Library.LruTable

/-- An operation on the map of the groups of a correlation; `use` is what the caller does to the
group it gets. -/
inductive GroupMapOp where
  | getOrCreate (vals : List CStr) (use : Group → Group)
  | dropExpired (horizon : ℚ)

/-- An operation on the groups, with the group it gives and the counters it raises. -/
def GroupMapOp.step (hash : List CStr → UInt64) (maxGroups : UInt32) (evCap : ℕ)
    (st : LruTable (List CStr) Group) :
    GroupMapOp → Option (LruTable (List CStr) Group × Option (Group × List CorrCounter))
  | .getOrCreate vals use => (st.cstateGetOrCreate hash maxGroups evCap vals).map fun p =>
      (p.1.set hash vals (use p.2.1), some p.2)
  | .dropExpired horizon => (st.cstateDropExpired hash horizon).map fun st' => (st', none)

/-- The same on a dictionary. -/
def GroupMapOp.dict (maxGroups : UInt32) (evCap : ℕ) (d : List (List CStr × Group)) :
    GroupMapOp → List (List CStr × Group) × Option (Group × List CorrCounter)
  | .getOrCreate vals use =>
    let u := dictUse maxGroups.toNat vals (groupNew evCap) use d
    (u.1, some (u.2.1, if u.2.2 then [.groupsEvicted] else []))
  | .dropExpired horizon => (dictExpire (fun g => g.lastUpdate < horizon) d, none)

/-- How many groups a new tuple joins. -/
def GroupMapOp.joins (maxGroups : UInt32) (d : List (List CStr × Group)) : GroupMapOp → List ℕ
  | .getOrCreate vals _ => dictJoins maxGroups.toNat vals d
  | .dropExpired _ => []

/-- An observation of a value. -/
structure DsetOp where
  val : CStr
  ts : ℚ
  windowStart : ℚ

/-- An observation, with the number of distinct values it returns and the counters it raises. -/
def DsetOp.step (hash : CStr → UInt64) (maxDistinct : UInt32) (d : LruTable CStr ℚ) (op : DsetOp) :
    Option (LruTable CStr ℚ × ℕ × List CorrCounter) :=
  (d.dsetObserve hash maxDistinct op.val op.ts op.windowStart).map fun p => (p.1, p.2.1.toNat, p.2.2)

/-- The same on a dictionary. -/
def DsetOp.dict (maxDistinct : UInt32) (d : List (CStr × ℚ)) (op : DsetOp) :
    List (CStr × ℚ) × ℕ × List CorrCounter :=
  let u := dictUse maxDistinct.toNat op.val op.ts (fun _ => op.ts)
    (dictExpire (fun t => t < op.windowStart) d)
  (u.1, u.1.length, if u.2.2 then [.distinctEvicted] else [])

/-- How many values a new one joins. -/
def DsetOp.joins (maxDistinct : UInt32) (d : List (CStr × ℚ)) (op : DsetOp) : List ℕ :=
  dictJoins maxDistinct.toNat op.val (dictExpire (fun t => t < op.windowStart) d)

/-! ## The maps of the engine -/

section Maps

open LruTable

/-- With a small cap, a group is found or made as in the map of the engine. -/
theorem mirrors_cstateGetOrCreate {st : LruTable (List CStr) Group} {m : HashLru (List CStr) Group}
    {maxGroups : UInt32} (h : st.Mirrors hashGroupKey m maxGroups.toNat) (hpos : 0 < maxGroups)
    (hcap : maxGroups.toNat ≤ 3 * 2 ^ 28) {caps : CorrCaps}
    (hcaps : caps.maxGroups = maxGroups.toNat) (vals : List CStr) :
    ∃ st', st.cstateGetOrCreate hashGroupKey maxGroups caps.maxEventsPerGroup vals =
        some (st', (LibSigma.cstateGetOrCreate caps m vals).2) ∧
      st'.Mirrors hashGroupKey (LibSigma.cstateGetOrCreate caps m vals).1 maxGroups.toNat := by
  rw [LruTable.cstateGetOrCreate, LibSigma.cstateGetOrCreate, hcaps]
  cases hget : m.get hashGroupKey vals with
  | some g =>
    obtain ⟨hcreate, -⟩ := h.rep.getOrCreate_hit maxGroups hget (groupNew caps.maxEventsPerGroup)
    rw [hcreate]
    exact ⟨_, rfl, h.touch (h.rep.wf.get_isSome_iff.mp (by rw [hget]; rfl))⟩
  | none =>
    obtain ⟨st', hcreate, hst'⟩ :=
      h.getOrCreate_miss hpos hcap hget (groupNew caps.maxEventsPerGroup)
    rw [hcreate]
    exact ⟨st', rfl, hst'⟩

/-- The sweep removes the groups that it removes from the map of the engine. -/
theorem mirrors_cstateDropExpired {t : LruTable (List CStr) Group} {m : HashLru (List CStr) Group}
    {cap : ℕ} (h : t.Mirrors hashGroupKey m cap) (horizon : ℚ) :
    ∃ t', t.cstateDropExpired hashGroupKey horizon = some t' ∧
      t'.Mirrors hashGroupKey (m.dropWhere hashGroupKey fun g => g.lastUpdate < horizon) cap :=
  h.dropExpired _

/-- With a small cap, a value is observed as in the set of the engine. -/
theorem mirrors_dsetObserve {t : LruTable CStr ℚ} {m : HashLru CStr ℚ} {maxDistinct : UInt32}
    (h : t.Mirrors fnv1a m maxDistinct.toNat) (hpos : 0 < maxDistinct)
    (hcap : maxDistinct.toNat ≤ 3 * 2 ^ 28) (val : CStr) (ts windowStart : ℚ) :
    let d := LibSigma.dsetObserve m val ts windowStart maxDistinct.toNat
    ∃ t' n, t.dsetObserve fnv1a maxDistinct val ts windowStart = some (t', n, d.2) ∧
      t'.Mirrors fnv1a d.1 maxDistinct.toNat ∧ n.toNat = d.1.count := by
  obtain ⟨t₁, hdrop, h₁⟩ := h.dropExpired fun ts => ts < windowStart
  rw [LruTable.dsetObserve, hdrop, Option.bind_some, LibSigma.dsetObserve]
  generalize m.dropWhere fnv1a (fun ts => decide (ts < windowStart)) = m₁ at h₁
  cases hget : m₁.get fnv1a val with
  | some ts₀ =>
    obtain ⟨hcreate, -⟩ := h₁.rep.getOrCreate_hit maxDistinct hget ts
    have hmem : val ∈ m₁.lru := h₁.rep.wf.get_isSome_iff.mp (by rw [hget]; rfl)
    rw [hcreate]
    exact ⟨_, _, rfl, (h₁.touch hmem).set val ts, h₁.rep.count⟩
  | none =>
    obtain ⟨t', hcreate, ht'⟩ := h₁.getOrCreate_miss hpos hcap hget ts
    have hset := ht'.set val ts
    have hnew : val ∉ (makeWay fnv1a maxDistinct.toNat m₁).lru := fun hmem =>
      h₁.rep.wf.get_eq_none_iff.mp hget ((makeWay_spec h₁.rep.wf _).2.2.2 val hmem)
    have hwf := (makeWay_spec h₁.rep.wf maxDistinct.toNat).1
    rw [ht'.rep.wf.set_self (by rw [hwf.get_insert hnew, if_pos rfl])] at hset
    have hsame : (if maxDistinct.toNat ≤ m₁.count then
          ((m₁.evict fnv1a).insert fnv1a val ts,
            if m₁.lru.isEmpty then [] else [CorrCounter.distinctEvicted])
        else (m₁.insert fnv1a val ts, [])) =
        ((makeWay fnv1a maxDistinct.toNat m₁).insert fnv1a val ts,
          if decide (maxDistinct.toNat ≤ m₁.count) && !m₁.lru.isEmpty then
            [.distinctEvicted] else []) := by
      rw [makeWay, HashLru.evict]
      cases m₁.lru <;> by_cases hfull : maxDistinct.toNat ≤ m₁.count <;> simp [hfull]
    rw [hcreate]
    dsimp only
    rw [hsame]
    exact ⟨_, _, rfl, hset, ht'.rep.count⟩

end Maps

/-! ## One operation -/

theorem implements_groupMap (hash : List CStr → UInt64) {maxGroups : UInt32} (hcap : 0 < maxGroups)
    (evCap : ℕ) : LruTable.Implements hash (GroupMapOp.step hash maxGroups evCap)
      (GroupMapOp.dict maxGroups evCap) (GroupMapOp.joins maxGroups) := by
  intro st d js op hst hjs
  cases op with
  | getOrCreate vals use =>
    obtain ⟨hfits, hwraps⟩ := hst.use hjs hcap vals (groupNew evCap) use
    refine ⟨fun hfit => ?_, fun hnot => ?_⟩
    · obtain ⟨st', hcreate, hst'⟩ := hfits hfit
      rw [GroupMapOp.step, LruTable.cstateGetOrCreate, hcreate]
      exact ⟨_, rfl, hst'⟩
    · rw [GroupMapOp.step, LruTable.cstateGetOrCreate, hwraps hnot]
      rfl
  | dropExpired horizon =>
    obtain ⟨st', hdrop, hst'⟩ := hst.dropExpired fun g => g.lastUpdate < horizon
    rw [GroupMapOp.joins, List.append_nil, GroupMapOp.step, LruTable.cstateDropExpired, hdrop]
    exact ⟨fun _ => ⟨st', rfl, hst'⟩, fun hnot => absurd hjs hnot⟩

theorem implements_dset (hash : CStr → UInt64) {maxDistinct : UInt32} (hcap : 0 < maxDistinct) :
    LruTable.Implements hash (DsetOp.step hash maxDistinct) (DsetOp.dict maxDistinct)
      (DsetOp.joins maxDistinct) := by
  intro t d js op ht hjs
  obtain ⟨t₁, hdrop, ht₁⟩ := ht.dropExpired fun ts => ts < op.windowStart
  obtain ⟨hfits, hwraps⟩ := ht₁.use hjs hcap op.val op.ts fun _ => op.ts
  rw [DsetOp.step, LruTable.dsetObserve, hdrop, Option.bind_some, DsetOp.joins]
  refine ⟨fun hfit => ?_, fun hnot => ?_⟩
  · obtain ⟨t', hcreate, ht'⟩ := hfits hfit
    rw [hcreate]
    refine ⟨_, ?_, ht'⟩
    exact congrArg (fun n => some (t'.set hash op.val op.ts, n, _)) ht'.count
  · rw [hwraps hnot]
    rfl

/-! ## Tuples -/

/-- **A tuple never touches the group of another one**, unless that one has to go. -/
theorem group_apart {hash : List CStr → UInt64} {maxGroups : UInt32} (hcap : 0 < maxGroups)
    {evCap : ℕ} {ops : List GroupMapOp} {st st' : LruTable (List CStr) Group}
    {outs : List (Option (Group × List CorrCounter))} {out : Option (Group × List CorrCounter)}
    {vals vals' : List CStr} {use : Group → Group}
    (hrun : LruTable.run (GroupMapOp.step hash maxGroups evCap) .empty ops = some (st, outs))
    (hstep : GroupMapOp.step hash maxGroups evCap st (.getOrCreate vals use) = some (st', out))
    (hne : vals' ≠ vals) :
    st'.find hash vals' = st.find hash vals' ∨ st'.find hash vals' = none := by
  have himp := implements_groupMap hash hcap evCap
  obtain ⟨js, hfit, hst⟩ := himp.of_run hrun
  obtain ⟨-, js', -, hst'⟩ := himp.of_step hst hfit hstep
  rw [hst'.find, hst.find]
  exact dictGet_dictUse maxGroups.toNat hne (groupNew evCap) use hst.nodup

/-! ## Runs -/

/-- The operations on the groups return what they return on the dictionary, and leave its groups. -/
def GroupMapRefines (hash : List CStr → UInt64) (maxGroups : UInt32) (evCap : ℕ)
    (ops : List GroupMapOp) : Prop :=
  ∃ st, LruTable.run (GroupMapOp.step hash maxGroups evCap) .empty ops =
      some (st, (dictRun (GroupMapOp.dict maxGroups evCap) [] ops).2) ∧
    st.contents hash = (dictRun (GroupMapOp.dict maxGroups evCap) [] ops).1

/-- The observations return what they return on the dictionary, and leave its values. -/
def DsetRefines (hash : CStr → UInt64) (maxDistinct : UInt32) (ops : List DsetOp) : Prop :=
  ∃ t, LruTable.run (DsetOp.step hash maxDistinct) .empty ops =
      some (t, (dictRun (DsetOp.dict maxDistinct) [] ops).2) ∧
    t.contents hash = (dictRun (DsetOp.dict maxDistinct) [] ops).1

/-- After any operations, a use of one tuple leaves the group of every other one, or that group is the
one that has to go. -/
def TuplesApart (hash : List CStr → UInt64) (maxGroups : UInt32) (evCap : ℕ)
    (ops : List GroupMapOp) : Prop :=
  ∀ st outs vals use st' out,
    LruTable.run (GroupMapOp.step hash maxGroups evCap) .empty ops = some (st, outs) →
    GroupMapOp.step hash maxGroups evCap st (.getOrCreate vals use) = some (st', out) →
    ∀ vals' ≠ vals, st'.find hash vals' = st.find hash vals' ∨ st'.find hash vals' = none

/-- **The bounded maps run as dictionaries** exactly as long as their chains fit 32 bits, and no tuple
ever touches the group of another one. -/
theorem bounded_maps_refine_iff (hash : List CStr → UInt64) {maxGroups : UInt32} (evCap : ℕ)
    (ops : List GroupMapOp) (hgroups : 0 < maxGroups) (hash' : CStr → UInt64) {maxDistinct : UInt32}
    (ops' : List DsetOp) (hdistinct : 0 < maxDistinct) :
    (GroupMapRefines hash maxGroups evCap ops ↔ LruTable.ChainsFit
        (joinsRun (GroupMapOp.dict maxGroups evCap) (GroupMapOp.joins maxGroups) [] ops)) ∧
      TuplesApart hash maxGroups evCap ops ∧
      (DsetRefines hash' maxDistinct ops' ↔ LruTable.ChainsFit
        (joinsRun (DsetOp.dict maxDistinct) (DsetOp.joins maxDistinct) [] ops')) := by
  refine ⟨?_, ?_, ?_⟩
  · exact (implements_groupMap hash hgroups evCap).run_iff ops
  · intro st outs vals use st' out hrun hstep vals' hne
    exact group_apart hgroups hrun hstep hne
  · exact (implements_dset hash' hdistinct).run_iff ops'

/-- Three groups in a map of two and three values in a set of two, all of one hash; the first group
goes to make way, and the sweep drops the one that was not used since. -/
theorem bounded_maps_refine_iff_sample :
    GroupMapRefines (fun _ => 0) 2 4 [.getOrCreate [cstr "a"] id,
        .getOrCreate [cstr "b"] (fun g => { g with lastUpdate := 1 }),
        .getOrCreate [cstr "c"] (fun g => { g with lastUpdate := 9 }), .dropExpired 5] ∧
      DsetRefines (fun _ => 0) 2 [⟨cstr "a", 0, 0⟩, ⟨cstr "b", 1, 0⟩, ⟨cstr "c", 2, 0⟩] := by
  obtain ⟨hgroups, -, hset⟩ := bounded_maps_refine_iff (fun _ => 0) 4 [.getOrCreate [cstr "a"] id,
      .getOrCreate [cstr "b"] (fun g => { g with lastUpdate := 1 }),
      .getOrCreate [cstr "c"] (fun g => { g with lastUpdate := 9 }), .dropExpired 5]
    (show (0 : UInt32) < 2 by decide) (fun _ => 0)
    [⟨cstr "a", 0, 0⟩, ⟨cstr "b", 1, 0⟩, ⟨cstr "c", 2, 0⟩] (show (0 : UInt32) < 2 by decide)
  exact ⟨hgroups.mpr (LruTable.chainsFit_of_lt (by decide +kernel)),
    hset.mpr (LruTable.chainsFit_of_lt (by decide +kernel))⟩

/-! ## A set that outgrows its chains -/

/-- The `i`-th of many short values. -/
def manyValues (i : ℕ) : CStr :=
  [UInt8.ofNat (i % 200 + 1), UInt8.ofNat (i / 200 % 200 + 1), UInt8.ofNat (i / 40000 % 200 + 1),
    UInt8.ofNat (i / 8000000 % 200 + 1)]

theorem manyValues_inj {i j : ℕ} (hi : i < 2 ^ 30) (hj : j < 2 ^ 30)
    (h : manyValues i = manyValues j) : i = j := by
  have hdigit : ∀ {a b : ℕ}, a < 200 → b < 200 → UInt8.ofNat (a + 1) = UInt8.ofNat (b + 1) → a = b := by
    intro a b ha hb heq
    have hnat := congrArg UInt8.toNat heq
    rw [UInt8.toNat_ofNat', UInt8.toNat_ofNat'] at hnat
    omega
  simp only [manyValues, List.cons.injEq, and_true] at h
  have h₀ := hdigit (Nat.mod_lt _ (by decide)) (Nat.mod_lt _ (by decide)) h.1
  have h₁ := hdigit (Nat.mod_lt _ (by decide)) (Nat.mod_lt _ (by decide)) h.2.1
  have h₂ := hdigit (Nat.mod_lt _ (by decide)) (Nat.mod_lt _ (by decide)) h.2.2.1
  have h₃ := hdigit (Nat.mod_lt _ (by decide)) (Nat.mod_lt _ (by decide)) h.2.2.2
  omega

/-- New values that never expire join one another. -/
theorem joinsRun_new (maxDistinct : UInt32) {vals : List CStr} (hnodup : vals.Nodup)
    {d : List (CStr × ℚ)} (hnew : ∀ val ∈ vals, ∀ e ∈ d, e.1 ≠ val) (hzero : ∀ e ∈ d, e.2 = 0)
    (hcap : d.length + vals.length ≤ maxDistinct.toNat) :
    joinsRun (DsetOp.dict maxDistinct) (DsetOp.joins maxDistinct) d
      (vals.map fun val => ⟨val, 0, 0⟩) = List.range' d.length vals.length := by
  induction vals generalizing d with
  | nil => rfl
  | cons val vals ih =>
    rw [List.nodup_cons] at hnodup
    rw [List.length_cons] at hcap
    have hexpire : dictExpire (fun t : ℚ => decide (t < 0)) d = d := by
      refine List.filter_eq_self.mpr fun e he => ?_
      rw [hzero e he]
      rfl
    have hget : dictGet d val = none := by
      rw [dictGet, List.find?_eq_none.mpr, Option.map_none]
      exact fun e he heq => hnew val List.mem_cons_self e he (of_decide_eq_true heq)
    have hroom : ¬ maxDistinct.toNat ≤ d.length := by omega
    have hdict : (DsetOp.dict maxDistinct d ⟨val, 0, 0⟩).1 = d ++ [(val, 0)] := by
      rw [DsetOp.dict, hexpire, dictUse, hget]
      simp only [hroom, decide_false, Bool.false_eq_true, if_false]
    have hjoins : DsetOp.joins maxDistinct d ⟨val, 0, 0⟩ = [d.length] := by
      rw [DsetOp.joins, hexpire, dictJoins, hget, if_neg hroom]
    rw [List.map_cons, joinsRun, hdict, hjoins, ih hnodup.2]
    · rw [List.length_append, List.length_singleton, List.length_cons, List.range'_succ,
        List.singleton_append]
    · intro val' hval' e he
      rcases List.mem_append.mp he with he | he
      · exact hnew val' (List.mem_cons_of_mem _ hval') e he
      · rw [List.mem_singleton.mp he]
        rintro rfl
        exact hnodup.1 hval'
    · intro e he
      rcases List.mem_append.mp he with he | he
      · exact hzero e he
      · rw [List.mem_singleton.mp he]
    · rw [List.length_append, List.length_singleton]
      omega

/-- **A set outgrows its chains**: the value after the one that brings 2^31 of them doubles them to
none. -/
theorem distinct_set_outgrown :
    ¬ ∀ (hash : CStr → UInt64) (maxDistinct : UInt32) (ops : List DsetOp), 0 < maxDistinct →
      DsetRefines hash maxDistinct ops := by
  intro hclaim
  have hcap : (0 : UInt32) < 4294967295 := by decide
  have hnodup : ((List.range (3 * 2 ^ 28 + 2)).map manyValues).Nodup :=
    List.Nodup.map_on (fun i hi j hj => manyValues_inj
      (lt_trans (List.mem_range.mp hi) (by decide)) (lt_trans (List.mem_range.mp hj) (by decide)))
      List.nodup_range
  have hfit := ((implements_dset (fun _ => 0) hcap).run_iff
    (((List.range (3 * 2 ^ 28 + 2)).map manyValues).map fun val => ⟨val, 0, 0⟩)).mp
    (hclaim _ _ _ hcap)
  rw [joinsRun_new _ hnodup (fun _ _ e he => absurd he List.not_mem_nil)
    (fun e he => absurd he List.not_mem_nil)
    (by rw [List.length_map, List.length_range]; decide), List.length_map, List.length_range] at hfit
  have hpair := List.pairwise_iff_getElem.mp hfit (3 * 2 ^ 28) (3 * 2 ^ 28 + 1)
    (by rw [List.length_range']; decide) (by rw [List.length_range']; decide) (by decide)
  rw [List.getElem_range', List.getElem_range'] at hpair
  exact hpair ⟨by decide, by decide⟩

end LibSigma
