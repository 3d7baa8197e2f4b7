import LibSigma.Corr.Bounds
import LibSigma.Corr.Dictionary

/-!
# The tables under the engine

The engine of this development keeps its groups and its distinct values in maps (`HashLru`): lists
for chains, a list for the order of use, numbers without a bound.  The program keeps them in linked
tables (`LruTable`): intrusive links, 32-bit counts, and chains that can double only so often.
`Dictionary` compares the two one operation at a time, and finds that they part when a table
outgrows its chains.

## What is proved here

A run of the engine makes only a few operations on these tables: a call that reaches a group finds
or makes it and puts back what the input made of it (`IsEngineOp.input`), a sweep drops what has
expired (`IsEngineOp.sweep`), and an input of a group observes values.  So every map of a reachable
engine is what a linked table holds after a run of these operations from the empty table.

* `GroupsLinked.input`, `GroupsLinked.drop`: one step of the engine is one operation of the table.
* `engine_linked`: **every map of a reachable engine is the one of a linked table**, if the caps
  leave the chains room.

## The caps

Both caps are 32-bit numbers, and a table joins at most a cap's entries.  Up to `3 * 2 ^ 28` of them
it never has to double `2 ^ 31` chains.  Beyond, a run that fills it gets stuck there
(`bounded_maps_refine_iff`), so that a bound of this size is not an artefact of the proof.
-/

namespace LibSigma

open Library

/-- The largest cap whose table never runs out of chains. -/
def chainCap : ℕ := 3 * 2 ^ 28

variable (fp : Doubles) (caps : CorrCaps)

/-- The operations that the engine makes on the groups of a correlation. -/
inductive IsEngineOp (r : CorrRule) : GroupMapOp → Prop
  | input (key : List CStr) (i : GroupInput) :
      IsEngineOp r (.getOrCreate key fun g => (groupInput fp caps r g i).group)
  | sweep (horizon : ℚ) : IsEngineOp r (.dropExpired horizon)

/-- Groups that a linked table holds after some operations of the engine. -/
def GroupsLinked (r : CorrRule) (m : HashLru (List CStr) Group) : Prop :=
  ∃ ops t outs, (∀ op ∈ ops, IsEngineOp fp caps r op) ∧
    LruTable.run (GroupMapOp.step hashGroupKey (.ofNat caps.maxGroups) caps.maxEventsPerGroup)
      .empty ops = some (t, outs) ∧ t.Mirrors hashGroupKey m caps.maxGroups

/-- Values that a linked table holds after some observations. -/
def ValuesLinked (d : HashLru CStr ℚ) : Prop :=
  ∃ ops t outs, LruTable.run (DsetOp.step fnv1a (.ofNat caps.maxDistinct)) .empty ops =
    some (t, outs) ∧ t.Mirrors fnv1a d caps.maxDistinct

/-- A correlation whose groups, and the values of each of them, are in linked tables. -/
structure CorrState.Linked (st : CorrState) : Prop where
  groups : GroupsLinked fp caps st.rule st.groups
  values : ∀ key g, st.groups.get hashGroupKey key = some g → ValuesLinked caps g.distinct

variable {fp caps}

/-! ## Groups -/

section Groups

variable {r : CorrRule} {m : HashLru (List CStr) Group}

theorem groupsLinked_empty : GroupsLinked fp caps r (.empty 16) :=
  ⟨[], .empty, [], fun _ hop => absurd hop List.not_mem_nil, rfl, LruTable.mirrors_empty _⟩

/-- A sweep is one operation of the table. -/
theorem GroupsLinked.drop (h : GroupsLinked fp caps r m) (horizon : ℚ) :
    GroupsLinked fp caps r (m.dropWhere hashGroupKey fun g => g.lastUpdate < horizon) := by
  obtain ⟨ops, t, outs, hops, hrun, ht⟩ := h
  obtain ⟨t', hdrop, ht'⟩ := mirrors_cstateDropExpired ht horizon
  refine ⟨ops ++ [.dropExpired horizon], t', outs ++ [none], fun op hop => ?_,
    LruTable.run_concat hrun ?_, ht'⟩
  · rcases List.mem_append.mp hop with hop | hop
    · exact hops op hop
    · rw [List.mem_singleton.mp hop]
      exact .sweep horizon
  · rw [GroupMapOp.step, hdrop]
    rfl

/-- An input is one operation of the table. -/
theorem GroupsLinked.input {st : CorrState} (h : GroupsLinked fp caps st.rule st.groups)
    (hpos : 0 < caps.maxGroups) (hcap : caps.maxGroups ≤ chainCap) (key : List CStr)
    (i : GroupInput) :
    GroupsLinked fp caps st.rule (cstateInput fp caps st key i).1.groups := by
  obtain ⟨ops, t, outs, hops, hrun, ht⟩ := h
  have hnat : caps.maxGroups = (UInt32.ofNat caps.maxGroups).toNat :=
    (UInt32.toNat_ofNat_of_lt' (lt_of_le_of_lt hcap (by decide))).symm
  rw [hnat] at ht
  obtain ⟨t', hcreate, ht'⟩ := mirrors_cstateGetOrCreate ht
    (UInt32.lt_iff_toNat_lt.mpr (hnat ▸ hpos)) (hnat ▸ hcap) hnat key
  rw [← hnat] at ht'
  refine ⟨ops ++ [.getOrCreate key fun g => (groupInput fp caps st.rule g i).group], _,
    outs ++ [some (cstateGetOrCreate caps st.groups key).2], fun op hop => ?_,
    LruTable.run_concat hrun ?_, ht'.set key _⟩
  · rcases List.mem_append.mp hop with hop | hop
    · exact hops op hop
    · rw [List.mem_singleton.mp hop]
      exact .input key i
  · rw [GroupMapOp.step, hcreate]
    rfl

end Groups

/-! ## Values -/

section Values

variable {d d' : HashLru CStr ℚ}

theorem valuesLinked_empty : ValuesLinked caps (.empty 16) :=
  ⟨[], .empty, [], rfl, LruTable.mirrors_empty _⟩

/-- An observation is one operation of the table. -/
theorem ValuesLinked.observe (h : ValuesLinked caps d) (hpos : 0 < caps.maxDistinct)
    (hcap : caps.maxDistinct ≤ chainCap) (hobs : ObservesValue caps.maxDistinct d d') :
    ValuesLinked caps d' := by
  obtain ⟨ops, t, outs, hrun, ht⟩ := h
  obtain ⟨val, ts, ws, rfl⟩ := hobs
  have hnat : caps.maxDistinct = (UInt32.ofNat caps.maxDistinct).toNat :=
    (UInt32.toNat_ofNat_of_lt' (lt_of_le_of_lt hcap (by decide))).symm
  rw [hnat] at ht
  obtain ⟨t', n, hobserve, ht', -⟩ := mirrors_dsetObserve ht
    (UInt32.lt_iff_toNat_lt.mpr (hnat ▸ hpos)) (hnat ▸ hcap) val ts ws
  rw [← hnat] at ht'
  have hstep : DsetOp.step fnv1a (.ofNat caps.maxDistinct) t ⟨val, ts, ws⟩ =
      some (t', n.toNat, (dsetObserve d val ts ws (UInt32.ofNat caps.maxDistinct).toNat).2) := by
    rw [DsetOp.step, hobserve]
    rfl
  exact ⟨ops ++ [⟨val, ts, ws⟩], t', _, LruTable.run_concat hrun hstep, ht'⟩

/-- And so are some observations, one after the other. -/
theorem ValuesLinked.observes (h : ValuesLinked caps d) (hpos : 0 < caps.maxDistinct)
    (hcap : caps.maxDistinct ≤ chainCap)
    (hobs : Relation.ReflTransGen (ObservesValue caps.maxDistinct) d d') : ValuesLinked caps d' := by
  induction hobs with
  | refl => exact h
  | tail _ hone ih => exact ih.observe hpos hcap hone

end Values

/-! ## Runs of the engine -/

/-- A sweep leaves a correlation in its tables. -/
theorem CorrState.Linked.drop {st : CorrState} (h : st.Linked fp caps)
    (hwf : st.groups.Wf hashGroupKey) (horizon : ℚ) :
    (cstateDropExpired st horizon).Linked fp caps := by
  refine ⟨h.groups.drop horizon, fun key g hg => ?_⟩
  have hg' : (st.groups.dropWhere hashGroupKey fun g => decide (g.lastUpdate < horizon)).get
      hashGroupKey key = some g := hg
  rw [(hwf.dropWhere _).2.2 key] at hg'
  exact h.values key g (Option.filter_eq_some_iff.mp hg').1

/-- An input leaves a correlation in its tables. -/
theorem CorrState.Linked.input {st : CorrState} (h : st.Linked fp caps) (hst : st.Bounded caps)
    (hgroups : 0 < caps.maxGroups) (hgroups' : caps.maxGroups ≤ chainCap)
    (hdistinct : 0 < caps.maxDistinct) (hdistinct' : caps.maxDistinct ≤ chainCap)
    (key : List CStr) (i : GroupInput) : (cstateInput fp caps st key i).1.Linked fp caps := by
  obtain ⟨-, -, -, -, hget⟩ := cstateInput_spec fp caps hst.groups.wf key i
  refine ⟨h.groups.input hgroups hgroups' key i, fun k g hk => ?_⟩
  rw [hget] at hk
  split_ifs at hk with hkey
  · cases hk
    refine ValuesLinked.observes ?_ hdistinct hdistinct'
      (keepsBounds_groupInput fp hst.valid _ i).distinct
    cases hg : st.groups.get hashGroupKey key with
    | none => exact valuesLinked_empty
    | some g => exact h.values key g hg
  · exact h.values k g hk

/-- **Every map of a reachable engine is the one of a linked table**: the groups of each correlation
after the operations that the engine made on them, and the values of each of its groups after some
observations. -/
theorem engine_linked (fp : Doubles) (rules : List CorrRule) (caps : CorrCaps) (cs : List CorrCall)
    (hgroups : caps.withDefaults.maxGroups ≤ chainCap)
    (hdistinct : caps.withDefaults.maxDistinct ≤ chainCap) :
    ∀ st ∈ (corrRun fp (corrEngineNew rules caps) cs).states,
      GroupsLinked fp caps.withDefaults st.rule st.groups ∧
        ∀ nd ∈ st.groups.nodes, ValuesLinked caps.withDefaults nd.val.distinct := by
  have hmaxGroups := withDefaults_maxGroups_pos caps
  have hmaxEvents := withDefaults_maxEvents_pos caps
  have hmaxDistinct := withDefaults_maxDistinct_pos caps
  have hcaps : (corrEngineNew rules caps).caps = caps.withDefaults := rfl
  have hrun := states_corrRun fp
    (P := fun st => st.Bounded caps.withDefaults ∧ st.Linked fp caps.withDefaults)
    (fun st horizon h => ⟨h.1.drop horizon, h.2.drop h.1.groups.wf horizon⟩)
    (fun st key i h => ⟨h.1.input fp hmaxGroups hmaxEvents hmaxDistinct key i,
      h.2.input h.1 hmaxGroups hgroups hmaxDistinct hdistinct key i⟩)
    hcaps (fun st hst => ?_) cs
  · intro st hst
    obtain ⟨hbounded, hlinked⟩ := hrun st hst
    refine ⟨hlinked.groups, fun nd hnd => hlinked.values nd.key nd.val ?_⟩
    exact hbounded.groups.wf.get_eq_some_iff.mpr ⟨nd, hnd, rfl, rfl⟩
  · refine ⟨bounded_corrRun fp rules caps [] st hst, ?_⟩
    obtain ⟨r, -, rfl⟩ := List.mem_map.mp hst
    refine ⟨groupsLinked_empty, fun key g hg => ?_⟩
    rw [HashLru.get_empty] at hg
    cases hg

end LibSigma
