import LibSigma.Corr.Artifact
import LibSigma.Corr.Trace

/-!
# From a file to an engine

What becomes of the elements of a `rules.corr.json`, of their rule ids and of their group fields.

An element can fail in two places. The loader rejects what is no object, has no id or has a
malformed part; the engine rejects a rule that is not valid. Each has a counter of its own, and
inside the elements that are kept ids and fields are dropped, each kind with a counter of its own
again. Whoever reads these counters wants to know that they add up. `Accounts` is the balance of the
loader: for each kind, what it was given is what it has kept and what it has counted. One element
keeps it, whether it leads to a rule or not; an object that is rejected late has its ids and fields
on both sides.

* `parseElement_accounts`: **one element**.
* `load_balances`: **nothing of a file is lost without a count**, on the way through
  `corr_artifact_parse` and `corr_engine_new`.
-/

namespace LibSigma

open Library

section Accounts

variable (lib : JsonLib)

/-- Whether an element of the correlations is an object. -/
def isObject : Json → Bool
  | .obj _ => true
  | _ => false

/-- The ids of the base rules and of the order, in the file. -/
def idsGiven (c : Json) : ℕ :=
  (jarr c (cstr "base_rule_ids")).length + (jarr c (cstr "ordered_rule_ids")).length

/-- Those that are kept: of the first 4096 of each array, the ones that 32 bits hold. -/
def idsKept (c : Json) : ℕ :=
  (((jarr c (cstr "base_rule_ids")).take corrMaxRuleIds).map lib.getInt64).countP ridInRange +
    (((jarr c (cstr "ordered_rule_ids")).take corrMaxRuleIds).map lib.getInt64).countP ridInRange

/-- The group fields in the file. -/
def fieldsGiven (c : Json) : ℕ := (jarr c (cstr "group_by")).length

/-- Those that are kept: the first eight. -/
def fieldsKept (c : Json) : ℕ := min corrMaxGroupFields (fieldsGiven c)

/-- What the loader has counted, next to what it was given and what it has kept. -/
structure Accounts (elems : List Json) (rules : List CorrRule) (ls : CorrLoadStats) : Prop where
  rules : elems.length = rules.length + ls.rulesRejected
  ids : ((elems.filter isObject).map idsGiven).sum =
    ((elems.filter isObject).map (idsKept lib)).sum + ls.ridsDropped + ls.baserulesTruncated
  fields : ((elems.filter isObject).map fieldsGiven).sum =
    ((elems.filter isObject).map fieldsKept).sum + ls.groupbyTruncated

variable {lib}

/-- An array of ids: what is not kept is dropped or truncated. -/
theorem parseU32Array_accounts (c : Json) (key : CStr) (ls : CorrLoadStats) :
    (jarr c key).length + ls.ridsDropped + ls.baserulesTruncated =
        (((jarr c key).take corrMaxRuleIds).map lib.getInt64).countP ridInRange +
          (parseU32Array lib c key ls).2.ridsDropped +
            (parseU32Array lib c key ls).2.baserulesTruncated ∧
      (parseU32Array lib c key ls).2.rulesRejected = ls.rulesRejected ∧
      (parseU32Array lib c key ls).2.groupbyTruncated = ls.groupbyTruncated := by
  have hsplit := List.length_eq_countP_add_countP ridInRange
    (l := ((jarr c key).take corrMaxRuleIds).map lib.getInt64)
  have hdropped : (((jarr c key).take corrMaxRuleIds).map lib.getInt64).countP
      (fun v => decide ¬ ridInRange v = true) =
        ((((jarr c key).take corrMaxRuleIds).map lib.getInt64).filter fun v => !ridInRange v).length := by
    rw [List.countP_eq_length_filter]
    refine congrArg List.length (List.filter_congr fun v _ => ?_)
    cases ridInRange v <;> rfl
  rw [hdropped, List.length_map, List.length_take] at hsplit
  have hrest : min corrMaxRuleIds (jarr c key).length + ((jarr c key).length - corrMaxRuleIds) =
      (jarr c key).length := by omega
  have hparse : ∀ m, (jarr c key).length - corrMaxRuleIds = m → (parseU32Array lib c key ls).2 =
      { ls with
        baserulesTruncated := ls.baserulesTruncated + m
        ridsDropped := ls.ridsDropped + ((((jarr c key).take corrMaxRuleIds).map lib.getInt64).filter
          fun v => !ridInRange v).length } := by
    rintro _ rfl
    rw [parseU32Array]
  obtain ⟨m, hm⟩ : ∃ m, (jarr c key).length - corrMaxRuleIds = m := ⟨_, rfl⟩
  rw [hparse m hm]
  refine ⟨?_, rfl, rfl⟩
  dsimp only
  omega

/-- What `parse_one` counts. -/
theorem parseOne_accounts (c : Json) (ls : CorrLoadStats) :
    idsGiven c + ls.ridsDropped + ls.baserulesTruncated =
        idsKept lib c + (parseOne lib c ls).2.ridsDropped + (parseOne lib c ls).2.baserulesTruncated ∧
      fieldsGiven c + ls.groupbyTruncated = fieldsKept c + (parseOne lib c ls).2.groupbyTruncated ∧
      (parseOne lib c ls).2.rulesRejected = ls.rulesRejected := by
  obtain ⟨hbase, hrej, hgroup⟩ := parseU32Array_accounts c (cstr "base_rule_ids") ls
  obtain ⟨hordered, hrej', hgroup'⟩ := parseU32Array_accounts c
    (cstr "ordered_rule_ids") (parseU32Array lib c (cstr "base_rule_ids") ls).2
  have hls : (parseOne lib c ls).2 = (parseStrArray lib c (cstr "group_by") (parseU32Array lib c
    (cstr "ordered_rule_ids") (parseU32Array lib c (cstr "base_rule_ids") ls).2).2).2 := rfl
  have hstr : ∀ ls : CorrLoadStats, (parseStrArray lib c (cstr "group_by") ls).2 =
      { ls with groupbyTruncated := ls.groupbyTruncated + (fieldsGiven c - corrMaxGroupFields) } :=
    fun ls => by rw [parseStrArray, fieldsGiven]
  rw [hls, hstr, idsGiven, idsKept, fieldsKept]
  dsimp only
  refine ⟨?_, ?_, hrej'.trans hrej⟩ <;> omega

/-- **One element.** -/
theorem parseElement_accounts {elems : List Json} {acc : List CorrRule × CorrLoadStats}
    (h : Accounts lib elems acc.1 acc.2) (c : Json) :
    Accounts lib (elems ++ [c]) (parseElement lib acc c).1 (parseElement lib acc c).2 := by
  obtain ⟨hrules, hids, hfields⟩ := h
  by_cases hobj : isObject c = true
  · obtain ⟨ms, rfl⟩ : ∃ ms, c = .obj ms := by
      cases c with
      | obj ms => exact ⟨ms, rfl⟩
      | _ => cases hobj
    obtain ⟨hids', hfields', hrej⟩ := parseOne_accounts (.obj ms) acc.2
    -- a rule that does not parse is counted, its ids all the same
    have helement : (parseElement lib acc (.obj ms)).2.ridsDropped =
          (parseOne lib (.obj ms) acc.2).2.ridsDropped ∧
        (parseElement lib acc (.obj ms)).2.baserulesTruncated =
          (parseOne lib (.obj ms) acc.2).2.baserulesTruncated ∧
        (parseElement lib acc (.obj ms)).2.groupbyTruncated =
          (parseOne lib (.obj ms) acc.2).2.groupbyTruncated ∧
        (parseElement lib acc (.obj ms)).1.length + (parseElement lib acc (.obj ms)).2.rulesRejected =
          acc.1.length + acc.2.rulesRejected + 1 := by
      unfold parseElement
      dsimp only
      cases hone : parseOne lib (.obj ms) acc.2 with
      | mk r ls =>
        rw [hone] at hrej
        cases r with
        | some r =>
          refine ⟨rfl, rfl, rfl, ?_⟩
          dsimp only at hrej ⊢
          rw [List.length_append, List.length_singleton, hrej]
          omega
        | none =>
          refine ⟨rfl, rfl, rfl, ?_⟩
          dsimp only at hrej ⊢
          omega
    obtain ⟨hdropped, htruncated, hgroup, hlength⟩ := helement
    have hfilter : (elems ++ [Json.obj ms]).filter isObject =
        elems.filter isObject ++ [.obj ms] := List.filter_append ..
    refine ⟨?_, ?_, ?_⟩
    · rw [List.length_append, List.length_singleton]
      omega
    · rw [hfilter, List.map_append, List.map_append, List.sum_append, List.sum_append, hdropped,
        htruncated, List.map_singleton, List.map_singleton, List.sum_singleton, List.sum_singleton]
      omega
    · rw [hfilter, List.map_append, List.map_append, List.sum_append, List.sum_append, hgroup,
        List.map_singleton, List.map_singleton, List.sum_singleton, List.sum_singleton]
      omega
  · have helement : parseElement lib acc c =
        (acc.1, { acc.2 with rulesRejected := acc.2.rulesRejected + 1 }) := by
      cases c with
      | obj ms => exact absurd rfl hobj
      | _ => rfl
    have hfilter : (elems ++ [c]).filter isObject = elems.filter isObject := by
      rw [List.filter_append, List.filter_singleton, Bool.not_eq_true _ |>.mp hobj]
      exact List.append_nil _
    rw [helement]
    refine ⟨?_, ?_, ?_⟩
    · rw [List.length_append, List.length_singleton]
      dsimp only
      omega
    · rw [hfilter]
      exact hids
    · rw [hfilter]
      exact hfields

theorem foldl_accounts (elems : List Json) :
    Accounts lib elems (elems.foldl (parseElement lib) ([], ⟨0, 0, 0, 0⟩)).1
      (elems.foldl (parseElement lib) ([], ⟨0, 0, 0, 0⟩)).2 := by
  induction elems using List.reverseRecOn with
  | nil => exact ⟨rfl, rfl, rfl⟩
  | append_singleton elems c ih =>
    rw [List.foldl_concat]
    exact parseElement_accounts ih c

/-- The engine counts the rules that it does not admit. -/
theorem engine_accounts (rules : List CorrRule) (caps : CorrCaps) :
    rules.length = (corrEngineNew rules caps).states.length +
      (corrEngineNew rules caps).stats .rulesRejected := by
  show rules.length = ((rules.filter CorrRule.admitted).map _).length +
    (rules.flatMap rejectIncs).count .rulesRejected
  rw [List.length_map]
  induction rules with
  | nil => rfl
  | cons r rules ih =>
    have hone : (rejectIncs r).count .rulesRejected = if r.admitted = true then 0 else 1 := by
      unfold rejectIncs CorrRule.admitted
      cases !r.cond.isEmpty && decide (corrMaxSeenRules < r.baseRuleIds.length) with
      | true => rfl
      | false => cases ruleValid r <;> rfl
    rw [List.flatMap_cons, List.count_append, hone, List.length_cons, ih, List.filter_cons]
    split
    · rw [List.length_cons]
      omega
    · omega

/-- **Nothing of a file is lost without a count.**  The elements of its correlations are the
correlations of the engine, in their order, and those that the loader or the engine has counted as
rejected; the rule ids of its objects are those kept, dropped or truncated; and so are the group
fields. -/
theorem load_balances {root : Json} {rules : List CorrRule} {ls : CorrLoadStats}
    (h : corrArtifactParse lib root = some (rules, ls)) (caps : CorrCaps) :
    let elems := jarr root (cstr "correlations")
    let e := corrEngineNew rules caps
    elems.length = e.states.length + ls.rulesRejected + e.stats .rulesRejected ∧
      (e.states.map CorrState.rule).Sublist rules ∧
      ((elems.filter isObject).map idsGiven).sum =
        ((elems.filter isObject).map (idsKept lib)).sum + ls.ridsDropped +
          ls.baserulesTruncated ∧
      ((elems.filter isObject).map fieldsGiven).sum =
        ((elems.filter isObject).map fieldsKept).sum + ls.groupbyTruncated := by
  intro elems e
  have hfold : elems.foldl (parseElement lib) ([], ⟨0, 0, 0, 0⟩) = (rules, ls) := by
    unfold corrArtifactParse at h
    split at h
    · split at h
      · split at h
        · cases h
        · split at h
          · rename_i helems
            rw [← Option.some.inj h]
            show (jarr _ _).foldl _ _ = _
            rw [jarr, helems]
          · cases h
      · cases h
    · cases h
  obtain ⟨hrules, hids, hfields⟩ := foldl_accounts elems
  rw [hfold] at hrules hids hfields
  have hengine := engine_accounts rules caps
  refine ⟨?_, ?_, hids, hfields⟩
  · show elems.length = (corrEngineNew rules caps).states.length + ls.rulesRejected +
      (corrEngineNew rules caps).stats .rulesRejected
    dsimp only at hrules
    omega
  · show ((rules.filter CorrRule.admitted).map _).map CorrState.rule |>.Sublist rules
    rw [List.map_map]
    exact (List.map_id _).symm ▸ List.filter_sublist

/-- Three elements: one is no object, one has no window, and one loses an id that 32 bits do not
hold. -/
def threeElements : Json :=
  .obj [(cstr "version", .int 1), (cstr "correlations", .arr [.null,
    .obj [(cstr "id", .str (cstr "still")), (cstr "type", .str (cstr "event_count")),
      (cstr "base_rule_ids", .arr [.int 7])],
    .obj [(cstr "id", .str (cstr "burst")), (cstr "type", .str (cstr "event_count")),
      (cstr "base_rule_ids", .arr [.int 4294967296, .int 7]),
      (cstr "group_by", .arr [.str (cstr "user")]), (cstr "timespan_s", .int 60)]])]

theorem load_balances_sample :
    ∃ rules ls, corrArtifactParse JsonLib.strict threeElements = some (rules, ls) ∧
      ls.rulesRejected = 1 ∧ ls.ridsDropped = 1 ∧
      (corrEngineNew rules ⟨0, 0, 0, 0, false, 0⟩).stats .rulesRejected = 1 ∧
      3 = (corrEngineNew rules ⟨0, 0, 0, 0, false, 0⟩).states.length + ls.rulesRejected +
        (corrEngineNew rules ⟨0, 0, 0, 0, false, 0⟩).stats .rulesRejected := by
  have hparse : corrArtifactParse JsonLib.strict threeElements = some _ := rfl
  exact ⟨_, _, hparse, rfl, rfl, rfl, (load_balances hparse _).1⟩

end Accounts

end LibSigma
