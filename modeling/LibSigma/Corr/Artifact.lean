import Mathlib.Tactic.IntervalCases
import LibSigma.Corr.Rule
import LibSigma.Library.Json
import LibSigma.Library.Positions

/-!
# The correlation artifact

`corr_format.c`: the rules of a parsed `rules.corr.json`.  Memory is taken to be there, and the JSON
text is parsed by the library.

## The translation

The functions follow the file from the outside in: the version and the array of correlations, the
objects, their arrays of ids, fields, alias rows and condition tokens. Every one of them drops what
it cannot use and counts it, and none of them stops the load. So each returns what it kept and the
counters, and the counters are threaded through as in the source. The accounts are checked in
`LibSigma.Corr.Admission`, the windows in `LibSigma.Corr.Window` and the conditions in
`LibSigma.Corr.Conditions`.

## Local indices

Tokens of a condition and rows of aliases refer to base rules by their position in the file. An id
that 32 bits do not hold is dropped from the array, and everything behind it moves up, while the
tokens and rows keep their numbers. So local index `n` means in the loaded rule what it means in the
file if the first `n + 1` ids are all kept. That is `KeepsIndices`, and the theorem is an
equivalence for every element of every file: an index that the file uses and that moves is one that
is wrong.

* `exists_object_of_mem`: the rules of a file are those of its objects.
* `parsed_indices_iff`: **the local indices of a rule mean what they mean in the file exactly when
  no id before them is dropped.**
-/

namespace LibSigma

open Library

/-- `CORR_MAX_RULE_IDS`, `CORR_MAX_COND_TOKENS` and `INT32_MAX`, `INT32_MIN`. -/
def corrMaxRuleIds : ℕ := 4096
def corrMaxCondTokens : ℕ := 256
def int32Max : ℤ := 2 ^ 31 - 1
def int32Min : ℤ := -2 ^ 31

/-- `corr_load_stats_t`. -/
structure CorrLoadStats where
  rulesRejected : ℕ
  groupbyTruncated : ℕ
  baserulesTruncated : ℕ
  ridsDropped : ℕ
  deriving DecidableEq

section Parse

variable (lib : JsonLib)

/-- `jstr`. -/
def jstr (o : Json) (key : CStr) : Option CStr :=
  match o.get key with
  | some (.str s) => some (lib.getString (.str s))
  | _ => none

/-- `jint`. -/
def jint (o : Json) (key : CStr) : Option Int64 :=
  match o.get key with
  | some (.int i) => some (lib.getInt64 (.int i))
  | some (.double q) => some (lib.getInt64 (.double q))
  | _ => none

/-- The elements of a member that is an array. -/
def jarr (o : Json) (key : CStr) : List Json :=
  match o.get key with
  | some (.arr elems) => elems
  | _ => []

/-- `parse_type`. -/
def parseType (t : Option CStr) : Option CorrType :=
  if t = some (cstr "event_count") then some .eventCount
  else if t = some (cstr "value_count") then some .valueCount
  else if t = some (cstr "temporal") then some .temporal
  else if t = some (cstr "temporal_ordered") then some .temporalOrdered
  else if t = some (cstr "value_sum") then some .valueSum
  else if t = some (cstr "value_avg") then some .valueAvg
  else if t = some (cstr "beaconing") then some .beaconing
  else if t = some (cstr "value_percentile") then some .valuePercentile
  else if t = some (cstr "value_median") then some .valueMedian
  else none

/-- `parse_op`. -/
def parseOp (op : Option CStr) : CorrOp :=
  if op = some (cstr "gt") then .gt
  else if op = some (cstr "lte") then .lte
  else if op = some (cstr "lt") then .lt
  else if op = some (cstr "eq") then .eq
  else .gte

/-- A rule id that 32 bits hold. -/
def ridInRange (v : Int64) : Bool := !(decide (v.toInt < 0) || decide (2 ^ 32 - 1 < v.toInt))

/-- `parse_u32_array`: the ids kept, and the counters. -/
def parseU32Array (o : Json) (key : CStr) (ls : CorrLoadStats) : List UInt32 × CorrLoadStats :=
  let elems := jarr o key
  let vals := (elems.take corrMaxRuleIds).map lib.getInt64
  ((vals.filter ridInRange).map fun v => v.toUInt64.toUInt32,
    { ls with
      baserulesTruncated := ls.baserulesTruncated + (elems.length - corrMaxRuleIds)
      ridsDropped := ls.ridsDropped + (vals.filter fun v => !ridInRange v).length })

/-- A field name in an array; what is not a string counts as the empty one. -/
def fieldName : Json → Option CStr
  | .str s => some (lib.getString (.str s))
  | _ => some []

/-- `parse_str_array`. -/
def parseStrArray (o : Json) (key : CStr) (ls : CorrLoadStats) :
    List (Option CStr) × CorrLoadStats :=
  let elems := jarr o key
  ((elems.take corrMaxGroupFields).map (fieldName lib),
    { ls with groupbyTruncated := ls.groupbyTruncated + (elems.length - corrMaxGroupFields) })

/-- A token of `parse_cond_rpn`. -/
def parseCondToken (nBase : ℕ) (el : Json) : Option CorrCtok :=
  match jstr lib el (cstr "k") with
  | none => none
  | some k =>
    if k = cstr "sel" then
      match jint lib el (cstr "r") with
      | none => none
      | some r =>
        if r.toInt < 0 ∨ nBase ≤ r.toInt.toNat ∨ 64 ≤ r.toInt then none
        else some ⟨corrCSel, r.toUInt64.toUInt32⟩
    else if k = cstr "and" then some ⟨corrCAnd, 0⟩
    else if k = cstr "or" then some ⟨corrCOr, 0⟩
    else if k = cstr "not" then some ⟨corrCNot, 0⟩
    else none

/-- `parse_cond_rpn`. -/
def parseCondRpn (elems : List Json) (nBase : ℕ) : Option (List CorrCtok) :=
  if elems.length = 0 ∨ corrMaxCondTokens < elems.length then none
  else elems.mapM (parseCondToken lib nBase)

/-- The alias rows of `parse_one`: one a base rule, each as long as `group_by`. -/
def parseAliasRows (c : Json) (nBase nGroup : ℕ) : Option (List (Option (List (Option CStr)))) :=
  match c.get (cstr "alias_group_by") with
  | some (.arr rows) =>
    if rows.length ≠ nBase ∨ nGroup = 0 then none
    else
      rows.mapM fun row =>
        match row with
        | .arr fields =>
          if fields.length ≠ nGroup then none else some (some (fields.map (fieldName lib)))
        | _ => none
  | _ => some []

/-- The condition tokens of `parse_one`. -/
def parseCond (c : Json) (nBase : ℕ) : Option (List CorrCtok) :=
  match c.get (cstr "condition_rpn") with
  | some (.arr elems) => parseCondRpn lib elems nBase
  | _ => some []

/-- The window: a large one is clamped, the rest converted to 32 bits. -/
def parseTimespan (c : Json) : ℤ :=
  match jint lib c (cstr "timespan_s") with
  | none => 0
  | some ts => if int32Max < ts.toInt then int32Max else ts.toInt32.toInt

/-- An integer of the condition, clamped to 32 bits. -/
def parseClamped (cond : Json) (key : CStr) : ℤ :=
  match jint lib cond key with
  | none => 0
  | some v => max int32Min (min int32Max v.toInt)

/-- `parse_one`: the rule, and the counters. -/
def parseOne (c : Json) (ls : CorrLoadStats) : Option CorrRule × CorrLoadStats :=
  let (base, ls) := parseU32Array lib c (cstr "base_rule_ids") ls
  let (ordered, ls) := parseU32Array lib c (cstr "ordered_rule_ids") ls
  let (groupBy, ls) := parseStrArray lib c (cstr "group_by") ls
  let cond : Option Json :=
    match c.get (cstr "condition") with
    | some (.obj ms) => some (.obj ms)
    | _ => none
  (match parseAliasRows lib c base.length groupBy.length, parseCond lib c base.length,
      jstr lib c (cstr "id") with
    | some aliasRows, some toks, some id =>
      some
        { id := some id
          title := jstr lib c (cstr "title")
          type := parseType (jstr lib c (cstr "type"))
          baseRuleIds := base
          orderedRuleIds := ordered
          groupBy := groupBy
          aliasGroupBy := aliasRows
          valueField := cond.bind fun cond => jstr lib cond (cstr "field")
          condOp := some ((cond.map fun cond => parseOp (jstr lib cond (cstr "op"))).getD .gte)
          condCount :=
            ((cond.bind fun cond => jint lib cond (cstr "count")).map Int64.toInt).getD 0
          timespanS := parseTimespan lib c
          level := jstr lib c (cstr "level")
          mitre := jstr lib c (cstr "mitre")
          cond := toks
          beaconCvPermille :=
            (cond.map fun cond => parseClamped lib cond (cstr "cv_permille")).getD 0
          beaconNBuckets := (cond.map fun cond => parseClamped lib cond (cstr "n_buckets")).getD 0
          valuePercentile :=
            (cond.map fun cond => parseClamped lib cond (cstr "percentile")).getD 0 }
    | _, _, _ => none,
    ls)

/-- One element of the correlations. -/
def parseElement (acc : List CorrRule × CorrLoadStats) (c : Json) : List CorrRule × CorrLoadStats :=
  match c with
  | .obj ms =>
    match parseOne lib (.obj ms) acc.2 with
    | (some r, ls) => (acc.1 ++ [r], ls)
    | (none, ls) => (acc.1, { ls with rulesRejected := ls.rulesRejected + 1 })
  | _ => (acc.1, { acc.2 with rulesRejected := acc.2.rulesRejected + 1 })

/-- `corr_artifact_parse` on the parsed text: the rules and the counters, or `none` for a file that
is not of version 1. -/
def corrArtifactParse (root : Json) : Option (List CorrRule × CorrLoadStats) :=
  match root with
  | .obj ms =>
    match (Json.obj ms).get (cstr "version") with
    | some (.int i) =>
      if lib.getInt (.int i) ≠ 1 then none
      else
        match (Json.obj ms).get (cstr "correlations") with
        | some (.arr elems) => some (elems.foldl (parseElement lib) ([], ⟨0, 0, 0, 0⟩))
        | _ => none
    | _ => none
  | _ => none

end Parse

/-! ## Local indices

A rule names its base rules by their position in the file, in its condition and in its alias rows.
The loader drops rule ids that do not fit 32 bits and so moves what comes after them, while the
positions stay as they were written. -/

section Indices

variable {lib : JsonLib} {c : Json} {ls : CorrLoadStats} {r : CorrRule}

variable (lib c) in
/-- The ids in the file, in their order. -/
def fileIds : List Int64 := (jarr c (cstr "base_rule_ids")).map lib.getInt64

variable (lib c) in
/-- The file uses local index `n`: a token selects it, or it has an alias row. -/
def UsesIndex (n : ℕ) : Prop :=
  (∃ el ∈ jarr c (cstr "condition_rpn"), ∃ i, jstr lib el (cstr "k") = some (cstr "sel") ∧
      jint lib el (cstr "r") = some i ∧ i.toInt = n) ∨
    n < (jarr c (cstr "alias_group_by")).length

variable (lib c r) in
/-- The base rule at a local index is the one in the file. -/
def SameId (n m : ℕ) : Prop :=
  (r.baseRuleIds[n]?.map fun id => (id.toNat : ℤ)) = (fileIds lib c)[m]?.map Int64.toInt

variable (lib c r) in
/-- The local indices of a rule mean what they mean in the file. -/
structure KeepsIndices : Prop where
  sel : ∀ (k : ℕ) tok el i, r.cond[k]? = some tok → tok.kind = corrCSel →
    (jarr c (cstr "condition_rpn"))[k]? = some el → jint lib el (cstr "r") = some i →
    SameId lib c r tok.ridIdx.toNat i.toInt.toNat
  aliasRow : ∀ n < r.aliasGroupBy.length, SameId lib c r n n

/-- What `parse_one` took from the file. -/
theorem parseOne_spec (h : (parseOne lib c ls).1 = some r) :
    r.baseRuleIds = (((fileIds lib c).take corrMaxRuleIds).filter ridInRange).map
        (fun v => v.toUInt64.toUInt32) ∧
      parseAliasRows lib c r.baseRuleIds.length r.groupBy.length = some r.aliasGroupBy ∧
      parseCond lib c r.baseRuleIds.length = some r.cond := by
  unfold parseOne at h
  dsimp only at h
  split at h
  · rename_i aliasRows toks id haliasRows htoks hid
    rw [← Option.some.inj h]
    refine ⟨?_, haliasRows, htoks⟩
    rw [fileIds, ← List.map_take]
    rfl
  · cases h

/-- The tokens are those of the file, one by one. -/
theorem cond_of_parse (h : (parseOne lib c ls).1 = some r) :
    (jarr c (cstr "condition_rpn")).mapM (parseCondToken lib r.baseRuleIds.length) = some r.cond := by
  have hcond := (parseOne_spec h).2.2
  unfold parseCond at hcond
  unfold jarr
  split at hcond
  · unfold parseCondRpn at hcond
    split at hcond
    · cases hcond
    · exact hcond
  · rw [← Option.some.inj hcond]
    rfl

/-- There is an alias row for each row of the file, and not more than base rules. -/
theorem aliasRows_of_parse (h : (parseOne lib c ls).1 = some r) :
    r.aliasGroupBy.length = (jarr c (cstr "alias_group_by")).length ∧
      r.aliasGroupBy.length ≤ r.baseRuleIds.length := by
  have hrows := (parseOne_spec h).2.1
  unfold parseAliasRows at hrows
  unfold jarr
  split at hrows
  · split at hrows
    · cases hrows
    · rename_i hshape
      push Not at hshape
      have hlen := length_of_mapM hrows
      exact ⟨hlen, (hlen.trans hshape.1).le⟩
  · rw [← Option.some.inj hrows]
    exact ⟨rfl, Nat.zero_le _⟩

/-- A token that selects a base rule has the index of the file, and there is such a base rule. -/
theorem parseCondToken_sel {nBase : ℕ} {el : Json} {tok : CorrCtok}
    (h : parseCondToken lib nBase el = some tok) :
    (tok.kind = corrCSel ↔ jstr lib el (cstr "k") = some (cstr "sel")) ∧
      (tok.kind = corrCSel → ∃ i, jint lib el (cstr "r") = some i ∧ 0 ≤ i.toInt ∧
        i.toInt.toNat < nBase ∧ tok.ridIdx.toNat = i.toInt.toNat) := by
  have hand : corrCAnd ≠ corrCSel := by decide
  have hor : corrCOr ≠ corrCSel := by decide
  have hnot : corrCNot ≠ corrCSel := by decide
  unfold parseCondToken at h
  split at h
  · cases h
  · rename_i k hk
    rw [hk, Option.some_inj]
    split at h
    · rename_i hsel
      split at h
      · cases h
      · rename_i i hi
        split at h
        · cases h
        · rename_i hbound
          push Not at hbound
          rw [← Option.some.inj h]
          refine ⟨iff_of_true rfl hsel, fun _ => ⟨i, hi, hbound.1, hbound.2.1, ?_⟩⟩
          have hnarrow := toUInt32_of_range hbound.1 (by omega)
          dsimp only
          omega
    · rename_i hsel
      split at h
      · rw [← Option.some.inj h]
        exact ⟨iff_of_false hand hsel, fun hkind => absurd hkind hand⟩
      · split at h
        · rw [← Option.some.inj h]
          exact ⟨iff_of_false hor hsel, fun hkind => absurd hkind hor⟩
        · split at h
          · rw [← Option.some.inj h]
            exact ⟨iff_of_false hnot hsel, fun hkind => absurd hkind hnot⟩
          · cases h

/-- The base rules are the ids of the file that are kept. -/
theorem sameId_iff (h : (parseOne lib c ls).1 = some r) {n : ℕ} (hn : n < r.baseRuleIds.length) :
    SameId lib c r n n ↔ Stays ridInRange (fileIds lib c) n := by
  have hbase := (parseOne_spec h).1
  have hlen : n < (((fileIds lib c).take corrMaxRuleIds).filter ridInRange).length := by
    rwa [hbase, List.length_map] at hn
  have hsplit : (fileIds lib c).filter ridInRange =
      ((fileIds lib c).take corrMaxRuleIds).filter ridInRange ++
        ((fileIds lib c).drop corrMaxRuleIds).filter ridInRange := by
    rw [← List.filter_append, List.take_append_drop]
  have hkept : ((fileIds lib c).filter ridInRange)[n]? =
      (((fileIds lib c).take corrMaxRuleIds).filter ridInRange)[n]? := by
    rw [hsplit, List.getElem?_append_left hlen]
  have hlen' : n < ((fileIds lib c).filter ridInRange).length := by
    rw [hsplit, List.length_append]
    omega
  have hvalue : (r.baseRuleIds[n]?.map fun id => (id.toNat : ℤ)) =
      ((fileIds lib c).filter ridInRange)[n]?.map Int64.toInt := by
    rw [hkept, hbase, List.getElem?_map, Option.map_map, List.getElem?_eq_getElem hlen]
    have hrange : ridInRange ((((fileIds lib c).take corrMaxRuleIds).filter ridInRange)[n]) = true :=
      (List.mem_filter.mp (List.getElem_mem hlen)).2
    rw [ridInRange, Bool.not_eq_true', Bool.or_eq_false_iff, decide_eq_false_iff_not,
      decide_eq_false_iff_not] at hrange
    exact congrArg some (toUInt32_of_range (not_lt.mp hrange.1) (not_lt.mp hrange.2))
  rw [stays_iff hlen', SameId, hvalue]
  exact (Option.map_injective fun _ _ => Int64.toInt.inj).eq_iff

/-- **The local indices of a rule mean what they mean in the file exactly when** every index the
file uses stays where it is. -/
theorem parsed_indices_iff (h : (parseOne lib c ls).1 = some r) :
    KeepsIndices lib c r ↔
      ∀ n, UsesIndex lib c n → Stays ridInRange (fileIds lib c) n := by
  obtain ⟨hrows, hfew⟩ := aliasRows_of_parse h
  have htoks := cond_of_parse h
  constructor
  · rintro hkeeps n (⟨el, hel, i, hk, hi, hn⟩ | hn)
    · obtain ⟨k, hat⟩ := List.getElem?_of_mem hel
      have htok := getElem?_of_mapM htoks k
      rw [hat, Option.bind_some] at htok
      have hlt : k < r.cond.length := by
        rw [length_of_mapM htoks]
        exact (List.getElem?_eq_some_iff.mp hat).1
      rw [List.getElem?_eq_getElem hlt] at htok
      obtain ⟨hkind, hsel⟩ := parseCondToken_sel htok.symm
      obtain ⟨i', hi', -, hbase, hidx⟩ := hsel (hkind.mpr hk)
      cases hi.symm.trans hi'
      have hnat : i.toInt.toNat = n := by omega
      have hsame := hkeeps.sel k _ el i (List.getElem?_eq_getElem hlt) (hkind.mpr hk) hat hi
      rw [hidx, hnat] at hsame
      exact (sameId_iff h (hnat ▸ hbase)).mp hsame
    · rw [← hrows] at hn
      exact (sameId_iff h (hn.trans_le hfew)).mp (hkeeps.aliasRow n hn)
  · intro hstays
    refine ⟨fun k tok el i htok hkind hat hi => ?_, fun n hn => ?_⟩
    · have hparsed := getElem?_of_mapM htoks k
      rw [hat, Option.bind_some, htok] at hparsed
      obtain ⟨hsel, hidx⟩ := parseCondToken_sel hparsed.symm
      obtain ⟨i', hi', hpos, hbase, hnat⟩ := hidx hkind
      cases hi.symm.trans hi'
      rw [hnat]
      exact (sameId_iff h hbase).mpr (hstays _ (Or.inl ⟨el, List.mem_of_getElem? hat, i,
        hsel.mp hkind, hi, (Int.toNat_of_nonneg hpos).symm⟩))
    · exact (sameId_iff h (hn.trans_le hfew)).mpr (hstays n (Or.inr (hrows ▸ hn)))

/-- The rules of a file are those of its objects. -/
theorem exists_object_of_mem {root : Json} {rules : List CorrRule}
    (h : corrArtifactParse lib root = some (rules, ls)) (hr : r ∈ rules) :
    ∃ c ∈ jarr root (cstr "correlations"), ∃ ls', (parseOne lib c ls').1 = some r := by
  have hfold : ∀ (elems : List Json) (acc : List CorrRule × CorrLoadStats),
      r ∈ (elems.foldl (parseElement lib) acc).1 →
        r ∈ acc.1 ∨ ∃ c ∈ elems, ∃ ls', (parseOne lib c ls').1 = some r := by
    intro elems
    induction elems with
    | nil => exact fun acc hmem => Or.inl hmem
    | cons c elems ih =>
      intro acc hmem
      rcases ih _ hmem with hacc | ⟨d, hd, hparse⟩
      · unfold parseElement at hacc
        split at hacc
        · split at hacc
          · rename_i hparse
            rcases List.mem_append.mp hacc with hacc | hnew
            · exact Or.inl hacc
            · rw [List.mem_singleton.mp hnew]
              exact Or.inr ⟨_, List.mem_cons_self, acc.2, by rw [hparse]⟩
          · exact Or.inl hacc
        · exact Or.inl hacc
      · exact Or.inr ⟨d, List.mem_cons_of_mem c hd, hparse⟩
  unfold corrArtifactParse at h
  split at h
  · split at h
    · split at h
      · cases h
      · split at h
        · rename_i elems helems
          have hrules : (elems.foldl (parseElement lib) ([], ⟨0, 0, 0, 0⟩)).1 = rules :=
            congrArg Prod.fst (Option.some.inj h)
          rw [jarr, helems]
          rcases hfold elems ([], ⟨0, 0, 0, 0⟩) (by rw [hrules]; exact hr) with hnil | hex
          · exact absurd hnil List.not_mem_nil
          · exact hex
        · cases h
    · cases h
  · cases h

/-- A correlation whose condition selects local index 1. -/
def selectSecond (ids : List Json) : Json :=
  .obj [(cstr "id", .str (cstr "c")), (cstr "base_rule_ids", .arr ids),
    (cstr "condition_rpn", .arr [.obj [(cstr "k", .str (cstr "sel")), (cstr "r", .int 1)]])]

/-- Without a dropped id the index means what it means in the file. -/
theorem parsed_indices_sample :
    ∃ r, (parseOne JsonLib.strict (selectSecond [.int 7, .int 8]) ⟨0, 0, 0, 0⟩).1 = some r ∧
      KeepsIndices JsonLib.strict (selectSecond [.int 7, .int 8]) r := by
  have hparse : (parseOne JsonLib.strict (selectSecond [.int 7, .int 8]) ⟨0, 0, 0, 0⟩).1 =
      some _ := rfl
  refine ⟨_, hparse, (parsed_indices_iff hparse).mpr fun n hn => ?_⟩
  have hone : n = 1 := by
    rcases hn with ⟨el, hel, i, -, hi, hn⟩ | hn
    · rw [List.mem_singleton.mp hel] at hi
      have hi1 : i = 1 := (Option.some.inj hi).symm
      have hint : (1 : Int64).toInt = 1 := by decide
      rw [hi1, hint] at hn
      omega
    · exact absurd hn (Nat.not_lt_zero n)
  subst hone
  refine Or.inl fun i hi => ?_
  interval_cases i
  · exact ⟨7, rfl, by decide⟩
  · exact ⟨8, rfl, by decide⟩

/-- After a dropped id the condition asks for another rule. -/
theorem parsed_index_shifted :
    ¬ ∀ (lib : JsonLib) (c : Json) (ls : CorrLoadStats) (r : CorrRule), lib.Exact →
      (parseOne lib c ls).1 = some r → KeepsIndices lib c r := by
  intro hclaim
  have hkeeps := hclaim JsonLib.strict (selectSecond [.int 4294967296, .int 7, .int 8])
    ⟨0, 0, 0, 0⟩ _ JsonLib.strict_exact rfl
  have hsame := hkeeps.sel 0 _ _ _ rfl rfl rfl rfl
  revert hsame
  unfold SameId
  decide

end Indices

end LibSigma
