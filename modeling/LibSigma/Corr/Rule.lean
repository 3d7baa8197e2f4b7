import Mathlib.Algebra.Order.Field.Rat

/-!
# Correlation rules

`classify_corr.h` and the rule side of `classify_corr.c`: rule and caps records, the admission
checks and the fidelity tier.

## How the records are read

Pointers that may be `NULL` are options, arrays with their counts are lists, `NULL` being the empty
one.  A C string is its bytes before the terminator.  Times and values are rational numbers;
`LibSigma.Corr.Doubles` says which operations on them round.

A number that the source stores in an enumeration need not be in it: a caller can write any number,
and the engine has `default` branches for them.  So the type and the operator of a rule are options,
with `none` for a number outside the enumeration.

## What admission promises

`corr_engine_new` drops a rule that `rule_valid` rejects, and one with a condition over more base
rules than the seen mask has bits.  All that later modules know of a rule is `CorrRule.admitted`,
and what they need of it they derive once: a positive `timespan_s`, a bounded number of buckets, a
percentile between 0 and 100.

## Counters

The counters are split in two.  `CorrCounter` are those that depend on the rules and the calls
alone, and so have a meaning for an engine.  `CorrSinkCounter` are the two that depend on the arrays
that a caller passes for its fires.
-/

namespace LibSigma

/-- A C string: its bytes before the terminator. -/
abbrev CStr := List UInt8

instance : LawfulBEq CStr := inferInstanceAs (LawfulBEq (List UInt8))

/-- A string constant of the source. -/
def cstr (s : String) : CStr := s.toList.map fun c => c.toNat.toUInt8

/-- `corr_type_t`. -/
inductive CorrType where
  | eventCount
  | valueCount
  | temporal
  | temporalOrdered
  | valueSum
  | valueAvg
  | beaconing
  | valuePercentile
  | valueMedian
  deriving DecidableEq, Repr

/-- `corr_op_t`. -/
inductive CorrOp where
  | gte
  | gt
  | lte
  | lt
  | eq
  deriving DecidableEq, Repr

/-- `corr_ctok_t`. -/
structure CorrCtok where
  kind : UInt8
  ridIdx : UInt32
  deriving DecidableEq, Repr

/-- `corr_ctok_kind_t`. -/
def corrCSel : UInt8 := 0
def corrCAnd : UInt8 := 1
def corrCOr : UInt8 := 2
def corrCNot : UInt8 := 3

/-- `CORR_MAX_SEEN_RULES`, `CORR_MAX_GROUP_FIELDS`, `CORR_BEACON_MAX_BUCKETS`, `CORR_WM_CAP` and
`CORR_COND_STACK_MAX`. -/
def corrMaxSeenRules : ℕ := 64
def corrMaxGroupFields : ℕ := 8
def corrBeaconMaxBuckets : ℕ := 1024
def corrWmCap : ℕ := 32
def corrCondStackMax : ℕ := 64

/-- `corr_rule_t`.  The type and the operator are `none` when the stored number is outside the
enumeration.  A group-by field name, an alias row and a name in it may be `NULL`. -/
structure CorrRule where
  id : Option CStr
  title : Option CStr
  type : Option CorrType
  baseRuleIds : List UInt32
  orderedRuleIds : List UInt32
  groupBy : List (Option CStr)
  aliasGroupBy : List (Option (List (Option CStr)))
  valueField : Option CStr
  condOp : Option CorrOp
  condCount : Int
  timespanS : Int
  level : Option CStr
  mitre : Option CStr
  cond : List CorrCtok
  beaconCvPermille : Int
  beaconNBuckets : Int
  valuePercentile : Int
  deriving DecidableEq, Repr

/-- `corr_caps_t`. -/
structure CorrCaps where
  maxGroups : ℕ
  maxDistinct : ℕ
  maxEventsPerGroup : ℕ
  sweepIntervalS : ℚ
  eventTimeOrdering : Bool
  watermarkS : ℚ
  deriving DecidableEq, Repr

/-- The defaults `corr_engine_new` puts in place of zeros. -/
def CorrCaps.withDefaults (caps : CorrCaps) : CorrCaps :=
  { caps with
    maxGroups := if caps.maxGroups = 0 then 50000 else caps.maxGroups
    maxDistinct := if caps.maxDistinct = 0 then 10000 else caps.maxDistinct
    maxEventsPerGroup := if caps.maxEventsPerGroup = 0 then 4096 else caps.maxEventsPerGroup
    sweepIntervalS := if caps.sweepIntervalS ≤ 0 then 30 else caps.sweepIntervalS }

/-! ## Counters -/

/-- The counters of `corr_stats_t` that do not depend on the arrays of the caller.  They are `uint64_t`
there and natural numbers here: the same as long as fewer than 2^64 are counted. -/
inductive CorrCounter where
  | groupsEvicted
  | distinctEvicted
  | eventsOverwritten
  | firesSuppressed
  | rulesRejected
  | eventSkippedMissingField
  | seenTruncated
  | hitsTruncated
  | valuesNonnumeric
  | condOverArity
  | watermarkLate
  | hotkeyFallback
  deriving DecidableEq, Repr

/-- The counters of `corr_stats_t` that count what the arrays of the caller have no room for. -/
inductive CorrSinkCounter where
  | firesTruncated
  | groupEvidenceDropped
  deriving DecidableEq, Repr

/-! ## Fidelity tiers -/

/-- `corr_tier_t`. -/
inductive CorrTier where
  | weak
  | strong
  deriving DecidableEq, Repr

/-- `corr_tier_weight`. -/
def corrTierWeight : CorrTier → ℚ
  | .strong => 6 / 10
  | .weak => 3 / 10

/-- An ASCII letter in lower case. -/
def corrLower (c : UInt8) : UInt8 := if 65 ≤ c ∧ c ≤ 90 then c - 65 + 97 else c

/-- `str_ieq`. -/
def strIeq : CStr → CStr → Bool
  | a :: as, b :: bs => corrLower a == corrLower b && strIeq as bs
  | [], [] => true
  | _, _ => false

/-- `corr_tier_for`. -/
def corrTierFor (type : Option CorrType) (level : Option CStr) : CorrTier :=
  if type = some .temporal ∨ type = some .temporalOrdered ∨ type = some .beaconing then .strong
  else
    let lvl := if level.getD [] = [] then cstr "medium" else level.getD []
    if strIeq lvl (cstr "high") || strIeq lvl (cstr "critical") then .strong else .weak

/-! ## Admission -/

/-- The types whose `value_field` is required. -/
def CorrType.needsValueField : CorrType → Bool
  | .valueCount | .valueSum | .valueAvg | .valuePercentile | .valueMedian => true
  | _ => false

/-- What `rule_valid` demands of a beaconing rule. -/
def CorrRule.beaconingOk (r : CorrRule) : Bool :=
  !(decide (r.beaconCvPermille ≤ 0) || decide (r.condCount < 3)) &&
  !decide (r.beaconNBuckets < 0) &&
  !(decide (0 < r.beaconNBuckets) &&
    (decide (r.beaconNBuckets < 2) || decide (corrBeaconMaxBuckets < r.beaconNBuckets) ||
      decide (r.timespanS < r.beaconNBuckets)))

/-- `rule_valid`. -/
def ruleValid (r : CorrRule) : Bool :=
  r.id.getD [] != [] &&
  (match r.type with
  | none => false
  | some type =>
    !r.baseRuleIds.isEmpty &&
    decide (0 < r.timespanS) &&
    decide (r.groupBy.length ≤ corrMaxGroupFields) &&
    (r.aliasGroupBy.isEmpty || r.aliasGroupBy.length == r.baseRuleIds.length) &&
    !(type.needsValueField && r.valueField.getD [] == []) &&
    !(type == .valuePercentile &&
      (decide (r.valuePercentile < 0) || decide (100 < r.valuePercentile))) &&
    (type != .beaconing || r.beaconingOk))

/-- The rules `corr_engine_new` admits: a condition over more bases than the seen mask has bits is
rejected too. -/
def CorrRule.admitted (r : CorrRule) : Bool :=
  !(!r.cond.isEmpty && decide (corrMaxSeenRules < r.baseRuleIds.length)) && ruleValid r

/-! ## Group-by fields -/

/-- `corr_group_fields`: the row of the first base rule with this id that has one. -/
def corrGroupFields (r : CorrRule) (rid : UInt32) : List (Option CStr) :=
  if !r.aliasGroupBy.isEmpty && r.aliasGroupBy.length == r.baseRuleIds.length then
    match (r.baseRuleIds.zip r.aliasGroupBy).find? fun p => p.1 == rid && p.2.isSome with
    | some (_, some row) => row
    | _ => r.groupBy
  else r.groupBy

end LibSigma
