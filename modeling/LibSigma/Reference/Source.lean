import Mathlib.Data.List.SplitBy
import LibSigma.Matcher.Report
import LibSigma.Matcher.Routing
import LibSigma.Reference.Emitter

/-!
# What the calls on a builder say

The calls of `SigmaDbBuilder` describe rules by names: a predicate names its field, an operand is a
string.  `SourceDb` keeps what they say, without the string pool, the offsets and the field numbers
of the builder, and says what the rules mean on an event.

## A source language

The builder's calls are the source language of the format, and this module is its semantics.  It has
one structure, to which each call adds what it was given, and functions from an event to a truth
value for predicates, groups, selections, conditions and rules.  None of it mentions a table.  The
meaning of a test is taken over from the matcher's functions on bytes, since what "contains" or "in
this network" mean is decided there; how tests are put together is defined anew.

## What raises adds nothing

A call that raises leaves a builder as it was, and so it adds nothing here either.  The program that
makes the calls may go on after an exception.  Therefore all theorems are about arbitrary sequences
of calls, with those that raise in between.

## Malformed conditions

Conditions are strings of tokens here too, because the builder takes any.  What a well formed one
means is said by `SourceDb.ruleHolds_iff_of_cond`, in terms of the expression it is the code of, and
the others never hold.

* `SourceDb.apply`: what a call adds.
* `SourceDb.predHolds`, `SourceDb.selHolds`, `SourceDb.ruleHolds`: the meaning of a rule.
* `SourceDb.report`: the rules that hold on an event, in the order of their calls.
* `SourceDb.ruleHolds_iff_of_cond`: a condition means the expression it is the code of.
-/

namespace LibSigma

open Library

/-! ## What is said -/

/-- A predicate with the name of its field. -/
structure SourcePred where
  field : PyStr
  op : Int
  flags : Int
  group : Int
  valueId : Int
  ival : Int

/-- What the calls on a builder have said: names and strings, in the order in which they came. -/
structure SourceDb where
  fields : List PyStr
  values : List PyStr
  preds : List SourcePred
  sels : List (Int × Int)
  cond : List (Int × Int)
  rules : List PyRule
  cidrs : List PyCidr
  buckets : List (PyStr × List Int)
  needles : List (PyStr × List PyLitref)
  alwaysVerify : List Int
  ruleClauses : List Int
  fwits : List PyFwit

namespace SourceDb

/-- Nothing is said yet. -/
def init : SourceDb := ⟨[], [], [], [], [], [], [], [], [], [], [], []⟩

/-- A field is mentioned; `none` if its name cannot be written. -/
def mention (s : SourceDb) (name : PyStr) : Option SourceDb :=
  if name ∈ s.fields then some s
  else if (encodeUtf8 name).isSome then some { s with fields := s.fields ++ [name] }
  else none

/-- What a call adds; a call that raises adds nothing. -/
def apply (s : SourceDb) : BuilderCall → SourceDb
  | .field name => (s.mention name).getD s
  | .value v => if (encodeUtf8 v).isSome then { s with values := s.values ++ [v] } else s
  | .cidr family prefixLen net =>
    let row : PyCidr := ⟨family, prefixLen, SigmaDbBuilder.padNet net⟩
    if row ∈ s.cidrs then s else { s with cidrs := s.cidrs ++ [row] }
  | .pred fieldName op valueId group flags ival =>
    ((s.mention fieldName).map fun s =>
      { s with preds := s.preds ++ [⟨fieldName, op, flags, group, valueId, ival⟩] }).getD s
  | .endSel predStart => { s with sels := s.sels ++ [(predStart, s.preds.length - predStart)] }
  | .rule ruleId selStart selCount cond verdict severity scoreX100 nameId mitreId =>
    { s with
      cond := s.cond ++ cond.getD []
      rules := s.rules ++ [⟨ruleId, selStart, selCount, s.cond.length, (cond.getD []).length, verdict,
        severity, scoreX100, nameId, mitreId⟩] }
  | .setBuckets buckets => { s with buckets := buckets.sorted.filter fun p => !p.2.isEmpty }
  | .setLitidx needleRefs alwaysVerify ruleClauses fwits =>
    { s with
      needles := needleRefs.sorted.filter fun p => !p.1.isEmpty && !p.2.isEmpty
      alwaysVerify := alwaysVerify
      ruleClauses := ruleClauses.getD []
      fwits := fwits.getD [] }

/-- What a sequence of calls says. -/
def ofCalls (calls : List BuilderCall) : SourceDb := calls.foldl apply init

end SourceDb

/-! ## What it means -/

/-- A flag of a predicate. -/
def SourcePred.flag (p : SourcePred) (bit : UInt8) : Bool := UInt8.ofNat p.flags.toNat &&& bit ≠ 0

/-- The operator of a predicate. -/
def SourcePred.sigmaOp (p : SourcePred) : Option SigmaOp := SigmaOp.ofByte (UInt8.ofNat p.op.toNat)

/-- A network as the address test reads it. -/
def PyCidr.network (c : PyCidr) : SigmaCidr where
  family := UInt8.ofNat c.family.toNat
  prefixLen := UInt8.ofNat c.prefixLen.toNat
  pad := .replicate 2 0
  net := .ofFn fun i => c.net.getD i 0

/-- A token of a condition. -/
def sourceTok (k : Int × Int) : RpnTok UInt32 :=
  if k.1 = 0 then .arg (UInt32.ofNat k.2.toNat)
  else if k.1 = 3 then .not
  else if k.1 = 1 then .and
  else .or

namespace SourceDb

section Meaning

variable (pf : Platform) (s : SourceDb) (ev : Event)

/-- The operand of a string predicate: the value of another field of the event, or a string. -/
def operand (p : SourcePred) : Option Bytes :=
  if p.flag sigmaPfFieldref then
    if p.valueId ≤ 0xFFFF then (s.fields[p.valueId.toNat]?).bind fun name => ev (encoded name) else none
  else (s.values[p.valueId.toNat]?).map encoded

/-- The pattern of a predicate. -/
def pattern (p : SourcePred) : Option SigmaRe :=
  (s.values[p.valueId.toNat]?).map fun v => ⟨encoded v, !p.flag sigmaPfCase⟩

/-- The test of a predicate on a value that is there. -/
def testHolds (p : SourcePred) (val : Bytes) : Bool :=
  match p.sigmaOp with
  | some .opGt => (sgToI64 val).any (numHolds .opGt · (Int64.ofInt p.ival))
  | some .opGte => (sgToI64 val).any (numHolds .opGte · (Int64.ofInt p.ival))
  | some .opLt => (sgToI64 val).any (numHolds .opLt · (Int64.ofInt p.ival))
  | some .opLte => (sgToI64 val).any (numHolds .opLte · (Int64.ofInt p.ival))
  | some .opNumeq => (sgToI64 val).any (numHolds .opNumeq · (Int64.ofInt p.ival))
  | some .opCidr => (s.cidrs[p.valueId.toNat]?).any fun c => cidrVerdict pf val c.network
  | some .opRe => (s.pattern p).any fun re => pf.pcre2Compiles re && pf.pcre2Match re val
  | op => (s.operand ev p).any fun o => strHolds op val o (p.flag sigmaPfCase)

/-- A predicate holds of an event. -/
def predHolds (p : SourcePred) : Bool :=
  let res :=
    if p.sigmaOp = some .opExists then (ev (encoded p.field)).any fun v => 0 < v.length
    else (ev (encoded p.field)).any fun v => testHolds pf s ev p v
  if p.flag sigmaPfNegate then !res else res

/-- The groups of a selection: its predicates, cut where the group changes. -/
def groups (sel : Int × Int) : List (List SourcePred) :=
  (slice s.preds sel.1.toNat sel.2.toNat).splitBy fun p q => p.group == q.group

/-- A selection holds of an event: there is a group, and in each group some predicate holds. -/
def selHolds (sel : Int × Int) : Bool :=
  !(s.groups sel).isEmpty && (s.groups sel).all fun g => g.any (predHolds pf s ev)

/-- Selection `idx` of a rule. -/
def ruleSelHolds (r : PyRule) (idx : ℕ) : Bool :=
  (s.sels[r.selStart.toNat + idx]?).any (selHolds pf s ev)

/-- The condition of a rule. -/
def ruleToks (r : PyRule) : List (RpnTok UInt32) :=
  (slice s.cond r.condStart.toNat r.condCount.toNat).map sourceTok

/-- A rule holds of an event: without a condition all of its selections, and there is one; with a
condition, what the condition says of them. -/
def ruleHolds (r : PyRule) : Bool :=
  if r.condCount = 0 then
    decide (0 < r.selCount) && (List.range r.selCount.toNat).all (ruleSelHolds pf s ev r)
  else
    stackVerdict (fun i => ruleSelHolds pf s ev r i.toNat)
      (rpnRun sigmaCondStackMax (fun i => decide ((i.toNat : Int) < r.selCount)) (s.ruleToks r) [])

/-- What is reported of a rule. -/
def hit (r : PyRule) : SigmaHit where
  ruleId := UInt32.ofNat r.ruleId.toNat
  verdict := UInt8.ofNat r.verdict.toNat
  severity := UInt8.ofNat r.severity.toNat
  scoreX100 := UInt16.ofNat r.scoreX100.toNat
  mitre :=
    if r.mitreId ≠ sigmaNoValue.toNat then (s.values[r.mitreId.toNat]?).map encoded else none

/-- The report of some rules. -/
def reportOf (maxHits : Int) (fired : List PyRule) : Report :=
  ⟨fired.length, (fired.take maxHits.toNat).map s.hit⟩

/-- What an event reports: the rules that hold, in the order of their calls. -/
def report (maxHits : Int) : Report :=
  s.reportOf maxHits (s.rules.filter (ruleHolds pf s ev))

/-- The rules of the buckets an event goes to: the bucket without a name, and those named by a route
field. -/
def inScope (i : ℕ) : Prop :=
  ∃ p ∈ s.buckets, (i : Int) ∈ p.2 ∧
    (p.1 = [] ∨ ∃ name ∈ routeNames, ∃ v, ev name = some v ∧ v ≠ [] ∧ encoded p.1 = v)

variable {pf s ev}

/-- **A condition means the expression it is the code of**, if that expression fits the stack and
names selections of the rule; any other condition never holds. -/
theorem ruleHolds_iff_of_cond {r : PyRule} (hcond : r.condCount ≠ 0) :
    ruleHolds pf s ev r = true ↔
      ∃ e : BoolExpr UInt32, e.code = s.ruleToks r ∧ e.depth ≤ sigmaCondStackMax ∧
        (∀ i ∈ e.args, (i.toNat : Int) < r.selCount) ∧
        e.eval (fun i => ruleSelHolds pf s ev r i.toNat) = true := by
  rw [ruleHolds, if_neg hcond]
  constructor
  · intro h
    unfold stackVerdict at h
    split at h
    · rename_i e hrun
      obtain ⟨hcode, hfit, hargs⟩ := rpnRun_eq_singleton_iff.mp hrun
      exact ⟨e, hcode.symm, hfit, fun i hi => of_decide_eq_true (hargs i hi), h⟩
    · cases h
  · rintro ⟨e, hcode, hfit, hargs, heval⟩
    have hrun := rpnRun_eq_singleton_iff.mpr ⟨hcode.symm, hfit, fun i hi =>
      decide_eq_true (hargs i hi)⟩
    rw [hrun]
    exact heval

end Meaning

end SourceDb

end LibSigma
