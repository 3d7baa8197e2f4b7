import LibSigma.Matcher.Format

/-!
# Evaluating an event

`sigma_match.c`: field resolution, predicates, selections, the lazy condition machine, the prefilter
and the two entry points `sigma_eval_run` and `sigma_eval_run_linear`.

This is the bottom of the development of the matcher.  Everything here is translated function by
function and under the names of the source, and nothing here is proved: what the functions do is
said in `LibSigma.Matcher.RuleMatch` (one rule), `LibSigma.Matcher.Run` (one event) and
`LibSigma.Matcher.Calls` (calls on one scratch).

## The scratch is the state

The source keeps one `struct sigma_eval` for each thread and fills it anew on every event: the
values of the fields that were looked up, the selections that were run, the rules that are done, the
clauses that are credited.  Nearly all of it is lazy and nearly none of it is cleared.  A generation
number is put on what is written and is raised between events, so that an old entry counts as
absent.  Whether that works is one of the questions to answer, so the model keeps the numbers and
their wrap-around (`bumpEvalGen`), and the code is a `StateT` over the scratch.

## Accesses can fail

The tables of an artifact refer to each other by index, and C reads whatever is there.  Here every
access is checked and one that is out of range is a `Fault`, not a default value.  So a statement
that a run returns `.ok` also says that it reads nothing it should not, and the statements about
results are about runs that were shown to be `.ok`.

## What is observable

`log` is not in the source.  It records what the caller of the matcher could see of an evaluation,
the calls of its field callback in particular, and what a counter counts, in order.  No function
reads it.

## What stands outside

Regular expressions and the vector instructions are parameters of the platform (`Platform`); the
needle matchers of the prefilter are in `LibSigma.Matcher.Teddy`.  Loops of the source are
structural recursion on what is still to do, a list or a number of entries of a table, so that all
of this can be run.
-/

namespace LibSigma

open Library

/-! ## The scratch -/

/-- `sigma_eval_stats_t`.  The counters are `uint64_t` there and natural numbers here: the same as long
as fewer than 2^64 are counted. -/
structure SigmaEvalStats where
  events : ℕ
  rulesInScope : ℕ
  rulesVerified : ℕ
  prefilterRuns : ℕ
  needlesConfirmed : ℕ
  chainSteps : ℕ
  haystackBytes : ℕ
  deriving DecidableEq, Repr

/-- What an evaluation does that its caller could observe or that a counter counts. -/
inductive Obs where
  | resolve (fieldId : ℕ)
  | call (name : Bytes)
  | ruleMatch (ruleIdx : ℕ)
  | scan (fieldId : ℕ) (len : ℕ)
  | confirm (needle : ℕ)
  deriving DecidableEq, Repr

/-- `struct sigma_eval`.  An array that was not allocated is empty.  `memo` is `vptr`, `vlen` and
`vstate` together: an unresolved entry is `none`.  `log` records what the evaluation did, newest
first; no code reads it. -/
structure SigmaEval where
  memo : List (Option (Option Bytes))
  ruleMask : List UInt32
  ruleGen : List UInt32
  evalDone : List UInt32
  gen : UInt32
  curField : UInt16
  tscr : TeddyScratch
  st : SigmaEvalStats
  prefilterOn : Int
  log : List Obs

/-- A computation over the scratch. -/
abbrev EvalM := StateT SigmaEval (Except Fault)

/-- `sigma_eval_create`. -/
def sigmaEvalCreate (db : SigmaDb) : SigmaEval :=
  let masks := db.rules.length ≠ 0 ∧ (db.teddy.isSome ∨ db.fwit.length ≠ 0)
  { memo := List.replicate (max 1 db.fields.length) none
    ruleMask := if masks then List.replicate db.rules.length 0 else []
    ruleGen := if masks then List.replicate db.rules.length 0 else []
    evalDone := List.replicate db.rules.length 0
    gen := 0
    curField := 0
    tscr := sigmaTeddyScratchInit (if masks ∧ db.teddy.isSome then db.litndl.length else 0)
    st := ⟨0, 0, 0, 0, 0, 0, 0⟩
    prefilterOn := 1
    log := [] }

/-- `sigma_eval_set_prefilter`. -/
def sigmaEvalSetPrefilter (enabled : Int) (e : SigmaEval) : SigmaEval :=
  { e with prefilterOn := if enabled < 0 then 0 else if 2 < enabled then 2 else enabled }

/-- `sigma_eval_reset_stats`. -/
def sigmaEvalResetStats (e : SigmaEval) : SigmaEval := { e with st := ⟨0, 0, 0, 0, 0, 0, 0⟩ }

/-- `bump_eval_gen`. -/
def bumpEvalGen (e : SigmaEval) : SigmaEval :=
  { e with
    ruleGen := nextCells e.gen e.ruleGen
    evalDone := nextCells e.gen e.evalDone
    gen := nextGen e.gen }

/-- The reset of the resolve memo at the start of an event. -/
def clearMemo (e : SigmaEval) : SigmaEval :=
  { e with memo := e.memo.map fun _ => none }

section Matching

variable (pf : Platform) (db : SigmaDb) (ev : Event)

/-! ## Predicates -/

/-- `resolve_field`. -/
def resolveField (fieldId : UInt16) : EvalM (Option Bytes) := do
  modifyState fun e => { e with log := .resolve fieldId.toNat :: e.log }
  if db.fields.length ≤ fieldId.toNat then pure none
  else do
    let e ← get
    let slot ← tableAt .memo e.memo fieldId.toNat
    match slot with
    | some v => pure v
    | none => do
      let f ← tableAt .fields db.fields fieldId.toNat
      let name ← db.poolName f
      let v := ev name
      modifyState fun e =>
        { e with memo := e.memo.set fieldId.toNat (some v), log := .call name :: e.log }
      pure v

/-- The operand of a string predicate: another field's value, or an entry of `values`. -/
def predOperand (p : SigmaPred) : EvalM (Option Bytes) :=
  if p.flags &&& sigmaPfFieldref ≠ 0 then
    if db.fields.length ≤ p.valueId.toNat ∨ 0xFFFF < p.valueId.toNat then pure none
    else resolveField db ev p.valueId.toUInt16
  else if p.valueId.toNat < db.values.length then do
    let s ← tableAt .values db.values p.valueId.toNat
    let o ← db.poolStr s
    pure (some o)
  else pure none

/-- The string comparisons of `pred_match`. -/
def strHolds (op : Option SigmaOp) (val o : Bytes) (cs : Bool) : Bool :=
  match op with
  | some .opEq => sgEq val o cs
  | some .opContains => if cs then sgContains val o true else (sigmaMemmemCiScalar val o).isSome
  | some .opStartswith => sgStarts val o cs
  | some .opEndswith => sgEnds val o cs
  | _ => false

/-- The string branches of `pred_match`: false without an operand. -/
def operandTest (p : SigmaPred) (op : Option SigmaOp) (val : Bytes) : EvalM Bool := do
  let o ← predOperand db ev p
  match o with
  | none => pure false
  | some o => pure (strHolds op val o (p.flags &&& sigmaPfCase ≠ 0))

/-- The test of `pred_match` on a field that is present. -/
def predTest (p : SigmaPred) (predIdx : ℕ) (val : Bytes) : EvalM Bool :=
  match SigmaOp.ofByte p.op with
  | some .opGt => pure ((sgToI64 val).any (numHolds .opGt · p.ival))
  | some .opGte => pure ((sgToI64 val).any (numHolds .opGte · p.ival))
  | some .opLt => pure ((sgToI64 val).any (numHolds .opLt · p.ival))
  | some .opLte => pure ((sgToI64 val).any (numHolds .opLte · p.ival))
  | some .opNumeq => pure ((sgToI64 val).any (numHolds .opNumeq · p.ival))
  | some .opCidr =>
    if p.valueId.toNat < db.cidrs.length then do
      let c ← tableAt .cidrs db.cidrs p.valueId.toNat
      pure (cidrVerdict pf val c)
    else pure false
  | some .opRe =>
    match db.re with
    | none => pure false
    | some arr =>
      if db.preds.length ≤ predIdx then pure false
      else do
        let code ← tableAt .re arr predIdx
        pure (code.any fun c => pf.pcre2Match c val)
  | op => operandTest db ev p op val

/-- `pred_match`. -/
def predMatch (p : SigmaPred) (predIdx : ℕ) : EvalM Bool := do
  let val ← resolveField db ev p.fieldId
  let res ←
    if SigmaOp.ofByte p.op = some .opExists then pure (val.any fun v => 0 < v.length)
    else match val with
      | none => pure false
      | some v => predTest pf db ev p predIdx v
  pure (if p.flags &&& sigmaPfNegate ≠ 0 then !res else res)

/-! ## Selections -/

/-- The loop of `sel_match` over the predicates from `start + i`. -/
def selLoop (start : ℕ) : ℕ → ℕ → Bool → UInt16 → EvalM Bool
  | 0, _, groupOr, _ => pure groupOr
  | k + 1, i, groupOr, curGroup => do
    let p ← tableAt .preds db.preds (start + i)
    if p.groupId ≠ curGroup then
      -- a completed group failed: the selection fails
      if !groupOr then pure false
      else do
        let hit ← predMatch pf db ev p (start + i)
        selLoop start k (i + 1) hit p.groupId
    else if !groupOr then do
      let hit ← predMatch pf db ev p (start + i)
      selLoop start k (i + 1) hit curGroup
    else selLoop start k (i + 1) true curGroup

/-- `sel_match`. -/
def selMatch (sel : SigmaSel) : EvalM Bool :=
  if sel.predCount = 0 then pure false
  else do
    let p ← tableAt .preds db.preds sel.predStart.toNat
    selLoop pf db ev sel.predStart.toNat sel.predCount.toNat 0 false p.groupId

/-! ## Conditions -/

/-- `rpn_cell_t`: a value, a selection not yet run, or the deferred NOT of one. -/
inductive RpnCell where
  | bool (val : Bool)
  | sel (selIdx : UInt32)
  | notsel (selIdx : UInt32)
  deriving DecidableEq, Repr

/-- `sel_match` on selection `idx` of a rule. -/
def ruleSel (r : SigmaRule) (idx : ℕ) : EvalM Bool := do
  let s ← tableAt .sels db.sels (r.selStart.toNat + idx)
  selMatch pf db ev s

/-- `rpn_force`. -/
def rpnForce (r : SigmaRule) : RpnCell → EvalM Bool
  | .bool val => pure val
  | .sel idx =>
    if r.selCount ≤ idx then pure false else ruleSel pf db ev r idx.toNat
  | .notsel idx =>
    if r.selCount ≤ idx then pure false
    else do
      let hit ← ruleSel pf db ev r idx.toNat
      pure !hit

/-- NOT of a cell, without running anything. -/
def RpnCell.negate : RpnCell → RpnCell
  | .bool val => .bool !val
  | .sel idx => .notsel idx
  | .notsel idx => .sel idx

/-- One token of the condition, on the stack with its top first; `none` is `return false`. -/
def condStep (r : SigmaRule) (tok : SigmaCtok) (stack : List RpnCell) :
    EvalM (Option (List RpnCell)) :=
  if tok.kind = sigmaCSel then
    if sigmaCondStackMax ≤ stack.length then pure none
    else if r.selCount ≤ tok.selIdx then pure none
    else if stack.length < sigmaCondStackMax then pure (some (.sel tok.selIdx :: stack))
    else throw .stack
  else if tok.kind = sigmaCNot then
    if stack.length < 1 then pure none
    else match stack with
      | c :: rest => pure (some (c.negate :: rest))
      | _ => throw .stack
  else if tok.kind = sigmaCAnd then
    if stack.length < 2 then pure none
    else match stack with
      | b :: a :: rest => do
        let av ← rpnForce pf db ev r a
        let val ← if av then rpnForce pf db ev r b else pure false
        pure (some (.bool val :: rest))
      | _ => throw .stack
  else if tok.kind = sigmaCOr then
    if stack.length < 2 then pure none
    else match stack with
      | b :: a :: rest => do
        let av ← rpnForce pf db ev r a
        let val ← if av then pure true else rpnForce pf db ev r b
        pure (some (.bool val :: rest))
      | _ => throw .stack
  else pure none

/-- The token loop of `rule_match` from token `i`. -/
def condLoop (r : SigmaRule) : ℕ → ℕ → List RpnCell → EvalM Bool
  | 0, _, stack =>
    if stack.length ≠ 1 then pure false
    else match stack with
      | c :: _ => rpnForce pf db ev r c
      | _ => throw .stack
  | k + 1, i, stack => do
    let tok ← tableAt .cond db.cond (r.condStart.toNat + i)
    let next ← condStep pf db ev r tok stack
    match next with
    | none => pure false
    | some stack => condLoop r k (i + 1) stack

/-- The implicit AND of `rule_match` over the selections from `i`. -/
def allSels (r : SigmaRule) : ℕ → ℕ → EvalM Bool
  | 0, _ => pure (0 < r.selCount)
  | k + 1, i => do
    let hit ← ruleSel pf db ev r i
    if hit then allSels r k (i + 1) else pure false

/-- `rule_match`. -/
def ruleMatch (r : SigmaRule) : EvalM Bool :=
  if r.condCount = 0 then allSels pf db ev r r.selCount.toNat 0
  else condLoop pf db ev r r.condCount.toNat 0 []

/-! ## Reporting -/

/-- `sigma_hit_t`. -/
structure SigmaHit where
  ruleId : UInt32
  verdict : UInt8
  severity : UInt8
  scoreX100 : UInt16
  mitre : Option Bytes
  deriving DecidableEq, Repr

/-- The running count of fired rules and the hits written to `out[]`. -/
structure Report where
  fired : ℕ
  out : List SigmaHit
  deriving DecidableEq, Repr

/-- The hit of a rule, with its MITRE string. -/
def hitOf (r : SigmaRule) : EvalM SigmaHit := do
  let mitre ←
    if r.mitreId ≠ sigmaNoValue ∧ r.mitreId.toNat < db.values.length then do
      let s ← tableAt .values db.values r.mitreId.toNat
      let m ← db.poolStr s
      pure (some m)
    else pure none
  pure ⟨r.ruleId, r.verdict, r.severity, r.scoreX100, mitre⟩

/-- The `eval_done` test of `eval_one_rule`: true for the first visit of a rule in this run. -/
def firstVisit (ruleIdx : ℕ) : EvalM Bool := do
  let e ← get
  if e.evalDone = [] then pure true
  else do
    let done ← tableAt .stamps e.evalDone ruleIdx
    if done = e.gen then pure false
    else do
      modifyState fun e => { e with evalDone := e.evalDone.set ruleIdx e.gen }
      pure true

/-- `eval_one_rule`. -/
def evalOneRule (maxHits : Int) (ruleIdx : ℕ) (rep : Report) : EvalM Report := do
  let first ← firstVisit ruleIdx
  if first then do
    let r ← tableAt .rules db.rules ruleIdx
    modifyState fun e => { e with log := .ruleMatch ruleIdx :: e.log }
    let hit ← ruleMatch pf db ev r
    if hit then do
      if (rep.fired : Int) < maxHits then do
        let h ← hitOf db r
        pure ⟨rep.fired + 1, rep.out ++ [h]⟩
      else pure ⟨rep.fired + 1, rep.out⟩
    else pure rep
  else pure rep

/-- The loop of a full scan from rule `i`. -/
def evalAll (maxHits : Int) : ℕ → ℕ → Report → EvalM Report
  | 0, _, rep => pure rep
  | k + 1, i, rep => do
    let rep ← evalOneRule pf db ev maxHits i rep
    evalAll maxHits k (i + 1) rep

/-! ## The literal prefilter -/

/-- `rule_full_mask`. -/
def ruleFullMask (ruleIdx : ℕ) : EvalM UInt32 :=
  match db.ruleClauses with
  | none => pure 0
  | some cs => do
    let n ← tableAt .ruleClauses cs ruleIdx
    if n = 0 then pure 0
    else if 32 ≤ n.toNat then pure 0xFFFFFFFF
    else pure ((1 <<< n.toUInt32) - 1)

/-- `pf_is_candidate`. -/
def pfIsCandidate (ruleIdx : ℕ) : EvalM Bool := do
  let e ← get
  let g ← tableAt .stamps e.ruleGen ruleIdx
  if g ≠ e.gen then pure false
  else do
    let m ← tableAt .stamps e.ruleMask ruleIdx
    let full ← ruleFullMask db ruleIdx
    pure (m == full)

/-- `pf_touch`. -/
def pfTouch (ruleIdx : ℕ) : EvalM PUnit := do
  let e ← get
  let g ← tableAt .stamps e.ruleGen ruleIdx
  if g ≠ e.gen then
    modifyState fun e =>
      { e with ruleGen := e.ruleGen.set ruleIdx e.gen, ruleMask := e.ruleMask.set ruleIdx 0 }
  else pure ⟨⟩

/-- `pf_touch(e, ri); e->rule_mask[ri] |= 1u << clause`. -/
def creditClause (ruleIdx : ℕ) (clause : UInt8) : EvalM PUnit := do
  pfTouch ruleIdx
  let e ← get
  let m ← tableAt .stamps e.ruleMask ruleIdx
  if 32 ≤ clause.toNat then throw (.shift clause.toNat)
  else modifyState fun e =>
    { e with ruleMask := e.ruleMask.set ruleIdx (m ||| (1 <<< clause.toUInt32)) }

/-- `bucket_uses_field`. -/
def bucketUsesField (b f : ℕ) : Bool :=
  match db.bucketFields with
  | none => true
  | some bm =>
    if db.bucketKeys.length ≤ b then true
    else (bm.getD (b * db.bucketFieldsStride.toNat + f / 8) 0 >>> (f % 8).toUInt8) &&& 1 ≠ 0

/-- `scan_field`. -/
def scanField (buckets : List ℕ) (f : ℕ) : Bool :=
  if db.litAnyField || db.bucketFields.isNone then true
  else if buckets.length = 0 then true
  else buckets.any fun b => bucketUsesField db b f

/-- `fwit_holds`. -/
def fwitHolds (w : SigmaFwit) : EvalM Bool := do
  let val ← resolveField db ev w.fieldId
  match val with
  | none => pure false
  | some v =>
    if v.length = 0 then pure false
    else if SigmaOp.ofByte w.op = some .opCidr then
      let cid := w.ival.toUInt64.toUInt32
      if db.cidrs.length ≤ cid.toNat then pure false
      else do
        let c ← tableAt .cidrs db.cidrs cid.toNat
        pure (cidrVerdict pf v c)
    else
      match sgToI64 v, SigmaOp.ofByte w.op with
      | some iv, some op => pure (numHolds op iv w.ival)
      | _, _ => pure false

/-- `mark_postings`: credit every posting of a confirmed needle that names the scanned field. -/
def markPostings (needle : ℕ) : EvalM PUnit := do
  modifyState fun e =>
    { e with
      st := { e.st with needlesConfirmed := e.st.needlesConfirmed + 1 }
      log := .confirm needle :: e.log }
  let post ← tableAt .litpost db.litpost needle
  forRange post.idxCount.toNat fun k => do
    let r ← tableAt .litpostRef db.litpostRef (post.idxStart.toNat + k)
    let e ← get
    if r.fieldId ≠ sigmaLitrefAnyField ∧ r.fieldId ≠ e.curField then pure ⟨⟩
    else creditClause r.ruleIdx.toNat r.clauseIdx

/-- The matcher that scans field `f`. -/
def fieldMatcher (t : SigmaTeddy) (f : ℕ) : Option SigmaTeddy :=
  if db.litAnyField then some t
  else match db.fieldTeddy with
    | none => some t
    | some arr => (arr[f]?).join

/-- One field of the scan in `prefilter_candidates`. -/
def scanOneField (t : SigmaTeddy) (buckets : List ℕ) (f : ℕ) : EvalM PUnit :=
  if !scanField db buckets f then pure ⟨⟩
  else match fieldMatcher db t f with
    | none => pure ⟨⟩
    | some tf => do
      let val ← resolveField db ev f.toUInt16
      match val with
      | none => pure ⟨⟩
      | some v =>
        if v.length < 2 then pure ⟨⟩
        else do
          modifyState fun e => { e with curField := f.toUInt16, log := .scan f v.length :: e.log }
          let e ← get
          let scr ← teddyConfirm db tf (markPostings db) pf.simd v e.tscr
          modifyState fun e =>
            { e with
              tscr := scr
              st := { e.st with haystackBytes := e.st.haystackBytes + v.length } }

/-- `prefilter_candidates`: false when the caller must scan its buckets in full. -/
def prefilterCandidates (buckets : List ℕ) : EvalM Bool := do
  let e ← get
  if e.ruleMask = [] ∨ e.prefilterOn = 0 then pure false
  else if db.teddy.isNone ∧ db.fwit.length = 0 then pure false
  else do
    forRange db.litav.length fun i => do
      let ri ← tableAt .litav db.litav i
      let full ← ruleFullMask db ri.toNat
      let e ← get
      let _ ← tableAt .stamps e.ruleGen ri.toNat
      let _ ← tableAt .stamps e.ruleMask ri.toNat
      modifyState fun e =>
        { e with
          ruleGen := e.ruleGen.set ri.toNat e.gen
          ruleMask := e.ruleMask.set ri.toNat full }
    forRange db.fwit.length fun i => do
      let w ← tableAt .fwit db.fwit i
      let holds ← fwitHolds pf db ev w
      if holds then creditClause w.ruleIdx.toNat w.clauseIdx else pure ⟨⟩
    match db.teddy with
    | none => pure ⟨⟩
    | some t => forRange db.fields.length fun f => scanOneField pf db ev t buckets f
    modifyState fun e =>
      { e with st :=
        { e.st with
          chainSteps := e.tscr.chainSteps
          prefilterRuns := e.st.prefilterRuns + 1 } }
    pure true

/-! ## Buckets -/

/-- `prefiltered && !pf_is_candidate(e, ri)`. -/
def gatedOut (prefiltered : Bool) (ruleIdx : ℕ) : EvalM Bool :=
  if prefiltered then do
    let c ← pfIsCandidate db ruleIdx
    pure !c
  else pure false

/-- The rules of a bucket from slot `i`. -/
def bucketLoop (maxHits : Int) (prefiltered : Bool) (start : ℕ) : ℕ → ℕ → Report → EvalM Report
  | 0, _, rep => pure rep
  | k + 1, i, rep => do
    let ri ← tableAt .bucketIdx db.bucketIdx (start + i)
    let gated ← gatedOut db prefiltered ri.toNat
    if gated then bucketLoop maxHits prefiltered start k (i + 1) rep
    else do
      modifyState fun e =>
        { e with st := { e.st with rulesVerified := e.st.rulesVerified + 1 } }
      let rep ← evalOneRule pf db ev maxHits ri.toNat rep
      bucketLoop maxHits prefiltered start k (i + 1) rep

/-- `eval_bucket_prefiltered`. -/
def evalBucketPrefiltered (maxHits : Int) (prefiltered : Bool) (bucketIdx : ℕ) (rep : Report) :
    EvalM Report := do
  let b ← tableAt .buckets db.buckets bucketIdx
  modifyState fun e =>
    { e with st := { e.st with rulesInScope := e.st.rulesInScope + b.idxCount.toNat } }
  bucketLoop pf db ev maxHits prefiltered b.idxStart.toNat b.idxCount.toNat 0 rep

/-- The loop of `find_category_bucket` from bucket `i`. -/
def findBucketLoop (cat : Bytes) : ℕ → ℕ → EvalM (Option ℕ)
  | 0, _ => pure none
  | k + 1, i => do
    let key ← tableAt .bucketKeys db.bucketKeys i
    if key.len.toNat = cat.length ∧ 0 < cat.length then do
      let s ← db.poolStr key
      if s = cat then pure (some i) else findBucketLoop cat k (i + 1)
    else findBucketLoop cat k (i + 1)

/-- `find_category_bucket`. -/
def findCategoryBucket (cat : Bytes) : EvalM (Option ℕ) :=
  findBucketLoop db cat db.bucketKeys.length 0

/-- The names of the route fields. -/
def routeNames : List Bytes :=
  [ascii "event.category", ascii "techno", ascii "product", ascii "technology",
    ascii "observer.product", ascii "event.provider", ascii "event.module", ascii "event.dataset",
    ascii "log.syslog.appname"]

/-- The value of route field `i`: the first is read through the memo when a compiled field has its
name, the others through the callback. -/
def routeValue (i : ℕ) (name : Bytes) : EvalM (Option Bytes) :=
  match i, db.catFieldId with
  | 0, some cat => resolveField db ev cat.toUInt16
  | _, _ => do
    modifyState fun e => { e with log := .call name :: e.log }
    pure (ev name)

/-- `if (k == nsel && nsel < SIGMA_MAX_ROUTE_BUCKETS) sel[nsel++] = b`. -/
def addBucket (sel : List ℕ) (b : ℕ) : List ℕ :=
  if b ∈ sel then sel
  else if sel.length < sigmaMaxRouteBuckets then sel ++ [b] else sel

/-- The loop over the route fields: the buckets selected, and whether any field is set. -/
def routeLoop : List Bytes → ℕ → List ℕ → Bool → EvalM (List ℕ × Bool)
  | [], _, sel, hadRoute => pure (sel, hadRoute)
  | name :: rest, i, sel, hadRoute => do
    let v ← routeValue db ev i name
    match v with
    | none => routeLoop rest (i + 1) sel hadRoute
    | some v =>
      if v.length = 0 then routeLoop rest (i + 1) sel hadRoute
      else do
        let b ← findCategoryBucket db v
        match b with
        | none => routeLoop rest (i + 1) sel true
        | some b => routeLoop rest (i + 1) (addBucket sel b) true

/-- The always-verify bucket joins the selection. -/
def addAvBucket (sel : List ℕ) : List ℕ :=
  match db.avBucket with
  | none => sel
  | some av => addBucket sel av

/-- Is some selected bucket, other than the always-verify one, worth the prefilter? -/
def anyBig (prefilterOn : Int) : List ℕ → EvalM Bool
  | [] => pure false
  | b :: rest =>
    if some b = db.avBucket then anyBig prefilterOn rest
    else do
      let bk ← tableAt .buckets db.buckets b
      if prefilterOn = 2 ∨ sigmaPrefilterMinBucket ≤ bk.idxCount.toNat then pure true
      else anyBig prefilterOn rest

/-- The selected buckets, one after the other. -/
def evalBuckets (maxHits : Int) (prefiltered : Bool) : List ℕ → Report → EvalM Report
  | [], rep => pure rep
  | b :: rest, rep => do
    let rep ← evalBucketPrefiltered pf db ev maxHits prefiltered b rep
    evalBuckets maxHits prefiltered rest rep

/-! ## Entry points -/

/-- The full scan at the end of `sigma_eval_run`. -/
def evalUnrouted (maxHits : Int) : EvalM Report := do
  modifyState fun e =>
    { e with st :=
      { e.st with
        rulesInScope := e.st.rulesInScope + db.rules.length
        rulesVerified := e.st.rulesVerified + db.rules.length } }
  evalAll pf db ev maxHits db.rules.length 0 ⟨0, []⟩

/-- `sigma_eval_run`. -/
def sigmaEvalRun (maxHits : Int) : EvalM Report := do
  modifyState clearMemo
  modifyState fun e => { e with st := { e.st with events := e.st.events + 1 } }
  modifyState bumpEvalGen
  if db.bucketKeys.length = 0 then evalUnrouted pf db ev maxHits
  else do
    let (sel, hadRoute) ← routeLoop db ev routeNames 0 [] false
    let sel := addAvBucket db sel
    if hadRoute then do
      let e ← get
      let big ← anyBig db e.prefilterOn sel
      let prefiltered ← if big then prefilterCandidates pf db ev sel else pure false
      evalBuckets pf db ev maxHits prefiltered sel ⟨0, []⟩
    else evalUnrouted pf db ev maxHits

/-- `sigma_eval_run_linear`. -/
def sigmaEvalRunLinear (maxHits : Int) : EvalM Report := do
  modifyState clearMemo
  modifyState bumpEvalGen
  evalAll pf db ev maxHits db.rules.length 0 ⟨0, []⟩

end Matching

/-! ## Call sequences -/

/-- A call on one scratch. -/
inductive Call where
  | run (ev : Event) (maxHits : Int)
  | runLinear (ev : Event) (maxHits : Int)
  | setPrefilter (enabled : Int)
  | resetStats

/-- The effect of a call, and what it returns to its caller. -/
def Call.exec (pf : Platform) (db : SigmaDb) : Call → EvalM (Option Report)
  | .run ev maxHits => do
    let rep ← sigmaEvalRun pf db ev maxHits
    pure (some rep)
  | .runLinear ev maxHits => do
    let rep ← sigmaEvalRunLinear pf db ev maxHits
    pure (some rep)
  | .setPrefilter enabled => do
    modifyState (sigmaEvalSetPrefilter enabled)
    pure none
  | .resetStats => do
    modifyState sigmaEvalResetStats
    pure none

/-- A finite sequence of calls. -/
def execAll (pf : Platform) (db : SigmaDb) : List Call → EvalM (List (Option Report))
  | [] => pure []
  | c :: cs => do
    let r ← c.exec pf db
    let rs ← execAll pf db cs
    pure (r :: rs)

end LibSigma
