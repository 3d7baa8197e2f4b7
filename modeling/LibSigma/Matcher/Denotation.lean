import Mathlib.Data.List.Forall2
import LibSigma.Library.Rpn
import LibSigma.Matcher.Eval
import LibSigma.Matcher.Valid

/-!
# What predicates, selections and rules mean

A rule's verdict on an event is a function of the tables and of the event alone.  This file defines
that function and proves that the code computes it.

## Verdicts without a scratch

`predHolds`, `selHolds` and `ruleHolds` follow the shape of the code, loop by loop, and have neither
memo nor faults.  An index out of range has some default value here; the proof that the code does
not fault is the proof that no default is ever used.  What the verdicts mean in the words of the
documentation is a question of its own, and is asked in `LibSigma.Matcher.RuleMatch`.

## What matching keeps

`resolve_field` is the only thing that matching writes to the scratch.  So the frame is simple: the
memo may grow, a resolved slot holds the callback's answer, everything else stays (`memoFrame`).
The theorems on the code are stated from any scratch of that frame, not from a new one, since the
memo is shared by all rules of an event.

## Laziness

The condition machine pushes a selection without running it, negates a cell by a flag, and skips the
right operand of an operator that is decided.  The proof runs it next to a machine whose cells hold
expressions (`rpnRun`): a lazy cell means an expression when its value, or that of the selection it
defers, is the value of the expression.  Each token keeps that relation, and the last look at the
result forces the one cell that is left.

* `predHolds`, `selHolds`, `ruleHolds`: the verdicts.
* `memoFrame`: what matching keeps.  The field memo may grow, and every resolved slot holds the
  callback's answer; nothing else of the scratch moves.
* `predMatch_yields`, `selMatch_yields`, `ruleMatch_yields`: the code returns these verdicts from
  every scratch of the frame, without a fault.
-/

namespace LibSigma

open Library

/-! ## Verdicts

Structural recursion over the tables, with no state.  A field that is not there has no value, and
each operator says what it makes of that; negation is applied last. -/

section Verdicts

variable (pf : Platform) (db : SigmaDb) (ev : Event)

/-- The value of field `f` in the event. -/
def fieldValue (f : ℕ) : Option Bytes := (db.fields[f]?).bind fun s => ev (db.str s)

/-- The operand of a string predicate. -/
def operandOf (p : SigmaPred) : Option Bytes :=
  if p.flags &&& sigmaPfFieldref ≠ 0 then
    if p.valueId.toNat ≤ 0xFFFF then fieldValue db ev p.valueId.toNat else none
  else (db.values[p.valueId.toNat]?).map db.str

/-- The verdict of predicate `predIdx` on a value. -/
def testHolds (p : SigmaPred) (predIdx : ℕ) (val : Bytes) : Bool :=
  match SigmaOp.ofByte p.op with
  | some .opGt => (sgToI64 val).any (numHolds .opGt · p.ival)
  | some .opGte => (sgToI64 val).any (numHolds .opGte · p.ival)
  | some .opLt => (sgToI64 val).any (numHolds .opLt · p.ival)
  | some .opLte => (sgToI64 val).any (numHolds .opLte · p.ival)
  | some .opNumeq => (sgToI64 val).any (numHolds .opNumeq · p.ival)
  | some .opCidr => (db.cidrs[p.valueId.toNat]?).any fun c => cidrVerdict pf val c
  | some .opRe => (db.re.bind fun arr => (arr[predIdx]?).join).any fun c => pf.pcre2Match c val
  | op => (operandOf db ev p).any fun o => strHolds op val o (p.flags &&& sigmaPfCase ≠ 0)

/-- The verdict of predicate `predIdx`. -/
def predHolds (p : SigmaPred) (predIdx : ℕ) : Bool :=
  let val := fieldValue db ev p.fieldId.toNat
  let res :=
    if SigmaOp.ofByte p.op = some .opExists then val.any fun v => 0 < v.length
    else val.any fun v => testHolds pf db ev p predIdx v
  if p.flags &&& sigmaPfNegate ≠ 0 then !res else res

/-- AND over the groups, OR within a group, one predicate after the other; `acc` is the group so
far. -/
def groupsHold : List (UInt16 × Bool) → Bool → UInt16 → Bool
  | [], acc, _ => acc
  | (g, b) :: rest, acc, cur =>
    if g = cur then groupsHold rest (acc || b) cur else acc && groupsHold rest b g

/-- The `n` predicates from `start`, each with its group and its verdict. -/
def selVerdicts (start n : ℕ) : List (UInt16 × Bool) :=
  (List.range' start n).filterMap fun j =>
    (db.preds[j]?).map fun p => (p.groupId, predHolds pf db ev p j)

/-- The verdict of a selection. -/
def selHolds (sel : SigmaSel) : Bool :=
  match selVerdicts pf db ev sel.predStart.toNat sel.predCount.toNat with
  | [] => false
  | (g, b) :: rest => groupsHold ((g, b) :: rest) false g

/-- The verdict of selection `idx` of a rule. -/
def ruleSelHolds (r : SigmaRule) (idx : ℕ) : Bool :=
  (db.sels[r.selStart.toNat + idx]?).any fun s => selHolds pf db ev s

/-- A condition token as a token of the notation. -/
def SigmaCtok.tok (k : SigmaCtok) : RpnTok UInt32 :=
  if k.kind = sigmaCSel then .arg k.selIdx
  else if k.kind = sigmaCNot then .not
  else if k.kind = sigmaCAnd then .and
  else .or

/-- The condition of a rule. -/
def ruleToks (r : SigmaRule) : List (RpnTok UInt32) :=
  (slice db.cond r.condStart.toNat r.condCount.toNat).map SigmaCtok.tok

/-- The verdict of a condition that left this stack. -/
def stackVerdict (v : UInt32 → Bool) : Option (List (BoolExpr UInt32)) → Bool
  | some [e] => e.eval v
  | _ => false

/-- The verdict of a rule. -/
def ruleHolds (r : SigmaRule) : Bool :=
  if r.condCount = 0 then
    decide (0 < r.selCount) && (List.range r.selCount.toNat).all (ruleSelHolds pf db ev r)
  else
    stackVerdict (fun i => ruleSelHolds pf db ev r i.toNat)
      (rpnRun sigmaCondStackMax (fun i => decide (i < r.selCount)) (ruleToks db r) [])

end Verdicts

/-! ## The memo

The memo is right when every resolved slot holds what the callback answers.  Resolving keeps that,
and also logs.  So the frame allows the log to grow and the memo to fill, and no more. -/

/-- The memo is for this event: a resolved slot holds the callback's answer. -/
structure MemoOk (db : SigmaDb) (ev : Event) (e : SigmaEval) : Prop where
  length : e.memo.length = max 1 db.fields.length
  resolved : ∀ f v, e.memo[f]? = some (some v) → v = fieldValue db ev f

/-- All of the scratch but the memo and the log. -/
def SigmaEval.frozen (e : SigmaEval) : SigmaEval := { e with memo := [], log := [] }

/-- Matching keeps the memo right and everything else as it is. -/
def memoFrame (db : SigmaDb) (ev : Event) : Frame SigmaEval where
  inv := MemoOk db ev
  keeps s t := t.frozen = s.frozen
  refl _ := rfl
  trans _ _ _ hst htu := htu.trans hst

theorem MemoOk.of_memo_eq {db : SigmaDb} {ev : Event} {e e' : SigmaEval} (h : MemoOk db ev e)
    (heq : e'.memo = e.memo) : MemoOk db ev e' :=
  ⟨heq ▸ h.length, heq ▸ h.resolved⟩

/-- A memo of the right size is right for every event once it is cleared. -/
theorem memoOk_clearMemo {db : SigmaDb} {e : SigmaEval}
    (h : e.memo.length = max 1 db.fields.length) (ev : Event) : MemoOk db ev (clearMemo e) := by
  refine ⟨by rw [clearMemo, List.length_map, h], fun f v hf => ?_⟩
  rw [clearMemo, List.getElem?_map] at hf
  obtain ⟨_, _, hslot⟩ := Option.map_eq_some_iff.mp hf
  exact absurd hslot (by simp)

/-- A fresh scratch has resolved nothing. -/
theorem memoOk_create (db : SigmaDb) (ev : Event) : MemoOk db ev (sigmaEvalCreate db) := by
  refine ⟨List.length_replicate, fun f v hf => ?_⟩
  have hslot := List.eq_of_mem_replicate (List.mem_of_getElem? hf)
  exact absurd hslot (by simp)

section Code

variable {pf : Platform} {db : SigmaDb} {ev : Event}

theorem fieldValue_of_lt {f : ℕ} {s : SigmaStr} (h : db.fields[f]? = some s) :
    fieldValue db ev f = ev (db.str s) := by
  rw [fieldValue, h, Option.bind_some]

/-- Logging is invisible. -/
theorem log_yields (o : Obs) :
    Yields (memoFrame db ev)
      (modifyState fun e => { e with log := o :: e.log } : EvalM PUnit) ⟨⟩ :=
  fun _ hs => Runs.modify ⟨rfl, hs.of_memo_eq rfl, rfl⟩

theorem tableAt_yields {α : Type} {F : Frame SigmaEval} {table : Table} {xs : List α} {i : ℕ}
    {a : α} (h : xs[i]? = some a) : Yields F (tableAt table xs i) a :=
  Yields.lift (readAt_of_getElem? h)

theorem poolStr_yields {F : Frame SigmaEval} {s : SigmaStr} (h : db.InPool s) :
    Yields F (db.poolStr s) (db.str s) := by
  rw [SigmaDb.poolStr, if_pos h]
  exact Yields.pure _

theorem poolName_yields {F : Frame SigmaEval} {s : SigmaStr}
    (h : db.strpool[s.off.toNat + s.len.toNat]? = some 0) :
    Yields F (db.poolName s) (db.str s) := by
  rw [SigmaDb.poolName, if_pos h]
  exact Yields.pure _

/-- The first resolution of a field: the callback's answer goes to the memo. -/
theorem memoOk_set {e : SigmaEval} (h : MemoOk db ev e) (f : ℕ) (log : List Obs) :
    MemoOk db ev { e with memo := e.memo.set f (some (fieldValue db ev f)), log := log } := by
  refine ⟨by simpa using h.length, fun g v hg => ?_⟩
  rw [List.getElem?_set] at hg
  split at hg
  · rename_i hfg
    split at hg
    · rw [← hfg]
      exact (Option.some.inj (Option.some.inj hg)).symm
    · exact absurd hg (by simp)
  · exact h.resolved g v hg

theorem resolveField_yields (hdb : db.Valid) (fieldId : UInt16) :
    Yields (memoFrame db ev) (resolveField db ev fieldId) (fieldValue db ev fieldId.toNat) := by
  unfold resolveField
  refine (log_yields _).bind ?_
  split
  · rename_i hle
    rw [fieldValue, List.getElem?_eq_none hle]
    exact Yields.pure none
  · rename_i hlt
    have hf := List.getElem?_eq_getElem (Nat.lt_of_not_le hlt)
    have hname := hdb.fieldName _ (List.mem_of_getElem? hf)
    have hval : fieldValue db ev fieldId.toNat = _ := fieldValue_of_lt hf
    intro s hs
    refine (Runs.get (Q := fun a t => a = s ∧ t = s) ⟨rfl, rfl⟩).bind ?_
    rintro _ _ ⟨rfl, rfl⟩
    rename_i s
    have hslot : fieldId.toNat < s.memo.length := by
      rw [hs.length]
      omega
    refine (tableAt_yields (List.getElem?_eq_getElem hslot) s hs).bind ?_
    rintro _ t ⟨rfl, ht, hst⟩
    split
    · rename_i v hv
      have hres := hs.resolved fieldId.toNat v (by rw [List.getElem?_eq_getElem hslot, hv])
      exact Runs.pure ⟨hres, ht, hst⟩
    · refine (tableAt_yields hf t ht).bind ?_
      rintro _ u ⟨rfl, hu, htu⟩
      refine (poolName_yields hname u hu).bind ?_
      rintro _ w ⟨rfl, hw, huw⟩
      rw [← hval]
      refine (Runs.modify (Q := fun _ x => MemoOk db ev x ∧ x.frozen = w.frozen)
        ⟨memoOk_set hw _ _, rfl⟩).bind ?_
      rintro _ x ⟨hx, hwx⟩
      exact Runs.pure ⟨rfl, hx, hwx.trans (huw.trans (htu.trans hst))⟩

/-! ## Predicates -/

theorem predOperand_yields (hdb : db.Valid) (p : SigmaPred) :
    Yields (memoFrame db ev) (predOperand db ev p) (operandOf db ev p) := by
  unfold predOperand operandOf
  by_cases href : p.flags &&& sigmaPfFieldref ≠ 0
  · rw [if_pos href, if_pos href]
    split
    · rename_i hout
      have hnone : (if p.valueId.toNat ≤ 0xFFFF then fieldValue db ev p.valueId.toNat else none) =
          none := by
        split
        · rw [fieldValue, List.getElem?_eq_none (by omega), Option.bind_none]
        · rfl
      rw [hnone]
      exact Yields.pure none
    · rename_i hin
      rw [if_pos (by omega)]
      have hcast : p.valueId.toUInt16.toNat = p.valueId.toNat := by
        rw [UInt32.toNat_toUInt16]
        omega
      rw [← hcast]
      exact resolveField_yields hdb _
  · rw [if_neg href, if_neg href]
    split
    · rename_i hlt
      have hget := List.getElem?_eq_getElem hlt
      rw [hget, Option.map_some]
      exact (tableAt_yields hget).bind
        ((poolStr_yields (hdb.valueInPool _ (List.mem_of_getElem? hget))).bind (Yields.pure _))
    · rename_i hlt
      rw [List.getElem?_eq_none (by omega), Option.map_none]
      exact Yields.pure none

theorem operandTest_yields (hdb : db.Valid) (p : SigmaPred) (op : Option SigmaOp) (val : Bytes) :
    Yields (memoFrame db ev) (operandTest db ev p op val)
      ((operandOf db ev p).any fun o => strHolds op val o (p.flags &&& sigmaPfCase ≠ 0)) := by
  refine (predOperand_yields hdb p).bind ?_
  cases operandOf db ev p with
  | none => exact Yields.pure false
  | some o => exact Yields.pure _

theorem predTest_yields (hdb : db.Loaded) (p : SigmaPred) (predIdx : ℕ) (val : Bytes) :
    Yields (memoFrame db ev) (predTest pf db ev p predIdx val) (testHolds pf db ev p predIdx val) := by
  have hstr : ∀ op, Yields (memoFrame db ev) (operandTest db ev p op val) _ :=
    fun op => operandTest_yields hdb.valid p op val
  unfold predTest testHolds
  cases SigmaOp.ofByte p.op with
  | none => exact hstr none
  | some op =>
    cases op with
    | opGt => exact Yields.pure _
    | opGte => exact Yields.pure _
    | opLt => exact Yields.pure _
    | opLte => exact Yields.pure _
    | opNumeq => exact Yields.pure _
    | opEq => exact hstr _
    | opContains => exact hstr _
    | opStartswith => exact hstr _
    | opEndswith => exact hstr _
    | opExists => exact hstr _
    | opCidr =>
      dsimp only
      split
      · rename_i hlt
        have hget := List.getElem?_eq_getElem hlt
        rw [hget]
        exact (tableAt_yields hget).bind (Yields.pure _)
      · rename_i hlt
        rw [List.getElem?_eq_none (by omega)]
        exact Yields.pure false
    | opRe =>
      dsimp only
      cases hre : db.re with
      | none => exact Yields.pure false
      | some arr =>
        have hlen := hdb.re arr hre
        rw [Option.bind_some]
        dsimp only
        split
        · rename_i hle
          rw [List.getElem?_eq_none (by omega)]
          exact Yields.pure false
        · have hget : arr[predIdx]? = some arr[predIdx] := List.getElem?_eq_getElem (by omega)
          rw [hget]
          exact (tableAt_yields hget).bind (Yields.pure _)

theorem predMatch_yields (hdb : db.Loaded) (p : SigmaPred) (predIdx : ℕ) :
    Yields (memoFrame db ev) (predMatch pf db ev p predIdx) (predHolds pf db ev p predIdx) := by
  unfold predMatch predHolds
  refine (resolveField_yields hdb.valid p.fieldId).bind ?_
  dsimp only
  by_cases hex : SigmaOp.ofByte p.op = some .opExists
  · rw [if_pos hex, if_pos hex]
    exact (Yields.pure _).bind (Yields.pure _)
  · rw [if_neg hex, if_neg hex]
    cases fieldValue db ev p.fieldId.toNat with
    | none => exact (Yields.pure false).bind (Yields.pure _)
    | some v => exact (predTest_yields hdb p predIdx v).bind (Yields.pure _)

/-! ## Selections -/

theorem selVerdicts_succ {start n : ℕ} {p : SigmaPred} (h : db.preds[start]? = some p) :
    selVerdicts pf db ev start (n + 1) =
      (p.groupId, predHolds pf db ev p start) :: selVerdicts pf db ev (start + 1) n := by
  rw [selVerdicts, List.range'_succ, List.filterMap_cons, h]
  rfl

/-- The loop of `sel_match` evaluates only what it needs, and answers as if it evaluated all. -/
theorem selLoop_yields (hdb : db.Loaded) {start k i : ℕ} (hin : start + i + k ≤ db.preds.length)
    (acc : Bool) (cur : UInt16) :
    Yields (memoFrame db ev) (selLoop pf db ev start k i acc cur)
      (groupsHold (selVerdicts pf db ev (start + i) k) acc cur) := by
  induction k generalizing i acc cur with
  | zero => exact Yields.pure acc
  | succ k ih =>
    have hp : db.preds[start + i]? = some db.preds[start + i] :=
      List.getElem?_eq_getElem (by omega)
    have hrest : ∀ acc cur, Yields (memoFrame db ev) (selLoop pf db ev start k (i + 1) acc cur)
        (groupsHold (selVerdicts pf db ev (start + i + 1) k) acc cur) :=
      fun acc cur => ih (by omega) acc cur
    rw [selVerdicts_succ hp, groupsHold, selLoop]
    refine (tableAt_yields hp).bind ?_
    by_cases hg : (db.preds[start + i]).groupId = cur
    · rw [if_pos hg, if_neg (not_not.mpr hg)]
      cases acc with
      | true => exact hrest true cur
      | false => exact (predMatch_yields hdb _ _).bind (hrest _ cur)
    · rw [if_neg hg, if_pos hg]
      cases acc with
      | true => exact (predMatch_yields hdb _ _).bind (hrest _ _)
      | false => exact Yields.pure false

theorem selMatch_yields (hdb : db.Loaded) {sel : SigmaSel} (hsel : sel ∈ db.sels) :
    Yields (memoFrame db ev) (selMatch pf db ev sel) (selHolds pf db ev sel) := by
  have hin := hdb.valid.selPreds sel hsel
  unfold selMatch selHolds
  by_cases hzero : sel.predCount = 0
  · rw [if_pos hzero, hzero]
    exact Yields.pure false
  · have hpos : sel.predCount.toNat ≠ 0 := fun h => hzero (UInt32.toNat_inj.mp h)
    obtain ⟨n, hn⟩ := Nat.exists_eq_succ_of_ne_zero hpos
    have hp : db.preds[sel.predStart.toNat]? = some db.preds[sel.predStart.toNat] :=
      List.getElem?_eq_getElem (by omega)
    rw [if_neg hzero]
    refine (tableAt_yields hp).bind ?_
    have hloop : Yields (memoFrame db ev)
        (selLoop pf db ev sel.predStart.toNat sel.predCount.toNat 0 false _)
        (groupsHold (selVerdicts pf db ev sel.predStart.toNat sel.predCount.toNat) false _) :=
      selLoop_yields hdb hin false (db.preds[sel.predStart.toNat]).groupId
    rw [hn, selVerdicts_succ hp] at hloop ⊢
    exact hloop

theorem ruleSel_yields (hdb : db.Loaded) {r : SigmaRule} (hr : r ∈ db.rules) {idx : ℕ}
    (hidx : idx < r.selCount.toNat) :
    Yields (memoFrame db ev) (ruleSel pf db ev r idx) (ruleSelHolds pf db ev r idx) := by
  have hin := hdb.valid.ruleSels r hr
  have hs : db.sels[r.selStart.toNat + idx]? = some db.sels[r.selStart.toNat + idx] :=
    List.getElem?_eq_getElem (by omega)
  unfold ruleSel ruleSelHolds
  rw [hs]
  exact (tableAt_yields hs).bind (selMatch_yields hdb (List.mem_of_getElem? hs))

/-! ## Conditions

The invariant of the loop over the tokens: each cell of the lazy stack means the expression at the
same place of the symbolic one.  Forcing a cell gives the value of its expression, whether the cell
was a value or a deferred selection. -/

/-- The value a cell stands for. -/
def RpnCell.value (v : UInt32 → Bool) : RpnCell → Bool
  | .bool b => b
  | .sel idx => v idx
  | .notsel idx => !v idx

/-- A deferred selection is one of the rule's. -/
def RpnCell.InRange (r : SigmaRule) : RpnCell → Prop
  | .bool _ => True
  | .sel idx => idx < r.selCount
  | .notsel idx => idx < r.selCount

/-- A lazy cell stands for an expression. -/
def RpnCell.Means (r : SigmaRule) (v : UInt32 → Bool) (c : RpnCell) (e : BoolExpr UInt32) : Prop :=
  c.InRange r ∧ c.value v = e.eval v

theorem RpnCell.Means.negate {r : SigmaRule} {v : UInt32 → Bool} {c : RpnCell}
    {e : BoolExpr UInt32} (h : c.Means r v e) : c.negate.Means r v (.not e) := by
  obtain ⟨hrange, hval⟩ := h
  cases c with
  | bool b => exact ⟨trivial, congrArg Bool.not hval⟩
  | sel idx => exact ⟨hrange, congrArg Bool.not hval⟩
  | notsel idx =>
    refine ⟨hrange, ?_⟩
    rw [BoolExpr.eval, ← hval]
    exact (Bool.not_not _).symm

/-- The selections of a rule come out as `v`. -/
def SelsYield (pf : Platform) (db : SigmaDb) (ev : Event) (F : Frame SigmaEval) (r : SigmaRule)
    (v : UInt32 → Bool) : Prop :=
  ∀ idx < r.selCount, Yields F (ruleSel pf db ev r idx.toNat) (v idx)

theorem selsYield_memoFrame (hdb : db.Loaded) {r : SigmaRule} (hr : r ∈ db.rules) :
    SelsYield pf db ev (memoFrame db ev) r fun i => ruleSelHolds pf db ev r i.toNat :=
  fun _ hidx => ruleSel_yields hdb hr (UInt32.lt_iff_toNat_lt.mp hidx)

section Sels

variable {F : Frame SigmaEval} {r : SigmaRule} {v : UInt32 → Bool}

theorem SelsYield.rpnForce (hsels : SelsYield pf db ev F r v) {c : RpnCell} (hc : c.InRange r) :
    Yields F (rpnForce pf db ev r c) (c.value v) := by
  cases c with
  | bool b => exact Yields.pure b
  | sel idx =>
    rw [LibSigma.rpnForce, if_neg (UInt32.not_le.mpr hc)]
    exact hsels idx hc
  | notsel idx =>
    rw [LibSigma.rpnForce, if_neg (UInt32.not_le.mpr hc)]
    exact (hsels idx hc).bind (Yields.pure _)

/-- The loader leaves four kinds of token. -/
theorem SigmaCtok.kind_eq_or {k : UInt8} (hk : k ≤ sigmaCNot) (hsel : k ≠ sigmaCSel)
    (hand : k ≠ sigmaCAnd) (hnot : k ≠ sigmaCNot) : k = sigmaCOr := by
  rw [UInt8.le_iff_toNat_le] at hk
  simp only [ne_eq, ← UInt8.toNat_inj, sigmaCSel, sigmaCNot, sigmaCAnd, sigmaCOr,
    UInt8.reduceToNat] at *
  omega

/-- **One token.**  The lazy machine follows the symbolic one: it fails when that fails, and
otherwise its cells still mean that machine's expressions. -/
theorem SelsYield.condStep (hsels : SelsYield pf db ev F r v) {k : SigmaCtok}
    (hk : k.kind ≤ sigmaCNot) {stack : List RpnCell} {es : List (BoolExpr UInt32)}
    (h : List.Forall₂ (RpnCell.Means r v) stack es) :
    ∃ next, Yields F (condStep pf db ev r k stack) next ∧
      Option.Rel (List.Forall₂ (RpnCell.Means r v)) next
        (rpnStep sigmaCondStackMax (fun i => decide (i < r.selCount)) k.tok es) := by
  have hlen := h.length_eq
  unfold LibSigma.condStep SigmaCtok.tok
  by_cases hsel : k.kind = sigmaCSel
  · rw [if_pos hsel, if_pos hsel, rpnStep]
    by_cases hfull : sigmaCondStackMax ≤ stack.length
    · rw [if_pos hfull, if_neg (fun hc => by omega)]
      exact ⟨none, Yields.pure none, .none⟩
    · by_cases hbad : r.selCount ≤ k.selIdx
      · rw [if_neg hfull, if_pos hbad, if_neg]
        · exact ⟨none, Yields.pure none, .none⟩
        · exact fun hc => UInt32.not_le.mpr (of_decide_eq_true hc.2) hbad
      · have hlt := UInt32.not_le.mp hbad
        rw [if_neg hfull, if_neg hbad, if_pos (Nat.lt_of_not_le hfull),
          if_pos ⟨by omega, decide_eq_true hlt⟩]
        exact ⟨_, Yields.pure _, .some (.cons ⟨hlt, rfl⟩ h)⟩
  rw [if_neg hsel, if_neg hsel]
  by_cases hnot : k.kind = sigmaCNot
  · rw [if_pos hnot, if_pos hnot]
    cases h with
    | nil => exact ⟨none, Yields.pure none, .none⟩
    | cons hc hrest => exact ⟨_, Yields.pure _, .some (.cons hc.negate hrest)⟩
  rw [if_neg hnot, if_neg hnot]
  by_cases hand : k.kind = sigmaCAnd
  · rw [if_pos hand, if_pos hand]
    cases h with
    | nil => exact ⟨none, Yields.pure none, .none⟩
    | @cons b f _ _ hb hrest =>
      cases hrest with
      | nil => exact ⟨none, Yields.pure none, .none⟩
      | @cons a e rest _ ha hrest =>
        refine ⟨some (.bool ((BoolExpr.and e f).eval v) :: rest),
          (hsels.rpnForce ha.1).bind ?_, .some (.cons ⟨trivial, rfl⟩ hrest)⟩
        rw [ha.2, BoolExpr.eval]
        cases e.eval v with
        | false => exact (Yields.pure false).bind (Yields.pure _)
        | true =>
          rw [Bool.true_and, ← hb.2]
          exact (hsels.rpnForce hb.1).bind (Yields.pure _)
  · have hor : k.kind = sigmaCOr :=
      SigmaCtok.kind_eq_or hk hsel hand hnot
    rw [if_neg hand, if_neg hand, if_pos hor]
    cases h with
    | nil => exact ⟨none, Yields.pure none, .none⟩
    | @cons b f _ _ hb hrest =>
      cases hrest with
      | nil => exact ⟨none, Yields.pure none, .none⟩
      | @cons a e rest _ ha hrest =>
        refine ⟨some (.bool ((BoolExpr.or e f).eval v) :: rest),
          (hsels.rpnForce ha.1).bind ?_, .some (.cons ⟨trivial, rfl⟩ hrest)⟩
        rw [ha.2, BoolExpr.eval]
        cases e.eval v with
        | true => exact (Yields.pure true).bind (Yields.pure _)
        | false =>
          rw [Bool.false_or, ← hb.2]
          exact (hsels.rpnForce hb.1).bind (Yields.pure _)

end Sels

theorem rpnForce_yields (hdb : db.Loaded) {r : SigmaRule} (hr : r ∈ db.rules) {c : RpnCell}
    (hc : c.InRange r) :
    Yields (memoFrame db ev) (rpnForce pf db ev r c)
      (c.value fun i => ruleSelHolds pf db ev r i.toNat) :=
  (selsYield_memoFrame hdb hr).rpnForce hc

/-- **All tokens.**  Deferring selections and negations and skipping right operands never changes
the answer. -/
theorem condLoop_yields (hdb : db.Loaded) {r : SigmaRule} (hr : r ∈ db.rules) {k i : ℕ}
    (hin : r.condStart.toNat + i + k ≤ db.cond.length) {stack : List RpnCell}
    {es : List (BoolExpr UInt32)}
    (h : List.Forall₂ (RpnCell.Means r fun i => ruleSelHolds pf db ev r i.toNat) stack es) :
    Yields (memoFrame db ev) (condLoop pf db ev r k i stack)
      (stackVerdict (fun i => ruleSelHolds pf db ev r i.toNat)
        (rpnRun sigmaCondStackMax (fun i => decide (i < r.selCount))
          ((slice db.cond (r.condStart.toNat + i) k).map SigmaCtok.tok) es)) := by
  induction k generalizing i stack es with
  | zero =>
    rw [slice_zero, List.map_nil, rpnRun]
    cases h with
    | nil => exact Yields.pure false
    | cons hc hrest =>
      cases hrest with
      | nil =>
        rw [stackVerdict, ← hc.2]
        exact rpnForce_yields hdb hr hc.1
      | cons _ _ => exact Yields.pure false
  | succ k ih =>
    have htok : db.cond[r.condStart.toNat + i]? = some db.cond[r.condStart.toNat + i] :=
      List.getElem?_eq_getElem (by omega)
    have hkind := hdb.valid.condKind _ (List.mem_of_getElem? htok)
    obtain ⟨next, hstep, hrel⟩ := (selsYield_memoFrame hdb hr).condStep hkind h
    rw [slice_succ htok, List.map_cons, rpnRun, condLoop]
    refine (tableAt_yields htok).bind (hstep.bind ?_)
    revert hrel
    cases rpnStep sigmaCondStackMax (fun i => decide (i < r.selCount))
        (db.cond[r.condStart.toNat + i]).tok es with
    | none =>
      rintro ⟨⟩
      exact Yields.pure false
    | some es' =>
      rintro ⟨hrest⟩
      exact ih (by omega) hrest

theorem allSels_yields (hdb : db.Loaded) {r : SigmaRule} (hr : r ∈ db.rules) {k i : ℕ}
    (hin : i + k ≤ r.selCount.toNat) :
    Yields (memoFrame db ev) (allSels pf db ev r k i)
      (decide (0 < r.selCount) && (List.range' i k).all (ruleSelHolds pf db ev r)) := by
  induction k generalizing i with
  | zero =>
    rw [List.range'_zero, List.all_nil, Bool.and_true]
    exact Yields.pure _
  | succ k ih =>
    rw [List.range'_succ, List.all_cons, allSels]
    refine (ruleSel_yields hdb hr (by omega)).bind ?_
    cases ruleSelHolds pf db ev r i with
    | true =>
      rw [Bool.true_and]
      exact ih (by omega)
    | false =>
      rw [Bool.false_and, Bool.and_false]
      exact Yields.pure false

/-- **`rule_match` computes the verdict**, from every scratch of the event and without a fault. -/
theorem ruleMatch_yields (hdb : db.Loaded) {r : SigmaRule} (hr : r ∈ db.rules) :
    Yields (memoFrame db ev) (ruleMatch pf db ev r) (ruleHolds pf db ev r) := by
  unfold ruleMatch ruleHolds
  by_cases hzero : r.condCount = 0
  · rw [if_pos hzero, if_pos hzero, List.range_eq_range']
    exact allSels_yields hdb hr (by omega)
  · rw [if_neg hzero, if_neg hzero]
    exact condLoop_yields hdb hr (hdb.valid.ruleCond r hr) .nil

end Code

end LibSigma
