import LibSigma.Library.Emits
import LibSigma.Library.LazyRpn
import LibSigma.Matcher.Denotation

/-!
# Which fields a rule reads

`pred_match` resolves its own field and, when it gets to a FIELDREF comparison, the field that is
its operand.  Which predicates an evaluation gets to depends on the event, through the short cuts of
`sel_match` and of the condition machine.

## Reads as a list

Reading a field is logged when it is resolved, memo or not, so the fields an evaluation reads are a
list, in order and with repetitions.  The theorem gives this list as a function of the tables and
the event.  A set would be easier and would lose what the callers need: which reads come first
decides which of them goes to the callback (`LibSigma.Matcher.FieldCalls`).

## The order of the short cuts

A selection stops at the first group without a true member, and inside a group at its first true
one.  A condition skips the right operand of an operator that is decided, and runs a selection the
first time its value is wanted; so the selections that are run are the ones that the lazy machine
forces (`ruleSelections`, by `runAtoms` of `LibSigma.Library.LazyRpn`).  These functions are written
from the meaning of laziness and not copied from the loops, and `ruleMatch_reads` is the proof that
the loops run in that order.

## Belonging to the rule

The last section is about all events: whatever is visited is a predicate of the rule.  It is what
lets the bitmap of a bucket, built from the tables, say something about evaluations.

* `predReads`: the fields one predicate resolves.
* `selVisits`, `ruleSelections`, `ruleVisits`: the predicates an evaluation gets to, in order.
* `ruleMatch_reads`: **`rule_match` resolves exactly the fields that these predicates read**, from
  every scratch of the event.
* `mem_rulePreds_of_visited`: a predicate that is got to belongs to the rule.
-/

namespace LibSigma

open Library

/-- The field a log entry says was resolved. -/
def Obs.fieldRead : Obs → Option ℕ
  | .resolve f => some f
  | _ => none

/-- The fields resolved so far, oldest first. -/
def SigmaEval.fieldReads (e : SigmaEval) : List ℕ := e.log.reverse.filterMap Obs.fieldRead

theorem mem_fieldReads {e : SigmaEval} {f : ℕ} : f ∈ e.fieldReads ↔ Obs.resolve f ∈ e.log := by
  rw [SigmaEval.fieldReads, List.mem_filterMap]
  constructor
  · rintro ⟨o, ho, hread⟩
    cases o with
    | resolve g =>
      obtain rfl := Option.some.inj hread
      exact List.mem_reverse.mp ho
    | call _ => exact absurd hread (by simp [Obs.fieldRead])
    | ruleMatch _ => exact absurd hread (by simp [Obs.fieldRead])
    | scan _ _ => exact absurd hread (by simp [Obs.fieldRead])
    | confirm _ => exact absurd hread (by simp [Obs.fieldRead])
  · exact fun h => ⟨_, List.mem_reverse.mpr h, rfl⟩

/-! ## What is read and visited

The loops as functions to lists.  An entry in a list of visits is a predicate that is evaluated, in
this order; what each of them reads depends on the event, as an operand is only resolved for a field
that is present. -/

/-- Does `pred_match` compare a present field with an operand?  Not for numbers, CIDRs, patterns and
existence. -/
def SigmaPred.comparesText (p : SigmaPred) : Bool :=
  match SigmaOp.ofByte p.op with
  | some .opGt | some .opGte | some .opLt | some .opLte | some .opNumeq => false
  | some .opCidr | some .opRe | some .opExists => false
  | _ => true

section Visits

variable (pf : Platform) (db : SigmaDb) (ev : Event)

/-- Getting to the operand of `p` on this event resolves field `f`. -/
def OperandReads (p : SigmaPred) (f : ℕ) : Prop :=
  p.comparesText = true ∧ (fieldValue db ev p.fieldId.toNat).isSome ∧
    p.flags &&& sigmaPfFieldref ≠ 0 ∧ p.valueId.toNat < db.fields.length ∧
      p.valueId.toNat ≤ 0xFFFF ∧ p.valueId.toNat = f

instance (p : SigmaPred) (f : ℕ) : Decidable (OperandReads db ev p f) :=
  inferInstanceAs (Decidable (_ ∧ _))

/-- The fields that `pred_match` resolves: its own, then its operand. -/
def predReads (p : SigmaPred) : List ℕ :=
  p.fieldId.toNat :: if OperandReads db ev p p.valueId.toNat then [p.valueId.toNat] else []

theorem mem_predReads {p : SigmaPred} {f : ℕ} :
    f ∈ predReads db ev p ↔ p.fieldId.toNat = f ∨ OperandReads db ev p f := by
  rw [predReads, List.mem_cons, eq_comm]
  refine or_congr_right ?_
  split
  · rename_i h
    rw [List.mem_singleton]
    exact ⟨fun heq => heq ▸ h, fun hf => hf.2.2.2.2.2.symm⟩
  · rename_i h
    refine iff_of_false List.not_mem_nil fun hf => h ?_
    obtain ⟨htext, hsome, href, hlt, hle, -⟩ := hf
    exact ⟨htext, hsome, href, hlt, hle, rfl⟩

/-- The predicates that `sel_match` evaluates in its loop over the predicates from `start + i`. -/
def loopVisits (start : ℕ) : ℕ → ℕ → Bool → UInt16 → List SigmaPred
  | 0, _, _, _ => []
  | k + 1, i, acc, cur =>
    match db.preds[start + i]? with
    | none => []
    | some p =>
      let hit := predHolds pf db ev p (start + i)
      if p.groupId = cur then
        if acc then loopVisits start k (i + 1) true cur
        else p :: loopVisits start k (i + 1) hit cur
      else if acc then p :: loopVisits start k (i + 1) hit p.groupId
      else []

/-- The predicates that `sel_match` evaluates. -/
def selVisits (sel : SigmaSel) : List SigmaPred :=
  if sel.predCount = 0 then []
  else match db.preds[sel.predStart.toNat]? with
    | none => []
    | some p => loopVisits pf db ev sel.predStart.toNat sel.predCount.toNat 0 false p.groupId

/-- The predicates that selection `idx` of a rule evaluates. -/
def ruleSelVisits (r : SigmaRule) (idx : ℕ) : List SigmaPred :=
  match db.sels[r.selStart.toNat + idx]? with
  | none => []
  | some s => selVisits pf db ev s

/-- The selections of the implicit AND from `i`, up to the first that is false. -/
def andSelections (r : SigmaRule) : ℕ → ℕ → List ℕ
  | 0, _ => []
  | k + 1, i => i :: if ruleSelHolds pf db ev r i then andSelections r k (i + 1) else []

/-- The selections that `rule_match` runs. -/
def ruleSelections (r : SigmaRule) : List ℕ :=
  if r.condCount = 0 then andSelections pf db ev r r.selCount.toNat 0
  else (runAtoms sigmaCondStackMax (fun i => decide (i < r.selCount))
    (fun i => ruleSelHolds pf db ev r i.toNat) (ruleToks db r) []).map UInt32.toNat

/-- The predicates that `rule_match` evaluates. -/
def ruleVisits (r : SigmaRule) : List SigmaPred :=
  (ruleSelections pf db ev r).flatMap (ruleSelVisits pf db ev r)

end Visits

/-! ## The code reads just that

The traversal of the matcher for the log, bottom up.  Each function of the source has one lemma that
gives its reads, under the frame that also gives its value, since the value of a part decides which
part comes next. -/

section Code

variable {pf : Platform} {db : SigmaDb} {ev : Event}

/-- A computation resolves exactly the fields `l`. -/
abbrev ReadsFields (db : SigmaDb) (ev : Event) {α : Type} (m : EvalM α) (l : List ℕ) : Prop :=
  Emits (memoFrame db ev) SigmaEval.fieldReads m l

theorem tableAt_reads {α : Type} {table : Table} {xs : List α} {i : ℕ} :
    ReadsFields db ev (tableAt table xs i) [] :=
  Emits.lift _

theorem poolStr_reads {s : SigmaStr} (h : db.InPool s) :
    ReadsFields db ev (db.poolStr s) [] := by
  rw [SigmaDb.poolStr, if_pos h]
  exact Emits.pure _

theorem poolName_reads {s : SigmaStr}
    (h : db.strpool[s.off.toNat + s.len.toNat]? = some 0) :
    ReadsFields db ev (db.poolName s) [] := by
  rw [SigmaDb.poolName, if_pos h]
  exact Emits.pure _

theorem fieldReads_resolve (e : SigmaEval) (f : ℕ) :
    SigmaEval.fieldReads { e with log := .resolve f :: e.log } = e.fieldReads ++ [f] := by
  simp [SigmaEval.fieldReads, Obs.fieldRead]

theorem resolveField_reads (hdb : db.Valid) (fieldId : UInt16) :
    ReadsFields db ev (resolveField db ev fieldId) [fieldId.toNat] := by
  unfold resolveField
  refine Emits.bind_skip (log_yields _) (Emits.modify fun e => fieldReads_resolve e _) ?_
  split
  · exact Emits.pure none
  · rename_i hlt
    have hf := List.getElem?_eq_getElem (Nat.lt_of_not_le hlt)
    have hname := hdb.fieldName _ (List.mem_of_getElem? hf)
    have hval : fieldValue db ev fieldId.toNat = _ := fieldValue_of_lt hf
    refine Emits.get_bind fun e he => ?_
    have hslot : fieldId.toNat < e.memo.length := by
      rw [he.length]
      omega
    refine Emits.skip_bind (tableAt_yields (List.getElem?_eq_getElem hslot)) tableAt_reads ?_
    split
    · exact Emits.pure _
    · refine Emits.skip_bind (tableAt_yields hf) tableAt_reads ?_
      refine Emits.skip_bind (poolName_yields hname) (poolName_reads hname) ?_
      rw [← hval]
      refine Emits.skip_bind (a := ⟨⟩) (fun s hs => ?_) (Emits.modify fun s => ?_) (Emits.pure _)
      · exact Runs.modify ⟨rfl, memoOk_set hs _ _, rfl⟩
      · simp [SigmaEval.fieldReads, Obs.fieldRead]

/-! ### Predicates -/

/-- A FIELDREF operand, reached. -/
theorem predOperand_reads (hdb : db.Valid) (p : SigmaPred) :
    ReadsFields db ev (predOperand db ev p)
      (if p.flags &&& sigmaPfFieldref ≠ 0 ∧ p.valueId.toNat < db.fields.length ∧
        p.valueId.toNat ≤ 0xFFFF then [p.valueId.toNat] else []) := by
  unfold predOperand
  by_cases href : p.flags &&& sigmaPfFieldref ≠ 0
  · rw [if_pos href]
    split
    · rename_i hout
      rw [if_neg (fun h => by omega)]
      exact Emits.pure none
    · rename_i hin
      rw [if_pos ⟨href, by omega, by omega⟩]
      have hcast : p.valueId.toUInt16.toNat = p.valueId.toNat := by
        rw [UInt32.toNat_toUInt16]
        omega
      rw [← hcast]
      exact resolveField_reads hdb _
  · have hnot : ¬ (p.flags &&& sigmaPfFieldref ≠ 0 ∧ p.valueId.toNat < db.fields.length ∧
        p.valueId.toNat ≤ 0xFFFF) := fun h => href h.1
    rw [if_neg href, if_neg hnot]
    split
    · rename_i hlt
      have hget := List.getElem?_eq_getElem hlt
      have hpool := hdb.valueInPool _ (List.mem_of_getElem? hget)
      exact Emits.skip_bind (tableAt_yields hget) tableAt_reads
        (Emits.skip_bind (poolStr_yields hpool) (poolStr_reads hpool) (Emits.pure _))
    · exact Emits.pure none

theorem operandTest_reads (hdb : db.Valid) (p : SigmaPred) (op : Option SigmaOp) (val : Bytes) :
    ReadsFields db ev (operandTest db ev p op val)
      (if p.flags &&& sigmaPfFieldref ≠ 0 ∧ p.valueId.toNat < db.fields.length ∧
        p.valueId.toNat ≤ 0xFFFF then [p.valueId.toNat] else []) := by
  refine Emits.bind_skip (predOperand_yields hdb p) (predOperand_reads hdb p) ?_
  cases operandOf db ev p with
  | none => exact Emits.pure false
  | some o => exact Emits.pure _

/-- The test of a present field. -/
theorem predTest_reads (hdb : db.Loaded) {p : SigmaPred} (predIdx : ℕ) {val : Bytes}
    (hval : fieldValue db ev p.fieldId.toNat = some val)
    (hex : SigmaOp.ofByte p.op ≠ some .opExists) :
    ReadsFields db ev (predTest pf db ev p predIdx val)
      (if OperandReads db ev p p.valueId.toNat then [p.valueId.toNat] else []) := by
  have hstr : p.comparesText = true → ∀ op, ReadsFields db ev (operandTest db ev p op val)
      (if OperandReads db ev p p.valueId.toNat then [p.valueId.toNat] else []) := by
    intro htext op
    have hiff : OperandReads db ev p p.valueId.toNat ↔ p.flags &&& sigmaPfFieldref ≠ 0 ∧
        p.valueId.toNat < db.fields.length ∧ p.valueId.toNat ≤ 0xFFFF := by
      refine ⟨fun h => ⟨h.2.2.1, h.2.2.2.1, h.2.2.2.2.1⟩, fun h => ⟨htext, ?_, h.1, h.2.1, h.2.2, rfl⟩⟩
      rw [hval]
      rfl
    simp only [hiff]
    exact operandTest_reads hdb.valid p op val
  have hnone : p.comparesText = false →
      (if OperandReads db ev p p.valueId.toNat then [p.valueId.toNat] else []) = [] := by
    intro htext
    refine if_neg fun h => ?_
    have htrue := h.1
    rw [htext] at htrue
    exact absurd htrue (by simp)
  unfold SigmaPred.comparesText at hstr hnone
  unfold predTest
  cases hop : SigmaOp.ofByte p.op with
  | none => exact hstr (by rw [hop]) none
  | some op =>
    rw [hop] at hstr hnone
    cases op with
    | opGt => rw [hnone rfl]; exact Emits.pure _
    | opGte => rw [hnone rfl]; exact Emits.pure _
    | opLt => rw [hnone rfl]; exact Emits.pure _
    | opLte => rw [hnone rfl]; exact Emits.pure _
    | opNumeq => rw [hnone rfl]; exact Emits.pure _
    | opEq => exact hstr rfl _
    | opContains => exact hstr rfl _
    | opStartswith => exact hstr rfl _
    | opEndswith => exact hstr rfl _
    | opExists => exact absurd hop hex
    | opCidr =>
      rw [hnone rfl]
      dsimp only
      split
      · rename_i hlt
        exact Emits.skip_bind (tableAt_yields (List.getElem?_eq_getElem hlt)) tableAt_reads
          (Emits.pure _)
      · exact Emits.pure false
    | opRe =>
      rw [hnone rfl]
      dsimp only
      cases hre : db.re with
      | none => exact Emits.pure false
      | some arr =>
        have hlen := hdb.re arr hre
        dsimp only
        split
        · exact Emits.pure false
        · have hget : arr[predIdx]? = some arr[predIdx] := List.getElem?_eq_getElem (by omega)
          exact Emits.skip_bind (tableAt_yields hget) tableAt_reads (Emits.pure _)

theorem predMatch_reads (hdb : db.Loaded) (p : SigmaPred) (predIdx : ℕ) :
    ReadsFields db ev (predMatch pf db ev p predIdx) (predReads db ev p) := by
  unfold predMatch
  change ReadsFields db ev _ ([p.fieldId.toNat] ++
    if OperandReads db ev p p.valueId.toNat then [p.valueId.toNat] else [])
  refine Emits.bind (resolveField_yields hdb.valid p.fieldId)
    (resolveField_reads hdb.valid p.fieldId) ?_
  dsimp only
  by_cases hex : SigmaOp.ofByte p.op = some .opExists
  · rw [if_pos hex, if_neg]
    · exact Emits.skip_bind (Yields.pure _) (Emits.pure _) (Emits.pure _)
    · intro h
      have htext := h.1
      rw [SigmaPred.comparesText, hex] at htext
      exact absurd htext (by simp)
  · rw [if_neg hex]
    cases hval : fieldValue db ev p.fieldId.toNat with
    | none =>
      rw [if_neg]
      · exact Emits.skip_bind (Yields.pure _) (Emits.pure _) (Emits.pure _)
      · intro h
        have hsome := h.2.1
        rw [hval] at hsome
        exact absurd hsome (by simp)
    | some v =>
      exact Emits.bind_skip (predTest_yields hdb p predIdx v) (predTest_reads hdb predIdx hval hex)
        (Emits.pure _)

/-! ### Selections -/

theorem selLoop_reads (hdb : db.Loaded) {start k i : ℕ} (hin : start + i + k ≤ db.preds.length)
    (acc : Bool) (cur : UInt16) :
    ReadsFields db ev (selLoop pf db ev start k i acc cur)
      ((loopVisits pf db ev start k i acc cur).flatMap (predReads db ev)) := by
  induction k generalizing i acc cur with
  | zero => exact Emits.pure acc
  | succ k ih =>
    have hp : db.preds[start + i]? = some db.preds[start + i] :=
      List.getElem?_eq_getElem (by omega)
    have hrest : ∀ acc cur, ReadsFields db ev (selLoop pf db ev start k (i + 1) acc cur)
        ((loopVisits pf db ev start k (i + 1) acc cur).flatMap (predReads db ev)) :=
      fun acc cur => ih (by omega) acc cur
    have hpred : ReadsFields db ev (predMatch pf db ev db.preds[start + i] (start + i)) _ :=
      predMatch_reads hdb _ _
    rw [selLoop, loopVisits, hp]
    refine Emits.skip_bind (tableAt_yields hp) tableAt_reads ?_
    dsimp only
    by_cases hg : (db.preds[start + i]).groupId = cur
    · rw [if_pos hg, if_neg (not_not.mpr hg)]
      cases acc with
      | true => exact hrest true cur
      | false => exact Emits.bind (predMatch_yields hdb _ _) hpred (hrest _ cur)
    · rw [if_neg hg, if_pos hg]
      cases acc with
      | true => exact Emits.bind (predMatch_yields hdb _ _) hpred (hrest _ _)
      | false => exact Emits.pure false

theorem selMatch_reads (hdb : db.Loaded) {sel : SigmaSel} (hsel : sel ∈ db.sels) :
    ReadsFields db ev (selMatch pf db ev sel)
      ((selVisits pf db ev sel).flatMap (predReads db ev)) := by
  have hin := hdb.valid.selPreds sel hsel
  unfold selMatch selVisits
  by_cases hzero : sel.predCount = 0
  · rw [if_pos hzero, if_pos hzero]
    exact Emits.pure false
  · have hpos : sel.predCount.toNat ≠ 0 := fun h => hzero (UInt32.toNat_inj.mp h)
    have hp : db.preds[sel.predStart.toNat]? = some db.preds[sel.predStart.toNat] :=
      List.getElem?_eq_getElem (by omega)
    rw [if_neg hzero, if_neg hzero, hp]
    exact Emits.skip_bind (tableAt_yields hp) tableAt_reads (selLoop_reads hdb hin false _)

theorem ruleSel_reads (hdb : db.Loaded) {r : SigmaRule} (hr : r ∈ db.rules) {idx : ℕ}
    (hidx : idx < r.selCount.toNat) :
    ReadsFields db ev (ruleSel pf db ev r idx)
      ((ruleSelVisits pf db ev r idx).flatMap (predReads db ev)) := by
  have hin := hdb.valid.ruleSels r hr
  have hs : db.sels[r.selStart.toNat + idx]? = some db.sels[r.selStart.toNat + idx] :=
    List.getElem?_eq_getElem (by omega)
  unfold ruleSel ruleSelVisits
  rw [hs]
  exact Emits.skip_bind (tableAt_yields hs) tableAt_reads
    (selMatch_reads hdb (List.mem_of_getElem? hs))

/-! ### Conditions

The lazy machine again, next to the symbolic one.  A cell stands for an expression and, if it was
not looked at, for a selection that has not been run; forcing it runs the selection. -/

/-- The fields that running selection `i` of a rule reads. -/
def selReads (pf : Platform) (db : SigmaDb) (ev : Event) (r : SigmaRule) (i : UInt32) : List ℕ :=
  (ruleSelVisits pf db ev r i.toNat).flatMap (predReads db ev)

/-- A lazy cell stands for an expression and defers the same selection. -/
def RpnCell.Stands (r : SigmaRule) (v : UInt32 → Bool) (c : RpnCell) (e : BoolExpr UInt32) : Prop :=
  c.Means r v e ∧ match c with
    | .bool _ => e.deferred = []
    | .sel i => e.deferred = [i]
    | .notsel i => e.deferred = [i]

theorem RpnCell.Stands.negate {r : SigmaRule} {v : UInt32 → Bool} {c : RpnCell}
    {e : BoolExpr UInt32} (h : c.Stands r v e) : c.negate.Stands r v (.not e) := by
  obtain ⟨hmeans, hdefer⟩ := h
  cases c with
  | bool b => exact ⟨hmeans.negate, hdefer⟩
  | sel i => exact ⟨hmeans.negate, hdefer⟩
  | notsel i => exact ⟨hmeans.negate, hdefer⟩

theorem rpnForce_reads (hdb : db.Loaded) {r : SigmaRule} (hr : r ∈ db.rules) {c : RpnCell}
    {e : BoolExpr UInt32} {v : UInt32 → Bool} (hc : c.Stands r v e) :
    ReadsFields db ev (rpnForce pf db ev r c) (e.deferred.flatMap (selReads pf db ev r)) := by
  obtain ⟨⟨hrange, -⟩, hdefer⟩ := hc
  cases c with
  | bool b =>
    rw [show e.deferred = [] from hdefer]
    exact Emits.pure b
  | sel i =>
    rw [show e.deferred = [i] from hdefer, List.flatMap_singleton, rpnForce,
      if_neg (UInt32.not_le.mpr hrange)]
    exact ruleSel_reads hdb hr (UInt32.lt_iff_toNat_lt.mp hrange)
  | notsel i =>
    have hlt := UInt32.lt_iff_toNat_lt.mp hrange
    rw [show e.deferred = [i] from hdefer, List.flatMap_singleton, rpnForce,
      if_neg (UInt32.not_le.mpr hrange)]
    exact Emits.bind_skip (ruleSel_yields hdb hr hlt) (ruleSel_reads hdb hr hlt) (Emits.pure _)

/-- Two cells of which the second is forced unless the first is `stop`. -/
theorem rpnForce_both (hdb : db.Loaded) {r : SigmaRule} (hr : r ∈ db.rules) {a b : RpnCell}
    {e f : BoolExpr UInt32} (ha : a.Stands r (fun i => ruleSelHolds pf db ev r i.toNat) e)
    (hb : b.Stands r (fun i => ruleSelHolds pf db ev r i.toNat) f) (stop : Bool)
    (rest : List RpnCell) (look : Bool → EvalM (Option (List RpnCell)))
    (hstop : look stop = pure stop >>= fun val => pure (some (.bool val :: rest)))
    (hgo : look (!stop) = rpnForce pf db ev r b >>= fun val => pure (some (.bool val :: rest)))
    {val : Bool} (hval : val = if e.eval (fun i => ruleSelHolds pf db ev r i.toNat) = stop then stop
      else f.eval fun i => ruleSelHolds pf db ev r i.toNat)
    {atoms : List UInt32} (hatoms : atoms = e.deferred ++
      if e.eval (fun i => ruleSelHolds pf db ev r i.toNat) = stop then [] else f.deferred) :
    Yields (memoFrame db ev) (rpnForce pf db ev r a >>= look) (some (.bool val :: rest)) ∧
      ReadsFields db ev (rpnForce pf db ev r a >>= look) (atoms.flatMap (selReads pf db ev r)) := by
  have hforce : Yields (memoFrame db ev) (rpnForce pf db ev r a)
      (e.eval fun i => ruleSelHolds pf db ev r i.toNat) := ha.1.2 ▸ rpnForce_yields hdb hr ha.1.1
  have hreads : ReadsFields db ev (rpnForce pf db ev r a) (e.deferred.flatMap (selReads pf db ev r)) :=
    rpnForce_reads hdb hr ha
  subst hval hatoms
  rw [List.flatMap_append]
  generalize (e.eval fun i => ruleSelHolds pf db ev r i.toNat) = av at hforce
  by_cases heq : av = stop
  · rw [if_pos heq, if_pos heq]
    subst heq
    refine ⟨hforce.bind ?_, Emits.bind hforce hreads ?_⟩
    · rw [hstop]
      exact (Yields.pure av).bind (Yields.pure _)
    · rw [hstop]
      exact Emits.skip_bind (Yields.pure av) (Emits.pure _) (Emits.pure _)
  · rw [if_neg heq, if_neg heq]
    obtain rfl : av = !stop := Bool.eq_not_of_ne heq
    refine ⟨hforce.bind ?_, Emits.bind hforce hreads ?_⟩
    · rw [hgo, ← hb.1.2]
      exact (rpnForce_yields hdb hr hb.1.1).bind (Yields.pure _)
    · rw [hgo]
      exact Emits.bind_skip (rpnForce_yields hdb hr hb.1.1) (rpnForce_reads hdb hr hb) (Emits.pure _)

/-- One token: the lazy machine follows the symbolic one and runs the selections that one looks
at. -/
theorem condStep_reads (hdb : db.Loaded) {r : SigmaRule} (hr : r ∈ db.rules) {k : SigmaCtok}
    (hk : k.kind ≤ sigmaCNot) {stack : List RpnCell} {es : List (BoolExpr UInt32)}
    (h : List.Forall₂ (RpnCell.Stands r fun i => ruleSelHolds pf db ev r i.toNat) stack es) :
    ∃ next, Yields (memoFrame db ev) (condStep pf db ev r k stack) next ∧
      Option.Rel (List.Forall₂ (RpnCell.Stands r fun i => ruleSelHolds pf db ev r i.toNat)) next
        (rpnStep sigmaCondStackMax (fun i => decide (i < r.selCount)) k.tok es) ∧
      ReadsFields db ev (condStep pf db ev r k stack)
        ((tokAtoms (fun i => ruleSelHolds pf db ev r i.toNat) k.tok es).flatMap
          (selReads pf db ev r)) := by
  have hlen := h.length_eq
  have hstop : ∀ {tok : RpnTok UInt32} {es : List (BoolExpr UInt32)},
      rpnStep sigmaCondStackMax (fun i => decide (i < r.selCount)) tok es = none →
        tokAtoms (fun i => ruleSelHolds pf db ev r i.toNat) tok es = [] → ∃ next,
          Yields (memoFrame db ev) (pure none : EvalM (Option (List RpnCell))) next ∧
          Option.Rel (List.Forall₂ (RpnCell.Stands r fun i => ruleSelHolds pf db ev r i.toNat))
            next (rpnStep sigmaCondStackMax (fun i => decide (i < r.selCount)) tok es) ∧
          ReadsFields db ev (pure none : EvalM (Option (List RpnCell)))
            ((tokAtoms (fun i => ruleSelHolds pf db ev r i.toNat) tok es).flatMap
              (selReads pf db ev r)) := by
    intro tok es hstep hatoms
    rw [hstep, hatoms]
    exact ⟨none, Yields.pure none, .none, Emits.pure none⟩
  unfold condStep SigmaCtok.tok
  by_cases hsel : k.kind = sigmaCSel
  · rw [if_pos hsel, if_pos hsel]
    by_cases hfull : sigmaCondStackMax ≤ stack.length
    · rw [if_pos hfull]
      exact hstop (if_neg fun hc => by omega) rfl
    · by_cases hbad : r.selCount ≤ k.selIdx
      · rw [if_neg hfull, if_pos hbad]
        exact hstop (if_neg fun hc => UInt32.not_le.mpr (of_decide_eq_true hc.2) hbad) rfl
      · have hlt := UInt32.not_le.mp hbad
        rw [if_neg hfull, if_neg hbad, if_pos (Nat.lt_of_not_le hfull), rpnStep,
          if_pos ⟨by omega, decide_eq_true hlt⟩]
        exact ⟨_, Yields.pure _, .some (.cons ⟨⟨hlt, rfl⟩, rfl⟩ h), Emits.pure _⟩
  rw [if_neg hsel, if_neg hsel]
  by_cases hnot : k.kind = sigmaCNot
  · rw [if_pos hnot, if_pos hnot]
    cases h with
    | nil => exact hstop rfl rfl
    | cons hc hrest =>
      exact ⟨_, Yields.pure _, .some (.cons hc.negate hrest), Emits.pure _⟩
  rw [if_neg hnot, if_neg hnot]
  by_cases hand : k.kind = sigmaCAnd
  · rw [if_pos hand, if_pos hand]
    cases h with
    | nil => exact hstop rfl rfl
    | @cons b f _ _ hb hrest =>
      cases hrest with
      | nil => exact hstop rfl rfl
      | @cons a e rest es' ha hrest =>
        have hval : ∀ v, (BoolExpr.and e f).eval v = if e.eval v = false then false else f.eval v := by
          intro v
          rw [BoolExpr.eval]
          cases e.eval v <;> rfl
        have hatoms : ∀ v, tokAtoms v .and (f :: e :: es') =
            e.deferred ++ if e.eval v = false then [] else f.deferred := by
          intro v
          rw [tokAtoms]
          cases e.eval v <;> rfl
        obtain ⟨hyields, hreads⟩ :=
          rpnForce_both hdb hr ha hb false rest (fun av =>
            if av then rpnForce pf db ev r b >>= fun val => pure (some (.bool val :: rest))
            else pure false >>= fun val => pure (some (.bool val :: rest))) rfl rfl (hval _) (hatoms _)
        exact ⟨_, hyields, .some (.cons ⟨⟨trivial, rfl⟩, rfl⟩ hrest), hreads⟩
  · have hor : k.kind = sigmaCOr := SigmaCtok.kind_eq_or hk hsel hand hnot
    rw [if_neg hand, if_neg hand, if_pos hor]
    cases h with
    | nil => exact hstop rfl rfl
    | @cons b f _ _ hb hrest =>
      cases hrest with
      | nil => exact hstop rfl rfl
      | @cons a e rest es' ha hrest =>
        have hval : ∀ v, (BoolExpr.or e f).eval v = if e.eval v = true then true else f.eval v := by
          intro v
          rw [BoolExpr.eval]
          cases e.eval v <;> rfl
        have hatoms : ∀ v, tokAtoms v .or (f :: e :: es') =
            e.deferred ++ if e.eval v = true then [] else f.deferred := by
          intro v
          rw [tokAtoms]
        obtain ⟨hyields, hreads⟩ :=
          rpnForce_both hdb hr ha hb true rest (fun av =>
            if av then pure true >>= fun val => pure (some (.bool val :: rest))
            else rpnForce pf db ev r b >>= fun val => pure (some (.bool val :: rest))) rfl rfl (hval _)
              (hatoms _)
        exact ⟨_, hyields, .some (.cons ⟨⟨trivial, rfl⟩, rfl⟩ hrest), hreads⟩

/-- All tokens. -/
theorem condLoop_reads (hdb : db.Loaded) {r : SigmaRule} (hr : r ∈ db.rules) {k i : ℕ}
    (hin : r.condStart.toNat + i + k ≤ db.cond.length) {stack : List RpnCell}
    {es : List (BoolExpr UInt32)}
    (h : List.Forall₂ (RpnCell.Stands r fun i => ruleSelHolds pf db ev r i.toNat) stack es) :
    ReadsFields db ev (condLoop pf db ev r k i stack)
      ((runAtoms sigmaCondStackMax (fun i => decide (i < r.selCount))
        (fun i => ruleSelHolds pf db ev r i.toNat)
        ((slice db.cond (r.condStart.toNat + i) k).map SigmaCtok.tok) es).flatMap
          (selReads pf db ev r)) := by
  induction k generalizing i stack es with
  | zero =>
    rw [slice_zero, List.map_nil]
    cases h with
    | nil => exact Emits.pure false
    | cons hc hrest =>
      cases hrest with
      | nil =>
        rw [runAtoms]
        exact rpnForce_reads hdb hr hc
      | cons _ _ => exact Emits.pure false
  | succ k ih =>
    have htok : db.cond[r.condStart.toNat + i]? = some db.cond[r.condStart.toNat + i] :=
      List.getElem?_eq_getElem (by omega)
    have hkind := hdb.valid.condKind _ (List.mem_of_getElem? htok)
    obtain ⟨next, hstep, hrel, hreads⟩ := condStep_reads hdb hr hkind h
    rw [slice_succ htok, List.map_cons, runAtoms, condLoop, List.flatMap_append]
    refine Emits.skip_bind (tableAt_yields htok) tableAt_reads (Emits.bind hstep hreads ?_)
    revert hrel
    cases rpnStep sigmaCondStackMax (fun i => decide (i < r.selCount))
        (db.cond[r.condStart.toNat + i]).tok es with
    | none =>
      rintro ⟨⟩
      exact Emits.pure false
    | some es' =>
      rintro ⟨hrest⟩
      exact ih (by omega) hrest

theorem allSels_reads (hdb : db.Loaded) {r : SigmaRule} (hr : r ∈ db.rules) {k i : ℕ}
    (hin : i + k ≤ r.selCount.toNat) :
    ReadsFields db ev (allSels pf db ev r k i)
      (((andSelections pf db ev r k i).flatMap (ruleSelVisits pf db ev r)).flatMap
        (predReads db ev)) := by
  induction k generalizing i with
  | zero => exact Emits.pure _
  | succ k ih =>
    rw [andSelections, List.flatMap_cons, List.flatMap_append, allSels]
    refine Emits.bind (ruleSel_yields hdb hr (by omega)) (ruleSel_reads hdb hr (by omega)) ?_
    cases ruleSelHolds pf db ev r i with
    | true => exact ih (by omega)
    | false => exact Emits.pure false

/-- **`rule_match` resolves exactly the fields that the predicates it evaluates read**, in this
order. -/
theorem ruleMatch_reads (hdb : db.Loaded) {r : SigmaRule} (hr : r ∈ db.rules) :
    ReadsFields db ev (ruleMatch pf db ev r)
      ((ruleVisits pf db ev r).flatMap (predReads db ev)) := by
  unfold ruleMatch ruleVisits ruleSelections
  by_cases hzero : r.condCount = 0
  · rw [if_pos hzero, if_pos hzero]
    exact allSels_reads hdb hr (by omega)
  · rw [if_neg hzero, if_neg hzero, List.flatMap_map, List.flatMap_assoc]
    exact condLoop_reads hdb hr (hdb.valid.ruleCond r hr) .nil

/-! ## What is visited belongs to the rule -/

theorem mem_of_mem_loopVisits {start k i : ℕ} {acc : Bool} {cur : UInt16} {p : SigmaPred}
    (h : p ∈ loopVisits pf db ev start k i acc cur) : p ∈ slice db.preds (start + i) k := by
  induction k generalizing i acc cur with
  | zero => exact absurd h List.not_mem_nil
  | succ k ih =>
    rw [loopVisits] at h
    cases hp : db.preds[start + i]? with
    | none =>
      rw [hp] at h
      exact absurd h List.not_mem_nil
    | some q =>
      rw [hp] at h
      rw [slice_succ hp, List.mem_cons]
      dsimp only at h
      split at h
      · split at h
        · exact .inr (ih h)
        · exact (List.mem_cons.mp h).imp id ih
      · split at h
        · exact (List.mem_cons.mp h).imp id ih
        · exact absurd h List.not_mem_nil

theorem lt_of_mem_andSelections {r : SigmaRule} {k i j : ℕ}
    (h : j ∈ andSelections pf db ev r k i) : j < i + k := by
  induction k generalizing i with
  | zero => exact absurd h List.not_mem_nil
  | succ k ih =>
    rw [andSelections] at h
    rcases List.mem_cons.mp h with rfl | h
    · omega
    · split at h
      · have hlt := ih h
        omega
      · exact absurd h List.not_mem_nil

/-- The selections that are run are the rule's. -/
theorem lt_of_mem_ruleSelections {r : SigmaRule} {j : ℕ} (h : j ∈ ruleSelections pf db ev r) :
    j < r.selCount.toNat := by
  unfold ruleSelections at h
  split at h
  · have hlt := lt_of_mem_andSelections h
    omega
  · obtain ⟨i, hi, rfl⟩ := List.mem_map.mp h
    have hok := forall_runAtoms (by simp) hi
    exact UInt32.lt_iff_toNat_lt.mp (of_decide_eq_true hok)

/-- The predicates that are evaluated are the rule's. -/
theorem mem_rulePreds_of_visited {r : SigmaRule} {p : SigmaPred}
    (h : p ∈ ruleVisits pf db ev r) :
    p ∈ (slice db.sels r.selStart.toNat r.selCount.toNat).flatMap fun s =>
      slice db.preds s.predStart.toNat s.predCount.toNat := by
  obtain ⟨j, hj, hp⟩ := List.mem_flatMap.mp h
  have hlt := lt_of_mem_ruleSelections hj
  unfold ruleSelVisits at hp
  split at hp
  · exact absurd hp List.not_mem_nil
  · rename_i s hs
    refine List.mem_flatMap.mpr ⟨s, mem_slice.mpr ⟨j, hlt, hs⟩, ?_⟩
    unfold selVisits at hp
    split at hp
    · exact absurd hp List.not_mem_nil
    · split at hp
      · exact absurd hp List.not_mem_nil
      · exact mem_of_mem_loopVisits hp

end Code

end LibSigma
