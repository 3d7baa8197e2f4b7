import LibSigma.Library.Keeps
import LibSigma.Matcher.Eval

/-!
# What the parts of an evaluation keep

An evaluation touches the scratch in few places: `resolve_field` fills the memo, a visit stamps its
rule, the prefilter sets masks, a confirmed needle and a scanned field are counted.  A frame that is
kept at these places is kept by every function that is made of them, whatever the event and whatever
the branches taken.

## One traversal for all frames

Several results are of the form "this relation between the scratch before and after is kept by an
evaluation": the relation on counters and log, the one on calls of the callback, the one on stamps.
To prove each of them by walking through the code would walk through it as often.  Here the walk is
done once, for an arbitrary frame (a reflexive and transitive relation of `LibSigma.Library.Keeps`),
and what a caller has to show is its relation at the places where something is written.

## What a frame may look at

The lemmas ask for as little as they can.  The function that matches a rule needs the frame at
`resolve_field` only.  The prefilter also stores masks and counts needles, and a frame that does not
look at these says so (`SkipsMasks`, `SkipsCounters`).  Writing these as properties of the frame
keeps the hypotheses of the theorems short, and a new frame is a matter of a few lines.

## Traces

The log is one list of everything observable.  `SigmaEval.trace` picks one kind of entry from it, so
a frame that speaks of one kind is not disturbed by what others append.

* `SigmaEval.trace`: what the log says of one kind of work.
* `ruleMatch_keeps`: matching keeps what `resolve_field` keeps.
* `prefilterCandidates_keeps`: the prefilter.
* `evalBuckets_keeps`, `evalUnrouted_keeps`: the visits.
* `routeLoop_keeps`: the routing.
-/

namespace LibSigma

open Library

/-! ## Traces -/

/-- What the log says of one kind of work, oldest first. -/
def SigmaEval.trace {τ : Type} (read : Obs → Option τ) (e : SigmaEval) : List τ :=
  e.log.reverse.filterMap read

/-- The rule a log entry says was run through `rule_match`. -/
def Obs.matched : Obs → Option ℕ
  | .ruleMatch i => some i
  | _ => none

/-- The name a log entry says the callback was asked for. -/
def Obs.called : Obs → Option Bytes
  | .call name => some name
  | _ => none

/-- The needle a log entry says was confirmed. -/
def Obs.confirmed : Obs → Option ℕ
  | .confirm needle => some needle
  | _ => none

/-- The number of bytes a log entry says were scanned. -/
def Obs.scanned : Obs → Option ℕ
  | .scan _ len => some len
  | _ => none

section Traces

variable {τ : Type} {read : Obs → Option τ}

/-- One more log entry. -/
theorem trace_cons {e e' : SigmaEval} {o : Obs} (h : e'.log = o :: e.log) :
    e'.trace read = e.trace read ++ (read o).toList := by
  rw [SigmaEval.trace, SigmaEval.trace, h, List.reverse_cons, List.filterMap_append]
  cases hread : read o with
  | none => simp [hread]
  | some a => simp [hread]

/-- The log entry is of another kind. -/
theorem trace_skip {e e' : SigmaEval} {o : Obs} (h : e'.log = o :: e.log) (ho : read o = none) :
    e'.trace read = e.trace read := by
  rw [trace_cons h, ho, Option.toList_none, List.append_nil]

/-- The log entry is of this kind. -/
theorem trace_snoc {e e' : SigmaEval} {o : Obs} {a : τ} (h : e'.log = o :: e.log)
    (ho : read o = some a) : e'.trace read = e.trace read ++ [a] := by
  rw [trace_cons h, ho, Option.toList_some]

theorem trace_congr {e e' : SigmaEval} (h : e'.log = e.log) : e'.trace read = e.trace read := by
  rw [SigmaEval.trace, SigmaEval.trace, h]

end Traces

section Parts

variable {F : Frame SigmaEval} {pf : Platform} {db : SigmaDb} {ev : Event}

/-! ## Matching

One lemma per function of the matcher, from the reads of a table up to a rule.  The frame is any
that is kept when a field is resolved, and the proofs follow the text of each function. -/

theorem tableAt_keeps {α : Type} {table : Table} {xs : List α} {i : ℕ} :
    Keeps F (tableAt table xs i) :=
  Keeps.lift _

theorem poolStr_keeps {s : SigmaStr} : Keeps F (db.poolStr s) := by
  unfold SigmaDb.poolStr
  split
  · exact Keeps.pure _
  · exact Keeps.throw _

theorem poolName_keeps {s : SigmaStr} : Keeps F (db.poolName s) := by
  unfold SigmaDb.poolName
  split
  · exact Keeps.pure _
  · exact Keeps.throw _

/-- Resolving a field, for a frame that looks at no value of the memo. -/
theorem resolveField_keeps
    (hread : ∀ e f, F.inv e → F.inv { e with log := .resolve f :: e.log } ∧
      F.keeps e { e with log := .resolve f :: e.log })
    (hcall : ∀ e f v name, F.inv e →
      F.inv { e with memo := e.memo.set f v, log := .call name :: e.log } ∧
        F.keeps e { e with memo := e.memo.set f v, log := .call name :: e.log })
    (fieldId : UInt16) : Keeps F (resolveField db ev fieldId) := by
  refine Keeps.bind (Keeps.modify fun e he => hread e _ he) fun _ => ?_
  split
  · exact Keeps.pure _
  · refine Keeps.get.bind fun e => tableAt_keeps.bind fun slot => ?_
    cases slot with
    | some v => exact Keeps.pure _
    | none =>
      refine tableAt_keeps.bind fun f => poolName_keeps.bind fun name => ?_
      exact Keeps.bind (Keeps.modify fun e he => hcall e _ _ _ he) fun _ => Keeps.pure _

section Reading

variable (hresolve : ∀ f, Keeps F (resolveField db ev f))

include hresolve

theorem predOperand_keeps (p : SigmaPred) : Keeps F (predOperand db ev p) := by
  unfold predOperand
  split
  · split
    · exact Keeps.pure _
    · exact hresolve _
  · split
    · exact tableAt_keeps.bind fun _ => poolStr_keeps.bind fun _ => Keeps.pure _
    · exact Keeps.pure _

theorem operandTest_keeps (p : SigmaPred) (op : Option SigmaOp) (val : Bytes) :
    Keeps F (operandTest db ev p op val) := by
  refine (predOperand_keeps hresolve p).bind fun o => ?_
  cases o with
  | none => exact Keeps.pure _
  | some o => exact Keeps.pure _

theorem predTest_keeps (p : SigmaPred) (predIdx : ℕ) (val : Bytes) :
    Keeps F (predTest pf db ev p predIdx val) := by
  unfold predTest
  split
  · exact Keeps.pure _
  · exact Keeps.pure _
  · exact Keeps.pure _
  · exact Keeps.pure _
  · exact Keeps.pure _
  · split
    · exact tableAt_keeps.bind fun _ => Keeps.pure _
    · exact Keeps.pure _
  · split
    · exact Keeps.pure _
    · split
      · exact Keeps.pure _
      · exact tableAt_keeps.bind fun _ => Keeps.pure _
  · exact operandTest_keeps hresolve p _ val

theorem predMatch_keeps (p : SigmaPred) (predIdx : ℕ) :
    Keeps F (predMatch pf db ev p predIdx) := by
  refine (hresolve _).bind fun val => ?_
  dsimp only
  split
  · exact (Keeps.pure _).bind fun _ => Keeps.pure _
  · cases val with
    | none => exact (Keeps.pure _).bind fun _ => Keeps.pure _
    | some v => exact (predTest_keeps hresolve p predIdx v).bind fun _ => Keeps.pure _

theorem selLoop_keeps (start k i : ℕ) (groupOr : Bool) (curGroup : UInt16) :
    Keeps F (selLoop pf db ev start k i groupOr curGroup) := by
  induction k generalizing i groupOr curGroup with
  | zero => exact Keeps.pure _
  | succ k ih =>
    rw [selLoop]
    refine tableAt_keeps.bind fun p => ?_
    split
    · split
      · exact Keeps.pure _
      · exact (predMatch_keeps hresolve p _).bind fun _ => ih _ _ _
    · split
      · exact (predMatch_keeps hresolve p _).bind fun _ => ih _ _ _
      · exact ih _ _ _

theorem selMatch_keeps (sel : SigmaSel) : Keeps F (selMatch pf db ev sel) := by
  unfold selMatch
  split
  · exact Keeps.pure _
  · exact tableAt_keeps.bind fun _ => selLoop_keeps hresolve _ _ _ _ _

theorem ruleSel_keeps (r : SigmaRule) (idx : ℕ) : Keeps F (ruleSel pf db ev r idx) :=
  tableAt_keeps.bind fun _ => selMatch_keeps hresolve _

theorem rpnForce_keeps (r : SigmaRule) (c : RpnCell) : Keeps F (rpnForce pf db ev r c) := by
  cases c with
  | bool val => exact Keeps.pure _
  | sel idx =>
    rw [rpnForce]
    split
    · exact Keeps.pure _
    · exact ruleSel_keeps hresolve r _
  | notsel idx =>
    rw [rpnForce]
    split
    · exact Keeps.pure _
    · exact (ruleSel_keeps hresolve r _).bind fun _ => Keeps.pure _

theorem condStep_keeps (r : SigmaRule) (tok : SigmaCtok) (stack : List RpnCell) :
    Keeps F (condStep pf db ev r tok stack) := by
  unfold condStep
  split
  · split
    · exact Keeps.pure _
    · split
      · exact Keeps.pure _
      · split
        · exact Keeps.pure _
        · exact Keeps.throw _
  split
  · split
    · exact Keeps.pure _
    · cases stack with
      | nil => exact Keeps.throw _
      | cons c rest => exact Keeps.pure _
  have hforce : ∀ c, Keeps F (rpnForce pf db ev r c) := rpnForce_keeps hresolve r
  split
  · split
    · exact Keeps.pure _
    · split
      · refine (hforce _).bind fun av => ?_
        dsimp only
        split
        · exact (hforce _).bind fun _ => Keeps.pure _
        · exact (Keeps.pure _).bind fun _ => Keeps.pure _
      · exact Keeps.throw _
  split
  · split
    · exact Keeps.pure _
    · split
      · refine (hforce _).bind fun av => ?_
        dsimp only
        split
        · exact (Keeps.pure _).bind fun _ => Keeps.pure _
        · exact (hforce _).bind fun _ => Keeps.pure _
      · exact Keeps.throw _
  · exact Keeps.pure _

theorem condLoop_keeps (r : SigmaRule) (k i : ℕ) (stack : List RpnCell) :
    Keeps F (condLoop pf db ev r k i stack) := by
  induction k generalizing i stack with
  | zero =>
    rw [condLoop.eq_def]
    dsimp only
    split
    · exact Keeps.pure _
    · cases stack with
      | nil => exact Keeps.throw _
      | cons c rest => exact rpnForce_keeps hresolve r c
  | succ k ih =>
    rw [condLoop.eq_def]
    dsimp only
    refine tableAt_keeps.bind fun tok => (condStep_keeps hresolve r tok stack).bind fun next => ?_
    cases next with
    | none => exact Keeps.pure _
    | some stack => exact ih _ _

theorem allSels_keeps (r : SigmaRule) (k i : ℕ) : Keeps F (allSels pf db ev r k i) := by
  induction k generalizing i with
  | zero => exact Keeps.pure _
  | succ k ih =>
    refine (ruleSel_keeps hresolve r i).bind fun hit => ?_
    split
    · exact ih _
    · exact Keeps.pure _

/-- Matching a rule keeps what resolving a field keeps. -/
theorem ruleMatch_keeps (r : SigmaRule) : Keeps F (ruleMatch pf db ev r) := by
  unfold ruleMatch
  split
  · exact allSels_keeps hresolve r _ _
  · exact condLoop_keeps hresolve r _ _ _

theorem fwitHolds_keeps (w : SigmaFwit) : Keeps F (fwitHolds pf db ev w) := by
  refine (hresolve _).bind fun val => ?_
  cases val with
  | none => exact Keeps.pure _
  | some v =>
    dsimp only
    split
    · exact Keeps.pure _
    · split
      · split
        · exact Keeps.pure _
        · exact tableAt_keeps.bind fun _ => Keeps.pure _
      · split
        · exact Keeps.pure _
        · exact Keeps.pure _

end Reading

theorem hitOf_keeps (r : SigmaRule) : Keeps F (hitOf db r) := by
  unfold hitOf
  dsimp only
  split
  · exact tableAt_keeps.bind fun _ => poolStr_keeps.bind fun _ =>
      (Keeps.pure _).bind fun _ => Keeps.pure _
  · exact (Keeps.pure _).bind fun _ => Keeps.pure _

/-! ## Visiting rules

A visit stamps its rule, logs it, runs it and may add a hit.  Callers that count rules do so
outside; a frame that does not look at these counters is kept by the loops as well. -/

/-- One visit, for a frame that looks neither at the visit stamps nor at the visits logged. -/
theorem evalOneRule_keeps (hresolve : ∀ f, Keeps F (resolveField db ev f))
    (hdone : ∀ e done, F.inv e → F.inv { e with evalDone := done } ∧
      F.keeps e { e with evalDone := done })
    (hmatch : ∀ e i, F.inv e → F.inv { e with log := .ruleMatch i :: e.log } ∧
      F.keeps e { e with log := .ruleMatch i :: e.log })
    (maxHits : Int) (i : ℕ) (rep : Report) : Keeps F (evalOneRule pf db ev maxHits i rep) := by
  have hfirst : Keeps F (firstVisit i) := by
    refine Keeps.get.bind fun e => ?_
    split
    · exact Keeps.pure _
    · refine tableAt_keeps.bind fun done => ?_
      split
      · exact Keeps.pure _
      · exact (Keeps.modify fun e he => hdone e _ he).bind fun _ => Keeps.pure _
  refine hfirst.bind fun first => ?_
  split
  · refine tableAt_keeps.bind fun r => (Keeps.modify fun e he => hmatch e i he).bind fun _ => ?_
    refine (ruleMatch_keeps hresolve r).bind fun hit => ?_
    split
    · split
      · exact (hitOf_keeps r).bind fun _ => Keeps.pure _
      · exact Keeps.pure _
    · exact Keeps.pure _
  · exact Keeps.pure _

/-- What leaves the counters alone. -/
def statsFrame : Frame SigmaEval := sameFrame SigmaEval.st

/-- A visit touches no counter. -/
theorem evalOneRule_stats (maxHits : Int) (i : ℕ) (rep : Report) :
    Keeps statsFrame (evalOneRule pf db ev maxHits i rep) :=
  evalOneRule_keeps
    (resolveField_keeps (fun _ _ _ => ⟨trivial, rfl⟩) fun _ _ _ _ _ => ⟨trivial, rfl⟩)
    (fun _ _ _ => ⟨trivial, rfl⟩) (fun _ _ _ => ⟨trivial, rfl⟩) maxHits i rep

theorem ruleFullMask_keeps (ri : ℕ) : Keeps F (ruleFullMask db ri) := by
  unfold ruleFullMask
  split
  · exact Keeps.pure _
  · refine tableAt_keeps.bind fun n => ?_
    split
    · exact Keeps.pure _
    · split
      · exact Keeps.pure _
      · exact Keeps.pure _

theorem gatedOut_keeps (prefiltered : Bool) (ri : ℕ) : Keeps F (gatedOut db prefiltered ri) := by
  unfold gatedOut
  split
  · refine Keeps.bind ?_ fun _ => Keeps.pure _
    refine Keeps.get.bind fun e => tableAt_keeps.bind fun g => ?_
    split
    · exact Keeps.pure _
    · exact tableAt_keeps.bind fun _ => (ruleFullMask_keeps ri).bind fun _ => Keeps.pure _
  · exact Keeps.pure _

/-- The frame does not look at the counters of rules. -/
def SkipsCounters (F : Frame SigmaEval) : Prop :=
  ∀ (e : SigmaEval) (scope verified : ℕ), F.inv e →
    F.inv { e with st := { e.st with rulesInScope := scope, rulesVerified := verified } } ∧
      F.keeps e { e with st := { e.st with rulesInScope := scope, rulesVerified := verified } }

theorem SkipsCounters.and {F G : Frame SigmaEval} (hF : SkipsCounters F) (hG : SkipsCounters G) :
    SkipsCounters (F.and G) := by
  rintro e scope verified ⟨he, he'⟩
  obtain ⟨hinv, hkeeps⟩ := hF e scope verified he
  obtain ⟨hinv', hkeeps'⟩ := hG e scope verified he'
  exact ⟨⟨hinv, hinv'⟩, hkeeps, hkeeps'⟩

section Visiting

variable {maxHits : Int} (hvisit : ∀ i rep, Keeps F (evalOneRule pf db ev maxHits i rep))
  (hcount : SkipsCounters F)

include hvisit

theorem evalAll_keeps (k i : ℕ) (rep : Report) : Keeps F (evalAll pf db ev maxHits k i rep) := by
  induction k generalizing i rep with
  | zero => exact Keeps.pure _
  | succ k ih => exact (hvisit i rep).bind fun _ => ih _ _

include hcount

theorem evalUnrouted_keeps : Keeps F (evalUnrouted pf db ev maxHits) :=
  Keeps.bind (Keeps.modify fun e he => hcount e _ _ he) fun _ => evalAll_keeps hvisit _ _ _

theorem bucketLoop_keeps (prefiltered : Bool) (start k i : ℕ) (rep : Report) :
    Keeps F (bucketLoop pf db ev maxHits prefiltered start k i rep) := by
  induction k generalizing i rep with
  | zero => exact Keeps.pure _
  | succ k ih =>
    refine tableAt_keeps.bind fun ri => (gatedOut_keeps prefiltered _).bind fun gated => ?_
    split
    · exact ih _ _
    · refine Keeps.bind (Keeps.modify fun e he => hcount e _ _ he) fun _ => ?_
      exact (hvisit _ rep).bind fun _ => ih _ _

/-- The selected buckets, gated or not. -/
theorem evalBuckets_keeps (prefiltered : Bool) (sel : List ℕ) (rep : Report) :
    Keeps F (evalBuckets pf db ev maxHits prefiltered sel rep) := by
  induction sel generalizing rep with
  | nil => exact Keeps.pure _
  | cons b sel ih =>
    refine Keeps.bind (tableAt_keeps.bind fun bk => ?_) fun _ => ih _
    refine Keeps.bind (Keeps.modify fun e he => hcount e _ _ he) fun _ => ?_
    exact bucketLoop_keeps hvisit hcount prefiltered _ _ _ rep

end Visiting

/-! ## The prefilter

The masks are written in many places, so there is a predicate for frames that do not look at them.
Scanning is treated once, for any callback that keeps the frame. -/

/-- The frame does not look at the clause masks. -/
def SkipsMasks (F : Frame SigmaEval) : Prop :=
  ∀ (e : SigmaEval) (gens masks : List UInt32), F.inv e →
    F.inv { e with ruleGen := gens, ruleMask := masks } ∧
      F.keeps e { e with ruleGen := gens, ruleMask := masks }

theorem creditClause_keeps (hmask : SkipsMasks F) (ri : ℕ) (clause : UInt8) :
    Keeps F (creditClause ri clause) := by
  have htouch : Keeps F (pfTouch ri) := by
    refine Keeps.get.bind fun e => tableAt_keeps.bind fun g => ?_
    split
    · exact Keeps.modify fun e he => hmask e _ _ he
    · exact Keeps.pure _
  refine htouch.bind fun _ => Keeps.get.bind fun e => tableAt_keeps.bind fun m => ?_
  split
  · exact Keeps.throw _
  · exact Keeps.modify fun e he => hmask e e.ruleGen _ he

/-- The scratch when needle `needle` has been counted. -/
def SigmaEval.countNeedle (e : SigmaEval) (needle : ℕ) : SigmaEval :=
  { e with
    st := { e.st with needlesConfirmed := e.st.needlesConfirmed + 1 }
    log := .confirm needle :: e.log }

/-- A confirmed needle, for a frame that is kept when it is counted. -/
theorem markPostings_keeps (hmask : SkipsMasks F)
    (hconfirm : ∀ (e : SigmaEval) (needle : ℕ), F.inv e →
      F.inv (e.countNeedle needle) ∧ F.keeps e (e.countNeedle needle))
    (needle : ℕ) : Keeps F (markPostings db needle) := by
  refine Keeps.bind (Keeps.modify fun e he => hconfirm e needle he) fun _ =>
    tableAt_keeps.bind fun post => ?_
  refine Keeps.forRange (fun k => tableAt_keeps.bind fun r => Keeps.get.bind fun e => ?_) _
  split
  · exact Keeps.pure _
  · exact creditClause_keeps hmask _ _

section Teddy

variable {σ : Type} {G : Frame σ} {t : SigmaTeddy} {mark : ℕ → StateT σ (Except Fault) PUnit}
  (hmark : ∀ k, Keeps G (mark k)) (buf : Bytes)

include hmark

theorem teddyWalk_keeps (avail pos : ℕ) (next : ℕ → UInt32) (fuel : ℕ) (k : UInt32)
    (scr : TeddyScratch) : Keeps G (teddyWalk db t mark buf avail pos next fuel k scr) := by
  have htry : ∀ k scr, Keeps G (teddyTry db t mark buf avail pos k scr) := by
    intro k scr
    refine Keeps.bind (Keeps.lift _) fun g => ?_
    split
    · exact Keeps.pure _
    · refine Keeps.bind (Keeps.lift _) fun n => ?_
      split
      · exact Keeps.pure _
      · split
        · exact Keeps.pure _
        · refine Keeps.bind ?_ fun ndl => ?_
          · unfold SigmaDb.poolStr
            split
            · exact Keeps.pure _
            · exact Keeps.throw _
          · split
            · exact (hmark k).bind fun _ => Keeps.pure _
            · exact Keeps.pure _
  induction fuel generalizing k scr with
  | zero =>
    rw [teddyWalk.eq_def]
    dsimp only
    split
    · exact Keeps.pure _
    · exact Keeps.throw _
  | succ fuel ih =>
    rw [teddyWalk.eq_def]
    dsimp only
    split
    · exact Keeps.pure _
    · exact (htry _ _).bind fun _ => ih _ _

/-- A scan keeps what its callback keeps. -/
theorem teddyConfirm_keeps (simd : Bool) (scr : TeddyScratch) :
    Keeps G (teddyConfirm db t mark simd buf scr) := by
  have hprobe : ∀ pos scr, Keeps G (teddyProbeAt db t mark buf pos scr) := by
    intro pos scr
    unfold teddyProbeAt
    dsimp only
    split
    · refine (teddyWalk_keeps hmark buf _ _ _ _ _ _).bind fun scr => ?_
      split
      · exact teddyWalk_keeps hmark buf _ _ _ _ _ _
      · exact Keeps.pure _
    · refine (Keeps.pure _).bind fun scr => ?_
      split
      · exact teddyWalk_keeps hmark buf _ _ _ _ _ _
      · exact Keeps.pure _
  have hscan : ∀ poss scr, Keeps G (teddyScan db t mark buf poss scr) := by
    intro poss
    induction poss with
    | nil => exact fun _ => Keeps.pure _
    | cons pos poss ih => exact fun scr => (hprobe pos scr).bind fun _ => ih _
  unfold teddyConfirm
  split
  · exact Keeps.pure _
  · exact hscan _ _

end Teddy

/-- One field of the scan, for a frame that looks at neither end of it. -/
theorem scanOneField_keeps (hresolve : ∀ f, Keeps F (resolveField db ev f))
    (hmark : ∀ k, Keeps F (markPostings db k))
    (hopen : ∀ e f len, F.inv e →
      F.inv { e with curField := f.toUInt16, log := .scan f len :: e.log } ∧
        F.keeps e { e with curField := f.toUInt16, log := .scan f len :: e.log })
    (hclose : ∀ (e : SigmaEval) (scr : TeddyScratch) (len : ℕ), F.inv e →
      F.inv { e with tscr := scr, st := { e.st with haystackBytes := e.st.haystackBytes + len } } ∧
        F.keeps e
          { e with tscr := scr, st := { e.st with haystackBytes := e.st.haystackBytes + len } })
    (t : SigmaTeddy) (buckets : List ℕ) (f : ℕ) :
    Keeps F (scanOneField pf db ev t buckets f) := by
  unfold scanOneField
  split
  · exact Keeps.pure _
  · split
    · exact Keeps.pure _
    · refine (hresolve _).bind fun val => ?_
      cases val with
      | none => exact Keeps.pure _
      | some v =>
        dsimp only
        split
        · exact Keeps.pure _
        · refine Keeps.bind (Keeps.modify fun e he => hopen e f _ he) fun _ =>
            Keeps.get.bind fun e => ?_
          refine (teddyConfirm_keeps hmark v pf.simd e.tscr).bind fun scr => ?_
          exact Keeps.modify fun e he => hclose e scr _ he

/-- The rules that are always verified. -/
theorem litav_keeps (hmask : SkipsMasks F) :
    Keeps F (forRange db.litav.length fun i => do
      let ri ← tableAt .litav db.litav i
      let full ← ruleFullMask db ri.toNat
      let e ← get
      let _ ← tableAt .stamps e.ruleGen ri.toNat
      let _ ← tableAt .stamps e.ruleMask ri.toNat
      modifyState fun e =>
        { e with
          ruleGen := e.ruleGen.set ri.toNat e.gen
          ruleMask := e.ruleMask.set ri.toNat full }) :=
  Keeps.forRange (fun _ => tableAt_keeps.bind fun _ => (ruleFullMask_keeps _).bind fun _ =>
    Keeps.get.bind fun _ => tableAt_keeps.bind fun _ => tableAt_keeps.bind fun _ =>
      Keeps.modify fun e he => hmask e _ _ he) _

/-- The field witnesses. -/
theorem fwits_keeps (hresolve : ∀ f, Keeps F (resolveField db ev f)) (hmask : SkipsMasks F) :
    Keeps F (forRange db.fwit.length fun i => do
      let w ← tableAt .fwit db.fwit i
      let holds ← fwitHolds pf db ev w
      if holds then creditClause w.ruleIdx.toNat w.clauseIdx else pure ⟨⟩) := by
  refine Keeps.forRange (fun i => tableAt_keeps.bind fun w => ?_) _
  refine (fwitHolds_keeps hresolve w).bind fun holds => ?_
  split
  · exact creditClause_keeps hmask _ _
  · exact Keeps.pure _

/-- The whole prefilter, for a frame that is kept when a field is scanned. -/
theorem prefilterCandidates_keeps (hresolve : ∀ f, Keeps F (resolveField db ev f))
    (hmask : SkipsMasks F) {buckets : List ℕ}
    (hscan : ∀ t f, Keeps F (scanOneField pf db ev t buckets f))
    (hcount : Keeps F (modifyState fun e =>
      { e with st := { e.st with
        chainSteps := e.tscr.chainSteps, prefilterRuns := e.st.prefilterRuns + 1 } } :
      EvalM PUnit)) :
    Keeps F (prefilterCandidates pf db ev buckets) := by
  refine Keeps.get.bind fun e => ?_
  split
  · exact Keeps.pure _
  split
  · exact Keeps.pure _
  refine (litav_keeps hmask).bind fun _ => (fwits_keeps hresolve hmask).bind fun _ => ?_
  have hdone : Keeps F (do
      modifyState fun e => { e with st := { e.st with
        chainSteps := e.tscr.chainSteps, prefilterRuns := e.st.prefilterRuns + 1 } }
      pure true : EvalM Bool) :=
    hcount.bind fun _ => Keeps.pure _
  cases db.teddy with
  | none => exact hdone
  | some t => exact (Keeps.forRange (hscan t) _).bind fun _ => hdone

/-! ## Routing -/

theorem findCategoryBucket_keeps (cat : Bytes) : Keeps F (findCategoryBucket db cat) := by
  have hloop : ∀ k i, Keeps F (findBucketLoop db cat k i) := by
    intro k
    induction k with
    | zero => exact fun _ => Keeps.pure _
    | succ k ih =>
      intro i
      refine tableAt_keeps.bind fun key => ?_
      split
      · refine poolStr_keeps.bind fun s => ?_
        split
        · exact Keeps.pure _
        · exact ih _
      · exact ih _
  exact hloop _ _

theorem routeValue_keeps (hresolve : ∀ f, Keeps F (resolveField db ev f))
    (hcall : ∀ e name, F.inv e → F.inv { e with log := .call name :: e.log } ∧
      F.keeps e { e with log := .call name :: e.log })
    (i : ℕ) (name : Bytes) : Keeps F (routeValue db ev i name) := by
  unfold routeValue
  split
  · exact hresolve _
  · exact Keeps.bind (Keeps.modify fun e he => hcall e name he) fun _ => Keeps.pure _

/-- The routing keeps what reading a route value keeps. -/
theorem routeLoop_keeps (hvalue : ∀ i name, Keeps F (routeValue db ev i name))
    (names : List Bytes) (i : ℕ) (sel : List ℕ) (hadRoute : Bool) :
    Keeps F (routeLoop db ev names i sel hadRoute) := by
  induction names generalizing i sel hadRoute with
  | nil => exact Keeps.pure _
  | cons name names ih =>
    refine (hvalue i name).bind fun v => ?_
    cases v with
    | none => exact ih _ _ _
    | some v =>
      dsimp only
      split
      · exact ih _ _ _
      · refine (findCategoryBucket_keeps v).bind fun b => ?_
        cases b with
        | none => exact ih _ _ _
        | some b => exact ih _ _ _

end Parts

end LibSigma
