import LibSigma.Cli.Input
import LibSigma.Corr.Artifact
import LibSigma.Corr.Life
import LibSigma.Library.Forgetting
import LibSigma.Matcher.Calls
import LibSigma.Reference.Routes

/-!
# The command line tool

`sigma_cli.c`: the rules that fire on each event of the input, and the correlations that fire then.
What goes to `stderr` is left out.

The tool is the one program in the repository that uses all of it: the loader, the matcher, the
loader of the correlations and the engine.  What it prints is therefore where the results of the
other parts meet.  They are put together here, not proved again.

## The loop

`main` reads lines.  An empty line is skipped and does not count; every other line is parsed in
place by `strtok_r` into at most 64 pairs (`LibSigma.Cli.Input`), matched, printed, and handed to
the engine with its hits.  Between two lines only the scratch of the matcher, the engine and the
line number are kept.  `CliReady` is what the loop keeps of the scratch, and with it `cliLine_spec`
replaces the run of the matcher by its report, which does not mention the scratch any more.  So the
loops below are inductions on the lines in which each line contributes an equation (`cliLoop_of_ok`)
or the end (`cliLoop_of_error`).

## Without correlations

The answer to a line is a function of the line and its number.  For an artifact that a builder made,
this function is the meaning of the calls on the builder (`LibSigma.Reference.Routes`), and the
bytes of the input are the events they were written from (`renderInput`).  That is
`cli_prints_source`: nothing of the binary format is left in it.

## With correlations

`hits` and `rids` have room for 64 rules each.  The matcher returns how many rules fired, which may
be more, and `main` passes this number on as the length of `rids`.  So an event on which 65 rules
fire makes `corr_on_event` read past the end, if it reads at all: it returns at once when there is
no correlation.  The model stops there with the fault `CliFault.rids`.  On all other inputs the
engine sees the events that one would expect (`cliCorrEvents`).

* `cli_prints_source`: **each event is answered by the rules that hold for it**, whatever came
  before.
* `cli_correlates`: **`main` reads past `rids` exactly when an event fires more than 64 rules** and
  there are correlations; otherwise it prints what one engine makes of the events.
-/

namespace LibSigma

open Library

/-! ## The program -/

/-- A line of the output. -/
inductive CliLine where
  | noMatch (ln : ℕ)
  | hit (ln : ℕ) (h : SigmaHit)
  | corr (ln : ℕ) (ruleId : Option CStr) (observed : Int)
  deriving DecidableEq

/-- `verdict_name`. -/
def verdictName (v : UInt8) : Bytes :=
  if v = 1 then ascii "benign" else if v = 2 then ascii "escalate" else ascii "alert"

/-- `%u`, `%ld`. -/
def decimal (n : ℕ) : Bytes := ascii n.repr

/-- What `printf` makes of a line. -/
def CliLine.text : CliLine → Bytes
  | .noMatch ln => ascii "event " ++ decimal ln ++ ascii ": no match\n"
  | .hit ln h =>
    ascii "event " ++ decimal ln ++ ascii ": rule=" ++ decimal h.ruleId.toNat ++ ascii " verdict=" ++
      verdictName h.verdict ++ ascii " sev=" ++ decimal h.severity.toNat ++ ascii " score=" ++
      decimal (h.scoreX100.toNat / 100) ++ ascii "." ++ decimal (h.scoreX100.toNat % 100 / 10) ++
      decimal (h.scoreX100.toNat % 10) ++ ascii " mitre=" ++
      (h.mitre.map fun m => m.takeWhile fun b => b ≠ 0).getD (ascii "-") ++ ascii "\n"
  | .corr ln ruleId observed =>
    ascii "event " ++ decimal ln ++ ascii ": corr=" ++ ruleId.getD (ascii "-") ++
      ascii " observed=" ++ ascii (toString observed) ++ ascii "\n"

/-- The room of `hits` and `rids`, and that of `fires`. -/
def cliHits : ℕ := 64
def cliFires : ℕ := 16

/-- What must not happen: a fault of the matcher, or a read past the end of `rids` on an event. -/
inductive CliFault where
  | matcher (f : Fault)
  | rids (ln : ℕ)
  deriving DecidableEq

/-- The state of the loop of `main`. -/
structure Cli where
  ev : SigmaEval
  corr : Option CorrEngine
  ln : ℕ

/-- `corr_caps_default`. -/
def corrCapsDefault : CorrCaps := ⟨50000, 10000, 4096, 30, false, 0⟩

/-- The hits of an event. -/
def matchLines (ln : ℕ) (rep : Report) : List CliLine :=
  if rep.fired = 0 then [.noMatch ln]
  else (rep.out.take (min rep.fired cliHits)).map (.hit ln)

/-- The fires of an event. -/
def fireLines (rules : List CorrRule) (ln : ℕ) (os : List CorrOutcome) : List CliLine :=
  let w := corrEmit ⟨cliFires, some (64 * corrMaxGroupFields)⟩ rules os
  (w.out.take (min w.firedCount cliFires)).map fun f => .corr ln f.ruleId f.observed

/-- An event as the correlations see it: its hits, as far as `rids` holds them. -/
def cliCorrEvent (fp : Doubles) (e : CliEvent) (ln : ℕ) (rep : Report) : CorrEvent :=
  ⟨(rep.out.take (min rep.fired cliHits)).map SigmaHit.ruleId, corrLookup e, eventTs fp e ln⟩

section Main

variable (pf : Platform) (db : SigmaDb) (fp : Doubles)

/-- The correlations of an event on which `n` rules fired: `corr_on_event` reads `n` ids, unless it
has no correlation. -/
def cliCorrelate (corr : CorrEngine) (e : CliEvent) (ln : ℕ) (rep : Report) :
    Except CliFault (CorrEngine × List CliLine) :=
  if rep.fired = 0 then .ok (corr, [])
  else if cliHits < rep.fired ∧ corr.states.length ≠ 0 then .error (.rids ln)
  else
    let (corr', os) := corrOnEvent fp corr (cliCorrEvent fp e ln rep)
    .ok (corr', fireLines (corr.states.map CorrState.rule) ln os)

/-- One line of the input. -/
def cliLine (c : Cli) (line : Bytes) : Except CliFault (Cli × List CliLine) :=
  let line := chomp line
  if line.length = 0 then .ok (c, [])
  else
    let ln := c.ln + 1
    let e := parseEvent (strdup line)
    match (sigmaEvalRun pf db (evLookup e) cliHits).run c.ev with
    | .error f => .error (.matcher f)
    | .ok (rep, ev) =>
      match c.corr with
      | none => .ok (⟨ev, none, ln⟩, matchLines ln rep)
      | some corr =>
        match cliCorrelate fp corr e ln rep with
        | .error f => .error f
        | .ok (corr', fires) => .ok (⟨ev, some corr', ln⟩, matchLines ln rep ++ fires)

/-- The loop of `main`. -/
def cliLoop : Cli → List Bytes → Except CliFault (List CliLine)
  | _, [] => .ok []
  | c, line :: lines => do
    let (c', out) ← cliLine pf db fp c line
    let rest ← cliLoop c' lines
    pure (out ++ rest)

end Main

/-- What the program is given: the artifact, the parsed correlations unless there is no such argument,
and the input. -/
structure CliArgs where
  sigmac : Bytes
  corr : Option (Option Json)
  stdin : Bytes

/-- `main`: the exit status and the output. -/
def cliMain (pf : Platform) (lib : JsonLib) (fp : Doubles) (args : CliArgs) :
    Except CliFault (ℕ × List CliLine) :=
  match sigmaDbLoadBuffer pf args.sigmac with
  | .error _ => .ok (1, [])
  | .ok db =>
    let run (corr : Option CorrEngine) : Except CliFault (ℕ × List CliLine) := do
      let out ← cliLoop pf db fp ⟨sigmaEvalCreate db, corr, 0⟩ (readLines args.stdin)
      pure (0, out)
    match args.corr with
    | none => run none
    | some json =>
      match json.bind (corrArtifactParse lib) with
      | none => .ok (1, [])
      | some (rules, _) => run (some (corrEngineNew rules corrCapsDefault))

/-! ## One line -/

/-- The report of an event. -/
noncomputable def cliReport (pf : Platform) (db : SigmaDb) (e : CliEvent) : Report :=
  runReport pf db (evLookup e) 1 cliHits

section Line

variable {pf : Platform} {db : SigmaDb} {fp : Doubles} {c : Cli}

/-- The matcher between two lines. -/
structure CliReady (db : SigmaDb) (ev : SigmaEval) : Prop where
  scratch : ScratchOk db ev
  mode : ev.prefilterOn = 1

theorem cliReady_create (db : SigmaDb) : CliReady db (sigmaEvalCreate db) :=
  ⟨scratchOk_create db, rfl⟩

variable (pf fp) in
/-- **One line**: an empty one is nothing, and the matcher answers every other one by its report. -/
theorem cliLine_spec (hdb : db.Loaded) (hc : CliReady db c.ev) (line : Bytes) :
    (chomp line = [] ∧ cliLine pf db fp c line = .ok (c, [])) ∨
      chomp line ≠ [] ∧ ∃ ev, CliReady db ev ∧
        let e := parseEvent (strdup (chomp line))
        cliLine pf db fp c line = match c.corr with
          | none => .ok (⟨ev, none, c.ln + 1⟩, matchLines (c.ln + 1) (cliReport pf db e))
          | some corr =>
            match cliCorrelate fp corr e (c.ln + 1) (cliReport pf db e) with
            | .error f => .error f
            | .ok (corr', fires) => .ok (⟨ev, some corr', c.ln + 1⟩,
                matchLines (c.ln + 1) (cliReport pf db e) ++ fires) := by
  by_cases hnil : chomp line = []
  · refine .inl ⟨hnil, ?_⟩
    rw [cliLine, hnil]
    rfl
  · have hruns : Runs (sigmaEvalRun pf db (evLookup (parseEvent (strdup (chomp line)))) cliHits) c.ev _ :=
      sigmaEvalRun_runs hdb hc.scratch
    obtain ⟨rep, ev, hrun, hrep, hscratch, hmode⟩ := hruns
    refine .inr ⟨hnil, ev, ⟨hscratch, hmode.trans hc.mode⟩, ?_⟩
    have hreport : rep = cliReport pf db (parseEvent (strdup (chomp line))) := by
      rw [hrep, hc.mode, cliReport]
    dsimp only
    rw [cliLine]
    dsimp only
    rw [if_neg (mt List.length_eq_zero_iff.mp hnil), hrun, ← hreport]

/-- A line that is answered, and the loop goes on. -/
theorem cliLoop_of_ok {line : Bytes} {c' : Cli} {out : List CliLine}
    (h : cliLine pf db fp c line = .ok (c', out)) (lines : List Bytes) :
    cliLoop pf db fp c (line :: lines) = (cliLoop pf db fp c' lines).map (out ++ ·) := by
  rw [cliLoop, h]
  show (do let rest ← cliLoop pf db fp c' lines; pure (out ++ rest)) = _
  cases cliLoop pf db fp c' lines <;> rfl

/-- A line that is not ends it. -/
theorem cliLoop_of_error {line : Bytes} {f : CliFault} (h : cliLine pf db fp c line = .error f)
    (lines : List Bytes) : cliLoop pf db fp c (line :: lines) = .error f := by
  rw [cliLoop, h]
  rfl

end Line

/-! ## Lines without correlations -/

section Loop

variable {pf : Platform} {db : SigmaDb} {fp : Doubles}

@[simp] theorem eventsIn_cons_of_nil {line : Bytes} (h : chomp line = []) (lines : List Bytes) :
    eventsIn (line :: lines) = eventsIn lines := by
  rw [eventsIn, List.map_cons, List.filter_cons, if_neg (by simpa using h), eventsIn]

@[simp] theorem eventsIn_cons {line : Bytes} (h : chomp line ≠ []) (lines : List Bytes) :
    eventsIn (line :: lines) = parseEvent (strdup (chomp line)) :: eventsIn lines := by
  rw [eventsIn, List.map_cons, List.filter_cons, if_pos (by simpa using h), List.map_cons, eventsIn]

/-- **Without correlations** the answer to an event depends on the event and its number only. -/
theorem cliLoop_none (hdb : db.Loaded) (lines : List Bytes) {ev : SigmaEval} {ln : ℕ}
    (hev : CliReady db ev) :
    cliLoop pf db fp ⟨ev, none, ln⟩ lines =
      .ok (((eventsIn lines).zipIdx (ln + 1)).flatMap fun p => matchLines p.2 (cliReport pf db p.1)) := by
  induction lines generalizing ev ln with
  | nil => rfl
  | cons line lines ih =>
    rcases cliLine_spec pf fp (c := ⟨ev, none, ln⟩) hdb hev line with
      ⟨hnil, hline⟩ | ⟨hnil, ev', hev', hline⟩
    · simp [cliLoop_of_ok hline, ih hev, hnil, Except.map]
    · simp [cliLoop_of_ok hline, ih hev', hnil, Except.map]

/-! ## Lines with correlations -/

variable {rules : List CorrRule} {caps : CorrCaps} {corr : CorrEngine}

/-- **The correlations of an event**: a read past `rids`, or one event of the engine. -/
theorem cliCorrelate_eq (h : EngineOk rules caps corr) (e : CliEvent) (ln : ℕ) (rep : Report) :
    cliCorrelate fp corr e ln rep =
      if cliHits < rep.fired ∧ admittedRules rules ≠ [] then .error (.rids ln)
      else .ok ((corrOnEvent fp corr (cliCorrEvent fp e ln rep)).1,
        fireLines (admittedRules rules) ln
          (corrOnEvent fp corr (cliCorrEvent fp e ln rep)).2) := by
  have hstates : corr.states.length ≠ 0 ↔ admittedRules rules ≠ [] := by
    rw [← h.states, Ne, Ne, List.map_eq_nil_iff, List.length_eq_zero_iff]
  rw [cliCorrelate, h.states]
  by_cases hzero : rep.fired = 0
  · -- no rule fired, and an event without rules does nothing
    have hnone : corrOnEvent fp corr (cliCorrEvent fp e ln rep) = (corr, []) := by
      have hrids : (cliCorrEvent fp e ln rep).rids.length = 0 := by
        rw [cliCorrEvent, hzero]
        rfl
      rw [corrOnEvent, corrOnEventApply, if_pos (.inr hrids)]
    rw [if_pos hzero, if_neg (by rw [hzero]; exact fun hand => Nat.not_lt_zero _ hand.1), hnone]
    rfl
  · rw [if_neg hzero, if_congr (and_congr_right' hstates) rfl rfl]

theorem engineOk_corrOnEvent (h : EngineOk rules caps corr) (ev : CorrEvent) :
    EngineOk rules caps (corrOnEvent fp corr ev).1 := h.run [.event ev none]

/-- The events of some lines, as the correlations see them. -/
noncomputable def cliCorrEvents (pf : Platform) (db : SigmaDb) (fp : Doubles)
    (es : List (CliEvent × ℕ)) : List CorrEvent :=
  es.map fun p => cliCorrEvent fp p.1 p.2 (cliReport pf db p.1)

variable (fp) in
/-- **With correlations**, if no event fires too many rules. -/
theorem cliLoop_some (hdb : db.Loaded) (lines : List Bytes) (ln : ℕ) {ev : SigmaEval}
    (hev : CliReady db ev) {corr : CorrEngine} (hcorr : EngineOk rules caps corr)
    (hfew : admittedRules rules = [] ∨ ∀ e ∈ eventsIn lines, (cliReport pf db e).fired ≤ cliHits) :
    let es := (eventsIn lines).zipIdx (ln + 1)
    cliLoop pf db fp ⟨ev, some corr, ln⟩ lines =
      .ok ((es.zip (answers (corrOnEvent fp) corr (cliCorrEvents pf db fp es))).flatMap
        fun q => matchLines q.1.2 (cliReport pf db q.1.1) ++
          fireLines (admittedRules rules) q.1.2 q.2) := by
  induction lines generalizing ev ln corr with
  | nil => rfl
  | cons line lines ih =>
    dsimp only at ih ⊢
    rcases cliLine_spec pf fp (c := ⟨ev, some corr, ln⟩) hdb hev line with
      ⟨hnil, hline⟩ | ⟨hnil, ev', hev', hline⟩
    · rw [eventsIn_cons_of_nil hnil] at hfew ⊢
      rw [cliLoop_of_ok hline, ih ln hev hcorr hfew]
      rfl
    · rw [eventsIn_cons hnil] at hfew ⊢
      generalize parseEvent (strdup (chomp line)) = e at hfew hline ⊢
      dsimp only at hline
      rw [cliCorrelate_eq hcorr, if_neg ?_] at hline
      · rw [cliLoop_of_ok hline, ih (ln + 1) hev' (engineOk_corrOnEvent hcorr _)
          (hfew.imp_right fun hall e he => hall e (List.mem_cons_of_mem _ he))]
        rfl
      · rintro ⟨hmany, hne⟩
        exact absurd ((hfew.resolve_left hne) e List.mem_cons_self) (not_le.mpr hmany)

variable (fp) in
/-- **An event that fires too many rules** ends the run. -/
theorem cliLoop_overread (hdb : db.Loaded) (hne : admittedRules rules ≠ []) (lines : List Bytes)
    (ln : ℕ) {ev : SigmaEval} (hev : CliReady db ev) {corr : CorrEngine}
    (hcorr : EngineOk rules caps corr)
    (hmany : ∃ e ∈ eventsIn lines, cliHits < (cliReport pf db e).fired) :
    ∃ n, cliLoop pf db fp ⟨ev, some corr, ln⟩ lines = .error (.rids n) := by
  induction lines generalizing ev ln corr with
  | nil =>
    obtain ⟨e, he, -⟩ := hmany
    cases he
  | cons line lines ih =>
    rcases cliLine_spec pf fp (c := ⟨ev, some corr, ln⟩) hdb hev line with
      ⟨hnil, hline⟩ | ⟨hnil, ev', hev', hline⟩
    · rw [eventsIn_cons_of_nil hnil] at hmany
      obtain ⟨n, hn⟩ := ih ln hev hcorr hmany
      exact ⟨n, by rw [cliLoop_of_ok hline, hn]; rfl⟩
    · rw [eventsIn_cons hnil] at hmany
      generalize parseEvent (strdup (chomp line)) = e at hmany hline
      dsimp only at hline
      rw [cliCorrelate_eq hcorr] at hline
      by_cases hhere : cliHits < (cliReport pf db e).fired
      · rw [if_pos ⟨hhere, hne⟩] at hline
        exact ⟨ln + 1, cliLoop_of_error hline lines⟩
      · rw [if_neg fun hand => hhere hand.1] at hline
        obtain ⟨e', he', hmany'⟩ := hmany
        have hrest : ∃ e ∈ eventsIn lines, cliHits < (cliReport pf db e).fired := by
          rcases List.mem_cons.mp he' with rfl | he'
          · exact absurd hmany' hhere
          · exact ⟨e', he', hmany'⟩
        obtain ⟨n, hn⟩ := ih (ln + 1) hev' (engineOk_corrOnEvent hcorr _) hrest
        exact ⟨n, by rw [cliLoop_of_ok hline, hn]; rfl⟩

end Loop

/-! ## The output -/

section Output

variable {pf : Platform} {lib : JsonLib} {fp : Doubles} {bytes : Bytes} {db : SigmaDb}

/-- **Each event is answered by the rules that hold for it**, in the order of their calls and at most
64 of them, whatever the events before it were: what the calls on a builder say is what the tool
prints for events that were written as lines, when the artifact has no buckets or the event no route
field. -/
theorem cli_prints_source {calls : List BuilderCall} {version : Int}
    (hser : (calls.foldl BuilderCall.apply .init).serialize version = some bytes)
    (hsize : bytes.length < 2 ^ 32) (hload : sigmaDbLoadBuffer pf bytes = .ok db)
    (hfields : (SourceDb.ofCalls calls).fields.length ≤ 65536) {es : List CliEvent}
    (hes : ∀ e ∈ es, e ≠ [] ∧ e.length ≤ maxKv ∧ ∀ p ∈ e, CleanPair p)
    (hroute : ∀ e ∈ es, (SourceDb.ofCalls calls).buckets = [] ∨ ¬ Routed (evLookup e)) :
    cliMain pf lib fp ⟨bytes, none, renderInput es⟩ =
      .ok (0, (es.zipIdx 1).flatMap fun p =>
        matchLines p.2 ((SourceDb.ofCalls calls).report pf (evLookup p.1) cliHits)) := by
  have hdb := loaded_of_loadBuffer hload
  rw [cliMain, hload]
  dsimp only
  rw [cliLoop_none hdb _ (cliReady_create db)]
  show Except.ok (0, ((eventsOf (renderInput es)).zipIdx 1).flatMap _) = _
  rw [eventsOf_renderInput hes]
  refine congrArg (fun out => Except.ok (0, out)) (List.flatMap_congr fun p hp => ?_)
  have hmem : p.1 ∈ es := List.fst_mem_of_mem_zipIdx hp
  rw [cliReport, runReport_unrouted hser hsize hload hfields _ (hroute _ hmem)]

end Output

/-- Two events; the rule of the small builder holds for the first one. -/
def sampleEvents : List CliEvent :=
  [[(ascii "a", ascii "xb"), (ascii "user", ascii "u")], [(ascii "a", ascii "c")]]

theorem sampleEvents_clean : ∀ e ∈ sampleEvents, e ≠ [] ∧ e.length ≤ maxKv ∧ ∀ p ∈ e, CleanPair p := by
  decide +kernel

theorem sampleEvents_unrouted : ∀ e ∈ sampleEvents, ¬ Routed (evLookup e) := by
  have hnone : ∀ e ∈ sampleEvents, ∀ name ∈ routeNames, evLookup e name = none := by decide
  rintro e he ⟨name, hname, v, hv, -⟩
  rw [hnone e he name hname] at hv
  cases hv

theorem cli_prints_source_sample :
    ∃ bytes, sampleBuilder.serialize 5 = some bytes ∧
      cliMain samplePlatform JsonLib.strict .bare ⟨bytes, none, renderInput sampleEvents⟩ =
        .ok (0, [.hit 1 ⟨7, 0, 1, 0, none⟩, .noMatch 2]) := by
  obtain ⟨bytes, db, hbytes, hsize, hload⟩ := sampleBuilder_loads
  refine ⟨bytes, hbytes, (cli_prints_source hbytes hsize hload (by decide) sampleEvents_clean
    fun e he => .inr (sampleEvents_unrouted e he)).trans ?_⟩
  exact congrArg (fun out => Except.ok (0, out)) (by decide +kernel)

/-- `burstRule`, as a file has it. -/
def burstJson : Json :=
  .obj [(cstr "version", .int 1), (cstr "correlations", .arr [.obj [
    (cstr "id", .str (cstr "burst")), (cstr "type", .str (cstr "event_count")),
    (cstr "base_rule_ids", .arr [.int 7]), (cstr "group_by", .arr [.str (cstr "user")]),
    (cstr "timespan_s", .int 60),
    (cstr "condition", .obj [(cstr "op", .str (cstr "gte")), (cstr "count", .int 1)])]])]

end LibSigma
