import LibSigma.Matcher.RoundTrip
import LibSigma.Matcher.Run

/-!
# Sequences of calls

One scratch serves any number of evaluations, with the prefilter switched in between.  Its stamp
arrays are never cleared, yet each call returns what it would return on a new scratch.

## The invariant of a scratch between calls

`ScratchOk` says what a scratch is between two calls: its arrays have the sizes that the tables ask
for, and no stamp is ahead of its counter.  A new scratch has it, every call keeps it, and it is all
that an evaluation needs.  What the arrays hold is left open, and may be anything that earlier
events put there.  So a call's result can only depend on its arguments and on the prefilter mode,
which is the one setting that is meant to outlive a call.

## Calls as data

A sequence of calls is a list of `Call`s, and running it is a fold.  `Reached` is the existence of
such a list; a scratch that is reached has been through any events, in any modes, with resets of the
statistics anywhere.  The theorems below are about all of them.

* `Reached`: the scratch after some finite sequence of calls.
* `execAll_runs`: what a sequence of calls returns is a function of the calls.
* `evaluation_never_faults`: **no access is out of range**, on any accepted artifact and event.
* `scratch_carries_no_history`: **a call does not depend on the calls before it.**
-/

namespace LibSigma

open Library

section Calls

variable {pf : Platform} {db : SigmaDb} {e : SigmaEval}

/-- What a call returns in prefilter mode `mode`. -/
noncomputable def Call.result (pf : Platform) (db : SigmaDb) (mode : Int) : Call → Option Report
  | .run ev maxHits => some (runReport pf db ev mode maxHits)
  | .runLinear ev maxHits => some (linearReport pf db ev maxHits)
  | .setPrefilter _ => none
  | .resetStats => none

/-- The prefilter mode after a call. -/
def Call.mode (mode : Int) : Call → Int
  | .setPrefilter enabled => if enabled < 0 then 0 else if 2 < enabled then 2 else enabled
  | _ => mode

/-- What a sequence of calls returns. -/
noncomputable def callResults (pf : Platform) (db : SigmaDb) : Int → List Call → List (Option Report)
  | _, [] => []
  | mode, c :: cs => c.result pf db mode :: callResults pf db (c.mode mode) cs

/-- One call: its result depends on the mode only, and the scratch stays good. -/
theorem Call.exec_runs (hdb : db.Loaded) (h : ScratchOk db e) (c : Call) :
    Runs (c.exec pf db) e fun r e' =>
      r = c.result pf db e.prefilterOn ∧ ScratchOk db e' ∧ e'.prefilterOn = c.mode e.prefilterOn := by
  cases c with
  | run ev maxHits =>
    refine (sigmaEvalRun_runs hdb h).bind ?_
    rintro _ e' ⟨rfl, h', hmode⟩
    exact Runs.pure ⟨rfl, h', hmode⟩
  | runLinear ev maxHits =>
    refine (sigmaEvalRunLinear_runs hdb h).bind ?_
    rintro _ e' ⟨rfl, h', hmode⟩
    exact Runs.pure ⟨rfl, h', hmode⟩
  | setPrefilter enabled => exact Runs.modify_bind (Runs.pure ⟨rfl, h.of_stats e.st _, rfl⟩)
  | resetStats => exact Runs.modify_bind (Runs.pure ⟨rfl, h.of_stats _ e.prefilterOn, rfl⟩)

/-- A sequence of calls. -/
theorem execAll_runs (hdb : db.Loaded) (h : ScratchOk db e) (cs : List Call) :
    Runs (execAll pf db cs) e fun rs e' =>
      rs = callResults pf db e.prefilterOn cs ∧ ScratchOk db e' ∧
        e'.prefilterOn = cs.foldl Call.mode e.prefilterOn := by
  induction cs generalizing e with
  | nil => exact Runs.pure ⟨rfl, h, rfl⟩
  | cons c cs ih =>
    refine (Call.exec_runs hdb h c).bind ?_
    rintro _ e₁ ⟨rfl, h₁, hmode₁⟩
    refine (ih h₁).bind ?_
    rintro _ e₂ ⟨rfl, h₂, hmode₂⟩
    rw [hmode₁] at hmode₂ ⊢
    exact Runs.pure ⟨rfl, h₂, hmode₂⟩

/-- The scratch after a finite sequence of calls on a new one. -/
def Reached (pf : Platform) (db : SigmaDb) (e : SigmaEval) : Prop :=
  ∃ cs rs, (execAll pf db cs).run (sigmaEvalCreate db) = .ok (rs, e)

theorem reached_create (pf : Platform) (db : SigmaDb) : Reached pf db (sigmaEvalCreate db) :=
  ⟨[], [], rfl⟩

theorem mode_mem (c : Call) {mode : Int} (h : 0 ≤ mode ∧ mode ≤ 2) :
    0 ≤ c.mode mode ∧ c.mode mode ≤ 2 := by
  cases c with
  | setPrefilter enabled =>
    simp only [Call.mode]
    split_ifs <;> omega
  | run ev maxHits => exact h
  | runLinear ev maxHits => exact h
  | resetStats => exact h

/-- A reached scratch is good, and its mode is 0, 1 or 2. -/
theorem Reached.scratchOk (hdb : db.Loaded) (h : Reached pf db e) :
    ScratchOk db e ∧ 0 ≤ e.prefilterOn ∧ e.prefilterOn ≤ 2 := by
  obtain ⟨cs, rs, hrun⟩ := h
  obtain ⟨-, hscratch, hmode⟩ := (execAll_runs hdb (scratchOk_create db) cs).result hrun
  have hmodes : ∀ (cs : List Call) (mode : Int), 0 ≤ mode ∧ mode ≤ 2 →
      0 ≤ cs.foldl Call.mode mode ∧ cs.foldl Call.mode mode ≤ 2 := by
    intro cs
    induction cs with
    | nil => exact fun _ hm => hm
    | cons c cs ih => exact fun _ hm => ih _ (mode_mem c hm)
  rw [hmode]
  exact ⟨hscratch, hmodes cs 1 (by decide)⟩

/-- **No evaluation reads out of range.**  On an accepted artifact, every sequence of evaluations,
on any events and in any prefilter modes, runs to its end without a fault. -/
theorem evaluation_never_faults {buf : Bytes} (hload : sigmaDbLoadBuffer pf buf = .ok db)
    (cs : List Call) :
    ∃ rs e, (execAll pf db cs).run (sigmaEvalCreate db) = .ok (rs, e) := by
  have hdb := loaded_of_loadBuffer hload
  obtain ⟨rs, e, hrun, -⟩ := execAll_runs hdb (scratchOk_create db) cs
  exact ⟨rs, e, hrun⟩

/-- **The scratch carries no history.**  After any sequence of calls, a call returns what it returns
on a new scratch put into the same prefilter mode. -/
theorem scratch_carries_no_history {buf : Bytes} (hload : sigmaDbLoadBuffer pf buf = .ok db)
    (cs : List Call) (c : Call) :
    ∃ rs e, (execAll pf db cs).run (sigmaEvalCreate db) = .ok (rs, e) ∧
      ∃ r e₁ e₂, (c.exec pf db).run e = .ok (r, e₁) ∧
        (c.exec pf db).run (sigmaEvalSetPrefilter e.prefilterOn (sigmaEvalCreate db)) =
          .ok (r, e₂) := by
  have hdb := loaded_of_loadBuffer hload
  have hruns : Runs (execAll pf db cs) _ _ := execAll_runs hdb (scratchOk_create db) cs
  obtain ⟨rs, e, hrun, -, hscratch, -⟩ := hruns
  obtain ⟨-, hlow, hhigh⟩ := Reached.scratchOk hdb ⟨cs, rs, hrun⟩
  have hnew : ScratchOk db (sigmaEvalSetPrefilter e.prefilterOn (sigmaEvalCreate db)) :=
    (scratchOk_create db).of_stats _ _
  have hmode : (sigmaEvalSetPrefilter e.prefilterOn (sigmaEvalCreate db)).prefilterOn =
      e.prefilterOn := by
    simp only [sigmaEvalSetPrefilter]
    rw [if_neg (by omega), if_neg (by omega)]
  have hruns : ∀ {e}, ScratchOk db e → Runs (c.exec pf db) e _ :=
    fun he => Call.exec_runs hdb he c
  obtain ⟨r₁, e₁, hrun₁, hr₁, -⟩ := hruns hscratch
  obtain ⟨r₂, e₂, hrun₂, hr₂, -⟩ := hruns hnew
  refine ⟨rs, e, hrun, r₁, e₁, e₂, hrun₁, ?_⟩
  rw [hmode, ← hr₁] at hr₂
  rw [hrun₂, hr₂]

end Calls

/-- Two evaluations of the small artifact, the prefilter forced in between. -/
def sampleCalls : List Call :=
  [.run (fun _ => some [97]) 4, .setPrefilter 2, .run (fun _ => some [119, 120, 121]) 4]

theorem evaluation_never_faults_sample :
    ∃ db, sigmaDbLoadBuffer samplePlatform (sigmaDbSerialize sampleTables) = .ok db ∧
      ∃ rs e, (execAll samplePlatform db sampleCalls).run (sigmaEvalCreate db) = .ok (rs, e) := by
  obtain ⟨db, hload, -⟩ := load_sample
  exact ⟨db, hload, evaluation_never_faults hload sampleCalls⟩

theorem scratch_carries_no_history_sample :
    ∃ db, sigmaDbLoadBuffer samplePlatform (sigmaDbSerialize sampleTables) = .ok db ∧
      ∃ rs e, (execAll samplePlatform db sampleCalls).run (sigmaEvalCreate db) = .ok (rs, e) ∧
        ∃ r e₁ e₂, ((Call.run (fun _ => some [97]) 4).exec samplePlatform db).run e = .ok (r, e₁) ∧
          ((Call.run (fun _ => some [97]) 4).exec samplePlatform db).run
            (sigmaEvalSetPrefilter e.prefilterOn (sigmaEvalCreate db)) = .ok (r, e₂) := by
  obtain ⟨db, hload, -⟩ := load_sample
  exact ⟨db, hload, scratch_carries_no_history hload sampleCalls (.run (fun _ => some [97]) 4)⟩

end LibSigma
