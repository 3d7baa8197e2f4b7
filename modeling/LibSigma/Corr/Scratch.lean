import Mathlib.Tactic.NormNum
import LibSigma.Corr.Values

/-!
# The percentile scratch

Workers that evaluate `value_percentile` and `value_median` correlations at the same time.  Each
takes the lock of its correlation, pushes into the ring of its group, copies the ring to the scratch
array, sorts it there, reads the element of the rank and releases the lock.  The locks belong to the
correlations, the scratch array to the engine.

## Smaller steps

`LibSigma.Corr.Workers` treats what is done under one lock as one step. That is right for everything
that the lock guards, and the scratch array is not guarded by it. So here an evaluation has the
steps push, copy, sort and read, and workers interleave between them. The array is as long as the
ring, a copy overwrites its first elements, and the sort is that of these elements.

## What goes wrong, and when

If worker 1 has copied and worker 2 copies before worker 1 reads, then worker 1 reads among the
values of worker 2. `exists_misread` builds such a run for any two correlations that evaluate
percentiles. In the other direction, if no copy is made while another worker is between its copy and
its read, the array holds what its reader has put there (`PctExclusive`). An engine guarantees this
for all runs only if it has a single worker, or a single such correlation, whose lock then guards
the array as well.

* `pct_reads_alone_iff`: **workers read what they would read alone when no one copies while another
  is between its copy and its read**; only an engine with one such correlation or one worker
  guarantees it.
-/

namespace LibSigma

open Library

/-! ## The evaluation in steps

An evaluation under a correlation's lock, cut where another worker can come in between: the values
are copied to the scratch array, sorted there, and the ranked one is read.  What happens before the
copy and after the read is one step each.  `PctAct` may be guarded, to speak of interleavings in
which some steps are not taken at certain times. -/

/-- Whether an evaluation ends before it copies the ring. -/
def PctSkips (cap : ℕ) (g : Group) : Prop :=
  g.evIdx.len = 0 ∨ g.evVal.isNone = true ∨ cap < g.evIdx.len

instance (cap : ℕ) (g : Group) : Decidable (PctSkips cap g) :=
  inferInstanceAs (Decidable (_ ∨ _ ∨ _))

/-- The index of the nearest rank among `n` values. -/
def rankIdx (r : CorrRule) (n : ℕ) : ℕ :=
  let idx := (percentileOf r * n + 99) / 100
  let idx := (if idx = 0 then 1 else idx) - 1
  if n ≤ idx then n - 1 else idx

/-- `qsort` with `cmp_dbl_asc`. -/
def sortAsc (xs : List ℚ) : List ℚ := xs.insertionSort fun a b => a ≤ b

theorem evalValuePercentile_vagg (fp : Doubles) (r : CorrRule) (g : Group)
    (value : Option CStr) (cap : ℕ) (now ws : ℚ) :
    (evalValuePercentile fp r g value cap now ws).vagg =
      if PctSkips cap (evObserve fp g value now ws).1 then 0
      else (sortAsc (evVals (evObserve fp g value now ws).1)).getD
        (rankIdx r (evObserve fp g value now ws).1.evIdx.len) 0 := by
  unfold evalValuePercentile
  simp only
  by_cases hskip : PctSkips cap (evObserve fp g value now ws).1
  · rw [if_pos hskip, if_pos (by exact hskip)]
  · rw [if_neg hskip, if_neg (by exact hskip)]
    rfl

theorem rankIdx_lt (r : CorrRule) {n : ℕ} (h : 0 < n) : rankIdx r n < n := by
  unfold rankIdx
  simp only
  split_ifs <;> omega

/-- The evaluation a worker is called for. -/
structure PctJob (C : Type) where
  corr : C
  key : List CStr
  value : Option CStr
  ts : ℚ

/-- How far a worker is.  `found` is its group as it was when the worker took the lock, `n` the
number of values it copied. -/
inductive PctPc (C : Type) where
  | idle
  | locked (job : PctJob C)
  | pushed (job : PctJob C) (found : Group)
  | copied (job : PctJob C) (found : Group) (n : ℕ)
  | sorted (job : PctJob C) (found : Group) (n : ℕ)
  | done (job : PctJob C) (found : Group) (agg : ℚ)

/-- The parts of the engine that the workers share, and where they are. -/
structure PctEngine (C W : Type) where
  scratch : ℕ → ℚ
  lock : C → Option W
  groups : C → List CStr → Group
  pc : W → PctPc C

/-- The steps of a worker. -/
inductive PctAct (C : Type) where
  | lock (job : PctJob C)
  | push
  | copy
  | sort
  | read
  | release

/-- An array with new first elements. -/
def fill (xs : List ℚ) (f : ℕ → ℚ) : ℕ → ℚ := fun i => xs.getD i (f i)

/-- The first elements of an array. -/
def firsts (n : ℕ) (f : ℕ → ℚ) : List ℚ := (List.range n).map f

section Steps

variable {C W : Type} [DecidableEq C] [DecidableEq W] (fp : Doubles)
  (rule : C → CorrRule) (cap : ℕ)

/-- The worker goes on to another step. -/
def PctEngine.goto (e : PctEngine C W) (w : W) (pc : PctPc C) : PctEngine C W :=
  { e with pc := Function.update e.pc w pc }

/-- The group of a job. -/
def PctEngine.group (e : PctEngine C W) (job : PctJob C) : Group := e.groups job.corr job.key

/-- The group after the push of a job. -/
def PctJob.observed (job : PctJob C) (g : Group) : Group :=
  (evObserve fp g job.value job.ts (job.ts - (rule job.corr).timespanS)).1

/-- One step of a worker, if it can take it. -/
def pctStep (e : PctEngine C W) (w : W) : PctAct C → Option (PctEngine C W)
  | .lock job =>
    match e.pc w, e.lock job.corr with
    | .idle, none =>
      some ({ e with lock := Function.update e.lock job.corr (some w) }.goto w (.locked job))
    | _, _ => none
  | .push =>
    match e.pc w with
    | .locked job =>
      some ({ e with
        groups := Function.update e.groups job.corr (Function.update (e.groups job.corr) job.key
          (job.observed fp rule (e.group job))) }.goto w (.pushed job (e.group job)))
    | _ => none
  | .copy =>
    match e.pc w with
    | .pushed job found =>
      if PctSkips cap (e.group job) then some (e.goto w (.done job found 0))
      else some ({ e with scratch := fill (evVals (e.group job)) e.scratch }.goto w
        (.copied job found (e.group job).evIdx.len))
    | _ => none
  | .sort =>
    match e.pc w with
    | .copied job found n =>
      some ({ e with scratch := fill (sortAsc (firsts n e.scratch)) e.scratch }.goto w
        (.sorted job found n))
    | _ => none
  | .read =>
    match e.pc w with
    | .sorted job found n =>
      some (e.goto w (.done job found (e.scratch (rankIdx (rule job.corr) n))))
    | _ => none
  | .release =>
    match e.pc w with
    | .done job _ _ =>
      some ({ e with lock := Function.update e.lock job.corr none }.goto w .idle)
    | _ => none

/-- The interleavings whose steps meet a guard. -/
inductive PctReach (guard : PctEngine C W → W → PctAct C → Prop) (e₀ : PctEngine C W) :
    PctEngine C W → Prop
  | refl : PctReach guard e₀ e₀
  | step {e e' : PctEngine C W} {w : W} {a : PctAct C} (h : PctReach guard e₀ e)
      (hguard : guard e w a) (hstep : pctStep fp rule cap e w a = some e') :
      PctReach guard e₀ e'

end Steps

/-! ## Arrays -/

theorem length_firsts (n : ℕ) (f : ℕ → ℚ) : (firsts n f).length = n := by
  rw [firsts, List.length_map, List.length_range]

theorem firsts_fill {xs : List ℚ} {n : ℕ} (h : xs.length = n) (f : ℕ → ℚ) :
    firsts n (fill xs f) = xs := by
  subst h
  refine List.ext_getElem (length_firsts _ _) fun i _ hi => ?_
  simp [firsts, fill, hi]

theorem getD_firsts {n i : ℕ} (h : i < n) (f : ℕ → ℚ) : (firsts n f).getD i 0 = f i := by
  simp [firsts, h]

@[simp] theorem length_sortAsc (xs : List ℚ) : (sortAsc xs).length = xs.length :=
  (List.perm_insertionSort _ _).length_eq

theorem length_evVals {cap : ℕ} {g : Group} (h : ¬ PctSkips cap g) :
    (evVals g).length = g.evIdx.len := by
  unfold evVals
  split
  · rename_i hnone
    exact absurd (Or.inr (Or.inl (by rw [hnone]; rfl))) h
  · exact RingIdx.length_read _ _

/-! ## Workers

Two invariants.  The first holds in every interleaving: the locks keep the groups apart
(`PctLocked`), so the only thing shared is the scratch array.  The second holds where copies are
made alone: at most one worker is between its copy and its read, and what it copied is still there
(`PctExclusive`). -/

/-- The job of a worker that holds a lock. -/
def PctPc.job {C : Type} : PctPc C → Option (PctJob C)
  | .idle => none
  | .locked job | .pushed job _ | .copied job _ _ | .sorted job _ _ | .done job _ _ => some job

/-- The job of a worker that has pushed, and its group before. -/
def PctPc.found {C : Type} : PctPc C → Option (PctJob C × Group)
  | .idle | .locked _ => none
  | .pushed job g | .copied job g _ | .sorted job g _ | .done job g _ => some (job, g)

/-- A worker between its copy and its read. -/
def PctPc.inFlight {C : Type} : PctPc C → Bool
  | .copied _ _ _ | .sorted _ _ _ => true
  | _ => false

section Invariant

variable {C W : Type} [DecidableEq C] [DecidableEq W] {fp : Doubles}
  {rule : C → CorrRule} {cap : ℕ} {e e' e₀ : PctEngine C W} {w : W} {a : PctAct C}

/-- What a step does. -/
inductive PctMove (fp : Doubles) (rule : C → CorrRule) (cap : ℕ) (e : PctEngine C W)
    (w : W) : PctAct C → PctEngine C W → Prop
  | lock (job : PctJob C) (hpc : e.pc w = .idle) (hfree : e.lock job.corr = none) :
      PctMove fp rule cap e w (.lock job)
        ({ e with lock := Function.update e.lock job.corr (some w) }.goto w (.locked job))
  | push (job : PctJob C) (hpc : e.pc w = .locked job) :
      PctMove fp rule cap e w .push ({ e with
        groups := Function.update e.groups job.corr (Function.update (e.groups job.corr) job.key
          (job.observed fp rule (e.group job))) }.goto w (.pushed job (e.group job)))
  | skip (job : PctJob C) (g : Group) (hpc : e.pc w = .pushed job g)
      (hskip : PctSkips cap (e.group job)) :
      PctMove fp rule cap e w .copy (e.goto w (.done job g 0))
  | copy (job : PctJob C) (g : Group) (hpc : e.pc w = .pushed job g)
      (hskip : ¬ PctSkips cap (e.group job)) :
      PctMove fp rule cap e w .copy
        ({ e with scratch := fill (evVals (e.group job)) e.scratch }.goto w
          (.copied job g (e.group job).evIdx.len))
  | sort (job : PctJob C) (g : Group) (n : ℕ) (hpc : e.pc w = .copied job g n) :
      PctMove fp rule cap e w .sort
        ({ e with scratch := fill (sortAsc (firsts n e.scratch)) e.scratch }.goto w
          (.sorted job g n))
  | read (job : PctJob C) (g : Group) (n : ℕ) (hpc : e.pc w = .sorted job g n) :
      PctMove fp rule cap e w .read
        (e.goto w (.done job g (e.scratch (rankIdx (rule job.corr) n))))
  | release (job : PctJob C) (g : Group) (agg : ℚ) (hpc : e.pc w = .done job g agg) :
      PctMove fp rule cap e w .release
        ({ e with lock := Function.update e.lock job.corr none }.goto w .idle)

theorem pctMove_of_step (h : pctStep fp rule cap e w a = some e') :
    PctMove fp rule cap e w a e' := by
  cases a with
  | lock job =>
    rw [pctStep] at h
    split at h
    · rename_i hpc hfree
      cases h
      exact .lock job hpc hfree
    · cases h
  | push =>
    rw [pctStep] at h
    split at h
    · rename_i job hpc
      cases h
      exact .push job hpc
    · cases h
  | copy =>
    rw [pctStep] at h
    split at h
    · rename_i job g hpc
      split at h
      · rename_i hskip
        cases h
        exact .skip job g hpc hskip
      · rename_i hskip
        cases h
        exact .copy job g hpc hskip
    · cases h
  | sort =>
    rw [pctStep] at h
    split at h
    · rename_i job g n hpc
      cases h
      exact .sort job g n hpc
    · cases h
  | read =>
    rw [pctStep] at h
    split at h
    · rename_i job g n hpc
      cases h
      exact .read job g n hpc
    · cases h
  | release =>
    rw [pctStep] at h
    split at h
    · rename_i job g agg hpc
      cases h
      exact .release job g agg hpc
    · cases h

theorem PctMove.step (h : PctMove fp rule cap e w a e') :
    pctStep fp rule cap e w a = some e' := by
  cases h with
  | lock job hpc hfree => rw [pctStep, hpc, hfree]
  | push job hpc => rw [pctStep, hpc]
  | skip job g hpc hskip => simp only [pctStep, hpc, if_pos hskip]
  | copy job g hpc hskip => simp only [pctStep, hpc, if_neg hskip]
  | sort job g n hpc => rw [pctStep, hpc]
  | read job g n hpc => rw [pctStep, hpc]
  | release job g agg hpc => rw [pctStep, hpc]

omit [DecidableEq C] in
theorem goto_pc (e : PctEngine C W) (w w' : W) (pc : PctPc C) :
    (e.goto w pc).pc w' = if w' = w then pc else e.pc w' :=
  Function.update_apply e.pc w pc w'

/-- Each worker holds the lock of its correlation, and no one else has touched its group. -/
structure PctLocked (fp : Doubles) (rule : C → CorrRule) (e : PctEngine C W) :
    Prop where
  lock : ∀ w job, (e.pc w).job = some job → e.lock job.corr = some w
  group : ∀ w job g, (e.pc w).found = some (job, g) → e.group job = job.observed fp rule g

theorem PctPc.job_of_found {C : Type} {pc : PctPc C} {job : PctJob C} {g : Group}
    (h : pc.found = some (job, g)) : pc.job = some job := by
  cases pc <;> cases h <;> rfl

omit [DecidableEq C] [DecidableEq W] in
/-- Workers at work are at different correlations. -/
theorem PctLocked.corr_ne (h : PctLocked fp rule e) {w' : W} {job job' : PctJob C}
    (hw : (e.pc w).job = some job) (hw' : (e.pc w').job = some job') (hne : ¬ w' = w) :
    job'.corr ≠ job.corr := by
  intro heq
  have hlock := h.lock w job hw
  rw [← heq, h.lock w' job' hw'] at hlock
  exact hne (Option.some.inj hlock)

omit [DecidableEq C] in
/-- A step that keeps the lock, the groups and the job of the worker. -/
theorem PctLocked.goto (h : PctLocked fp rule e) {pc : PctPc C} (s : ℕ → ℚ)
    (hjob : pc.job = (e.pc w).job) (hfound : pc.found = (e.pc w).found) :
    PctLocked fp rule ({ e with scratch := s }.goto w pc) := by
  refine ⟨fun w' job hw' => ?_, fun w' job g hw' => ?_⟩
  · rw [goto_pc] at hw'
    split at hw'
    · rename_i heq
      rw [hjob, ← heq] at hw'
      exact h.lock w' job hw'
    · exact h.lock w' job hw'
  · rw [goto_pc] at hw'
    split at hw'
    · rename_i heq
      rw [hfound, ← heq] at hw'
      exact h.group w' job g hw'
    · exact h.group w' job g hw'

/-- **A step keeps the locks.** -/
theorem PctLocked.step (h : PctLocked fp rule e) (hmove : PctMove fp rule cap e w a e') :
    PctLocked fp rule e' := by
  cases hmove with
  | lock job hpc hfree =>
    -- the lock was free, so that no other worker is at this correlation
    have hother : ∀ w' job', (e.pc w').job = some job' → job'.corr ≠ job.corr := by
      intro w' job' hw' heq
      have hlock := h.lock w' job' hw'
      rw [heq, hfree] at hlock
      cases hlock
    refine ⟨fun w' job' hw' => ?_, fun w' job' g hw' => ?_⟩
    · rw [goto_pc] at hw'
      split at hw'
      · rename_i heq
        cases hw'
        rw [heq]
        exact Function.update_self _ _ _
      · exact (Function.update_of_ne (hother w' job' hw') _ _).trans (h.lock w' job' hw')
    · rw [goto_pc] at hw'
      split at hw'
      · cases hw'
      · exact h.group w' job' g hw'
  | push job hpc =>
    have hjob : (e.pc w).job = some job := by rw [hpc]; rfl
    refine ⟨fun w' job' hw' => ?_, fun w' job' g hw' => ?_⟩
    · rw [goto_pc] at hw'
      split at hw'
      · rename_i heq
        cases hw'
        rw [heq]
        exact h.lock w job hjob
      · exact h.lock w' job' hw'
    · rw [goto_pc] at hw'
      split at hw'
      · cases hw'
        simp [PctEngine.group, PctEngine.goto]
      · rename_i hne
        have hcorr := h.corr_ne hjob (PctPc.job_of_found hw') hne
        rw [← h.group w' job' g hw']
        simp [PctEngine.group, PctEngine.goto, Function.update_of_ne hcorr]
  | skip job g hpc hskip => exact h.goto e.scratch (by rw [hpc]; rfl) (by rw [hpc]; rfl)
  | copy job g hpc hskip => exact h.goto _ (by rw [hpc]; rfl) (by rw [hpc]; rfl)
  | sort job g n hpc => exact h.goto _ (by rw [hpc]; rfl) (by rw [hpc]; rfl)
  | read job g n hpc => exact h.goto e.scratch (by rw [hpc]; rfl) (by rw [hpc]; rfl)
  | release job g agg hpc =>
    have hjob : (e.pc w).job = some job := by rw [hpc]; rfl
    refine ⟨fun w' job' hw' => ?_, fun w' job' g hw' => ?_⟩
    · rw [goto_pc] at hw'
      split at hw'
      · cases hw'
      · rename_i hne
        exact (Function.update_of_ne (h.corr_ne hjob hw' hne) _ _).trans (h.lock w' job' hw')
    · rw [goto_pc] at hw'
      split at hw'
      · cases hw'
      · exact h.group w' job' g hw'

variable (fp rule cap) in
/-- The value an evaluation on group `g` alone computes. -/
def pctAlone (job : PctJob C) (g : Group) : ℚ :=
  (evalValuePercentile fp (rule job.corr) g job.value cap job.ts
    (job.ts - (rule job.corr).timespanS)).vagg

omit [DecidableEq C] in
theorem pctAlone_eq (job : PctJob C) (g : Group) :
    pctAlone fp rule cap job g =
      if PctSkips cap (job.observed fp rule g) then 0
      else (sortAsc (evVals (job.observed fp rule g))).getD
        (rankIdx (rule job.corr) (job.observed fp rule g).evIdx.len) 0 :=
  evalValuePercentile_vagg _ _ _ _ _ _ _

/-- Every value read is the one read alone. -/
def PctRight (fp : Doubles) (rule : C → CorrRule) (cap : ℕ) (e : PctEngine C W) :
    Prop :=
  ∀ w job g agg, e.pc w = .done job g agg → agg = pctAlone fp rule cap job g

/-- What worker `w` with its copy in the scratch array will find there. -/
def ScratchHolds (fp : Doubles) (rule : C → CorrRule) (cap : ℕ) (f : ℕ → ℚ) :
    PctPc C → Prop
  | .copied job g n => ¬ PctSkips cap (job.observed fp rule g) ∧
      n = (job.observed fp rule g).evIdx.len ∧
      firsts n f = evVals (job.observed fp rule g)
  | .sorted job g n => ¬ PctSkips cap (job.observed fp rule g) ∧
      n = (job.observed fp rule g).evIdx.len ∧
      firsts n f = sortAsc (evVals (job.observed fp rule g))
  | .done job g agg => agg = pctAlone fp rule cap job g
  | _ => True

/-- One worker at most has its copy in the scratch array, and it is intact. -/
structure PctExclusive (fp : Doubles) (rule : C → CorrRule) (cap : ℕ)
    (e : PctEngine C W) : Prop where
  unique : ∀ w w', (e.pc w).inFlight = true → (e.pc w').inFlight = true → w' = w
  holds : ∀ w, ScratchHolds fp rule cap e.scratch (e.pc w)

omit [DecidableEq C] in
/-- A worker that is not in flight does not look at the scratch array. -/
theorem ScratchHolds.of_not_inFlight {f f' : ℕ → ℚ} {pc : PctPc C}
    (h : ScratchHolds fp rule cap f pc) (hpc : pc.inFlight = false) :
    ScratchHolds fp rule cap f' pc := by
  cases pc with
  | copied job g n => cases hpc
  | sorted job g n => cases hpc
  | _ => exact h

/-- A copy is made when no other worker is between its copy and its read. -/
def CopiesAlone (e : PctEngine C W) (w : W) (a : PctAct C) : Prop :=
  a = .copy → ∀ w', (e.pc w').inFlight = true → w' = w

omit [DecidableEq C] in
/-- A step that writes the scratch array, while no other worker is in flight. -/
theorem PctExclusive.goto (h : PctExclusive fp rule cap e) (w : W) (pc : PctPc C) (s : ℕ → ℚ)
    (hs : s = e.scratch ∨ ∀ w', (e.pc w').inFlight = true → w' = w)
    (hflight : pc.inFlight = true → ∀ w', (e.pc w').inFlight = true → w' = w)
    (hpc : ScratchHolds fp rule cap s pc) :
    PctExclusive fp rule cap ({ e with scratch := s }.goto w pc) := by
  refine ⟨fun w₁ w₂ h₁ h₂ => ?_, fun w' => ?_⟩
  · rw [goto_pc] at h₁ h₂
    split_ifs at h₁ h₂ with heq₁ heq₂ heq₂
    · rw [heq₁, heq₂]
    · rw [heq₁]
      exact hflight h₁ w₂ h₂
    · rw [heq₂]
      exact (hflight h₂ w₁ h₁).symm
    · exact h.unique w₁ w₂ h₁ h₂
  · rw [goto_pc]
    split_ifs with heq
    · exact hpc
    · rcases hs with rfl | hs
      · exact h.holds w'
      · refine (h.holds w').of_not_inFlight (eq_false_of_ne_true fun hw' => ?_)
        exact heq (hs w' hw')

/-- **A step keeps the copies intact** if copies are made alone. -/
theorem PctExclusive.step (h : PctExclusive fp rule cap e) (hlocked : PctLocked fp rule e)
    (hguard : CopiesAlone e w a) (hmove : PctMove fp rule cap e w a e') :
    PctExclusive fp rule cap e' := by
  cases hmove with
  | lock job hpc hfree =>
    obtain ⟨hunique, hholds⟩ := h.goto w (.locked job) e.scratch (Or.inl rfl)
      (fun hf => by cases hf) trivial
    exact ⟨hunique, hholds⟩
  | push job hpc =>
    obtain ⟨hunique, hholds⟩ := h.goto w (.pushed job (e.group job)) e.scratch (Or.inl rfl)
      (fun hf => by cases hf) trivial
    exact ⟨hunique, hholds⟩
  | skip job g hpc hskip =>
    refine h.goto w (.done job g 0) e.scratch (Or.inl rfl) (fun hf => by cases hf) ?_
    have hgroup := hlocked.group w job g (by rw [hpc]; rfl)
    rw [ScratchHolds, pctAlone_eq, if_pos (hgroup ▸ hskip)]
  | copy job g hpc hskip =>
    refine h.goto w _ _ (Or.inr (hguard rfl)) (fun _ => hguard rfl) ?_
    have hgroup := hlocked.group w job g (by rw [hpc]; rfl)
    rw [hgroup] at hskip ⊢
    exact ⟨hskip, rfl, firsts_fill (length_evVals hskip) _⟩
  | sort job g n hpc =>
    have hflight : (e.pc w).inFlight = true := by rw [hpc]; rfl
    have hown : ∀ w', (e.pc w').inFlight = true → w' = w := fun w' => h.unique w w' hflight
    refine h.goto w _ _ (Or.inr hown) (fun _ => hown) ?_
    have hholds := h.holds w
    rw [hpc] at hholds
    obtain ⟨hskip, hn, hfirsts⟩ := hholds
    refine ⟨hskip, hn, ?_⟩
    rw [firsts_fill (by rw [length_sortAsc, length_firsts]), hfirsts]
  | read job g n hpc =>
    refine h.goto w _ e.scratch (Or.inl rfl) (fun hf => by cases hf) ?_
    have hholds := h.holds w
    rw [hpc] at hholds
    obtain ⟨hskip, rfl, hfirsts⟩ := hholds
    have hpos : 0 < (job.observed fp rule g).evIdx.len :=
      Nat.pos_of_ne_zero fun hzero => hskip (Or.inl hzero)
    rw [ScratchHolds, pctAlone_eq, if_neg hskip, ← hfirsts]
    exact (getD_firsts (rankIdx_lt _ hpos) _).symm
  | release job g agg hpc =>
    obtain ⟨hunique, hholds⟩ := h.goto w .idle e.scratch (Or.inl rfl) (fun hf => by cases hf) trivial
    exact ⟨hunique, hholds⟩

/-- No worker is in the engine. -/
structure PctIdle (e : PctEngine C W) : Prop where
  pc : ∀ w, e.pc w = .idle
  lock : ∀ c, e.lock c = none

theorem PctReach.locked {guard : PctEngine C W → W → PctAct C → Prop} (hidle : PctIdle e₀)
    (h : PctReach fp rule cap guard e₀ e) : PctLocked fp rule e := by
  induction h with
  | refl =>
    refine ⟨fun w job hw => ?_, fun w job g hw => ?_⟩
    · rw [hidle.pc] at hw
      cases hw
    · rw [hidle.pc] at hw
      cases hw
  | step h hguard hstep ih => exact ih.step (pctMove_of_step hstep)

/-- **Copies made alone stay intact** in every run. -/
theorem PctReach.exclusive (hidle : PctIdle e₀) (h : PctReach fp rule cap CopiesAlone e₀ e) :
    PctExclusive fp rule cap e := by
  induction h with
  | refl =>
    refine ⟨fun w w' hw => ?_, fun w => ?_⟩
    · rw [hidle.pc] at hw
      cases hw
    · rw [hidle.pc]
      trivial
  | step h hguard hstep ih => exact ih.step (h.locked hidle) hguard (pctMove_of_step hstep)

omit [DecidableEq C] [DecidableEq W] in
theorem PctExclusive.right (h : PctExclusive fp rule cap e) : PctRight fp rule cap e := by
  intro w job g agg hw
  have hholds := h.holds w
  rw [hw] at hholds
  exact hholds

/-- With one worker or one correlation every copy is made alone. -/
theorem PctReach.copiesAlone (hidle : PctIdle e₀) (hone : Subsingleton W ∨ Subsingleton C)
    (h : PctReach fp rule cap (fun _ _ _ => True) e₀ e) :
    PctReach fp rule cap CopiesAlone e₀ e := by
  induction h with
  | refl => exact .refl
  | @step e e' w a h _ hstep ih =>
    refine .step ih (fun hcopy w' hw' => ?_) hstep
    rcases hone with hone | hone
    · exact Subsingleton.elim w' w
    · -- both hold the lock of the one correlation
      by_contra hne
      subst hcopy
      have hlocked := h.locked hidle
      obtain ⟨job, hjob⟩ : ∃ job, (e.pc w).job = some job := by
        cases pctMove_of_step hstep with
        | skip job g hpc hskip => exact ⟨job, by rw [hpc]; rfl⟩
        | copy job g hpc hskip => exact ⟨job, by rw [hpc]; rfl⟩
      obtain ⟨job', hjob'⟩ : ∃ job', (e.pc w').job = some job' := by
        cases hpc : e.pc w' with
        | copied job g n => exact ⟨job, rfl⟩
        | sorted job g n => exact ⟨job, rfl⟩
        | _ =>
          rw [hpc] at hw'
          cases hw'
      exact hlocked.corr_ne hjob hjob' hne (Subsingleton.elim _ _)

end Invariant

/-! ## Two workers

The converse.  Any two workers at evaluations of two correlations can be led to the point where both
have copied, and then the one that copied first reads what the other left.  The values can be chosen
so that this is a different number. -/

/-- The number that a string's length is. -/
def lengthNumber : Doubles := .binary64 fun s => some s.length

/-- The first value of a group. -/
theorem evPushVal_new (cap : ℕ) {now ws : ℚ} (val : ℚ) (h : ws ≤ now) :
    (evPushVal (groupNew cap) now val ws).evIdx.len = 1 ∧
      evVals (evPushVal (groupNew cap) now val ws) = [val] := by
  have hentries : (evPushVal (groupNew cap) now val ws).entries = [(now, val)] := by
    have hnil : (groupNew cap).entries = [] := rfl
    have hpush : pushCap (groupNew cap).evIdx.cap ([] : List (ℚ × ℚ)) (now, val) = [(now, val)] := by
      unfold pushCap
      split <;> rfl
    rw [entries_evPushVal, hnil, hpush, List.dropWhile_cons, if_neg (by simpa [before] using h)]
  refine ⟨?_, ?_⟩
  · rw [← length_entries, hentries]
    rfl
  · rw [evVals_eq (evVal_evPushVal _ _ _ _), hentries]
    rfl

section Failure

variable {C W : Type} [DecidableEq C] [DecidableEq W] {rule : C → CorrRule} {cap : ℕ}

/-- The first event of a group, with a value of some length. -/
def firstJob (c : C) (value : CStr) : PctJob C := ⟨c, [], some value, 0⟩

omit [DecidableEq C] in
variable (rule cap) in
theorem observed_firstJob (c : C) {value : CStr} (hne : value ≠ []) (hsmall : value.length < 2 ^ 53)
    (hspan : 0 < (rule c).timespanS) :
    ((firstJob c value).observed lengthNumber rule (groupNew cap)).evIdx.len = 1 ∧
      evVals ((firstJob c value).observed lengthNumber rule (groupNew cap)) = [(value.length : ℚ)] ∧
      ((firstJob c value).observed lengthNumber rule (groupNew cap)).evVal.isNone = false := by
  have hws : (0 : ℚ) - (rule c).timespanS ≤ 0 := by
    have hcast : (0 : ℚ) < (rule c).timespanS := by exact_mod_cast hspan
    linarith
  have hval : (some value).bind (sgToF64 lengthNumber) = some (value.length : ℚ) := by
    rw [Option.bind_some, sgToF64, if_neg hne]
    exact congrArg some (roundTo_natCast hsmall)
  have hobs : (firstJob c value).observed lengthNumber rule (groupNew cap) =
      evPushVal (groupNew cap) 0 value.length (0 - (rule c).timespanS) := by
    simp only [PctJob.observed, firstJob, evObserve, hval]
  obtain ⟨hlen, hvals⟩ := evPushVal_new cap (value.length : ℚ) hws
  rw [hobs]
  exact ⟨hlen, hvals, rfl⟩

/-- **A worker goes as far as its copy**, whatever the others are at. -/
theorem PctReach.copied {e₀ e : PctEngine C W} {guard : PctEngine C W → W → PctAct C → Prop}
    (hguard : ∀ e w a, guard e w a) (h : PctReach lengthNumber rule cap guard e₀ e) {w : W} {c : C}
    (hpc : e.pc w = .idle) (hfree : e.lock c = none) (hnew : e.groups c [] = groupNew cap)
    (hcap : 0 < cap) (hspan : 0 < (rule c).timespanS) {value : CStr} (hne : value ≠ [])
    (hsmall : value.length < 2 ^ 53) :
    ∃ e', PctReach lengthNumber rule cap guard e₀ e' ∧
      e'.pc w = .copied (firstJob c value) (groupNew cap) 1 ∧ e'.scratch 0 = value.length ∧
      (∀ w', w' ≠ w → e'.pc w' = e.pc w') ∧
      ∀ c', c' ≠ c → e'.lock c' = e.lock c' ∧ e'.groups c' = e.groups c' := by
  obtain ⟨hlen, hvals, hsome⟩ := observed_firstJob rule cap c hne hsmall hspan
  obtain ⟨job, hjob⟩ : ∃ job : PctJob C, job = firstJob c value := ⟨_, rfl⟩
  have hcorr : job.corr = c := by rw [hjob]; rfl
  rw [← hjob] at hlen hvals hsome
  have hlock : PctMove lengthNumber rule cap e w (.lock job) _ := .lock job hpc (hcorr ▸ hfree)
  obtain ⟨e₁, he₁⟩ : ∃ e₁, e₁ =
      { e with lock := Function.update e.lock job.corr (some w) }.goto w (.locked job) := ⟨_, rfl⟩
  rw [← he₁] at hlock
  have hgroup₁ : e₁.group job = groupNew cap := by
    rw [he₁, hjob]
    exact hnew
  have hpush : PctMove lengthNumber rule cap e₁ w .push _ :=
    .push job (by rw [he₁, goto_pc, if_pos rfl])
  rw [hgroup₁] at hpush
  obtain ⟨e₂, he₂⟩ : ∃ e₂, e₂ = { e₁ with
      groups := Function.update e₁.groups job.corr (Function.update (e₁.groups job.corr) job.key
        (job.observed lengthNumber rule (groupNew cap))) }.goto w
          (.pushed job (groupNew cap)) := ⟨_, rfl⟩
  rw [← he₂] at hpush
  have hgroup₂ : e₂.group job = job.observed lengthNumber rule (groupNew cap) := by
    rw [he₂]
    simp [PctEngine.group, PctEngine.goto]
  have hcopy : PctMove lengthNumber rule cap e₂ w .copy _ :=
    .copy job (groupNew cap) (by rw [he₂, goto_pc, if_pos rfl]) (by
      rw [hgroup₂, PctSkips, hlen, hsome]
      simp
      omega)
  rw [hgroup₂, hlen, hvals] at hcopy
  refine ⟨_, ((h.step (hguard _ _ _) hlock.step).step (hguard _ _ _) hpush.step).step
    (hguard _ _ _) hcopy.step, ?_, rfl, fun w' hw' => ?_, fun c' hc' => ⟨?_, ?_⟩⟩
  · rw [goto_pc, if_pos rfl, hjob]
  · rw [goto_pc, if_neg hw', he₂, goto_pc, if_neg hw', he₁, goto_pc, if_neg hw']
  · rw [he₂, he₁, ← hcorr] at *
    exact Function.update_of_ne hc' _ _
  · rw [he₂, he₁, ← hcorr] at *
    exact Function.update_of_ne hc' _ _

variable (rule) in
/-- **Two workers at two correlations** can meet in the scratch array: the one that copied first
reads the value of the other. -/
theorem exists_misread (hcap : 0 < cap) (hspan : ∀ c, 0 < (rule c).timespanS) {w₁ w₂ : W}
    (hw : w₁ ≠ w₂) {c₁ c₂ : C} (hc : c₁ ≠ c₂) :
    ∃ e₀ e : PctEngine C W, PctIdle e₀ ∧
      PctReach lengthNumber rule cap (fun _ _ _ => True) e₀ e ∧
      ¬ PctRight lengthNumber rule cap e := by
  obtain ⟨e₀, he₀⟩ : ∃ e₀ : PctEngine C W, e₀ =
      ⟨fun _ => 0, fun _ => none, fun _ _ => groupNew cap, fun _ => .idle⟩ := ⟨_, rfl⟩
  have hidle : PctIdle e₀ := ⟨fun _ => by rw [he₀], fun _ => by rw [he₀]⟩
  obtain ⟨e₁, h₁, hpc₁, -, hother₁, hkeep₁⟩ := PctReach.copied (fun _ _ _ => trivial)
    PctReach.refl (hidle.pc w₁) (hidle.lock c₁) (by rw [he₀]) hcap (hspan c₁)
    (List.cons_ne_nil 1 []) (by decide)
  obtain ⟨hlock₁, hgroups₁⟩ := hkeep₁ c₂ hc.symm
  obtain ⟨e₂, h₂, -, hscratch, hother₂, -⟩ := PctReach.copied (fun _ _ _ => trivial) h₁
    ((hother₁ w₂ hw.symm).trans (hidle.pc w₂)) (hlock₁.trans (hidle.lock c₂))
    ((congrFun hgroups₁ []).trans (by rw [he₀])) hcap (hspan c₂) (List.cons_ne_nil 1 [1])
    (by decide)
  have hpc₂ := (hother₂ w₁ hw).trans hpc₁
  obtain ⟨e₃, he₃⟩ : ∃ e₃ : PctEngine C W, e₃ =
      { e₂ with scratch := fill (sortAsc (firsts 1 e₂.scratch)) e₂.scratch }.goto w₁
        (.sorted (firstJob c₁ [1]) (groupNew cap) 1) := ⟨_, rfl⟩
  have hsort : PctMove lengthNumber rule cap e₂ w₁ .sort e₃ := he₃ ▸ .sort _ _ _ hpc₂
  have hread : PctMove lengthNumber rule cap e₃ w₁ .read _ :=
    .read (firstJob c₁ [1]) (groupNew cap) 1 (by rw [he₃, goto_pc, if_pos rfl])
  refine ⟨e₀, _, hidle, (h₂.step trivial hsort.step).step trivial hread.step, fun hright => ?_⟩
  have hvalue := hright w₁ _ _ _ ((goto_pc _ w₁ w₁ _).trans (if_pos rfl))
  obtain ⟨hlen, hvals, hsome⟩ := observed_firstJob rule cap c₁ (List.cons_ne_nil 1 [])
    (by decide) (hspan c₁)
  have hskip : ¬ PctSkips cap ((firstJob c₁ [1]).observed lengthNumber rule (groupNew cap)) := by
    rw [PctSkips, hlen, hsome]
    simp
    omega
  have hrank : ∀ r : CorrRule, rankIdx r 1 = 0 := fun r =>
    Nat.lt_one_iff.mp (rankIdx_lt r Nat.one_pos)
  rw [pctAlone_eq, if_neg hskip, hvals, hlen, hrank] at hvalue
  have htwo : e₂.scratch 0 = 1 := by
    rw [he₃] at hvalue
    simpa [PctEngine.goto, fill, firsts, sortAsc] using hvalue
  rw [hscratch] at htwo
  norm_num at htwo

end Failure

/-! ## When the values read are right

The statement for an engine: whatever steps the workers make in whatever order, the values they read
are those they would read alone, exactly if there is one worker or one correlation that sorts.  With
more of both it holds in the runs in which no copy is made while another worker is in between. -/

section Engines

variable {C W : Type} [DecidableEq C] [DecidableEq W]

/-- The workers of an engine read what they would read alone, if their steps meet a guard. -/
def PctReadsAlone (W : Type) [DecidableEq W] (rule : C → CorrRule) (cap : ℕ)
    (guard : PctEngine C W → W → PctAct C → Prop) : Prop :=
  ∀ (fp : Doubles) (e₀ e : PctEngine C W), PctIdle e₀ →
    PctReach fp rule cap guard e₀ e → PctRight fp rule cap e

/-- **Workers whose copies are made alone read what they would read alone.** -/
theorem pctReadsAlone_of_copiesAlone (rule : C → CorrRule) (cap : ℕ) :
    PctReadsAlone W rule cap CopiesAlone :=
  fun _ _ _ hidle h => (h.exclusive hidle).right

/-- **In every run in which no worker copies while another is between its copy and its read**, each
reads what it would read alone.  Only an engine with one worker or one correlation has no other
runs. -/
theorem pct_reads_alone_iff (rule : C → CorrRule) (caps : CorrCaps)
    (hrule : ∀ c, (rule c).admitted = true) :
    PctReadsAlone W rule caps.withDefaults.maxEventsPerGroup CopiesAlone ∧
      (PctReadsAlone W rule caps.withDefaults.maxEventsPerGroup (fun _ _ _ => True) ↔
        Subsingleton W ∨ Subsingleton C) := by
  refine ⟨pctReadsAlone_of_copiesAlone rule _, fun hall => ?_, fun hone fp e₀ e hidle h => ?_⟩
  · by_contra hnot
    rw [not_or, not_subsingleton_iff_nontrivial, not_subsingleton_iff_nontrivial] at hnot
    obtain ⟨⟨w₁, w₂, hw⟩, c₁, c₂, hc⟩ := hnot
    obtain ⟨e₀, e, hidle, h, hwrong⟩ := exists_misread rule (withDefaults_maxEvents_pos caps)
      (fun c => timespanS_pos (Bool.and_eq_true_iff.mp (hrule c)).2) hw hc
    exact hwrong (hall _ _ _ hidle h)
  · exact pctReadsAlone_of_copiesAlone rule _ _ _ _ hidle (h.copiesAlone hidle hone)

end Engines

/-- The median of the lengths of the users' names. -/
def medianRule : CorrRule :=
  { burstRule with type := some .valueMedian, valueField := some (cstr "user") }

/-- Two workers at two medians read right if each copies alone, and at one median in any case. -/
theorem pct_reads_alone_iff_sample :
    medianRule.admitted = true ∧
      PctReadsAlone Bool (fun _ : Bool => medianRule) capsZero.withDefaults.maxEventsPerGroup
        CopiesAlone ∧
      PctReadsAlone Bool (fun _ : Unit => medianRule) capsZero.withDefaults.maxEventsPerGroup
        (fun _ _ _ => True) :=
  ⟨by decide,
    (pct_reads_alone_iff (fun _ : Bool => medianRule) capsZero fun _ => by decide).1,
    (pct_reads_alone_iff (fun _ : Unit => medianRule) capsZero fun _ => by decide).2.mpr
      (Or.inr inferInstance)⟩

/-- Two workers at two medians: one reads the value of the other. -/
theorem pct_scratch_shared :
    ¬ PctReadsAlone Bool (fun _ : Bool => medianRule) capsZero.withDefaults.maxEventsPerGroup
      (fun _ _ _ => True) := by
  intro hall
  obtain ⟨e₀, e, hidle, h, hwrong⟩ := exists_misread (fun _ : Bool => medianRule)
    (withDefaults_maxEvents_pos capsZero) (fun _ => by decide) Bool.false_ne_true
    Bool.false_ne_true
  exact hwrong (hall _ _ _ hidle h)

end LibSigma
