import LibSigma.Corr.Merge

/-!
# The merged count

The partials of the peers are counted in a field of 32 bits.  event_count adds it to the length of
the ring in 64 bits, value_avg in 32.

So there are two places where a count can wrap: where a partial is added to the field, and where an
average is taken. To say when the numbers of a group are exact one has to name the numbers that they
should be, and these are functions of the inputs alone: the sum of what the partials count, and what
the ring retains (`ringAfter`).

The statement is about runs in which the group is there all along once it is there (`Kept`), so that
the inputs of its life are all the inputs of the run. Under `Kept` it is an equivalence: the numbers
are exact after each input if and only if they fit after each input.

* `kept_life`: a group that no call sweeps or evicts lives one life.
* `Life.ring`: the ring of a rule over values, by its inputs alone.
* `merged_count_exact_iff`: **the counts are exact exactly as long as the contributed counts, and
  with the ring under value_avg, fit 32 bits**.
* `merged_count_wraps`: two partials that make none.
-/

namespace LibSigma

open Library

/-! ## The numbers -/

/-- The count that event_count compares. -/
def Group.compared (g : Group) : Int := g.evIdx.len + g.mergeN.toNat

/-- The divisor of value_avg. -/
def Group.divisor (g : Group) : ℕ := (g.evIdx.len + g.mergeN.toNat) % 2 ^ 32

section Decision

variable (fp : Doubles) (caps : CorrCaps) {r : CorrRule}

/-- event_count decides on the count of the group that an input leaves. -/
theorem decided_eventCount (htype : r.type = some .eventCount) (g : Group) (i : GroupInput) :
    (groupInput fp caps r g i).decided = (i.decides r &&
      cmpThreshold (groupInput fp caps r g i).group.compared r.condOp r.condCount) := by
  rw [decided_groupInput fp caps r htype rfl, Group.reaches, htype]
  rfl

end Decision

/-! ## The ring -/

section Ring

variable (fp : Doubles) (cap : ℕ) (r : CorrRule)

/-- The numbers a ring retains after one more input, with their times. -/
def ringStep (es : List (ℚ × ℚ)) (i : GroupInput) : List (ℚ × ℚ) :=
  if i.prunes then
    ((i.newEntry fp).elim es (pushCap cap es)).dropWhile fun e => before (i.ts - r.timespanS) e.1
  else es

/-- The numbers a ring retains after some inputs. -/
def ringAfter (is : List GroupInput) : List (ℚ × ℚ) := is.foldl (ringStep fp cap r) []

theorem ringAfter_concat (is : List GroupInput) (i : GroupInput) :
    ringAfter fp cap r (is ++ [i]) = ringStep fp cap r (ringAfter fp cap r is) i :=
  List.foldl_concat ..

variable {fp cap r}

/-- **The ring of a life, by its inputs.** -/
theorem Life.ring {caps : CorrCaps} (hagg : r.Aggregates) (hcap : 0 < caps.maxEventsPerGroup)
    {H : List GroupStep} {s : Option Group} (h : Life fp caps r H s) :
    (s.getD (groupNew caps.maxEventsPerGroup)).ValsOk ∧
      (s.getD (groupNew caps.maxEventsPerGroup)).entries =
        ringAfter fp caps.maxEventsPerGroup r (H.map GroupStep.input) := by
  induction h with
  | unborn => exact ⟨Or.inr rfl, rfl⟩
  | @input H s i h ih =>
    obtain ⟨hok, hentries⟩ := entries_groupInput fp caps hagg ih.1 i
    refine ⟨hok, ?_⟩
    rw [Option.getD_some, groupApply, hentries, h.cap hcap, ih.2, List.map_append,
      List.map_singleton, ringAfter_concat]
    rfl

end Ring

/-! ## A group that is kept -/

section Kept

variable (fp : Doubles) (ci : ℕ) (key : List CStr)

/-- No call sweeps or evicts the group once it is there. -/
def Kept (e : CorrEngine) (cs : List CorrCall) : Prop :=
  ∀ cs₁ c cs₂, cs = cs₁ ++ c :: cs₂ → ((corrRun fp e cs₁).slot ci key).isSome = true →
    (((corrRun fp e cs₁).sweepIfDue c.ts).slot ci key).isSome = true ∧
      ((corrRun fp e (cs₁ ++ [c])).slot ci key).isSome = true

variable {fp ci key}

theorem Kept.start {e : CorrEngine} {cs cs' : List CorrCall} (h : Kept fp ci key e (cs ++ cs')) :
    Kept fp ci key e cs := fun cs₁ c cs₂ hcs =>
  h cs₁ c (cs₂ ++ cs') (by rw [hcs, List.append_assoc, List.cons_append])

/-- The inputs of a group in a run. -/
def inputsFor (rules : List CorrRule) (ci : ℕ) (r : CorrRule) (key : List CStr)
    (cs : List CorrCall) : List GroupInput :=
  cs.filterMap (CorrCall.inputFor rules ci r key)

/-- **A group that is kept lives one life**, made of all its inputs. -/
theorem kept_life {rules : List CorrRule} {caps : CorrCaps} {r : CorrRule}
    (hr : (admittedRules rules)[ci]? = some r) {cs : List CorrCall}
    (hkept : Kept fp ci key (corrEngineNew rules caps) cs) :
    ∃ H, H.map GroupStep.input = inputsFor (admittedRules rules) ci r key cs ∧
      Life fp caps.withDefaults r H
        ((corrRun fp (corrEngineNew rules caps) cs).slot ci key) := by
  induction cs using List.reverseRecOn with
  | nil =>
    have hslot : (corrEngineNew rules caps).slot ci key = none := slot_new ci key
    exact ⟨[], rfl, hslot ▸ .unborn⟩
  | append_singleton cs c ih =>
    obtain ⟨H, hinputs, hlife⟩ := ih hkept.start
    obtain ⟨g, hg, hinput, hother⟩ := slot_corrCall fp
      ((engineOk_new rules caps).corrRun fp hr cs) hr key c
    have hrun : corrRun fp (corrEngineNew rules caps) (cs ++ [c]) =
        (corrCall fp (corrRun fp (corrEngineNew rules caps) cs) c).1 := by
      rw [corrRun_append]
      rfl
    have hstays := hkept cs c [] rfl
    -- the sweep leaves the group, if there is one
    have hsame : g = (corrRun fp (corrEngineNew rules caps) cs).slot ci key := by
      rcases ((engineOk_new rules caps).corrRun fp hr cs).found_cases hr hg with hg' | hg'
      · exact hg'
      · cases hslot : (corrRun fp (corrEngineNew rules caps) cs).slot ci key with
        | none => rw [hg', hslot, Option.filter_none]
        | some g₀ =>
          have hsome : g.isSome = true := by
            rcases hg with hg | hg
            · rw [hg, hslot, Option.isSome_some]
            · rw [hg]
              exact (hstays (by rw [hslot, Option.isSome_some])).1
          obtain ⟨g₁, hg₁⟩ := Option.isSome_iff_exists.mp hsome
          rw [hslot, hg₁] at hg'
          rw [hg₁, (Option.filter_eq_some_iff.mp hg'.symm).1]
    rw [inputsFor, List.filterMap_append, ← inputsFor, ← hinputs, hrun]
    cases hi : c.inputFor (admittedRules rules) ci r key with
    | some i =>
      obtain ⟨-, hslot, -⟩ := hinput i hi
      rw [List.filterMap_cons_some hi, List.filterMap_nil, hslot, hsame]
      exact ⟨_, List.map_append, .input i hlife⟩
    | none =>
      rw [List.filterMap_cons_none hi, List.filterMap_nil, List.append_nil]
      refine ⟨H, rfl, ?_⟩
      rcases (hother hi).1 with hslot | ⟨-, hslot⟩
      · rw [hslot, hsame]
        exact hlife
      · cases hbefore : (corrRun fp (corrEngineNew rules caps) cs).slot ci key with
        | none =>
          rw [hslot, ← hbefore]
          exact hlife
        | some g₀ =>
          have hafter := (hstays (by rw [hbefore, Option.isSome_some])).2
          rw [hrun, hslot] at hafter
          exact absurd hafter Bool.false_ne_true

end Kept

/-! ## Exact counts -/

/-- After the inputs `is`, the last of which is `i`, the numbers of group `g` are exact: the merged
count is the sum of what the partials count, and what `i` is decided on adds the length of the
ring. -/
structure CountsExactly (r : CorrRule) (is : List GroupInput) (i : GroupInput) (g : Group) :
    Prop where
  merged : g.mergeN.toNat = countsIn is
  compared : r.type = some .eventCount → i.decides r = true →
    g.compared = countsIn is + g.times.length
  divisor : r.type = some .valueAvg → i.decides r = true →
    g.divisor = countsIn is + g.times.length

/-- What the partials count fits 32 bits, and with the ring if `i` is averaged. -/
structure CountsFit (fp : Doubles) (cap : ℕ) (r : CorrRule) (is : List GroupInput)
    (i : GroupInput) : Prop where
  merged : countsIn is < 2 ^ 32
  divisor : r.type = some .valueAvg → i.decides r = true →
    countsIn is + (ringAfter fp cap r is).length < 2 ^ 32

section Exact

variable {fp : Doubles} {caps : CorrCaps} {r : CorrRule}

/-- **One life**: its numbers are exact exactly if they fit. -/
theorem Life.countsExactly_iff (hcap : 0 < caps.maxEventsPerGroup) {H : List GroupStep} {g : Group}
    (h : Life fp caps r H (some g)) (i : GroupInput) :
    CountsExactly r (H.map GroupStep.input) i g ↔
      CountsFit fp caps.maxEventsPerGroup r (H.map GroupStep.input) i := by
  have hmerged : g.mergeN.toNat = countsIn (H.map GroupStep.input) % 2 ^ 32 := h.merged.1
  have hring : r.type = some .valueAvg →
      (ringAfter fp caps.maxEventsPerGroup r (H.map GroupStep.input)).length = g.evIdx.len := by
    intro htype
    rw [← (h.ring (Or.inl (Or.inr htype)) hcap).2]
    exact length_entries g
  have hlen := length_times g
  constructor
  · intro hexact
    have hfits : countsIn (H.map GroupStep.input) < 2 ^ 32 := by
      have hlt := g.mergeN.toNat_lt
      rwa [hexact.merged] at hlt
    refine ⟨hfits, fun htype hdecides => ?_⟩
    have hdivisor := hexact.divisor htype hdecides
    rw [hring htype, ← hlen, ← hdivisor]
    exact Nat.mod_lt _ (by decide)
  · intro hfit
    have hsum : g.mergeN.toNat = countsIn (H.map GroupStep.input) := by
      rw [hmerged, Nat.mod_eq_of_lt hfit.merged]
    refine ⟨hsum, fun _ _ => ?_, fun htype hdecides => ?_⟩
    · rw [Group.compared, hsum, hlen, add_comm]
    · have hlt := hfit.divisor htype hdecides
      rw [hring htype] at hlt
      rw [Group.divisor, hsum, hlen, Nat.add_comm, Nat.mod_eq_of_lt hlt]

end Exact

/-- **Merged counts are exact as long as they fit**: in a run that keeps the group, the numbers are
exact after each of its inputs exactly if, after each of them, what the partials count fits 32 bits,
and under value_avg what they count and the ring together. -/
theorem merged_count_exact_iff {fp : Doubles} {rules : List CorrRule} {caps : CorrCaps}
    {ci : ℕ} {r : CorrRule} {key : List CStr} (hr : (admittedRules rules)[ci]? = some r)
    {cs : List CorrCall} (hkept : Kept fp ci key (corrEngineNew rules caps) cs) :
    (∀ cs₁ c cs₂ i, cs = cs₁ ++ c :: cs₂ → c.inputFor (admittedRules rules) ci r key = some i →
        ∃ g, (corrRun fp (corrEngineNew rules caps) (cs₁ ++ [c])).slot ci key = some g ∧
          CountsExactly r (inputsFor (admittedRules rules) ci r key (cs₁ ++ [c])) i g) ↔
      ∀ cs₁ c cs₂ i, cs = cs₁ ++ c :: cs₂ → c.inputFor (admittedRules rules) ci r key = some i →
        CountsFit fp caps.withDefaults.maxEventsPerGroup r
          (inputsFor (admittedRules rules) ci r key (cs₁ ++ [c])) i := by
  have hstep : ∀ cs₁ c cs₂ i, cs = cs₁ ++ c :: cs₂ →
      c.inputFor (admittedRules rules) ci r key = some i →
      ∃ g, (corrRun fp (corrEngineNew rules caps) (cs₁ ++ [c])).slot ci key = some g ∧
        (CountsExactly r (inputsFor (admittedRules rules) ci r key (cs₁ ++ [c])) i g ↔
          CountsFit fp caps.withDefaults.maxEventsPerGroup r
            (inputsFor (admittedRules rules) ci r key (cs₁ ++ [c])) i) := by
    intro cs₁ c cs₂ i hcs hi
    have hcs' : cs = (cs₁ ++ [c]) ++ cs₂ := by
      rw [hcs, List.append_assoc]
      rfl
    obtain ⟨H, hinputs, hlife⟩ := kept_life hr (hcs' ▸ hkept).start
    obtain ⟨g', -, hinput, -⟩ := slot_corrCall fp
      ((engineOk_new rules caps).corrRun fp hr cs₁) hr key c
    obtain ⟨-, hslot, -⟩ := hinput i hi
    rw [corrRun_append] at hlife ⊢
    rw [show corrRun fp (corrRun fp (corrEngineNew rules caps) cs₁) [c] =
      (corrCall fp (corrRun fp (corrEngineNew rules caps) cs₁) c).1 from rfl, hslot] at hlife ⊢
    exact ⟨_, rfl, hinputs ▸ hlife.countsExactly_iff (withDefaults_maxEvents_pos caps) i⟩
  constructor
  · intro hexact cs₁ c cs₂ i hcs hi
    obtain ⟨g, hslot, hiff⟩ := hstep cs₁ c cs₂ i hcs hi
    obtain ⟨g', hslot', hcounts⟩ := hexact cs₁ c cs₂ i hcs hi
    cases hslot.symm.trans hslot'
    exact hiff.mp hcounts
  · intro hfits cs₁ c cs₂ i hcs hi
    obtain ⟨g, hslot, hiff⟩ := hstep cs₁ c cs₂ i hcs hi
    exact ⟨g, hslot, hiff.mpr (hfits cs₁ c cs₂ i hcs hi)⟩

/-- A peer that counted `n` events of user `a`. -/
def peerOf (n : UInt32) (ts : ℚ) : CorrCall :=
  .contribution ⟨some .count, some (cstr "burst"), [], [some (cstr "a")], ts, none, 0, n, 0⟩
    fun _ => none

/-- A group that is there after the first of two calls, and stays. -/
theorem kept_pair {fp : Doubles} {rules : List CorrRule} {caps : CorrCaps} {ci : ℕ}
    {key : List CStr} {c c' : CorrCall}
    (hswept : (((corrRun fp (corrEngineNew rules caps) [c]).sweepIfDue c'.ts).slot ci key).isSome =
      true)
    (hafter : ((corrRun fp (corrEngineNew rules caps) [c, c']).slot ci key).isSome = true) :
    Kept fp ci key (corrEngineNew rules caps) [c, c'] := by
  intro cs₁ d cs₂ hcs hsome
  rcases cs₁ with _ | ⟨a, _ | ⟨b, cs₁⟩⟩
  · have hnew : (corrEngineNew rules caps).slot ci key = none := slot_new ci key
    rw [corrRun, List.foldl_nil, hnew] at hsome
    exact absurd hsome Bool.false_ne_true
  · obtain ⟨rfl, htail⟩ := List.cons_eq_cons.mp hcs
    obtain ⟨rfl, -⟩ := List.cons_eq_cons.mp htail
    exact ⟨hswept, hafter⟩
  · exact absurd (congrArg List.length hcs) (by simp)

/-- Small counts: the second of two partials finds an exact sum. -/
theorem merged_count_exact_iff_sample :
    ∃ i g, (peerOf 3 1).inputFor (admittedRules [tripleRule]) 0 tripleRule [cstr "a"] = some i ∧
      (corrRun .bare (corrEngineNew [tripleRule] capsZero) [peerOf 2 0, peerOf 3 1]).slot 0
          [cstr "a"] = some g ∧
      CountsExactly tripleRule
        (inputsFor (admittedRules [tripleRule]) 0 tripleRule [cstr "a"] [peerOf 2 0, peerOf 3 1]) i
        g := by
  have hkept : Kept .bare 0 [cstr "a"] (corrEngineNew [tripleRule] capsZero)
      [peerOf 2 0, peerOf 3 1] :=
    kept_pair (by decide +kernel) (by decide +kernel)
  have hexact := (@merged_count_exact_iff .bare [tripleRule] capsZero 0 tripleRule
    [cstr "a"] (by decide) [peerOf 2 0, peerOf 3 1] hkept).mpr
      fun cs₁ c cs₂ i hcs _ => by
    refine ⟨?_, fun htype => absurd htype (by decide)⟩
    rcases cs₁ with _ | ⟨a, _ | ⟨b, cs₁⟩⟩
    · obtain ⟨rfl, -⟩ := List.cons_eq_cons.mp hcs
      decide +kernel
    · obtain ⟨rfl, htail⟩ := List.cons_eq_cons.mp hcs
      obtain ⟨rfl, -⟩ := List.cons_eq_cons.mp htail
      decide +kernel
    · exact absurd (congrArg List.length hcs) (by simp)
  obtain ⟨i, hi⟩ : ∃ i, (peerOf 3 1).inputFor (admittedRules [tripleRule]) 0 tripleRule [cstr "a"] =
      some i := Option.isSome_iff_exists.mp (by decide +kernel)
  obtain ⟨g, hslot, hg⟩ := hexact [peerOf 2 0] (peerOf 3 1) [] i rfl hi
  exact ⟨i, g, hi, hslot, hg⟩

/-- **The merged count wraps**: 2^32 - 1 events and one more are none. -/
theorem merged_count_wraps :
    ¬ ∀ (fp : Doubles) (rules : List CorrRule) (caps : CorrCaps) (ci : ℕ)
      (r : CorrRule) (key : List CStr) (cs : List CorrCall),
      (admittedRules rules)[ci]? = some r → Kept fp ci key (corrEngineNew rules caps) cs →
        ∀ cs₁ c cs₂ i, cs = cs₁ ++ c :: cs₂ →
          c.inputFor (admittedRules rules) ci r key = some i →
          ∃ g, (corrRun fp (corrEngineNew rules caps) (cs₁ ++ [c])).slot ci key = some g ∧
            CountsExactly r (inputsFor (admittedRules rules) ci r key (cs₁ ++ [c])) i g := by
  intro hclaim
  obtain ⟨g, hslot, hexact⟩ := hclaim .bare [tripleRule] capsZero 0 tripleRule [cstr "a"]
    [peerOf 4294967295 0, peerOf 1 1] (by decide) (kept_pair (by decide +kernel) (by decide +kernel))
    [peerOf 4294967295 0] (peerOf 1 1) [] _ rfl rfl
  have hzero : ((corrRun .bare (corrEngineNew [tripleRule] capsZero)
      ([peerOf 4294967295 0] ++ [peerOf 1 1])).slot 0 [cstr "a"]).map Group.mergeN = some 0 := by
    decide +kernel
  rw [hslot] at hzero
  have hmerged := hexact.merged
  rw [Option.some.inj hzero] at hmerged
  exact absurd hmerged (by decide +kernel)

end LibSigma
