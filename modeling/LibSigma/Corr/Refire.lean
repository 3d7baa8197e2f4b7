import Mathlib.Tactic.Linarith
import Mathlib.Tactic.NormNum
import LibSigma.Corr.Life

/-!
# Re-fire suppression

After a fire a group stays lit for one window: the deadline is in its state, on the path of local
events and on that of contributions, and a sweep forgets it only when it has passed.

The proof is about two fires of one group in a run in order of time. If they are in one life of the
group, the first has set the deadline, only a fire moves it, and a fire needs it to have passed. If
they are in different lives, the group was dropped in between; then its last update, which is not
before the first fire, had left the window of the second (`groupTrace_life`). Both end in the same
inequality.

* `groupInput_firedUntil`: only a fire moves the deadline.
* `refire_suppressed`: **two fires of a group are at least one window apart.**
-/

namespace LibSigma

open Library

variable {fp : Doubles} {rules : List CorrRule} {caps : CorrCaps} {ci : ℕ}
  {r : CorrRule} {key : List CStr}

/-- A fire moves the deadline, nothing else does. -/
theorem groupInput_firedUntil (g : Group) (i : GroupInput) :
    (groupInput fp caps r g i).group.firedUntil =
      if (groupInput fp caps r g i).fire.isSome then i.ts + r.timespanS else g.firedUntil := by
  cases i with
  | event hits value ts =>
    rw [groupInput]
    split
    · rfl
    · rw [settle_firedUntil]
      have hframe := sameFrame_evaluate fp caps r { g with lastUpdate := ts } hits value ts
        (ts - r.timespanS)
      rw [hframe.firedUntil]
      rfl
  | contrib c =>
    rw [groupInput, settle_firedUntil, (evalContrib_frame fp caps r _ c _).2.1]
    rfl

variable (fp caps r) in
/-- A fire waits for the deadline. -/
theorem groupInput_fire_le (g : Group) (i : GroupInput)
    (h : (groupInput fp caps r g i).fire.isSome = true) : g.firedUntil ≤ i.ts := by
  cases i with
  | event hits value ts =>
    rw [groupInput] at h
    split at h
    · cases h
    · rw [settle_fire] at h
      split at h
      · rename_i hand
        have hframe := sameFrame_evaluate fp caps r { g with lastUpdate := ts } hits value ts
          (ts - r.timespanS)
        rw [hframe.firedUntil] at hand
        exact hand.2
      · cases h
  | contrib c =>
    rw [groupInput, settle_fire] at h
    split at h
    · rename_i hand
      rw [(evalContrib_frame fp caps r _ c _).2.1] at hand
      exact hand.2
    · cases h

/-- The deadline of a group is one window after each of its fires at least. -/
theorem Life.le_firedUntil (hpos : 0 < r.timespanS) {H : List GroupStep} {s : Option Group}
    (h : Life fp caps r H s) :
    ∀ g, s = some g → ∀ x ∈ H, x.fire.isSome = true → x.ts + r.timespanS ≤ g.firedUntil := by
  induction h with
  | unborn =>
    intro g hg
    cases hg
  | @input H s i h ih =>
    intro g hg x hmem hfire
    cases hg
    rw [groupApply, groupInput_firedUntil]
    rcases List.mem_append.mp hmem with hx | hx
    · -- an earlier fire: the group existed, and a new fire waits for its deadline
      obtain ⟨g₀, rfl⟩ := h.exists_group hx
      have hle := ih g₀ rfl x hx hfire
      split
      · rename_i hnew
        have hwait := groupInput_fire_le fp caps r _ i hnew
        have hspan : (0 : ℚ) < r.timespanS := by exact_mod_cast hpos
        have hdeadline : g₀.firedUntil ≤ i.ts := hwait
        linarith
      · exact hle
    · rw [List.mem_singleton.mp hx] at hfire ⊢
      have hnew : (groupInput fp caps r
          (s.getD (groupNew caps.maxEventsPerGroup)) i).fire.isSome = true := hfire
      rw [if_pos hnew]
      rfl

/-- The deadline of a group is that of one of its fires, and 0 before the first. -/
theorem Life.firedUntil_eq {H : List GroupStep} {s : Option Group} (h : Life fp caps r H s) :
    let g := s.getD (groupNew caps.maxEventsPerGroup)
    (g.firedUntil = 0 ∧ ∀ x ∈ H, x.fire.isSome = false) ∨
      ∃ x ∈ H, x.fire.isSome = true ∧ g.firedUntil = x.ts + r.timespanS := by
  induction h with
  | unborn => exact Or.inl ⟨rfl, fun x hx => absurd hx List.not_mem_nil⟩
  | @input H s i h ih =>
    simp only [Option.getD_some, groupApply, groupInput_firedUntil]
    by_cases hfire : (groupInput fp caps r
        (s.getD (groupNew caps.maxEventsPerGroup)) i).fire.isSome = true
    · rw [if_pos hfire]
      exact Or.inr ⟨_, List.mem_append_right _ List.mem_cons_self, hfire, rfl⟩
    · rw [if_neg hfire]
      rcases ih with ⟨hzero, hnone⟩ | ⟨x, hx, hxf, heq⟩
      · refine Or.inl ⟨hzero, fun x hx => ?_⟩
        rcases List.mem_append.mp hx with hx | hx
        · exact hnone x hx
        · rw [List.mem_singleton.mp hx]
          exact eq_false_of_ne_true hfire
      · exact Or.inr ⟨x, List.mem_append_left _ hx, hxf, heq⟩

/-- A group fires from time zero on only. -/
theorem Life.firedUntil_nonneg (hpos : 0 < r.timespanS) {H : List GroupStep} {s : Option Group}
    (h : Life fp caps r H s) : 0 ≤ (s.getD (groupNew caps.maxEventsPerGroup)).firedUntil := by
  induction h with
  | unborn => exact le_rfl
  | @input H s i h ih =>
    simp only [Option.getD_some, groupApply, groupInput_firedUntil]
    split
    · rename_i hfire
      have hle := groupInput_fire_le fp caps r _ i hfire
      have hspan : (0 : ℚ) < r.timespanS := by exact_mod_cast hpos
      linarith
    · exact ih

/-- From time zero on, the deadline has passed exactly when every fire is a window ago. -/
theorem Life.firedUntil_le_iff (hpos : 0 < r.timespanS) {H : List GroupStep} {s : Option Group}
    (h : Life fp caps r H s) {t : ℚ} (ht : 0 ≤ t) :
    (s.getD (groupNew caps.maxEventsPerGroup)).firedUntil ≤ t ↔
      ∀ x ∈ H, x.fire.isSome = true → x.ts + r.timespanS ≤ t := by
  constructor
  · intro hle x hx hfire
    obtain ⟨g, rfl⟩ := h.exists_group hx
    exact (h.le_firedUntil hpos g rfl x hx hfire).trans hle
  · intro hall
    rcases h.firedUntil_eq with ⟨hzero, -⟩ | ⟨x, hx, hfire, heq⟩
    · exact hzero.le.trans ht
    · exact heq.le.trans (hall x hx hfire)

/-- **Two fires of a group are at least one window apart**, however local events and contributions
mix and whatever the sweep drops in between. -/
theorem refire_suppressed (hr : (admittedRules rules)[ci]? = some r) {cs : List CorrCall}
    (hsorted : TimeOrdered cs)
    (hspared : spared fp ci r key (corrEngineNew rules caps) cs = true) :
    (firesOf fp ci key (corrEngineNew rules caps) cs).Pairwise
      fun a b : ℚ × CorrFired => a.1 + (r.timespanS : ℚ) ≤ b.1 := by
  rw [firesOf_eq (engineOk_new rules caps) hr, List.pairwise_filterMap]
  refine pairwise_of_split fun H x H' hsplit y hy a ha b hb => ?_
  obtain ⟨fy, hfy, rfl⟩ := Option.map_eq_some_iff.mp ha
  obtain ⟨fx, hfx, rfl⟩ := Option.map_eq_some_iff.mp hb
  have hpos := timespanS_pos (ruleValid_of_admitted hr)
  obtain ⟨H₁, H₂, s, rfl, hlife, hx, hpast⟩ := groupTrace_life hr hsplit
  rcases List.mem_append.mp hy with hy | hy
  · have hlt := hpast hsorted hspared y hy x (List.mem_append_right _ List.mem_cons_self)
    show y.ts + r.timespanS ≤ x.ts
    linarith
  · obtain ⟨g, rfl⟩ := hlife.exists_group hy
    have hle := hlife.le_firedUntil hpos g rfl y hy (by rw [hfy]; rfl)
    have hwait : g.firedUntil ≤ x.input.ts := by
      refine groupInput_fire_le fp caps.withDefaults r g x.input ?_
      have hfire : x.fire = (groupApply fp caps.withDefaults r (some g) x.input).fire :=
        congrArg GroupStep.fire hx
      rw [hfx] at hfire
      exact hfire ▸ rfl
    exact hle.trans hwait

/-- An event, a second one within the window, a partial and an event after a sweep. -/
def burstCalls : List CorrCall :=
  [.event ⟨[7], userField, 0⟩ none, .event ⟨[7], userField, 30⟩ none,
    .contribution ⟨some .count, some (cstr "burst"), [], [some (cstr "a")], 60, none, 0, 2, 0⟩
      userField,
    .event ⟨[7], userField, 200⟩ none]

theorem refire_suppressed_sample :
    firesOf .bare 0 [cstr "a"] (corrEngineNew [burstRule] capsZero) burstCalls =
        [(0, ⟨1, false⟩), (60, ⟨4, true⟩), (200, ⟨1, false⟩)] ∧
      (firesOf .bare 0 [cstr "a"] (corrEngineNew [burstRule] capsZero)
        burstCalls).Pairwise
          fun a b : ℚ × CorrFired => a.1 + (burstRule.timespanS : ℚ) ≤ b.1 :=
  ⟨by decide +kernel, refire_suppressed (by decide)
    (by norm_num [TimeOrdered, burstCalls, CorrCall.ts]) (by decide +kernel)⟩

end LibSigma
