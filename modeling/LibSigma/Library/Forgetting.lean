import Mathlib.Algebra.Order.Field.Rat
import Mathlib.Data.List.Basic
import Mathlib.Data.List.Induction
import Mathlib.Data.List.Pairwise

/-!
# Machines that forget

A machine takes inputs in the order of their times and answers each.  What it holds stops to matter
`span` after the latest of its inputs.  Then nobody can tell a machine that was started anew in the
meantime, as often as one likes, from one that never was.

Inputs that are not `active` get no answer, and leave the machine as good as it was.

## What has to be known

Two states may differ and yet be the same for every input from some time on: `Agree t` is that
relation, with the time as a parameter, and it only gets weaker for later times.  An active input
keeps it and is answered alike on both sides; an inactive one keeps it although one side may not
have seen it.  And a state in which nothing is later than `T` is in that relation to the new one for
every time more than `span` after `T`; that is the forgetting.  `Forgetful` collects this, as facts
about one step, and the theorems are about runs.

## What follows

A program that throws away idle machines, and starts them anew when an input comes, may do so at any
time that is late enough.  It may also do it early where no active input follows within the span.
What is compared with the machine that was never thrown away is the answer to each active input.

* `Forgetful`: what has to be known of one step.
* `Forgetful.agree`: **a machine started after everything before it was forgotten agrees with the
  one that has run all along on the active inputs.**
-/

namespace LibSigma.Library

variable {σ ι ω : Type}

/-- The state after some inputs. -/
def runFrom (step : σ → ι → σ × ω) (s : σ) (is : List ι) : σ := is.foldl (fun s i => (step s i).1) s

@[simp] theorem runFrom_concat (step : σ → ι → σ × ω) (s : σ) (is : List ι) (i : ι) :
    runFrom step s (is ++ [i]) = (step (runFrom step s is) i).1 := List.foldl_append

/-- The answers to some inputs. -/
def answers (step : σ → ι → σ × ω) : σ → List ι → List ω
  | _, [] => []
  | s, i :: is => (step s i).2 :: answers step (step s i).1 is

theorem answers_concat (step : σ → ι → σ × ω) (s : σ) (is : List ι) (i : ι) :
    answers step s (is ++ [i]) = answers step s is ++ [(step (runFrom step s is) i).2] := by
  induction is generalizing s with
  | nil => rfl
  | cons j is ih => exact congrArg ((step s j).2 :: ·) (ih _)

/-- A machine that forgets after `span`: `Agree t` relates states that no input from `t` on can tell
apart, and in a state with `Held T` nothing is later than `T`. -/
structure Forgetful (time : ι → ℚ) (span : ℚ) (step : σ → ι → σ × ω) (new : σ) (Ok : ι → Prop)
    (active : ι → Bool) (Agree : ℚ → σ → σ → Prop) (Held : ℚ → σ → Prop) : Prop where
  mono : ∀ {t t' s s'}, t ≤ t' → Agree t s s' → Agree t' s s'
  held_new : ∀ T, Held T new
  held_step : ∀ {T s i}, Ok i → Held T s → T ≤ time i → Held (time i) (step s i).1
  stale : ∀ {T t s}, Held T s → T < t - span → Agree t new s
  agree_new : ∀ t, Agree t new new
  active_step : ∀ {T T' s s' i}, Ok i → active i = true → Held T s → Held T' s' → T ≤ time i →
    T' ≤ time i → Agree (time i) s s' →
    (step s i).2 = (step s' i).2 ∧ Agree (time i) (step s i).1 (step s' i).1
  inert_step : ∀ {T s s' i}, Ok i → active i = false → Held T s → T ≤ time i →
    Agree (time i) s s' → Agree (time i) (step s i).1 s'

namespace Forgetful

variable {time : ι → ℚ} {span : ℚ} {step : σ → ι → σ × ω} {new : σ} {Ok : ι → Prop}
  {active : ι → Bool} {Agree : ℚ → σ → σ → Prop} {Held : ℚ → σ → Prop}

/-- What a run holds is not later than its last input. -/
theorem held (h : Forgetful time span step new Ok active Agree Held) {is : List ι} {i : ι}
    (hok : ∀ j ∈ is ++ [i], Ok j) (hsorted : ((is ++ [i]).map time).Pairwise (· ≤ ·)) :
    Held (time i) (runFrom step new (is ++ [i])) := by
  induction is using List.reverseRecOn generalizing i with
  | nil => exact h.held_step (hok i List.mem_cons_self) (h.held_new (time i)) le_rfl
  | append_singleton is j ih =>
    have hi : i ∈ is ++ [j] ++ [i] := List.mem_append_right _ List.mem_cons_self
    rw [List.map_append, List.pairwise_append] at hsorted
    have hle : time j ≤ time i := hsorted.2.2 _
      (List.mem_map_of_mem (List.mem_append_right _ List.mem_cons_self)) _ List.mem_cons_self
    rw [runFrom_concat]
    exact h.held_step (hok i hi) (ih (fun k hk => hok k (List.mem_append_left _ hk)) hsorted.1) hle

/-- Before an input, what a run holds is not later than it. -/
theorem exists_held (h : Forgetful time span step new Ok active Agree Held) {is : List ι}
    (hok : ∀ j ∈ is, Ok j) (hsorted : (is.map time).Pairwise (· ≤ ·)) {t : ℚ}
    (ht : ∀ j ∈ is, time j ≤ t) : ∃ T ≤ t, Held T (runFrom step new is) := by
  rcases List.eq_nil_or_concat is with rfl | ⟨js, j, rfl⟩
  · exact ⟨t, le_rfl, h.held_new t⟩
  · rw [List.concat_eq_append] at hok hsorted ht ⊢
    exact ⟨time j, ht j (List.mem_append_right _ List.mem_cons_self), h.held hok hsorted⟩

/-- **A machine started after everything before it was forgotten** agrees with the one that has run
all along on the active inputs. -/
theorem agree (h : Forgetful time span step new Ok active Agree Held) {is₁ is₂ : List ι}
    (hok : ∀ i ∈ is₁ ++ is₂, Ok i) (hsorted : ((is₁ ++ is₂).map time).Pairwise (· ≤ ·)) {t : ℚ}
    (hpast : ∀ i ∈ is₁, time i < t - span) (hgone : ∀ i ∈ is₁, ∀ j ∈ is₂, time i < time j - span)
    (hle : ∀ j ∈ is₂, time j ≤ t) :
    Agree t (runFrom step new is₂) (runFrom step new ((is₁ ++ is₂).filter active)) := by
  induction is₂ using List.reverseRecOn generalizing t with
  | nil =>
    rw [List.append_nil] at hok hsorted ⊢
    have hsub := hsorted.sublist ((List.filter_sublist (p := active) (l := is₁)).map time)
    have hin : ∀ i ∈ is₁.filter active, i ∈ is₁ := fun i hi => List.mem_of_mem_filter hi
    rcases List.eq_nil_or_concat (is₁.filter active) with hnil | ⟨js, j, hconcat⟩
    · rw [hnil]
      exact h.agree_new t
    · rw [List.concat_eq_append] at hconcat
      rw [hconcat] at hsub hin ⊢
      have hj : j ∈ js ++ [j] := List.mem_append_right _ List.mem_cons_self
      exact h.stale (h.held (fun i hi => hok i (hin i hi)) hsub) (hpast j (hin j hj))
  | append_singleton is₂ i ih =>
    rw [← List.append_assoc] at hok hsorted ⊢
    have hi : i ∈ is₁ ++ is₂ ++ [i] := List.mem_append_right _ List.mem_cons_self
    have hi₂ : i ∈ is₂ ++ [i] := List.mem_append_right _ List.mem_cons_self
    have hok' : ∀ j ∈ is₁ ++ is₂, Ok j := fun j hj => hok j (List.mem_append_left _ hj)
    rw [List.map_append, List.pairwise_append] at hsorted
    have hbefore : ∀ j ∈ is₁ ++ is₂, time j ≤ time i := fun j hj =>
      hsorted.2.2 _ (List.mem_map_of_mem hj) _ List.mem_cons_self
    have hagree := ih hok' hsorted.1 (fun j hj => hgone j hj i hi₂)
      (fun j hj k hk => hgone j hj k (List.mem_append_left _ hk))
      fun j hj => hbefore j (List.mem_append_right _ hj)
    obtain ⟨T, hT, hheld⟩ := h.exists_held (fun j hj => hok' j (List.mem_append_right _ hj))
      ((List.map_append .. ▸ hsorted.1).sublist (List.sublist_append_right _ _))
      fun j hj => hbefore j (List.mem_append_right _ hj)
    rw [runFrom_concat, List.filter_append]
    refine h.mono (hle i hi₂) ?_
    by_cases hactive : active i = true
    · -- the input reaches both machines
      obtain ⟨T', hT', hheld'⟩ := h.exists_held
        (fun j hj => hok' j (List.mem_of_mem_filter hj))
        (hsorted.1.sublist (List.filter_sublist.map time))
        fun j hj => hbefore j (List.mem_of_mem_filter hj)
      rw [List.filter_cons_of_pos hactive, List.filter_nil, runFrom_concat]
      exact (h.active_step (hok i hi) hactive hheld hheld' hT hT' hagree).2
    · rw [List.filter_cons_of_neg hactive, List.filter_nil, List.append_nil]
      exact h.inert_step (hok i hi) (eq_false_of_ne_true hactive) hheld hT hagree

/-- **Its answer to an active input** is that of the machine that has run all along. -/
theorem answer (h : Forgetful time span step new Ok active Agree Held) {is₁ is₂ : List ι} {i : ι}
    (hok : ∀ j ∈ is₁ ++ is₂ ++ [i], Ok j)
    (hsorted : ((is₁ ++ is₂ ++ [i]).map time).Pairwise (· ≤ ·))
    (hgone : ∀ j ∈ is₁, ∀ k ∈ is₂ ++ [i], time j < time k - span) (hactive : active i = true) :
    (step (runFrom step new is₂) i).2 =
      (step (runFrom step new ((is₁ ++ is₂).filter active)) i).2 := by
  have hi₂ : i ∈ is₂ ++ [i] := List.mem_append_right _ List.mem_cons_self
  have hok' : ∀ j ∈ is₁ ++ is₂, Ok j := fun j hj => hok j (List.mem_append_left _ hj)
  rw [List.map_append, List.pairwise_append] at hsorted
  have hbefore : ∀ j ∈ is₁ ++ is₂, time j ≤ time i := fun j hj =>
    hsorted.2.2 _ (List.mem_map_of_mem hj) _ List.mem_cons_self
  have hagree := h.agree hok' hsorted.1 (fun j hj => hgone j hj i hi₂)
    (fun j hj k hk => hgone j hj k (List.mem_append_left _ hk))
    fun j hj => hbefore j (List.mem_append_right _ hj)
  obtain ⟨T, hT, hheld⟩ := h.exists_held (fun j hj => hok' j (List.mem_append_right _ hj))
    ((List.map_append .. ▸ hsorted.1).sublist (List.sublist_append_right _ _))
    fun j hj => hbefore j (List.mem_append_right _ hj)
  obtain ⟨T', hT', hheld'⟩ := h.exists_held (fun j hj => hok' j (List.mem_of_mem_filter hj))
    (hsorted.1.sublist (List.filter_sublist.map time))
    fun j hj => hbefore j (List.mem_of_mem_filter hj)
  exact (h.active_step (hok i (List.mem_append_right _ List.mem_cons_self)) hactive hheld hheld' hT
    hT' hagree).1

end Forgetful

end LibSigma.Library
