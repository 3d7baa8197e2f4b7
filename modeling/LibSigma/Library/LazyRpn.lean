import LibSigma.Library.Rpn

/-!
# What a lazy machine looks at

A machine that reads reverse Polish notation lazily puts an atom, or the negation of one, on its
stack without looking at it.  The operator that takes the cell looks at it, and `and` and `or` look
at their second operand only when the first does not decide.

This is about the order of effects, not about values.  Looking at an atom may be expensive or
observable, and which atoms are looked at depends on the values of those before.  The functions
below compute the list for given values.  They run along with the symbolic machine, whose cells are
expressions: a cell that is an operator's result has been looked at, and one that is an atom under
any number of negations has not (`BoolExpr.deferred`).

An atom is looked at twice if it stands twice in a string; a program with a memo sees to that by
itself.  A string whose run fails has been looked at up to the token that fails.

* `BoolExpr.deferred`: the atom that stands unread behind a cell.
* `tokAtoms`, `runAtoms`: the atoms a token, or a token string, makes the machine look at, in order.
  A malformed string counts up to the token that fails.
* `forall_runAtoms`: they are atoms that the machine accepted.
-/

namespace LibSigma.Library

variable {α : Type}

/-- The atom behind a cell that has not been looked at; an operator's result has been. -/
def BoolExpr.deferred : BoolExpr α → List α
  | .arg a => [a]
  | .not e => e.deferred
  | .and _ _ => []
  | .or _ _ => []

/-- The atoms that a token makes the machine look at. -/
def tokAtoms (v : α → Bool) : RpnTok α → List (BoolExpr α) → List α
  | .and, f :: e :: _ => e.deferred ++ if e.eval v then f.deferred else []
  | .or, f :: e :: _ => e.deferred ++ if e.eval v then [] else f.deferred
  | _, _ => []

/-- The atoms that a token string and the final look at the result make the machine look at. -/
def runAtoms (bound : ℕ) (ok : α → Bool) (v : α → Bool) :
    List (RpnTok α) → List (BoolExpr α) → List α
  | [], [e] => e.deferred
  | [], _ => []
  | tok :: toks, s =>
    tokAtoms v tok s ++
      match rpnStep bound ok tok s with
      | none => []
      | some s => runAtoms bound ok v toks s

theorem BoolExpr.mem_args_of_mem_deferred {e : BoolExpr α} {a : α} (h : a ∈ e.deferred) :
    a ∈ e.args := by
  induction e with
  | arg b => exact h
  | not e ih => exact ih h
  | and e f => exact absurd h List.not_mem_nil
  | or e f => exact absurd h List.not_mem_nil

section Accepted

variable {bound : ℕ} {ok v : α → Bool}

/-- An operator of two expressions has their atoms. -/
theorem forall_args_binary {e f g : BoolExpr α} {s : List (BoolExpr α)}
    (hargs : g.args = e.args ++ f.args) (h : ∀ x ∈ f :: e :: s, ∀ a ∈ x.args, ok a = true) :
    ∀ x ∈ g :: s, ∀ a ∈ x.args, ok a = true := by
  intro x hx b hb
  rcases List.mem_cons.mp hx with rfl | hx
  · rw [hargs] at hb
    rcases List.mem_append.mp hb with hb | hb
    · exact h e (by simp) b hb
    · exact h f (by simp) b hb
  · exact h x (by simp [hx]) b hb

/-- The atoms on the stack stay accepted ones. -/
theorem forall_args_rpnStep {tok : RpnTok α} {s s' : List (BoolExpr α)}
    (h : ∀ e ∈ s, ∀ a ∈ e.args, ok a = true) (hstep : rpnStep bound ok tok s = some s') :
    ∀ e ∈ s', ∀ a ∈ e.args, ok a = true := by
  unfold rpnStep at hstep
  split at hstep
  · rename_i a
    split at hstep
    · rename_i hok
      obtain rfl := Option.some.inj hstep
      rintro e he b hb
      rcases List.mem_cons.mp he with rfl | he
      · rw [List.mem_singleton.mp hb]
        exact hok.2
      · exact h e he b hb
    · exact absurd hstep (by simp)
  · obtain rfl := Option.some.inj hstep
    rintro e he b hb
    rcases List.mem_cons.mp he with rfl | he
    · exact h _ List.mem_cons_self b hb
    · exact h e (List.mem_cons_of_mem _ he) b hb
  · obtain rfl := Option.some.inj hstep
    exact forall_args_binary rfl h
  · obtain rfl := Option.some.inj hstep
    exact forall_args_binary rfl h
  · exact absurd hstep (by simp)

theorem mem_args_of_mem_tokAtoms {tok : RpnTok α} {s : List (BoolExpr α)} {a : α}
    (h : a ∈ tokAtoms v tok s) : ∃ e ∈ s, a ∈ e.args := by
  unfold tokAtoms at h
  split at h
  · rename_i f e s
    rcases List.mem_append.mp h with he | hf
    · exact ⟨e, by simp, e.mem_args_of_mem_deferred he⟩
    · split at hf
      · exact ⟨f, by simp, f.mem_args_of_mem_deferred hf⟩
      · exact absurd hf List.not_mem_nil
  · rename_i f e s
    rcases List.mem_append.mp h with he | hf
    · exact ⟨e, by simp, e.mem_args_of_mem_deferred he⟩
    · split at hf
      · exact absurd hf List.not_mem_nil
      · exact ⟨f, by simp, f.mem_args_of_mem_deferred hf⟩
  · exact absurd h List.not_mem_nil

/-- The machine looks at accepted atoms only. -/
theorem forall_runAtoms {toks : List (RpnTok α)} {s : List (BoolExpr α)}
    (h : ∀ e ∈ s, ∀ a ∈ e.args, ok a = true) {a : α} (ha : a ∈ runAtoms bound ok v toks s) :
    ok a = true := by
  induction toks generalizing s with
  | nil =>
    unfold runAtoms at ha
    split at ha
    · exact h _ List.mem_cons_self a (BoolExpr.mem_args_of_mem_deferred ha)
    · exact absurd ha List.not_mem_nil
    · rename_i hcons
      exact absurd hcons (by simp)
  | cons tok toks ih =>
    rw [runAtoms] at ha
    rcases List.mem_append.mp ha with htok | hrest
    · obtain ⟨e, he, hmem⟩ := mem_args_of_mem_tokAtoms htok
      exact h e he a hmem
    · split at hrest
      · exact absurd hrest List.not_mem_nil
      · rename_i s' hstep
        exact ih (forall_args_rpnStep h hstep) hrest

end Accepted

end LibSigma.Library
