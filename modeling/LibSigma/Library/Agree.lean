import LibSigma.Library.Checked

/-!
# Two computations that differ in their results only

An optimisation that skips work leaves the effects of a computation as they are and changes at most
a part of its result, such as a counter of the work done.

Equality of the two computations is too much to ask, and equality of what they return up to a
relation is too little, since the optimised one must meet the same faults.  `Agree` is in between:
from a given state both meet the same fault, or both return and end in one state.  The relation on
results is a parameter, and along `bind` it may change from one to another.  That is what makes it
work for a loop, where the results of one round are what the next starts from.

The state is fixed in `Agree`, not quantified, so that facts about it can be used: the entries that
are skipped are known to be of no effect in this state, and not in every state.

* `Agree R m m' s`: from `s` both computations meet the same fault, or both return, in the same
  state and with results that `R` relates.
* `Agree.pure`, `Agree.bind`, `Agree.refl`: the rules.
* `Agree.of_runs`: a computation that does nothing to the state agrees with its result.
-/

namespace LibSigma.Library

universe u

variable {σ ε α α' β β' : Type u}

/-- The same fault, or the same state and related results. -/
def AgreeResult (R : α → α' → Prop) : Except ε (α × σ) → Except ε (α' × σ) → Prop
  | .ok (a, t), .ok (b, u) => t = u ∧ R a b
  | .error e, .error e' => e = e'
  | _, _ => False

/-- From `s` the two computations differ in their results only, and these are related. -/
def Agree (R : α → α' → Prop) (m : StateT σ (Except ε) α) (m' : StateT σ (Except ε) α') (s : σ) :
    Prop :=
  AgreeResult R (m.run s) (m'.run s)

namespace Agree

variable {R : α → α' → Prop} {S : β → β' → Prop} {m : StateT σ (Except ε) α}
  {m' : StateT σ (Except ε) α'} {s t : σ}

theorem pure {a : α} {b : α'} (h : R a b) :
    Agree R (Pure.pure a : StateT σ (Except ε) α) (Pure.pure b) s :=
  ⟨rfl, h⟩

theorem refl (m : StateT σ (Except ε) α) (s : σ) : Agree Eq m m s := by
  unfold Agree
  cases m.run s with
  | ok p => exact ⟨rfl, rfl⟩
  | error e => exact rfl

theorem bind {f : α → StateT σ (Except ε) β} {f' : α' → StateT σ (Except ε) β'}
    (hm : Agree R m m' s) (hf : ∀ a b t, R a b → Agree S (f a) (f' b) t) :
    Agree S (m >>= f) (m' >>= f') s := by
  unfold Agree at hm ⊢
  rw [StateT.run_bind, StateT.run_bind]
  match hrun : m.run s, hrun' : m'.run s with
  | .ok (a, t), .ok (b, u) =>
    rw [hrun, hrun'] at hm
    obtain ⟨rfl, hab⟩ := hm
    exact hf a b t hab
  | .error e, .error e' =>
    rw [hrun, hrun'] at hm
    exact hm
  | .ok (a, t), .error e => rw [hrun, hrun'] at hm; exact hm.elim
  | .error e, .ok (b, u) => rw [hrun, hrun'] at hm; exact hm.elim

/-- The same computation first. -/
theorem bind_same {m : StateT σ (Except ε) α} {f : α → StateT σ (Except ε) β}
    {f' : α → StateT σ (Except ε) β'} (hf : ∀ a t, Agree S (f a) (f' a) t) :
    Agree S (m >>= f) (m >>= f') s :=
  (refl m s).bind (by rintro a _ t rfl; exact hf a t)

theorem of_runs {b : α'} (h : Runs m s fun a t => t = s ∧ R a b) : Agree R m (Pure.pure b) s := by
  obtain ⟨a, _, hrun, rfl, hab⟩ := h
  unfold Agree
  rw [hrun]
  exact ⟨rfl, hab⟩

/-- The two computations return together. -/
theorem run_ok (h : Agree R m m' s) {a : α} (hrun : m.run s = .ok (a, t)) :
    ∃ b, m'.run s = .ok (b, t) ∧ R a b := by
  unfold Agree at h
  rw [hrun] at h
  match hrun' : m'.run s with
  | .ok (b, u) =>
    rw [hrun'] at h
    obtain ⟨rfl, hab⟩ := h
    exact ⟨b, rfl, hab⟩
  | .error e => rw [hrun'] at h; exact h.elim

end Agree

end LibSigma.Library
