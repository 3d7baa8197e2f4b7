import LibSigma.Library.Checked

/-!
# What a computation adds to a trace

A state that carries a log tells afterwards what the computation did.  `trace` reads the log off a
state, oldest entry first.

`Emits` gives the entries as a list, in their order, and not as a set of things that happened.  With
a list, the trace of a sequence is the concatenation of the traces of its parts.  With a set, one
would have to say apart what happened twice and what happened first.

What the second part of a `bind` appends depends on what the first part returned.  For code that
reads this value is known, by `Yields` on the same frame, so the rule takes a `Yields` and two
`Emits`.  Nothing is said of runs that meet a fault; that there are none is another statement, made
elsewhere and not repeated here.

* `Emits F trace m l`: from every state of the frame, a run of `m` that returns appends exactly `l`.
* `Emits.bind`: what the second part appends may depend on what the first returns, which `Yields`
  supplies.
-/

namespace LibSigma.Library

universe u

variable {σ ε α β τ : Type u}

/-- Every run from a state of the frame appends `l` to the trace. -/
def Emits (F : Frame σ) (trace : σ → List τ) (m : StateT σ (Except ε) α) (l : List τ) : Prop :=
  ∀ s, F.inv s → ∀ a t, m.run s = .ok (a, t) → trace t = trace s ++ l

namespace Emits

variable {F : Frame σ} {trace : σ → List τ} {m : StateT σ (Except ε) α}
  {f : α → StateT σ (Except ε) β} {a : α} {l l' : List τ}

theorem pure (a : α) : Emits F trace (Pure.pure a : StateT σ (Except ε) α) [] := by
  rintro s - _ _ hrun
  obtain ⟨-, rfl⟩ := Prod.mk.inj (Except.ok.inj hrun)
  exact (List.append_nil _).symm

/-- A lifted computation does not touch the state. -/
theorem lift (x : Except ε α) : Emits F trace (liftM x : StateT σ (Except ε) α) [] := by
  rintro s - b t hrun
  cases x with
  | ok c =>
    obtain ⟨-, rfl⟩ := Prod.mk.inj (Except.ok.inj hrun)
    exact (List.append_nil _).symm
  | error e => exact nomatch hrun

theorem bind (hy : Yields F m a) (hm : Emits F trace m l) (hf : Emits F trace (f a) l') :
    Emits F trace (m >>= f) (l ++ l') := by
  intro s hs b u hrun
  obtain ⟨_, t, hrunm, rfl, ht, -⟩ := hy s hs
  rw [StateT.run_bind, hrunm] at hrun
  rw [hf t ht b u hrun, hm s hs _ t hrunm, List.append_assoc]

/-- Reading the state first. -/
theorem get_bind {f : σ → StateT σ (Except ε) β} (hf : ∀ e, F.inv e → Emits F trace (f e) l) :
    Emits F trace (MonadState.get >>= f) l := by
  intro s hs b t hrun
  rw [StateT.run_bind] at hrun
  exact hf s hs s hs b t hrun

theorem modify {g : σ → σ} (h : ∀ s, trace (g s) = trace s ++ l) :
    Emits F trace (modifyState g : StateT σ (Except ε) PUnit) l := by
  rintro s - _ _ hrun
  obtain ⟨-, rfl⟩ := Prod.mk.inj (Except.ok.inj hrun)
  exact h s

/-- A first part that appends nothing. -/
theorem skip_bind (hy : Yields F m a) (hm : Emits F trace m []) (hf : Emits F trace (f a) l') :
    Emits F trace (m >>= f) l' :=
  bind hy hm hf

/-- A second part that appends nothing. -/
theorem bind_skip (hy : Yields F m a) (hm : Emits F trace m l) (hf : Emits F trace (f a) []) :
    Emits F trace (m >>= f) l := by
  have h := bind hy hm hf
  rwa [List.append_nil] at h

end Emits

end LibSigma.Library
