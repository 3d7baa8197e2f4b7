import LibSigma.Library.Checked

/-!
# What every run that returns ensures

The partial counterpart of `Runs`: nothing is said of runs that meet a fault, so that no read has to
be shown in range, and a computation is treated part by part.

## Why partial

That a computation meets no fault is proved once.  What it keeps is asked often, by different users
and for different relations.  If each of these proofs had to show again that all reads are in range,
it would need the invariants of that proof, and these have nothing to do with what is kept.  So
`Keeps` speaks of the runs that return, its rules have no side conditions on reads, and `Runs.and`
joins the two kinds of statement at the end.

## Kept relations

A frame is an invariant with a preorder.  A computation keeps it when every run that returns does.
Along `bind` the values of the parts do not matter, unlike for `Yields`, so the traversal of a
program is one line per construct.  Frames combine by conjunction.  The most common ones leave some
view of the state unchanged, and `sameFrame` makes a frame of any view.

* `Ensures m s Q`: if `m` returns from `s`, its result and final state satisfy `Q`.
* `Keeps F m`: every run from the frame that returns stays in the frame and keeps it.  Along `bind`
  the results of the parts do not matter.
* `Frame.and`, `Keeps.and`: keeping two frames at once.
* `sameFrame view`: the frame of what leaves a view of the state as it is.
* `Appends trace m l`: every run that returns appends `l` to a trace, whatever it reads.
* `Runs.and`: a run that returns also satisfies what it ensures.
-/

namespace LibSigma.Library

universe u

variable {σ ε α β τ : Type u}

/-- If `m` returns from `s`, its result and final state satisfy `Q`. -/
def Ensures (m : StateT σ (Except ε) α) (s : σ) (Q : α → σ → Prop) : Prop :=
  ∀ a t, m.run s = .ok (a, t) → Q a t

namespace Ensures

variable {m : StateT σ (Except ε) α} {f : α → StateT σ (Except ε) β} {s : σ} {Q Q' : α → σ → Prop}
  {P : β → σ → Prop}

theorem pure {a : α} (h : Q a s) : Ensures (Pure.pure a : StateT σ (Except ε) α) s Q := by
  intro b t hrun
  obtain ⟨rfl, rfl⟩ := Prod.mk.inj (Except.ok.inj hrun)
  exact h

/-- A lifted computation does not touch the state. -/
theorem lift {x : Except ε α} (h : ∀ a, x = .ok a → Q a s) :
    Ensures (liftM x : StateT σ (Except ε) α) s Q := by
  intro b t hrun
  cases x with
  | ok c =>
    obtain ⟨rfl, rfl⟩ := Prod.mk.inj (Except.ok.inj hrun)
    exact h _ rfl
  | error e => exact nomatch hrun

theorem throw {e : ε} : Ensures (throw e : StateT σ (Except ε) α) s Q :=
  fun _ _ hrun => nomatch hrun

theorem mono (hm : Ensures m s Q) (h : ∀ a t, Q a t → Q' a t) : Ensures m s Q' :=
  fun a t hrun => h a t (hm a t hrun)

theorem and (hm : Ensures m s Q) (hm' : Ensures m s Q') :
    Ensures m s fun a t => Q a t ∧ Q' a t :=
  fun a t hrun => ⟨hm a t hrun, hm' a t hrun⟩

theorem bind (hm : Ensures m s Q) (hf : ∀ a t, Q a t → Ensures (f a) t P) :
    Ensures (m >>= f) s P := by
  intro b u hrun
  rw [StateT.run_bind] at hrun
  cases hrunm : m.run s with
  | ok p =>
    rw [hrunm] at hrun
    exact hf p.1 p.2 (hm p.1 p.2 hrunm) b u hrun
  | error e =>
    rw [hrunm] at hrun
    exact nomatch hrun

/-- A first part of which nothing is needed. -/
theorem any_bind (hf : ∀ a t, Ensures (f a) t P) : Ensures (m >>= f) s P :=
  bind (Q := fun _ _ => True) (fun _ _ _ => trivial) fun a t _ => hf a t

theorem get_bind {f : σ → StateT σ (Except ε) β} (h : Ensures (f s) s P) :
    Ensures (MonadState.get >>= f) s P :=
  fun b u hrun => h b u hrun

theorem modify {g : σ → σ} {Q : PUnit → σ → Prop} (h : Q ⟨⟩ (g s)) :
    Ensures (modifyState g : StateT σ (Except ε) PUnit) s Q := by
  intro b t hrun
  obtain ⟨-, rfl⟩ := Prod.mk.inj (Except.ok.inj hrun)
  exact h

theorem modify_bind {g : σ → σ} {f : PUnit → StateT σ (Except ε) β} (h : Ensures (f ⟨⟩) (g s) P) :
    Ensures (modifyState g >>= f) s P :=
  fun b u hrun => h b u hrun

/-- A specification is ensured. -/
theorem of_runs (h : Runs m s Q) : Ensures m s Q :=
  fun _ _ hrun => h.result hrun

/-- The rule for a counted loop. -/
theorem forFrom {body : ℕ → StateT σ (Except ε) PUnit} (I : ℕ → σ → Prop) {first k : ℕ}
    (h₀ : I first s)
    (hstep : ∀ i t, first ≤ i → i < first + k → I i t → Ensures (body i) t fun _ u => I (i + 1) u) :
    Ensures (Library.forFrom body first k) s fun _ t => I (first + k) t := by
  induction k generalizing first s with
  | zero => exact pure h₀
  | succ k ih =>
    refine (hstep first s (Nat.le_refl _) (by omega) h₀).bind fun _ t ht => ?_
    have hrest := ih ht fun i u hi hlt => hstep i u (by omega) (by omega)
    exact hrest.mono fun _ u hu => by rwa [show first + 1 + k = first + (k + 1) by omega] at hu

theorem forRange {n : ℕ} {body : ℕ → StateT σ (Except ε) PUnit} (I : ℕ → σ → Prop) (h₀ : I 0 s)
    (hstep : ∀ i t, i < n → I i t → Ensures (body i) t fun _ u => I (i + 1) u) :
    Ensures (Library.forRange n body) s fun _ t => I n t := by
  have h := forFrom (k := n) I h₀ fun i t _ hi => hstep i t (by omega)
  rwa [Nat.zero_add] at h

end Ensures

/-- A run that returns also satisfies what it ensures. -/
theorem Runs.and {m : StateT σ (Except ε) α} {s : σ} {Q P : α → σ → Prop} (h : Runs m s Q)
    (hm : Ensures m s P) : Runs m s fun a t => Q a t ∧ P a t := by
  obtain ⟨a, t, hrun, hq⟩ := h
  exact ⟨a, t, hrun, hq, hm a t hrun⟩

/-! ## Keeping a frame -/

/-- Every run from the frame that returns stays in the frame and keeps it. -/
def Keeps (F : Frame σ) (m : StateT σ (Except ε) α) : Prop :=
  ∀ s, F.inv s → Ensures m s fun _ t => F.inv t ∧ F.keeps s t

namespace Keeps

variable {F : Frame σ} {m : StateT σ (Except ε) α} {f : α → StateT σ (Except ε) β}

theorem pure (a : α) : Keeps F (Pure.pure a : StateT σ (Except ε) α) :=
  fun s hs => Ensures.pure ⟨hs, F.refl s⟩

theorem lift (x : Except ε α) : Keeps F (liftM x : StateT σ (Except ε) α) :=
  fun s hs => Ensures.lift fun _ _ => ⟨hs, F.refl s⟩

theorem throw (e : ε) : Keeps F (throw e : StateT σ (Except ε) α) :=
  fun _ _ => Ensures.throw

theorem get : Keeps F (MonadState.get : StateT σ (Except ε) σ) := by
  intro s hs a t hrun
  obtain ⟨-, rfl⟩ := Prod.mk.inj (Except.ok.inj hrun)
  exact ⟨hs, F.refl s⟩

theorem bind (hm : Keeps F m) (hf : ∀ a, Keeps F (f a)) : Keeps F (m >>= f) := by
  intro s hs
  refine (hm s hs).bind fun a t ht => ?_
  exact (hf a t ht.1).mono fun _ u hu => ⟨hu.1, F.trans s t u ht.2 hu.2⟩

theorem modify {g : σ → σ} (h : ∀ s, F.inv s → F.inv (g s) ∧ F.keeps s (g s)) :
    Keeps F (modifyState g : StateT σ (Except ε) PUnit) :=
  fun s hs => Ensures.modify (h s hs)

theorem forFrom {body : ℕ → StateT σ (Except ε) PUnit} (h : ∀ i, Keeps F (body i)) (first k : ℕ) :
    Keeps F (Library.forFrom body first k) := by
  induction k generalizing first with
  | zero => exact pure _
  | succ k ih => exact (h first).bind fun _ => ih _

theorem forRange {body : ℕ → StateT σ (Except ε) PUnit} (h : ∀ i, Keeps F (body i)) (n : ℕ) :
    Keeps F (Library.forRange n body) :=
  forFrom h 0 n

end Keeps

/-- Both frames. -/
def Frame.and (F G : Frame σ) : Frame σ where
  inv s := F.inv s ∧ G.inv s
  keeps s t := F.keeps s t ∧ G.keeps s t
  refl s := ⟨F.refl s, G.refl s⟩
  trans s t u hst htu := ⟨F.trans s t u hst.1 htu.1, G.trans s t u hst.2 htu.2⟩

theorem Keeps.and {F G : Frame σ} {m : StateT σ (Except ε) α} (hF : Keeps F m) (hG : Keeps G m) :
    Keeps (F.and G) m := by
  rintro s ⟨hs, hs'⟩
  refine ((hF s hs).and (hG s hs')).mono ?_
  rintro _ t ⟨⟨ht, hst⟩, ht', hst'⟩
  exact ⟨⟨ht, ht'⟩, hst, hst'⟩

/-- What leaves a view of the state as it is. -/
def sameFrame (view : σ → τ) : Frame σ where
  inv _ := True
  keeps s t := view t = view s
  refl _ := rfl
  trans _ _ _ hst htu := htu.trans hst

/-! ## Appending to a trace -/

/-- Every run that returns appends `l` to the trace. -/
def Appends (trace : σ → List τ) (m : StateT σ (Except ε) α) (l : List τ) : Prop :=
  ∀ s, Ensures m s fun _ t => trace t = trace s ++ l

namespace Appends

variable {trace : σ → List τ} {m : StateT σ (Except ε) α} {f : α → StateT σ (Except ε) β}
  {l l' : List τ}

theorem pure (a : α) : Appends trace (Pure.pure a : StateT σ (Except ε) α) [] :=
  fun _ => Ensures.pure (List.append_nil _).symm

theorem lift (x : Except ε α) : Appends trace (liftM x : StateT σ (Except ε) α) [] :=
  fun _ => Ensures.lift fun _ _ => (List.append_nil _).symm

/-- What leaves the trace as it is appends nothing. -/
theorem of_keeps (h : Keeps (sameFrame trace) m) : Appends trace m [] :=
  fun s => (h s trivial).mono fun _ _ hsame => hsame.2.trans (List.append_nil _).symm

theorem get : Appends trace (MonadState.get : StateT σ (Except ε) σ) [] := by
  intro s a t hrun
  obtain ⟨-, rfl⟩ := Prod.mk.inj (Except.ok.inj hrun)
  exact (List.append_nil _).symm

theorem bind (hm : Appends trace m l) (hf : ∀ a, Appends trace (f a) l') :
    Appends trace (m >>= f) (l ++ l') := by
  intro s
  refine (hm s).bind fun a t ht => ?_
  exact (hf a t).mono fun _ u hu => by rw [hu, ht, List.append_assoc]

/-- A first part that appends nothing. -/
theorem skip_bind (hm : Appends trace m []) (hf : ∀ a, Appends trace (f a) l) :
    Appends trace (m >>= f) l :=
  bind hm hf

/-- A second part that appends nothing. -/
theorem bind_skip (hm : Appends trace m l) (hf : ∀ a, Appends trace (f a) []) :
    Appends trace (m >>= f) l := by
  have h := bind hm hf
  rwa [List.append_nil] at h

theorem modify {g : σ → σ} (h : ∀ s, trace (g s) = trace s ++ l) :
    Appends trace (modifyState g : StateT σ (Except ε) PUnit) l :=
  fun s => Ensures.modify (h s)

theorem forFrom {body : ℕ → StateT σ (Except ε) PUnit} {l : ℕ → List τ}
    (h : ∀ i, Appends trace (body i) (l i)) (first k : ℕ) :
    Appends trace (Library.forFrom body first k) ((List.range' first k).flatMap l) := by
  induction k generalizing first with
  | zero => exact pure _
  | succ k ih =>
    rw [List.range'_succ, List.flatMap_cons]
    exact (h first).bind fun _ => ih _

theorem forRange {body : ℕ → StateT σ (Except ε) PUnit} {l : ℕ → List τ}
    (h : ∀ i, Appends trace (body i) (l i)) (n : ℕ) :
    Appends trace (Library.forRange n body) ((List.range n).flatMap l) := by
  rw [List.range_eq_range']
  exact forFrom h 0 n

end Appends

end LibSigma.Library
