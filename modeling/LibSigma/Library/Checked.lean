import Mathlib.Data.List.Basic

/-!
# Computations that may meet a fault

Code that reads tables through untrusted indices is modelled with every read checked: a read out of
range is a fault, and "no input makes the code read out of range" is the statement that the
computation never faults.  The computations are `StateT σ (Except ε)`.

## Two kinds of code

Code that changes the state in an interesting way is reasoned about with `Runs`, a total Hoare
triple: the computation returns, and what it returns and leaves satisfies the postcondition.  There
is one rule for each construct and one for each kind of loop.

Code that reads, and at most fills a cache on the way, does not deserve that.  It has a value, which
does not depend on the state, and it keeps whatever its callers rely on.  `Yields` says exactly
this, relative to a frame.  The rule for `bind` then has no state in it: the second part is about
the value of the first.  A function that is made of such parts is proved to yield its value by
following its text.

## Frames

A frame is an invariant and a preorder.  The preorder is there because a cache grows: what is kept
is not the state but a relation to the state before, and it must compose.  Both the invariant and
the preorder of a frame are chosen by the user; the library has no opinion on what a state is.

* `Runs m s Q`: from `s` the computation meets no fault and ends in a result and a state in `Q`.
  `Runs.pure`, `Runs.bind`, `Runs.mono` and the rules for reads and loops are the proof rules.
* `Frame σ`: an invariant together with a preorder that says what a read-only computation keeps.
* `Yields F m b`: a computation that keeps the frame and always returns `b`.  It composes along
  `bind`, so a function made of such computations needs no reasoning about states at all.
-/

namespace LibSigma.Library

universe u

variable {σ ε α β : Type u}

/-- Replace the state by its image under `g`. -/
def modifyState (g : σ → σ) : StateT σ (Except ε) PUnit := fun s => .ok (⟨⟩, g s)

/-- Entry `i` of a table; a fault when there is none. -/
def readAt (fault : ε) (xs : List α) (i : ℕ) : Except ε α :=
  match xs[i]? with
  | some a => .ok a
  | none => .error fault

theorem readAt_of_getElem? {fault : ε} {xs : List α} {i : ℕ} {a : α} (h : xs[i]? = some a) :
    readAt fault xs i = .ok a := by
  rw [readAt, h]

theorem readAt_of_lt {fault : ε} {xs : List α} {i : ℕ} (h : i < xs.length) :
    readAt fault xs i = .ok xs[i] :=
  readAt_of_getElem? (List.getElem?_eq_getElem h)

/-- A read that did not fault was in range. -/
theorem getElem?_of_readAt {fault : ε} {xs : List α} {i : ℕ} {a : α}
    (h : readAt fault xs i = .ok a) : xs[i]? = some a := by
  rw [readAt] at h
  split at h
  · rename_i b hb
    rw [hb, Except.ok.inj h]
  · exact absurd h (by simp)

/-- The loop `for (i = first; i < first + k; i++) body(i)`. -/
def forFrom (body : ℕ → StateT σ (Except ε) PUnit) : ℕ → ℕ → StateT σ (Except ε) PUnit
  | _, 0 => pure ⟨⟩
  | i, k + 1 => do body i; forFrom body (i + 1) k

/-- The loop `for (i = 0; i < n; i++) body(i)`. -/
def forRange (n : ℕ) (body : ℕ → StateT σ (Except ε) PUnit) : StateT σ (Except ε) PUnit :=
  forFrom body 0 n

/-- From `s`, the computation meets no fault, and its result and final state satisfy `Q`. -/
def Runs (m : StateT σ (Except ε) α) (s : σ) (Q : α → σ → Prop) : Prop :=
  ∃ a t, m.run s = .ok (a, t) ∧ Q a t

namespace Runs

variable {m : StateT σ (Except ε) α} {f : α → StateT σ (Except ε) β} {s t : σ}
  {Q : α → σ → Prop} {P : β → σ → Prop}

theorem pure {a : α} (h : Q a s) : Runs (Pure.pure a : StateT σ (Except ε) α) s Q :=
  ⟨a, s, rfl, h⟩

theorem bind (hm : Runs m s Q) (hf : ∀ a t, Q a t → Runs (f a) t P) : Runs (m >>= f) s P := by
  obtain ⟨a, t, hrun, hq⟩ := hm
  obtain ⟨b, u, hrun', hp⟩ := hf a t hq
  refine ⟨b, u, ?_, hp⟩
  rw [StateT.run_bind, hrun]
  exact hrun'

theorem mono {Q' : α → σ → Prop} (hm : Runs m s Q) (h : ∀ a t, Q a t → Q' a t) : Runs m s Q' := by
  obtain ⟨a, t, hrun, hq⟩ := hm
  exact ⟨a, t, hrun, h a t hq⟩

theorem get {Q : σ → σ → Prop} (h : Q s s) :
    Runs (MonadState.get : StateT σ (Except ε) σ) s Q :=
  ⟨s, s, rfl, h⟩

theorem set {Q : PUnit → σ → Prop} (h : Q ⟨⟩ t) :
    Runs (MonadStateOf.set t : StateT σ (Except ε) PUnit) s Q :=
  ⟨⟨⟩, t, rfl, h⟩

theorem modify {g : σ → σ} {Q : PUnit → σ → Prop} (h : Q ⟨⟩ (g s)) :
    Runs (modifyState g : StateT σ (Except ε) PUnit) s Q :=
  ⟨⟨⟩, g s, rfl, h⟩

/-- A lifted computation that returned. -/
theorem lift {x : Except ε α} {a : α} (hx : x = .ok a) (h : Q a s) :
    Runs (liftM x : StateT σ (Except ε) α) s Q := by
  subst hx
  exact ⟨a, s, rfl, h⟩

/-- Reading the state first. -/
theorem get_bind {f : σ → StateT σ (Except ε) β} (h : Runs (f s) s P) :
    Runs (MonadState.get >>= f) s P :=
  (Runs.get (Q := fun a t => a = s ∧ t = s) ⟨rfl, rfl⟩).bind (by rintro _ _ ⟨rfl, rfl⟩; exact h)

/-- Changing the state first. -/
theorem modify_bind {g : σ → σ} {f : PUnit → StateT σ (Except ε) β} (h : Runs (f ⟨⟩) (g s) P) :
    Runs (modifyState g >>= f) s P :=
  (Runs.modify (Q := fun _ t => t = g s) rfl).bind (by rintro _ _ rfl; exact h)

/-- A lifted computation that returned, first. -/
theorem lift_bind {x : Except ε α} {a : α} (hx : x = .ok a) (h : Runs (f a) s P) :
    Runs ((liftM x : StateT σ (Except ε) α) >>= f) s P :=
  (Runs.lift hx (Q := fun b t => b = a ∧ t = s) ⟨rfl, rfl⟩).bind
    (by rintro _ _ ⟨rfl, rfl⟩; exact h)

/-- The rule for a counted loop: an invariant indexed by the counter. -/
theorem forFrom {body : ℕ → StateT σ (Except ε) PUnit} (I : ℕ → σ → Prop) {first k : ℕ}
    (h₀ : I first s)
    (hstep : ∀ i t, first ≤ i → i < first + k → I i t → Runs (body i) t fun _ u => I (i + 1) u) :
    Runs (Library.forFrom body first k) s fun _ t => I (first + k) t := by
  induction k generalizing first s with
  | zero => exact Runs.pure h₀
  | succ k ih =>
    refine (hstep first s (Nat.le_refl _) (by omega) h₀).bind fun _ t ht => ?_
    have hrest := ih ht fun i u hi hlt => hstep i u (by omega) (by omega)
    exact hrest.mono fun _ u hu => by rwa [show first + 1 + k = first + (k + 1) by omega] at hu

theorem forRange {n : ℕ} {body : ℕ → StateT σ (Except ε) PUnit} (I : ℕ → σ → Prop)
    (h₀ : I 0 s) (hstep : ∀ i t, i < n → I i t → Runs (body i) t fun _ u => I (i + 1) u) :
    Runs (Library.forRange n body) s fun _ t => I n t := by
  have h := Runs.forFrom (k := n) I h₀ fun i t _ hi => hstep i t (by omega)
  rwa [Nat.zero_add] at h

/-- What a run returned is what its specification says. -/
theorem result {a : α} (hm : Runs m s Q) (h : m.run s = .ok (a, t)) : Q a t := by
  obtain ⟨a', t', hrun, hq⟩ := hm
  rw [h] at hrun
  obtain ⟨rfl, rfl⟩ := Prod.mk.inj (Except.ok.inj hrun)
  exact hq

end Runs

/-! ## Read-only computations -/

/-- What a read-only computation keeps: an invariant of every state, and a preorder from the
state before to the state after. -/
structure Frame (σ : Type u) where
  inv : σ → Prop
  keeps : σ → σ → Prop
  refl : ∀ s, keeps s s
  trans : ∀ s t u, keeps s t → keeps t u → keeps s u

/-- From every state of the frame the computation returns `a`, and keeps the frame. -/
def Yields (F : Frame σ) (m : StateT σ (Except ε) α) (a : α) : Prop :=
  ∀ s, F.inv s → Runs m s fun b t => b = a ∧ F.inv t ∧ F.keeps s t

namespace Yields

variable {F : Frame σ} {m : StateT σ (Except ε) α} {f : α → StateT σ (Except ε) β} {a : α} {b : β}

theorem pure (a : α) : Yields F (Pure.pure a : StateT σ (Except ε) α) a :=
  fun s hs => Runs.pure ⟨rfl, hs, F.refl s⟩

theorem bind (hm : Yields F m a) (hf : Yields F (f a) b) : Yields F (m >>= f) b := by
  intro s hs
  refine (hm s hs).bind ?_
  rintro _ t ⟨rfl, ht, hst⟩
  exact (hf t ht).mono fun c u hu => ⟨hu.1, hu.2.1, F.trans s t u hst hu.2.2⟩

theorem lift {x : Except ε α} (hx : x = .ok a) : Yields F (liftM x : StateT σ (Except ε) α) a :=
  fun s hs => Runs.lift hx ⟨rfl, hs, F.refl s⟩

end Yields

end LibSigma.Library
