import Mathlib.Algebra.BigOperators.Group.Finset.Piecewise
import Mathlib.Algebra.GroupWithZero.Nat
import Mathlib.Data.Fintype.Basic
import Mathlib.Data.List.Basic
import Mathlib.Logic.Function.Basic

/-!
# Histories of shared objects

Workers act on objects that they share, one act at a time, and a history keeps what was done.

The history of a run is a list of acts, with the worker, the object and the result of each.  It is
right when replaying the acts on one object, in their order and without those on other objects,
gives the results that were recorded and ends where the object is (`Explained`).  So objects are
explained one by one, although the run went back and forth between them.  For objects that are each
behind a lock that is the linearisation of what happened to them.

The other reading of a history is by worker: what one of them has done, in the order in which it did
it.  The two readings meet in counting.  A number that each act adds to, summed over the workers, is
the number summed over the objects, because both are sums over the history (`sum_by_worker`).

* `Replays`: acts one after the other, with their results.
* `Explained.act`: **each object is where the acts on it have led**, whatever was done to the
  others.
* `Replays.invariant`: what every act keeps.
* `sum_by_worker`: the acts of all workers.
-/

namespace LibSigma.Library

variable {W σ α ρ : Type}

/-- One more element. -/
@[simp] theorem filterMap_concat {β : Type} (f : α → Option β) (xs : List α) (x : α) :
    (xs ++ [x]).filterMap f = xs.filterMap f ++ (f x).toList := by
  rw [List.filterMap_append, List.filterMap_cons]
  cases f x <;> rfl

/-- An act of a worker on an object, and its result. -/
structure Acted (W α ρ : Type) where
  worker : W
  obj : ℕ
  act : α
  result : ρ

/-- The acts on an object. -/
def actsOn (i : ℕ) (H : List (Acted W α ρ)) : List (Acted W α ρ) := H.filter fun x => x.obj = i

theorem actsOn_concat_self (H : List (Acted W α ρ)) (w : W) (i : ℕ) (a : α) (r : ρ) :
    actsOn i (H ++ [⟨w, i, a, r⟩]) = actsOn i H ++ [⟨w, i, a, r⟩] := by
  rw [actsOn, List.filter_append, List.filter_singleton, decide_eq_true rfl]
  rfl

theorem actsOn_concat_of_ne {i j : ℕ} (hij : i ≠ j) (H : List (Acted W α ρ)) (w : W) (a : α)
    (r : ρ) : actsOn i (H ++ [⟨w, j, a, r⟩]) = actsOn i H := by
  rw [actsOn, List.filter_append, List.filter_singleton, decide_eq_false (Ne.symm hij)]
  exact List.append_nil _

/-- Acts one after the other lead from one state to another, and their results are right. -/
inductive Replays (step : α → σ → σ × ρ) (s : σ) : List (Acted W α ρ) → σ → Prop
  | nil : Replays step s [] s
  | concat {H : List (Acted W α ρ)} {t : σ} (w : W) (i : ℕ) (a : α) (h : Replays step s H t) :
      Replays step s (H ++ [⟨w, i, a, (step a t).2⟩]) (step a t).1

/-- **What every act keeps.** -/
theorem Replays.invariant {step : α → σ → σ × ρ} {s t : σ} {H : List (Acted W α ρ)}
    (h : Replays step s H t) {P : List (Acted W α ρ) → σ → Prop} (hnil : P [] s)
    (hstep : ∀ H t w i a, Replays step s H t → P H t →
      P (H ++ [⟨w, i, a, (step a t).2⟩]) (step a t).1) : P H t := by
  induction h with
  | nil => exact hnil
  | concat w i a h ih => exact hstep _ _ w i a h ih

/-- The objects are where the acts have led. -/
def Explained (step : α → σ → σ × ρ) (init cur : List σ) (H : List (Acted W α ρ)) : Prop :=
  ∀ i s, init[i]? = some s → ∃ t, cur[i]? = some t ∧ Replays step s (actsOn i H) t

theorem Explained.nil (step : α → σ → σ × ρ) (init : List σ) :
    Explained (W := W) step init init [] := fun _ s hs => ⟨s, hs, .nil⟩

/-- **One act.** -/
theorem Explained.act {step : α → σ → σ × ρ} {init cur : List σ} {H : List (Acted W α ρ)}
    (h : Explained step init cur H) {j : ℕ} {t : σ} (ht : cur[j]? = some t) (w : W) (a : α) :
    Explained step init (cur.set j (step a t).1) (H ++ [⟨w, j, a, (step a t).2⟩]) := by
  intro i s hs
  obtain ⟨t', ht', hreplays⟩ := h i s hs
  by_cases hij : i = j
  · subst hij
    obtain rfl := Option.some.inj (ht'.symm.trans ht)
    rw [actsOn_concat_self]
    obtain ⟨hlt, -⟩ := List.getElem?_eq_some_iff.mp ht'
    exact ⟨_, List.getElem?_set_self hlt, .concat w i a hreplays⟩
  · rw [actsOn_concat_of_ne hij, List.getElem?_set_ne (Ne.symm hij)]
    exact ⟨t', ht', hreplays⟩

/-- The acts of a worker. -/
def actsBy [DecidableEq W] (w : W) (H : List (Acted W α ρ)) : List (Acted W α ρ) :=
  H.filter fun x => x.worker = w

/-- Every act is one worker's. -/
theorem sum_by_worker [DecidableEq W] [Fintype W] {β : Type} (f : Acted W α ρ → Option β) (n : β → ℕ)
    (H : List (Acted W α ρ)) :
    ((H.filterMap f).map n).sum = ∑ w, (((actsBy w H).filterMap f).map n).sum := by
  induction H with
  | nil => simp [actsBy]
  | cons x H ih =>
    have hcons : ∀ (L : List (Acted W α ρ)), (((x :: L).filterMap f).map n).sum =
        ((f x).toList.map n).sum + ((L.filterMap f).map n).sum := by
      intro L
      rw [List.filterMap_cons]
      cases f x with
      | none => exact (Nat.zero_add _).symm
      | some y => rfl
    have hsum : ∀ w, (((actsBy w (x :: H)).filterMap f).map n).sum =
        (if x.worker = w then ((f x).toList.map n).sum else 0) +
          (((actsBy w H).filterMap f).map n).sum := by
      intro w
      rw [actsBy, List.filter_cons, actsBy]
      by_cases hw : x.worker = w
      · rw [if_pos (decide_eq_true hw), if_pos hw, hcons]
      · rw [if_neg (by simpa using hw), if_neg hw, Nat.zero_add]
    rw [hcons, ih, Finset.sum_congr rfl fun w _ => hsum w, Finset.sum_add_distrib,
      Finset.sum_ite_eq, if_pos (Finset.mem_univ _)]

end LibSigma.Library
