import Mathlib.Data.List.Perm.Basic

/-!
# Arrivals

Events arrive in some order, each with some keys.  A table with one entry for each key, overwritten
by each arrival, holds what arrived last.

Some of the events are live and the others are late, by a test that has nothing to do with the order
in which they come.  What a table says about live events then depends on that order, and the
extremes are two: the late ones come last and hide what is live, or they come first and hide
nothing.  Both are rearrangements of the same events.  So a property of a multiset of events that is
to hold in every order has to hold in these two, and the lemmas say what it comes to there.

A queue that drops from its head while the head is late, and stops at the first live event, is the
other structure with this weakness.  Its length is anything between the number of live events and
the number of all of them, and each length is reached by some order
(`exists_perm_length_dropWhile`).

* `any_lastWith_live_last`, `any_lastWith_live_first`: what a table holds when the live events, or
  the others, arrive last.
-/

namespace LibSigma.Library

variable {ε κ : Type} [DecidableEq κ] (keys : ε → List κ)

/-- The last arrival with a key. -/
def lastWith (es : List ε) (k : κ) : Option ε := (es.filter fun x => decide (k ∈ keys x)).getLast?

variable {keys}

theorem lastWith_append (es es' : List ε) (k : κ) :
    lastWith keys (es ++ es') k = (lastWith keys es' k).or (lastWith keys es k) := by
  rw [lastWith, List.filter_append, List.getLast?_append]
  rfl

@[simp] theorem lastWith_concat (es : List ε) (x : ε) (k : κ) :
    lastWith keys (es ++ [x]) k = if k ∈ keys x then some x else lastWith keys es k := by
  have hone : lastWith keys [x] k = if k ∈ keys x then some x else none := by
    by_cases hk : k ∈ keys x <;> simp [lastWith, hk]
  rw [lastWith_append, hone]
  split <;> simp

theorem mem_of_lastWith {es : List ε} {k : κ} {x : ε} (h : lastWith keys es k = some x) :
    x ∈ es ∧ k ∈ keys x := by
  have hmem := List.mem_filter.mp (List.mem_of_getLast? h)
  exact ⟨hmem.1, of_decide_eq_true hmem.2⟩

theorem exists_lastWith {es : List ε} {k : κ} {x : ε} (hx : x ∈ es) (hk : k ∈ keys x) :
    ∃ y, lastWith keys es k = some y := by
  have hmem : x ∈ es.filter fun x => decide (k ∈ keys x) :=
    List.mem_filter.mpr ⟨hx, decide_eq_true hk⟩
  exact ⟨_, List.getLast?_eq_some_getLast (List.ne_nil_of_mem hmem)⟩

/-- The last arrival of a key is live only if some arrival is. -/
theorem exists_of_any_lastWith {es : List ε} {k : κ} {live : ε → Bool}
    (h : (lastWith keys es k).any live = true) : ∃ x ∈ es, k ∈ keys x ∧ live x = true := by
  obtain ⟨x, hx, hlive⟩ := (Option.any_eq_true _ _).mp h
  exact ⟨x, (mem_of_lastWith hx).1, (mem_of_lastWith hx).2, hlive⟩

/-- If all arrivals of a key are live, so is the last. -/
theorem any_lastWith_of_forall {es : List ε} {k : κ} {live : ε → Bool} {x : ε} (hx : x ∈ es)
    (hk : k ∈ keys x) (hall : ∀ y ∈ es, k ∈ keys y → live y = true) :
    (lastWith keys es k).any live = true := by
  obtain ⟨y, hy⟩ := exists_lastWith hx hk
  obtain ⟨hmem, hky⟩ := mem_of_lastWith hy
  rw [hy]
  exact hall y hmem hky

/-! ## Rearrangements -/

/-- The order in which the `late` events come last. -/
def lateLast (late : ε → Bool) (es : List ε) : List ε :=
  es.filter (fun x => !late x) ++ es.filter late

theorem perm_lateLast (late : ε → Bool) (es : List ε) : (lateLast late es).Perm es :=
  List.perm_append_comm.trans (List.filter_append_perm late es)

/-- The last arrival of a key is a late one if there is one. -/
theorem late_of_lastWith {late : ε → Bool} {es : List ε} {k : κ} {x : ε}
    (h : lastWith keys (lateLast late es) k = some x) (hlate : late x = false) :
    ∀ y ∈ es, k ∈ keys y → late y = false := by
  intro y hy hk
  by_contra hne
  have hmem : y ∈ es.filter late := List.mem_filter.mpr ⟨hy, by simpa using hne⟩
  obtain ⟨z, hz⟩ := exists_lastWith hmem hk
  rw [lateLast, lastWith_append, hz, Option.some_or, Option.some.injEq] at h
  have hzlate := (List.mem_filter.mp (mem_of_lastWith hz).1).2
  rw [h, hlate] at hzlate
  cases hzlate

/-- **With the live arrivals of a key last**, its last arrival is live if some arrival is. -/
theorem any_lastWith_live_last {live late : ε → Bool} {es : List ε} {k : κ}
    (hlate : ∀ x ∈ es, k ∈ keys x → late x = live x) :
    (lastWith keys (lateLast late es) k).any live = true ↔
      ∃ x ∈ es, k ∈ keys x ∧ live x = true := by
  constructor
  · intro h
    obtain ⟨x, hx, hand⟩ := exists_of_any_lastWith h
    exact ⟨x, (perm_lateLast late es).mem_iff.mp hx, hand⟩
  · intro h
    obtain ⟨x, hx, hk, hlive⟩ := h
    obtain ⟨y, hy⟩ := exists_lastWith ((perm_lateLast late es).mem_iff.mpr hx) hk
    obtain ⟨hmem, hky⟩ := mem_of_lastWith hy
    rw [hy, Option.any_some]
    by_contra hdead
    have hfalse : late y = false := by
      rw [hlate y ((perm_lateLast late es).mem_iff.mp hmem) hky]
      simpa using hdead
    have hx' := late_of_lastWith hy hfalse x hx hk
    rw [hlate x hx hk, hlive] at hx'
    cases hx'

/-- **With the live arrivals of a key first**, its last arrival is live if all arrivals are. -/
theorem any_lastWith_live_first {live late : ε → Bool} {es : List ε} {k : κ}
    (hlate : ∀ x ∈ es, k ∈ keys x → late x = !live x) :
    (lastWith keys (lateLast late es) k).any live = true ↔
      (∃ x ∈ es, k ∈ keys x) ∧ ∀ x ∈ es, k ∈ keys x → live x = true := by
  have hperm := perm_lateLast late es
  constructor
  · intro h
    obtain ⟨y, hy, hlive⟩ := (Option.any_eq_true _ _).mp h
    obtain ⟨hmem, hk⟩ := mem_of_lastWith hy
    have hmem' := hperm.mem_iff.mp hmem
    have hfalse : late y = false := by rw [hlate y hmem' hk, hlive]; rfl
    refine ⟨⟨y, hmem', hk⟩, fun x hx hkx => ?_⟩
    have hx' := late_of_lastWith hy hfalse x hx hkx
    rw [hlate x hx hkx] at hx'
    simpa using hx'
  · intro h
    obtain ⟨⟨x, hx, hk⟩, hall⟩ := h
    exact any_lastWith_of_forall (hperm.mem_iff.mpr hx) hk fun y hy hky =>
      hall y (hperm.mem_iff.mp hy) hky

/-! ## Queues that start at the first live event -/

/-- From the first live event on there are all the live ones, and some others. -/
theorem countP_le_length_dropWhile (live : ε → Bool) (es : List ε) :
    es.countP live ≤ (es.dropWhile fun x => !live x).length := by
  induction es with
  | nil => exact Nat.le_refl 0
  | cons x es ih =>
    by_cases hx : live x = true
    · rw [List.dropWhile_cons_of_neg (by simpa using hx)]
      exact List.countP_le_length
    · rw [List.dropWhile_cons_of_pos (by simpa using hx), List.countP_cons_of_neg hx]
      exact ih

theorem length_dropWhile_of_countP_eq_zero {live : ε → Bool} {es : List ε}
    (h : es.countP live = 0) : (es.dropWhile fun x => !live x).length = 0 := by
  have hdead : ∀ x ∈ es, (!live x) = true := fun x hx => by
    simpa using List.countP_eq_zero.mp h x hx
  rw [← List.append_nil es, List.dropWhile_append_of_pos hdead]
  rfl

/-- **Every number in between is that of some order**, if there is a live event. -/
theorem exists_perm_length_dropWhile {live : ε → Bool} {es : List ε} {n : ℕ}
    (hpos : 0 < es.countP live) (hlo : es.countP live ≤ n) (hhi : n ≤ es.length) :
    ∃ es' : List ε, es'.Perm es ∧ (es'.dropWhile fun x => !live x).length = n := by
  obtain ⟨dead, hdead⟩ : ∃ dead, dead = es.filter fun x => !live x := ⟨_, rfl⟩
  have hperm : (es.filter live ++ dead).Perm es := hdead ▸ List.filter_append_perm live es
  have hlen : es.countP live + dead.length = es.length := by
    rw [← hperm.length_eq, List.length_append, List.countP_eq_length_filter]
  refine ⟨dead.take (es.length - n) ++ (es.filter live ++ dead.drop (es.length - n)), ?_, ?_⟩
  · refine (List.perm_append_comm_assoc _ _ _).trans (List.Perm.trans ?_ hperm)
    rw [List.take_append_drop]
  · have hfirst : ∀ x ∈ dead.take (es.length - n), (!live x) = true := by
      intro x hx
      have hmem := List.mem_of_mem_take hx
      rw [hdead, List.mem_filter] at hmem
      exact hmem.2
    obtain ⟨x, xs, hxs⟩ : ∃ x xs, es.filter live = x :: xs := by
      refine List.exists_cons_of_length_pos ?_
      rwa [← List.countP_eq_length_filter]
    have hx : live x = true := by
      have hmem : x ∈ es.filter live := hxs ▸ List.mem_cons_self
      exact (List.mem_filter.mp hmem).2
    have hlive := List.countP_eq_length_filter (p := live) (l := es)
    rw [List.dropWhile_append_of_pos hfirst, hxs, List.cons_append,
      List.dropWhile_cons_of_neg (by simpa using hx), ← List.cons_append, ← hxs, List.length_append,
      ← hlive, List.length_drop]
    omega

end LibSigma.Library
