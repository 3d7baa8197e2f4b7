import Mathlib.Data.List.Forall2
import Mathlib.Tactic.Linarith
import LibSigma.Corr.Group

/-!
# Sequences in order

The progress of `eval_temporal_ordered` over a list of occurrences.  The progress always belongs to
one sequence of occurrences, the first of which found no other sequence in progress.

## The machine

The progress is three numbers: how many of the required ids were taken, when the first was, and when
the last was.  An occurrence is the time of an event with the ids that it hit.  It first forgets a
sequence whose first step has left the window, then takes the next required ids as long as it hits
them, then reports a completion and starts over.  Nothing else is kept, no event in particular, so
that only one sequence can be in progress at a time.  The group, the rule and the engine are left
out here: this module is about lists of occurrences.

## Soundness

The numbers stand for positions in the list (`Tracked`): the steps taken were hit in order at these
positions, the first of them found nothing in progress, and nothing was completed since.  One
occurrence keeps that, whatever it does (`Tracked.reach`), and a completion is then the end of a
sequence in the window.

## Completeness

Not every sequence in the window is reported.  A first step that came early keeps its place until it
expires, and the steps that would have gone with a later first step are spent on it.  A sequence
whose first step found nothing in progress does complete (`completes_of_idle`): what covers a part
of it covers one position more after each of its occurrences (`Covering`).

* `completes_sound`: **a completion is the end of a sequence in the window.**
* `completes_of_idle`: **a sequence that begins when none is in progress completes.**
-/

namespace LibSigma

/-! ## Runs

The progress of a sequence is how many of the required ids are done, the time of the first of them
and the time of the last.  Runs are lists of occurrences here, an event as far as a sequence sees
it, and have nothing of groups or engines. -/

/-- An occurrence: the time of an event and the rule ids it hit. -/
structure Occ where
  ts : ℚ
  hits : List UInt32
  deriving DecidableEq

/-- Nothing in progress. -/
def Ordered.none : Ordered := ⟨0, 0, 0⟩

/-- The progress at a window start: nothing if its first step has left the window. -/
def Ordered.expire (o : Ordered) (ws : ℚ) : Ordered :=
  if 0 < o.progress ∧ o.anchorTs < ws then .none else o

theorem Ordered.expire_expire {o : Ordered} {ws ws' : ℚ} (hle : ws ≤ ws') :
    (o.expire ws).expire ws' = o.expire ws' := by
  by_cases hold : 0 < o.progress ∧ o.anchorTs < ws
  · have hexpire : o.expire ws = .none := if_pos hold
    have hexpire' : o.expire ws' = .none := if_pos ⟨hold.1, lt_of_lt_of_le hold.2 hle⟩
    rw [hexpire, hexpire']
    exact if_neg fun hpos => lt_irrefl 0 hpos.1
  · have hexpire : o.expire ws = o := if_neg hold
    rw [hexpire]

@[simp] theorem Ordered.expire_none {ws : ℚ} : Ordered.none.expire ws = .none :=
  if_neg fun hpos => lt_irrefl 0 hpos.1

section Run

variable (order : List UInt32) (span : ℚ) (eventTime : Bool)

/-- One occurrence, in its own window. -/
def orderedOn (o : Ordered) (e : Occ) : Bool × Ordered :=
  orderedStep order e.hits e.ts (e.ts - span) eventTime o

/-- The progress after some occurrences. -/
def orderedAfter (es : List Occ) : Ordered :=
  es.foldl (fun o e => (orderedOn order span eventTime o e).2) .none

/-- Whether an occurrence completes the sequence. -/
def completes (es : List Occ) (e : Occ) : Bool :=
  (orderedOn order span eventTime (orderedAfter order span eventTime es) e).1

@[simp] theorem orderedAfter_concat (es : List Occ) (e : Occ) :
    orderedAfter order span eventTime (es ++ [e]) =
      (orderedOn order span eventTime (orderedAfter order span eventTime es) e).2 := by
  simp [orderedAfter]

end Run

/-! ## One occurrence

An occurrence may take several steps, when it hits the next ids and those after them.  The loop of
the code takes them one by one and compares times on the way; what it comes to is that all of them
are taken or, when the occurrence is too old, none. -/

section Step

variable {order hits : List UInt32} {now ws span : ℚ} {eventTime : Bool} {o : Ordered}

/-- Whether an occurrence is too old for the sequence in progress. -/
def Ordered.Blocked (o : Ordered) (eventTime : Bool) (now : ℚ) : Prop :=
  0 < o.progress ∧ eventTime = true ∧ now < o.lastTs

/-- The steps that an occurrence takes: the next required ids, as long as it hits them. -/
def stepsTaken (order hits : List UInt32) (o : Ordered) : ℕ :=
  ((order.drop o.progress).takeWhile fun id => decide (id ∈ hits)).length

/-- The progress after some more steps at one time. -/
def Ordered.add (o : Ordered) (k : ℕ) (now : ℚ) : Ordered :=
  if k = 0 then o else ⟨o.progress + k, if o.progress = 0 then now else o.anchorTs, now⟩

@[simp] theorem Ordered.add_progress (o : Ordered) (k : ℕ) (now : ℚ) :
    (o.add k now).progress = o.progress + k := by
  unfold Ordered.add
  split
  · omega
  · rfl

/-- The steps are taken one by one. -/
theorem Ordered.add_succ (o : Ordered) (k : ℕ) (now : ℚ) :
    o.add (k + 1) now =
      (Ordered.mk (o.progress + 1) (if o.progress = 0 then now else o.anchorTs) now).add k now := by
  by_cases hk : k = 0
  · simp [Ordered.add, hk]
  · simp [Ordered.add, hk, Nat.add_assoc, Nat.add_comm 1 k]

theorem orderedAdvance_blocked (h : o.Blocked eventTime now) (rest : List UInt32) :
    orderedAdvance hits now eventTime rest o = o := by
  obtain ⟨hpos, rfl, hlt⟩ := h
  cases rest with
  | nil => rfl
  | cons id rest => simp [orderedAdvance, hpos.ne', not_le.mpr hlt]

/-- **The loop of `eval_temporal_ordered`** takes the next required ids as long as they are hit. -/
theorem orderedAdvance_eq (rest : List UInt32) (h : ¬ o.Blocked eventTime now) :
    orderedAdvance hits now eventTime rest o =
      o.add (rest.takeWhile fun id => decide (id ∈ hits)).length now := by
  induction rest generalizing o with
  | nil => rfl
  | cons id rest ih =>
    rw [orderedAdvance]
    by_cases hid : id ∈ hits
    · have htake : (id :: rest).takeWhile (fun id => decide (id ∈ hits)) =
          id :: rest.takeWhile fun id => decide (id ∈ hits) := by simp [hid]
      rw [if_pos hid, htake, List.length_cons]
      have hnext : ∀ p a, ¬ (Ordered.mk p a now).Blocked eventTime now :=
        fun p a hb => lt_irrefl now hb.2.2
      by_cases hzero : o.progress = 0
      · rw [if_pos hzero, ih (hnext 1 now), Ordered.add_succ, hzero, if_pos rfl]
      · have hclock : (!eventTime || decide (o.lastTs ≤ now)) = true := by
          by_contra hfalse
          refine h ⟨Nat.pos_of_ne_zero hzero, ?_⟩
          simpa using hfalse
        rw [if_neg hzero, if_pos hclock, ih (hnext _ _), Ordered.add_succ, if_neg hzero]
    · have htake : (id :: rest).takeWhile (fun id => decide (id ∈ hits)) = [] := by simp [hid]
      rw [if_neg hid, htake]
      rfl

/-- The progress an occurrence leads to, before a completion resets it. -/
def orderedReach (order hits : List UInt32) (now ws : ℚ) (eventTime : Bool) (o : Ordered) :
    Ordered :=
  orderedAdvance hits now eventTime (order.drop (o.expire ws).progress) (o.expire ws)

theorem orderedStep_eq (h : order ≠ []) :
    orderedStep order hits now ws eventTime o =
      if order.length ≤ (orderedReach order hits now ws eventTime o).progress then (true, .none)
      else (false, orderedReach order hits now ws eventTime o) := by
  have hlen : ¬ order.length = 0 := fun h0 => h (List.length_eq_zero_iff.mp h0)
  rw [orderedStep, if_neg hlen]
  rfl

theorem orderedReach_eq (h : ¬ (o.expire ws).Blocked eventTime now) :
    orderedReach order hits now ws eventTime o =
      (o.expire ws).add (stepsTaken order hits (o.expire ws)) now :=
  orderedAdvance_eq _ h

/-- What an occurrence leads to depends on the progress that its window leaves. -/
theorem orderedStep_expire (horder : order ≠ []) {o' : Ordered} (h : o.expire ws = o'.expire ws) :
    orderedStep order hits now ws eventTime o = orderedStep order hits now ws eventTime o' := by
  rw [orderedStep_eq horder, orderedStep_eq horder, orderedReach, orderedReach, h]

end Step

/-! ## Sequences of occurrences

The specification side.  `Occurs` is a list of positions, not decreasing, at which the ids are hit
in order.  Consecutive ids may be hit by one occurrence, so positions may repeat.  Nothing in it is
about progress. -/

/-- A position of a list and one more element. -/
theorem getElem?_concat_cases {α : Type} {xs : List α} {x y : α} {j : ℕ}
    (h : (xs ++ [x])[j]? = some y) :
    j < xs.length ∧ xs[j]? = some y ∨ j = xs.length ∧ y = x := by
  rcases Nat.lt_or_ge j xs.length with hlt | hge
  · rw [List.getElem?_append_left hlt] at h
    exact Or.inl ⟨hlt, h⟩
  · have hj : j = xs.length := by
      have hlen := (List.getElem?_eq_some_iff.mp h).1
      rw [List.length_append, List.length_singleton] at hlen
      omega
    subst hj
    rw [List.getElem?_concat_length] at h
    exact Or.inr ⟨rfl, (Option.some.inj h).symm⟩

/-- The ids are hit in order by the occurrences at some positions; consecutive ids may share one. -/
structure Occurs (ids : List UInt32) (es : List Occ) (pos : List ℕ) : Prop where
  hits : List.Forall₂ (fun id i => ∃ e, es[i]? = some e ∧ id ∈ e.hits) ids pos
  ordered : pos.Pairwise (· ≤ ·)
  times : pos.Pairwise fun i j => ∀ a b, es[i]? = some a → es[j]? = some b → a.ts ≤ b.ts

theorem Occurs.lt_length {ids : List UInt32} {es : List Occ} {pos : List ℕ}
    (h : Occurs ids es pos) : ∀ i ∈ pos, i < es.length := by
  intro i hi
  obtain ⟨n, hn⟩ := List.mem_iff_getElem?.mp hi
  obtain ⟨hlt, rfl⟩ := List.getElem?_eq_some_iff.mp hn
  obtain ⟨e, he, -⟩ := h.hits.get (h.hits.length_eq ▸ hlt) hlt
  exact (List.getElem?_eq_some_iff.mp he).1

/-- The positions of a list and one more occurrence. -/
theorem Occurs.le_length_concat {ids : List UInt32} {es : List Occ} {e : Occ} {pos : List ℕ}
    (h : Occurs ids (es ++ [e]) pos) : ∀ i ∈ pos, i ≤ es.length := by
  intro i hi
  have hlt := h.lt_length i hi
  rw [List.length_append, List.length_singleton] at hlt
  omega

/-- One more occurrence that hits the next ids. -/
theorem Occurs.concat {ids ids' : List UInt32} {es : List Occ} {pos : List ℕ} {e : Occ}
    (h : Occurs ids es pos) (hids : ∀ id ∈ ids', id ∈ e.hits)
    (hle : ∀ i ∈ pos, ∀ a, es[i]? = some a → a.ts ≤ e.ts) :
    Occurs (ids ++ ids') (es ++ [e]) (pos ++ List.replicate ids'.length es.length) := by
  have hold : ∀ i ∈ pos, ∀ a, (es ++ [e])[i]? = some a → es[i]? = some a := by
    intro i hi a ha
    rwa [List.getElem?_append_left (h.lt_length i hi)] at ha
  have hnew : (es ++ [e])[es.length]? = some e := List.getElem?_concat_length
  have hhits : List.Forall₂ (fun id i => ∃ a, (es ++ [e])[i]? = some a ∧ id ∈ a.hits) ids'
      (List.replicate ids'.length es.length) := by
    clear hle
    induction ids' with
    | nil => exact .nil
    | cons id ids' ih =>
      rw [List.forall_mem_cons] at hids
      exact .cons ⟨e, hnew, hids.1⟩ (ih hids.2)
  refine ⟨List.rel_append (h.hits.imp fun id i hex => ?_) hhits, ?_, ?_⟩
  · obtain ⟨a, ha, hid⟩ := hex
    exact ⟨a, by rw [List.getElem?_append_left (List.getElem?_eq_some_iff.mp ha).1, ha], hid⟩
  · refine List.pairwise_append.mpr ⟨h.ordered, ?_, fun i hi j hj => ?_⟩
    · exact List.pairwise_replicate.mpr (Or.inr le_rfl)
    · rw [List.eq_of_mem_replicate hj]
      exact (h.lt_length i hi).le
  · refine List.pairwise_append.mpr ⟨?_, ?_, fun i hi j hj a b ha hb => ?_⟩
    · refine h.times.imp_of_mem fun hi hj himp a b ha hb => ?_
      exact himp a b (hold _ hi a ha) (hold _ hj b hb)
    · refine List.pairwise_replicate.mpr (Or.inr fun a b ha hb => ?_)
      rw [ha] at hb
      cases hb
      exact le_rfl
    · rw [List.eq_of_mem_replicate hj, hnew] at hb
      cases hb
      exact hle i hi a (hold i hi a ha)

/-- Positions of a longer list. -/
theorem Occurs.append {ids : List UInt32} {es : List Occ} {pos : List ℕ} (h : Occurs ids es pos)
    (e : Occ) : Occurs ids (es ++ [e]) pos := by
  have hold : ∀ i ∈ pos, ∀ a, (es ++ [e])[i]? = some a → es[i]? = some a := by
    intro i hi a ha
    rwa [List.getElem?_append_left (h.lt_length i hi)] at ha
  refine ⟨h.hits.imp fun id i hex => ?_, h.ordered, ?_⟩
  · obtain ⟨a, ha, hid⟩ := hex
    exact ⟨a, by rw [List.getElem?_append_left (List.getElem?_eq_some_iff.mp ha).1, ha], hid⟩
  · refine h.times.imp_of_mem fun hi hj himp a b ha hb => ?_
    exact himp a b (hold _ hi a ha) (hold _ hj b hb)

/-- The first position comes before the others. -/
theorem Occurs.head_le {ids : List UInt32} {es : List Occ} {pos : List ℕ} (h : Occurs ids es pos)
    {i : ℕ} (hi : pos.head? = some i) :
    ∀ j ∈ pos, i ≤ j ∧ ∀ a b, es[i]? = some a → es[j]? = some b → a.ts ≤ b.ts := by
  obtain ⟨tl, rfl⟩ := List.head?_eq_some_iff.mp hi
  intro j hj
  rcases List.mem_cons.mp hj with rfl | hj
  · refine ⟨le_rfl, fun a b ha hb => ?_⟩
    rw [ha] at hb
    cases hb
    exact le_rfl
  · exact ⟨(List.pairwise_cons.mp h.ordered).1 j hj, (List.pairwise_cons.mp h.times).1 j hj⟩

/-- The last position comes after the others. -/
theorem Occurs.le_last {ids : List UInt32} {es : List Occ} {pos : List ℕ} (h : Occurs ids es pos)
    {j : ℕ} (hj : pos.getLast? = some j) :
    ∀ i ∈ pos, ∀ a b, es[i]? = some a → es[j]? = some b → a.ts ≤ b.ts := by
  obtain ⟨ys, rfl⟩ := List.getLast?_eq_some_iff.mp hj
  intro i hi a b ha hb
  rcases List.mem_append.mp hi with hi | hi
  · exact (List.pairwise_append.mp h.times).2.2 i hi j List.mem_cons_self a b ha hb
  · rw [List.mem_singleton.mp hi, hb] at ha
    cases ha
    exact le_rfl

/-! ## The sequence in progress

`Tracked` says which occurrences a progress stands for.  The code keeps no record of them, so this
is an invariant over the run: there are positions with the ids in order, the first and the last at
the times in the progress, and since the first of them no other sequence was completed.  In the
setting of event time the occurrences may be out of order; an occurrence that is older than the last
step takes none. -/

section Tracked

variable (order : List UInt32) (span : ℚ) (eventTime : Bool)

/-- Nothing is in progress when the occurrence at the first position comes. -/
def BeginsIdle (es : List Occ) (pos : List ℕ) : Prop :=
  ∀ i e, pos.head? = some i → es[i]? = some e →
    (orderedAfter order span eventTime (es.take i)).expire (e.ts - span) = .none

/-- No occurrence of `es` from the first position on completes a sequence. -/
def Quiet (es : List Occ) (pos : List ℕ) : Prop :=
  ∀ i j a, pos.head? = some i → i ≤ j → es[j]? = some a →
    completes order span eventTime (es.take j) a = false

/-- Progress `o` is that of the occurrences of `es` at some positions, since when nothing was
completed in `past`. -/
structure Tracked (past es : List Occ) (o : Ordered) (pos : List ℕ) : Prop where
  zero : o.progress = 0 → o = .none
  occurs : Occurs (order.take o.progress) es pos
  anchor : ∀ i a, pos.head? = some i → es[i]? = some a → a.ts = o.anchorTs
  last : ∀ i a, pos.getLast? = some i → es[i]? = some a → a.ts = o.lastTs
  idle : BeginsIdle order span eventTime es pos
  quiet : Quiet order span eventTime past pos

/-- Event times, or times in order. -/
def Clocked (es : List Occ) : Prop := eventTime = true ∨ (es.map Occ.ts).Pairwise (· ≤ ·)

variable {order span eventTime}

theorem Tracked.none (past es : List Occ) : Tracked order span eventTime past es .none [] := by
  refine ⟨fun _ => rfl, ⟨.nil, .nil, .nil⟩, ?_, ?_, ?_, ?_⟩
  · exact fun i a hi => by cases hi
  · exact fun i a hi => by cases hi
  · exact fun i a hi => by cases hi
  · exact fun i j a hi => by cases hi

variable {past es : List Occ} {o : Ordered} {pos : List ℕ} {e : Occ}

theorem Tracked.length_pos (h : Tracked order span eventTime past es o pos) :
    pos.length = min o.progress order.length := by
  rw [← h.occurs.hits.length_eq, List.length_take]

/-- A sequence whose first step has left the window is forgotten, the others are in the window. -/
theorem Tracked.expire (h : Tracked order span eventTime past es o pos) (ws : ℚ) :
    ∃ pos', Tracked order span eventTime past es (o.expire ws) pos' ∧
      ∀ i ∈ pos', ∀ a, es[i]? = some a → ws ≤ a.ts := by
  unfold Ordered.expire
  split
  · exact ⟨[], .none past es, fun i hi => absurd hi List.not_mem_nil⟩
  · rename_i hlive
    refine ⟨pos, h, fun i hi a ha => ?_⟩
    cases hpos : pos with
    | nil =>
      rw [hpos] at hi
      exact absurd hi List.not_mem_nil
    | cons i₀ tl =>
      have hhead : pos.head? = some i₀ := by rw [hpos]; rfl
      have hprog : 0 < o.progress := by
        have hlen := h.length_pos
        rw [hpos, List.length_cons] at hlen
        omega
      obtain ⟨a₀, ha₀⟩ : ∃ a₀, es[i₀]? = some a₀ :=
        ⟨_, List.getElem?_eq_getElem (h.occurs.lt_length i₀ (hpos ▸ List.mem_cons_self))⟩
      have hle := (h.occurs.head_le hhead i hi).2 a₀ a ha₀ ha
      have hws : ws ≤ o.anchorTs := not_lt.mp fun hlt => hlive ⟨hprog, hlt⟩
      rw [← h.anchor i₀ a₀ hhead ha₀] at hws
      exact hws.trans hle

/-- An occurrence that takes no step. -/
theorem Tracked.append (h : Tracked order span eventTime past es o pos) (e : Occ) :
    Tracked order span eventTime past (es ++ [e]) o pos := by
  have hold : ∀ i ∈ pos, (es ++ [e])[i]? = es[i]? :=
    fun i hi => List.getElem?_append_left (h.occurs.lt_length i hi)
  have hhead : ∀ i, pos.head? = some i → i ∈ pos := fun i => List.mem_of_head?
  refine ⟨h.zero, h.occurs.append e, fun i a hi ha => ?_, fun i a hi ha => ?_, fun i a hi ha => ?_,
    h.quiet⟩
  · exact h.anchor i a hi (hold i (hhead i hi) ▸ ha)
  · exact h.last i a hi (hold i (List.mem_of_getLast? hi) ▸ ha)
  · rw [List.take_append_of_le_length (h.occurs.lt_length i (hhead i hi)).le]
    exact h.idle i a hi (hold i (hhead i hi) ▸ ha)

/-- The first steps of a sequence, and those that an occurrence takes. -/
theorem take_stepsTaken (order hits : List UInt32) (o : Ordered) :
    order.take (o.progress + stepsTaken order hits o) =
      order.take o.progress ++ (order.drop o.progress).takeWhile fun id => decide (id ∈ hits) := by
  have hprefix := List.prefix_iff_eq_take.mp
    (List.takeWhile_prefix (fun id => decide (id ∈ hits)) (l := order.drop o.progress))
  rw [List.take_add, stepsTaken, ← hprefix]

/-- What is in progress does not come after an occurrence that is not blocked. -/
theorem Tracked.le_of_not_blocked (h : Tracked order span eventTime past es o pos)
    (hclock : Clocked eventTime (es ++ [e])) (hblocked : ¬ o.Blocked eventTime e.ts) :
    ∀ i ∈ pos, ∀ a, es[i]? = some a → a.ts ≤ e.ts := by
  intro i hi a ha
  rcases hclock with rfl | hsorted
  · obtain ⟨j, hj⟩ : ∃ j, pos.getLast? = some j :=
      ⟨_, List.getLast?_eq_some_getLast (List.ne_nil_of_mem hi)⟩
    obtain ⟨b, hb⟩ : ∃ b, es[j]? = some b :=
      ⟨_, List.getElem?_eq_getElem (h.occurs.lt_length j (List.mem_of_getLast? hj))⟩
    have hprog : 0 < o.progress := by
      have hlen := h.length_pos
      have hpos := List.length_pos_of_mem hi
      omega
    have hle : o.lastTs ≤ e.ts := not_lt.mp fun hlt => hblocked ⟨hprog, rfl, hlt⟩
    rw [← h.last j b hj hb] at hle
    exact (h.occurs.le_last hj i hi a b ha hb).trans hle
  · rw [List.map_append, List.pairwise_append] at hsorted
    exact hsorted.2.2 _ (List.mem_map_of_mem (List.mem_of_getElem? ha)) _ List.mem_cons_self

/-- An occurrence that takes steps. -/
theorem Tracked.add (horder : order ≠ [])
    (h : Tracked order span eventTime es es o pos)
    (ho : o = (orderedAfter order span eventTime es).expire (e.ts - span))
    (hle : ∀ i ∈ pos, ∀ a, es[i]? = some a → a.ts ≤ e.ts) (hk : stepsTaken order e.hits o ≠ 0) :
    Tracked order span eventTime es (es ++ [e]) (o.add (stepsTaken order e.hits o) e.ts)
      (pos ++ List.replicate (stepsTaken order e.hits o) es.length) := by
  have hnew : (es ++ [e])[es.length]? = some e := List.getElem?_concat_length
  have hhits : ∀ id ∈ (order.drop o.progress).takeWhile (fun id => decide (id ∈ e.hits)),
      id ∈ e.hits := fun id hid => by simpa using List.mem_takeWhile_imp hid
  have hoccurs := h.occurs.concat hhits hle
  rw [← take_stepsTaken] at hoccurs
  have hlast : (pos ++ List.replicate (stepsTaken order e.hits o) es.length).getLast? =
      some es.length := by
    rw [List.getLast?_append_of_ne_nil _ (by simpa using hk), List.getLast?_replicate, if_neg hk]
  have hprog := h.length_pos
  have hn := List.length_pos_iff.mpr horder
  -- the first position is the old one, or that of the occurrence
  have hfirst : ∀ i, (pos ++ List.replicate (stepsTaken order e.hits o) es.length).head? = some i →
      pos.head? = some i ∧ 0 < o.progress ∧ i < es.length ∨ i = es.length ∧ o = .none := by
    intro i hi
    cases hpos : pos with
    | nil =>
      rw [hpos, List.nil_append, List.head?_replicate, if_neg hk] at hi
      rw [hpos, List.length_nil] at hprog
      exact Or.inr ⟨(Option.some.inj hi).symm, h.zero (by omega)⟩
    | cons i₀ tl =>
      rw [hpos] at hi
      cases hi
      rw [hpos, List.length_cons] at hprog
      exact Or.inl ⟨rfl, by omega, h.occurs.lt_length _ (hpos ▸ List.mem_cons_self)⟩
  refine ⟨fun hzero => ?_, ?_, fun i a hi ha => ?_, fun i a hi ha => ?_, fun i a hi ha => ?_,
    fun i j a hi hij ha => ?_⟩
  · rw [Ordered.add_progress] at hzero
    omega
  · rw [Ordered.add_progress]
    exact hoccurs
  · rw [Ordered.add, if_neg hk]
    rcases hfirst i hi with ⟨hold, hpos, hlt⟩ | ⟨rfl, rfl⟩
    · rw [List.getElem?_append_left hlt] at ha
      rw [if_neg hpos.ne']
      exact h.anchor i a hold ha
    · rw [hnew] at ha
      cases ha
      rfl
  · rw [hlast] at hi
    cases hi
    rw [hnew] at ha
    cases ha
    rw [Ordered.add, if_neg hk]
  · rcases hfirst i hi with ⟨hold, hpos, hlt⟩ | ⟨rfl, hnone⟩
    · rw [List.getElem?_append_left hlt] at ha
      rw [List.take_append_of_le_length hlt.le]
      exact h.idle i a hold ha
    · rw [hnew] at ha
      cases ha
      rw [List.take_left, ← ho, hnone]
  · rcases hfirst i hi with ⟨hold, -, -⟩ | ⟨rfl, -⟩
    · exact h.quiet i j a hold hij ha
    · rw [List.getElem?_eq_none hij] at ha
      cases ha

/-- **One occurrence**: the sequence in progress is forgotten, goes on, or begins. -/
theorem Tracked.reach (horder : order ≠ []) (hspan : 0 ≤ span)
    (h : Tracked order span eventTime es es (orderedAfter order span eventTime es) pos)
    (hclock : Clocked eventTime (es ++ [e])) :
    ∃ pos', Tracked order span eventTime es (es ++ [e])
        (orderedReach order e.hits e.ts (e.ts - span) eventTime
          (orderedAfter order span eventTime es)) pos' ∧
      (∀ i ∈ pos', ∀ a, (es ++ [e])[i]? = some a → e.ts - span ≤ a.ts) ∧
      ((orderedReach order e.hits e.ts (e.ts - span) eventTime
            (orderedAfter order span eventTime es)).progress =
          ((orderedAfter order span eventTime es).expire (e.ts - span)).progress ∨
        pos'.getLast? = some es.length) := by
  obtain ⟨pos₁, h₁, hwin⟩ := h.expire (e.ts - span)
  have hold : ∀ i ∈ pos₁, (es ++ [e])[i]? = es[i]? :=
    fun i hi => List.getElem?_append_left (h₁.occurs.lt_length i hi)
  -- an occurrence that takes no step
  have hidle : ∀ o', o' = (orderedAfter order span eventTime es).expire (e.ts - span) →
      ∃ pos', Tracked order span eventTime es (es ++ [e]) o' pos' ∧
        (∀ i ∈ pos', ∀ a, (es ++ [e])[i]? = some a → e.ts - span ≤ a.ts) ∧
        (o'.progress = ((orderedAfter order span eventTime es).expire (e.ts - span)).progress ∨
          pos'.getLast? = some es.length) := by
    rintro o' rfl
    exact ⟨pos₁, h₁.append e, fun i hi a ha => hwin i hi a (hold i hi ▸ ha), Or.inl rfl⟩
  by_cases hblocked : ((orderedAfter order span eventTime es).expire (e.ts - span)).Blocked
      eventTime e.ts
  · exact hidle _ (orderedAdvance_blocked hblocked _)
  · rw [orderedReach_eq hblocked]
    obtain ⟨o, ho⟩ : ∃ o, o = (orderedAfter order span eventTime es).expire (e.ts - span) := ⟨_, rfl⟩
    rw [← ho] at h₁ hblocked hidle ⊢
    by_cases hk : stepsTaken order e.hits o = 0
    · rw [hk]
      exact hidle _ rfl
    · have hle := h₁.le_of_not_blocked hclock hblocked
      refine ⟨_, h₁.add horder ho hle hk, fun i hi a ha => ?_, Or.inr ?_⟩
      · rcases List.mem_append.mp hi with hi | hi
        · exact hwin i hi a (hold i hi ▸ ha)
        · rw [List.eq_of_mem_replicate hi, List.getElem?_concat_length] at ha
          cases ha
          linarith
      · rw [List.getLast?_append_of_ne_nil _ (by simpa using hk), List.getLast?_replicate, if_neg hk]

/-- A progress that does not complete is that of the longer list. -/
theorem Quiet.concat (h : Quiet order span eventTime es pos)
    (hnot : completes order span eventTime es e = false) :
    Quiet order span eventTime (es ++ [e]) pos := by
  intro i j a hi hij ha
  rcases getElem?_concat_cases ha with ⟨hlt, hold⟩ | ⟨rfl, rfl⟩
  · rw [List.take_append_of_le_length hlt.le]
    exact h i j a hi hij hold
  · rw [List.take_left]
    exact hnot

theorem Clocked.of_concat (h : Clocked eventTime (es ++ [e])) : Clocked eventTime es := by
  rcases h with h | h
  · exact Or.inl h
  · rw [List.map_append, List.pairwise_append] at h
    exact Or.inr h.1

/-- **The progress is that of a sequence of occurrences**, after any run. -/
theorem exists_tracked (horder : order ≠ []) (hspan : 0 ≤ span) (es : List Occ)
    (hclock : Clocked eventTime es) :
    (orderedAfter order span eventTime es).progress < order.length ∧
      ∃ pos, Tracked order span eventTime es es (orderedAfter order span eventTime es) pos := by
  have hn := List.length_pos_iff.mpr horder
  induction es using List.reverseRecOn with
  | nil => exact ⟨hn, [], .none [] []⟩
  | append_singleton es e ih =>
    obtain ⟨-, pos, h⟩ := ih hclock.of_concat
    obtain ⟨pos', h', -, -⟩ := h.reach horder hspan hclock
    rw [orderedAfter_concat, orderedOn, orderedStep_eq horder]
    split
    · exact ⟨hn, [], .none _ _⟩
    · rename_i hshort
      refine ⟨not_le.mp hshort, pos', h'.zero, h'.occurs, h'.anchor, h'.last, h'.idle, ?_⟩
      refine h'.quiet.concat ?_
      rw [completes, orderedOn, orderedStep_eq horder, if_neg hshort]

end Tracked

/-! ## Completions

Soundness reads the positions off the invariant.  Completeness needs that nothing is in progress
when the sequence begins: then the greedy progress covers every sequence from there on, position by
position (`Covering`), unless one is completed earlier.  Without that assumption it fails, since a
sequence in progress is not given up for a later beginning. -/

section Completion

variable {order : List UInt32} {span : ℚ} {eventTime : Bool} {es : List Occ} {e : Occ}

/-- The occurrences at some positions, the last of which is `e`, are a sequence in the window of
`e`. -/
structure EndsSequence (order : List UInt32) (span : ℚ) (es : List Occ) (e : Occ) (pos : List ℕ) :
    Prop where
  occurs : Occurs order (es ++ [e]) pos
  last : pos.getLast? = some es.length
  window : ∀ i ∈ pos, ∀ a, (es ++ [e])[i]? = some a → e.ts - span ≤ a.ts ∧ a.ts ≤ e.ts

/-- **A completion is the end of a sequence in the window**, the first occurrence of which found
nothing in progress, and since which nothing was completed. -/
theorem completes_sound (horder : order ≠ []) (hspan : 0 ≤ span)
    (hclock : Clocked eventTime (es ++ [e])) (h : completes order span eventTime es e = true) :
    ∃ pos, EndsSequence order span es e pos ∧
      BeginsIdle order span eventTime (es ++ [e]) pos ∧ Quiet order span eventTime es pos := by
  obtain ⟨hlt, pos, htracked⟩ := exists_tracked horder hspan es hclock.of_concat
  obtain ⟨pos', h', hwin, hnew⟩ := htracked.reach horder hspan hclock
  have hdone : order.length ≤ (orderedReach order e.hits e.ts (e.ts - span) eventTime
      (orderedAfter order span eventTime es)).progress := by
    rw [completes, orderedOn, orderedStep_eq horder] at h
    by_contra hshort
    rw [if_neg hshort] at h
    cases h
  have hoccurs := h'.occurs
  rw [List.take_of_length_le hdone] at hoccurs
  have hlast : pos'.getLast? = some es.length := by
    refine hnew.resolve_left fun heq => ?_
    have hle : ((orderedAfter order span eventTime es).expire (e.ts - span)).progress <
        order.length := by
      unfold Ordered.expire
      split
      · exact List.length_pos_iff.mpr horder
      · exact hlt
    omega
  refine ⟨pos', ⟨hoccurs, hlast, fun i hi a ha => ⟨hwin i hi a ha, ?_⟩⟩, h'.idle, h'.quiet⟩
  exact hoccurs.le_last hlast i hi a e ha List.getElem?_concat_length

/-- The first element that `takeWhile` leaves. -/
theorem getElem?_length_takeWhile {α : Type} {f : α → Bool} {xs : List α} {x : α}
    (h : xs[(xs.takeWhile f).length]? = some x) : f x = false := by
  induction xs with
  | nil => cases h
  | cons y ys ih =>
    by_cases hy : f y = true
    · rw [List.takeWhile_cons_of_pos hy, List.length_cons, List.getElem?_cons_succ] at h
      exact ih h
    · rw [List.takeWhile_cons_of_neg hy] at h
      cases h
      exact eq_false_of_ne_true hy

/-- A progress that has taken the steps before position `j` takes those at `j` too. -/
theorem Occurs.covered {pos : List ℕ} (h : Occurs order es pos) {j : ℕ} {a : Occ}
    (ha : es[j]? = some a) {o : Ordered}
    (ho : ∀ n i, pos[n]? = some i → i < j → n < o.progress) :
    ∀ n i, pos[n]? = some i → i ≤ j → n < o.progress + stepsTaken order a.hits o := by
  intro n i hn hij
  by_contra hle
  -- the first id that is not taken is hit at `j` or before
  have hlen := h.hits.length_eq
  obtain ⟨hlt, rfl⟩ := List.getElem?_eq_some_iff.mp hn
  obtain ⟨m, hm⟩ : ∃ m, m = o.progress + stepsTaken order a.hits o := ⟨_, rfl⟩
  have hmn : m ≤ n := hm ▸ not_lt.mp hle
  have hmlt : m < pos.length := lt_of_le_of_lt hmn hlt
  have hpos : pos[m] ≤ pos[n] := by
    rcases hmn.eq_or_lt with rfl | hmn
    · exact le_rfl
    · exact List.pairwise_iff_getElem.mp h.ordered m n hmlt hlt hmn
  have hj : pos[m] = j := by
    refine le_antisymm (hpos.trans hij) (not_lt.mp fun hlt' => ?_)
    have hearly := ho m _ (List.getElem?_eq_getElem hmlt) hlt'
    omega
  have hmlt' : m < order.length := hlen ▸ hmlt
  obtain ⟨b, hb, hid⟩ := h.hits.get hmlt' hmlt
  have hmget : pos.get ⟨m, hmlt⟩ = j := hj
  rw [hmget, ha] at hb
  cases hb
  have hdrop : (order.drop o.progress)[stepsTaken order a.hits o]? = some order[m] := by
    rw [List.getElem?_drop, ← hm, List.getElem?_eq_getElem hmlt']
  have hnot := getElem?_length_takeWhile hdrop
  exact of_decide_eq_false hnot hid

/-- In order of time no occurrence is too old for the sequence in progress. -/
theorem not_blocked_of_sorted (horder : order ≠ []) (hspan : 0 ≤ span)
    (hsorted : ((es ++ [e]).map Occ.ts).Pairwise (· ≤ ·)) (ws : ℚ) :
    ¬ ((orderedAfter order span eventTime es).expire ws).Blocked eventTime e.ts := by
  intro hblocked
  obtain ⟨hpos, -, hlt⟩ := hblocked
  rw [List.map_append, List.pairwise_append] at hsorted
  have hclock : Clocked eventTime es := Or.inr hsorted.1
  obtain ⟨-, pos, h⟩ := exists_tracked horder hspan es hclock
  obtain ⟨pos', h', -⟩ := h.expire ws
  have hne : pos' ≠ [] := by
    intro hnil
    have hlen := h'.length_pos
    have hn := List.length_pos_iff.mpr horder
    rw [hnil, List.length_nil] at hlen
    omega
  have hlast := List.getLast?_eq_some_getLast hne
  obtain ⟨a, ha⟩ : ∃ a, es[pos'.getLast hne]? = some a :=
    ⟨_, List.getElem?_eq_getElem (h'.occurs.lt_length _ (List.getLast_mem hne))⟩
  have hle := hsorted.2.2 _ (List.mem_map_of_mem (List.mem_of_getElem? ha)) _ List.mem_cons_self
  rw [h'.last _ a hlast ha] at hle
  exact not_le.mpr hlt hle

/-- So an occurrence adds its steps to what the window leaves. -/
theorem orderedReach_of_sorted {occs : List Occ} (horder : order ≠ []) (hspan : 0 ≤ span)
    (hsorted : (occs.map Occ.ts).Pairwise (· ≤ ·)) {j : ℕ} {a : Occ} (ha : occs[j]? = some a) :
    orderedReach order a.hits a.ts (a.ts - span) eventTime
        (orderedAfter order span eventTime (occs.take j)) =
      ((orderedAfter order span eventTime (occs.take j)).expire (a.ts - span)).add
        (stepsTaken order a.hits
          ((orderedAfter order span eventTime (occs.take j)).expire (a.ts - span))) a.ts := by
  refine orderedReach_eq (not_blocked_of_sorted horder hspan (hsorted.sublist ?_) _)
  have htake : occs.take j ++ [a] = occs.take (j + 1) := by
    rw [List.take_add_one, ha]
    rfl
  rw [htake]
  exact List.Sublist.map _ (List.take_sublist _ _)

/-- An occurrence that completes nothing leaves what it reaches. -/
theorem orderedAfter_take_succ {occs : List Occ} (horder : order ≠ []) {j : ℕ} {b : Occ}
    (hb : occs[j]? = some b)
    (hnot : completes order span eventTime (occs.take j) b = false) :
    orderedAfter order span eventTime (occs.take (j + 1)) =
      orderedReach order b.hits b.ts (b.ts - span) eventTime
        (orderedAfter order span eventTime (occs.take j)) := by
  rw [completes, orderedOn, orderedStep_eq horder] at hnot
  rw [List.take_add_one, hb, Option.toList_some, orderedAfter_concat, orderedOn,
    orderedStep_eq horder]
  split_ifs at hnot ⊢
  rfl

/-- The progress a window leaves covers a sequence up to position `j`. -/
structure Covering (pos : List ℕ) (t₀ : ℚ) (j : ℕ) (o : Ordered) : Prop where
  steps : ∀ n i, pos[n]? = some i → i < j → n < o.progress
  anchor : o.progress ≠ 0 → o.anchorTs = t₀

theorem Covering.add {pos : List ℕ} {t₀ : ℚ} {j : ℕ} {o : Ordered} {a : Occ}
    (h : Covering pos t₀ j o) (hoccurs : Occurs order es pos) (ha : es[j]? = some a)
    (hfirst : o.progress = 0 → a.ts = t₀) :
    Covering pos t₀ (j + 1) (o.add (stepsTaken order a.hits o) a.ts) := by
  refine ⟨fun n i hn hij => ?_, fun _ => ?_⟩
  · rw [Ordered.add_progress]
    exact hoccurs.covered ha h.steps n i hn (Nat.lt_succ_iff.mp hij)
  · unfold Ordered.add at *
    split_ifs at * with hk hzero
    · exact h.anchor ‹_›
    · exact hfirst hzero
    · exact h.anchor hzero

/-- A covered sequence stays in a window that holds its first occurrence. -/
theorem Covering.expire_eq {pos : List ℕ} {t₀ ws : ℚ} {j : ℕ} {o : Ordered}
    (h : Covering pos t₀ j o) (hws : ws ≤ t₀) : o.expire ws = o := by
  refine if_neg fun hexp => ?_
  obtain ⟨hpos, hlt⟩ := hexp
  rw [h.anchor hpos.ne'] at hlt
  exact not_lt.mpr hws hlt

/-- **A sequence that begins when none is in progress completes**, in order of time and unless
something was completed since its beginning. -/
theorem completes_of_idle (horder : order ≠ []) (hspan : 0 ≤ span)
    (hsorted : ((es ++ [e]).map Occ.ts).Pairwise (· ≤ ·)) {pos : List ℕ}
    (hends : EndsSequence order span es e pos)
    (hidle : BeginsIdle order span eventTime (es ++ [e]) pos)
    (hquiet : Quiet order span eventTime es pos) : completes order span eventTime es e = true := by
  have hne : pos ≠ [] := by
    intro hnil
    have hlast := hends.last
    rw [hnil] at hlast
    cases hlast
  obtain ⟨i₀, tl, hpos⟩ := List.exists_cons_of_ne_nil hne
  have hhead : pos.head? = some i₀ := by rw [hpos]; rfl
  have hmem : i₀ ∈ pos := hpos ▸ List.mem_cons_self
  have hi₀ := hends.occurs.lt_length i₀ hmem
  obtain ⟨e₀, he₀⟩ : ∃ e₀, (es ++ [e])[i₀]? = some e₀ := ⟨_, List.getElem?_eq_getElem hi₀⟩
  have hle : ∀ a ∈ es ++ [e], a.ts ≤ e.ts := by
    intro a ha
    rw [List.map_append, List.pairwise_append] at hsorted
    rcases List.mem_append.mp ha with ha | ha
    · exact hsorted.2.2 _ (List.mem_map_of_mem ha) _ List.mem_cons_self
    · rw [List.mem_singleton.mp ha]
  have hwin : e.ts - span ≤ e₀.ts := (hends.window i₀ hmem e₀ he₀).1
  -- the sequence is covered before each occurrence from its first one on
  have hnext : ∀ j a, i₀ ≤ j → (es ++ [e])[j]? = some a →
      Covering pos e₀.ts j ((orderedAfter order span eventTime ((es ++ [e]).take j)).expire
        (a.ts - span)) →
      Covering pos e₀.ts (j + 1) (orderedReach order a.hits a.ts (a.ts - span) eventTime
        (orderedAfter order span eventTime ((es ++ [e]).take j))) := by
    intro j a hj ha hcov
    rw [orderedReach_of_sorted horder hspan hsorted ha]
    refine hcov.add hends.occurs ha fun hzero => ?_
    have hji : j = i₀ := by
      refine le_antisymm (not_lt.mp fun hlt => ?_) hj
      have hstep := hcov.steps 0 i₀ (by rw [hpos]; rfl) hlt
      omega
    rw [hji, he₀] at ha
    cases ha
    rfl
  have hcover : ∀ j, i₀ ≤ j → ∀ a, (es ++ [e])[j]? = some a →
      Covering pos e₀.ts j ((orderedAfter order span eventTime ((es ++ [e]).take j)).expire
        (a.ts - span)) := by
    intro j hj
    induction j, hj using Nat.le_induction with
    | base =>
      intro a ha
      rw [hidle i₀ a hhead ha]
      refine ⟨fun n i hn hlt => ?_, fun hzero => absurd rfl hzero⟩
      have hle := (hends.occurs.head_le hhead i (List.mem_of_getElem? hn)).1
      omega
    | succ j hj ih =>
      intro a ha
      have hlt : j < es.length := by
        have hlen := (List.getElem?_eq_some_iff.mp ha).1
        rw [List.length_append, List.length_singleton] at hlen
        omega
      obtain ⟨b, hb⟩ : ∃ b, es[j]? = some b := ⟨_, List.getElem?_eq_getElem hlt⟩
      have hb' : (es ++ [e])[j]? = some b := by rw [List.getElem?_append_left hlt, hb]
      have hcov := hnext j b hj hb' (ih b hb')
      have hnot := hquiet i₀ j b hhead hj hb
      have htake : es.take j = (es ++ [e]).take j := (List.take_append_of_le_length hlt.le).symm
      rw [htake] at hnot
      rw [orderedAfter_take_succ horder hb' hnot,
        hcov.expire_eq (by linarith [hle a (List.mem_of_getElem? ha)])]
      exact hcov
  have hend : (es ++ [e])[es.length]? = some e := List.getElem?_concat_length
  have hcov := hnext es.length e (hends.occurs.le_length_concat i₀ hmem) hend
    (hcover _ (hends.occurs.le_length_concat i₀ hmem) e hend)
  rw [List.take_left] at hcov
  have hlast := hends.last
  rw [List.getLast?_eq_getElem?] at hlast
  have hdone := hcov.steps _ _ hlast (Nat.lt_succ_self _)
  have hlen := hends.occurs.hits.length_eq
  have hlpos := List.length_pos_iff.mpr hne
  rw [completes, orderedOn, orderedStep_eq horder, if_pos (by omega)]

end Completion

/-! ## Other lists of occurrences

A progress depends on the required ids that are hit and on what is in the window.  So runs that
differ in other hits, or in what is out of the window, have the same completions.  This is used to
go from the steps of a life to the events of a run. -/

section Lists

variable {order : List UInt32} {span : ℚ} {eventTime : Bool} {es es' : List Occ} {e e' : Occ}

/-- The same times, and at least the hits. -/
def Occ.Le (a b : Occ) : Prop := a.ts = b.ts ∧ ∀ id ∈ a.hits, id ∈ b.hits

theorem Occurs.mono {ids : List UInt32} {pos : List ℕ} (h : Occurs ids es pos)
    (hle : List.Forall₂ Occ.Le es es') : Occurs ids es' pos := by
  have hlen := hle.length_eq
  have hback : ∀ (i : ℕ) (a' : Occ), es'[i]? = some a' → ∃ a, es[i]? = some a ∧ a.Le a' := by
    intro i a' ha'
    obtain ⟨hlt, rfl⟩ := List.getElem?_eq_some_iff.mp ha'
    exact ⟨_, List.getElem?_eq_getElem (hlen ▸ hlt), hle.get (hlen ▸ hlt) hlt⟩
  refine ⟨h.hits.imp fun id i hex => ?_, h.ordered, h.times.imp fun himp a' b' ha' hb' => ?_⟩
  · obtain ⟨a, ha, hid⟩ := hex
    obtain ⟨hlt, rfl⟩ := List.getElem?_eq_some_iff.mp ha
    have hlt' : i < es'.length := hlen ▸ hlt
    exact ⟨es'[i], List.getElem?_eq_getElem hlt', (hle.get hlt hlt').2 id hid⟩
  · obtain ⟨a, ha, hats, -⟩ := hback _ a' ha'
    obtain ⟨b, hb, hbts, -⟩ := hback _ b' hb'
    rw [← hats, ← hbts]
    exact himp a b ha hb

theorem EndsSequence.mono {pos : List ℕ} (h : EndsSequence order span es e pos)
    (hle : List.Forall₂ Occ.Le es es') (hlast : e.Le e') :
    EndsSequence order span es' e' pos := by
  have hall : List.Forall₂ Occ.Le (es ++ [e]) (es' ++ [e']) :=
    List.rel_append hle (.cons hlast .nil)
  refine ⟨h.occurs.mono hall, h.last.trans (congrArg some hle.length_eq), fun i hi a' ha' => ?_⟩
  obtain ⟨hlt, rfl⟩ := List.getElem?_eq_some_iff.mp ha'
  have hlt' : i < (es ++ [e]).length := hall.length_eq ▸ hlt
  obtain ⟨hts, -⟩ := hall.get hlt' hlt
  have hwin := h.window i hi _ (List.getElem?_eq_getElem hlt')
  rw [← hlast.1]
  exact (show (es ++ [e])[i].ts = (es' ++ [e'])[i].ts from hts) ▸ hwin

/-- Positions behind other occurrences. -/
theorem Occurs.shift {ids : List UInt32} {pos : List ℕ} (h : Occurs ids es pos)
    (past : List Occ) : Occurs ids (past ++ es) (pos.map (past.length + ·)) := by
  have hget : ∀ i, (past ++ es)[past.length + i]? = es[i]? := by
    intro i
    rw [List.getElem?_append_right (Nat.le_add_right _ _), Nat.add_sub_cancel_left]
  refine ⟨?_, ?_, ?_⟩
  · rw [List.forall₂_map_right_iff]
    exact h.hits.imp fun id i hex => by rwa [hget]
  · exact List.pairwise_map.mpr (h.ordered.imp fun hij => Nat.add_le_add_left hij _)
  · refine List.pairwise_map.mpr (h.times.imp fun himp a b ha hb => ?_)
    rw [hget] at ha hb
    exact himp a b ha hb

theorem EndsSequence.shift {pos : List ℕ} (h : EndsSequence order span es e pos)
    (past : List Occ) :
    EndsSequence order span (past ++ es) e (pos.map (past.length + ·)) := by
  refine ⟨?_, ?_, fun i hi a ha => ?_⟩
  · rw [List.append_assoc]
    exact h.occurs.shift past
  · rw [List.getLast?_map, h.last, Option.map_some, List.length_append]
  · obtain ⟨i', hi', rfl⟩ := List.mem_map.mp hi
    rw [List.append_assoc, List.getElem?_append_right (Nat.le_add_right _ _),
      Nat.add_sub_cancel_left] at ha
    exact h.window i' hi' a ha

/-- Hits that are not required do not matter. -/
theorem orderedAdvance_congr {hits hits' : List UInt32} (now : ℚ) (rest : List UInt32)
    (h : ∀ id ∈ rest, (id ∈ hits ↔ id ∈ hits')) (o : Ordered) :
    orderedAdvance hits now eventTime rest o = orderedAdvance hits' now eventTime rest o := by
  induction rest generalizing o with
  | nil => rfl
  | cons id rest ih =>
    rw [List.forall_mem_cons] at h
    simp only [orderedAdvance, h.1, ih h.2]

theorem orderedStep_congr {hits hits' : List UInt32} (now ws : ℚ)
    (h : ∀ id ∈ order, (id ∈ hits ↔ id ∈ hits')) (o : Ordered) :
    orderedStep order hits now ws eventTime o = orderedStep order hits' now ws eventTime o := by
  have hrest : ∀ n, ∀ id ∈ order.drop n, (id ∈ hits ↔ id ∈ hits') :=
    fun n id hid => h id (List.mem_of_mem_drop hid)
  simp only [orderedStep, orderedAdvance_congr now _ (hrest _)]

/-- The same times and the same required ids. -/
def Occ.Same (order : List UInt32) (a b : Occ) : Prop :=
  a.ts = b.ts ∧ ∀ id ∈ order, (id ∈ a.hits ↔ id ∈ b.hits)

theorem orderedOn_congr (h : e.Same order e') (o : Ordered) :
    orderedOn order span eventTime o e = orderedOn order span eventTime o e' := by
  rw [orderedOn, orderedOn, h.1]
  exact orderedStep_congr _ _ h.2 o

theorem completes_congr (hes : List.Forall₂ (Occ.Same order) es es') (he : e.Same order e') :
    completes order span eventTime es e = completes order span eventTime es' e' := by
  have hfold : ∀ o, es.foldl (fun o e => (orderedOn order span eventTime o e).2) o =
      es'.foldl (fun o e => (orderedOn order span eventTime o e).2) o := by
    induction hes with
    | nil => exact fun o => rfl
    | cons hab hrest ih =>
      intro o
      rw [List.foldl_cons, List.foldl_cons, orderedOn_congr hab]
      exact ih _
  rw [completes, completes, orderedAfter, hfold, orderedOn_congr he]
  rfl

/-- **Occurrences out of the window are forgotten.** -/
theorem orderedAfter_past (horder : order ≠ []) (hspan : 0 ≤ span)
    (hsorted : (es.map Occ.ts).Pairwise (· ≤ ·)) {ws : ℚ} (hpast : ∀ a ∈ es, a.ts < ws) :
    (orderedAfter order span eventTime es).expire ws = .none := by
  have hclock : Clocked eventTime es := Or.inr hsorted
  obtain ⟨-, pos, h⟩ := exists_tracked horder hspan es hclock
  obtain ⟨pos', h', hwin⟩ := h.expire ws
  refine h'.zero ?_
  have hnil : pos' = [] := by
    refine List.eq_nil_iff_forall_not_mem.mpr fun i hi => ?_
    have ha := List.getElem?_eq_getElem (h'.occurs.lt_length i hi)
    exact not_le.mpr (hpast _ (List.mem_of_getElem? ha)) (hwin i hi _ ha)
  have hlen := h'.length_pos
  have hn := List.length_pos_iff.mpr horder
  rw [hnil, List.length_nil] at hlen
  omega

theorem completes_past (horder : order ≠ []) (hspan : 0 ≤ span) {past : List Occ}
    (hsorted : (past.map Occ.ts).Pairwise (· ≤ ·))
    (hpast : ∀ a ∈ past, ∀ b ∈ es ++ [e], a.ts < b.ts - span) :
    completes order span eventTime (past ++ es) e = completes order span eventTime es e := by
  have hnone : ∀ ws, Ordered.none.expire ws = .none := fun ws => if_neg fun h => lt_irrefl 0 h.1
  have hfirst : ∀ b ∈ es ++ [e], orderedOn order span eventTime
      (orderedAfter order span eventTime past) b = orderedOn order span eventTime .none b := by
    intro b hb
    refine orderedStep_expire horder ?_
    rw [orderedAfter_past horder hspan hsorted fun a ha => hpast a ha b hb, hnone]
  cases es with
  | nil =>
    rw [List.append_nil, completes, completes, hfirst e List.mem_cons_self]
    rfl
  | cons b es =>
    have hafter : orderedAfter order span eventTime (past ++ b :: es) =
        orderedAfter order span eventTime (b :: es) := by
      have hb := hfirst b List.mem_cons_self
      rw [orderedAfter] at hb
      rw [orderedAfter, List.foldl_append, List.foldl_cons, hb]
      rfl
    rw [completes, completes, hafter]

end Lists

end LibSigma
