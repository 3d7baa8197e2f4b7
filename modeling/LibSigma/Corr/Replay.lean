import LibSigma.Corr.Sequence
import LibSigma.Library.Reports
import LibSigma.Library.StableSort

/-!
# The reorder buffer

The watermark buffer of `eval_temporal_ordered_wm` as a machine of its own: hits wait in order of
time until the high-water mark has passed them, and are then replayed one by one in the window of
the event that flushes it.

## What the buffer is for

Events may arrive out of order by a slack `w`.  If each is at most `w` older than those before it,
the buffer replays them in order of time, and what it reports should be what the sorted events
report.  The first half of this is true (`replayed_eq`): the replay is the hits of the flushed
events in stable order of time.  The proof looks at one point of time after the other.  Between two
times the order is that of the high-water mark; at one time it is that of the insertions, which the
stable sort keeps.

## Where it differs

The second half needs two conditions, and they are about the machine that the hits are replayed to.
Hits are replayed with the window of the event that flushes them, so a sequence in progress may be
expired by an event that came long after (`SameWindow`).  And the hits of one event are replayed one
by one, while evaluated at once they may take several steps in another order (`TakenInTurn`).  Where
both agree, the buffer reports what the sorted events report.

* `reports_buffered`: a run of the buffer is a run over the hits it replays.
* `replayed_eq`: **the hits are replayed in stable order of time**, where events come within the
  slack.
* `reports_buffered_eq_sorted`: **so the buffer reports what the sorted events report**, where the
  windows agree and the hits of each event take the steps it takes at once.
-/

namespace LibSigma

open Library

/-- The progress of a group, its pending hits and its high-water mark. -/
structure Buffered where
  ordered : Ordered
  wm : List (ℚ × UInt32)
  maxTs : ℚ

/-- The hits of an occurrence, one by one. -/
def Occ.items (e : Occ) : List (ℚ × UInt32) := e.hits.map fun rid => (e.ts, rid)

/-- A hit as an occurrence. -/
def oneHit (x : ℚ × UInt32) : Occ := ⟨x.1, [x.2]⟩

/-- The hits of an event, each with the time of the event that flushes it. -/
def hitsAt (x : Occ × ℚ) : List (Occ × ℚ) := x.1.items.map fun i => (oneHit i, x.2)

section Machine

variable (order : List UInt32) (span w : ℚ)

/-- One occurrence, in the window of the event that flushes it. -/
def orderedAt (o : Ordered) (x : Occ × ℚ) : Bool × Ordered :=
  orderedStep order x.1.hits x.1.ts (x.2 - span) true o

/-- The pending hits with those of one more event. -/
def pend (wm : List (ℚ × UInt32)) (e : Occ) : List (ℚ × UInt32) :=
  e.items.foldl (fun wm x => insertLast Prod.fst x wm) wm

/-- The hits that the high-water mark has passed. -/
def due (maxTs : ℚ) (wm : List (ℚ × UInt32)) : List (ℚ × UInt32) :=
  wm.filter fun x => x.1 ≤ maxTs - w

/-- The hits that stay. -/
def kept (maxTs : ℚ) (wm : List (ℚ × UInt32)) : List (ℚ × UInt32) :=
  wm.filter fun x => maxTs - w < x.1

/-- The hits that event `e` flushes. -/
def flushedBy (maxTs : ℚ) (wm : List (ℚ × UInt32)) (e : Occ) : List (Occ × ℚ) :=
  (due w (max maxTs e.ts) (pend wm e)).map fun x => (oneHit x, e.ts)

/-- One event on the buffer. -/
def bufferedStep (b : Buffered) (e : Occ) : Bool × Buffered :=
  let out := flushedBy w b.maxTs b.wm e
  (reports (orderedAt order span) b.ordered out,
    { ordered := stateAfter (orderedAt order span) b.ordered out
      wm := kept w (max b.maxTs e.ts) (pend b.wm e)
      maxTs := max b.maxTs e.ts })

/-- The hits that a run replays, in order. -/
def replayed : ℚ → List (ℚ × UInt32) → List Occ → List (Occ × ℚ)
  | _, _, [] => []
  | maxTs, wm, e :: es =>
    flushedBy w maxTs wm e ++ replayed (max maxTs e.ts) (kept w (max maxTs e.ts) (pend wm e)) es

/-- The time of the event that carries the high-water mark past `t`. -/
def flushTime (t : ℚ) : ℚ → List Occ → Option ℚ
  | _, [] => none
  | maxTs, e :: es =>
    if t ≤ max maxTs e.ts - w then some e.ts else flushTime t (max maxTs e.ts) es

/-- The events whose hits are replayed, each with the time of the event that flushes it. -/
def flushed : ℚ → List Occ → List (Occ × ℚ)
  | _, [] => []
  | maxTs, e :: es =>
    ((flushTime w e.ts maxTs (e :: es)).map (e, ·)).toList ++ flushed (max maxTs e.ts) es

/-- A run of the buffer is a run over the hits it replays. -/
theorem reports_buffered (b : Buffered) (es : List Occ) :
    reports (bufferedStep order span w) b es =
      reports (orderedAt order span) b.ordered (replayed w b.maxTs b.wm es) := by
  induction es generalizing b with
  | nil => rfl
  | cons e es ih =>
    rw [reports, replayed, reports_append, ih]
    rfl

end Machine

/-! ## What waits

The buffer holds the hits that the high-water mark has not passed.  In terms of the run they are the
hits of some of the events so far, in stable order of time, and which these are depends on the
largest time only. -/

section Pending

variable {w maxTs t : ℚ} {wm : List (ℚ × UInt32)} {e : Occ} {es : List Occ}

theorem keyed_pend : keyed Prod.fst t (pend wm e) = keyed Prod.fst t wm ++ keyed Prod.fst t e.items := by
  unfold pend
  generalize e.items = items
  induction items generalizing wm with
  | nil => exact (List.append_nil _).symm
  | cons x items ih =>
    rw [List.foldl_cons, ih, keyed_insertLast, List.append_assoc, ← keyed_append,
      List.singleton_append]

theorem inOrder_pend (h : InOrder Prod.fst wm) : InOrder Prod.fst (pend wm e) := by
  unfold pend
  generalize e.items = items
  induction items generalizing wm with
  | nil => exact h
  | cons x items ih => exact ih (inOrder_insertLast h x)

theorem ts_of_mem_items {x : ℚ × UInt32} (h : x ∈ e.items) : x.1 = e.ts := by
  obtain ⟨rid, -, rfl⟩ := List.mem_map.mp h
  rfl

theorem mem_pend {x : ℚ × UInt32} (h : x ∈ pend wm e) : x ∈ wm ∨ x.1 = e.ts := by
  have hkeyed : x ∈ keyed Prod.fst x.1 (pend wm e) := mem_keyed.mpr ⟨h, rfl⟩
  rw [keyed_pend, List.mem_append] at hkeyed
  exact hkeyed.imp (fun hx => (mem_keyed.mp hx).1) fun hx => ts_of_mem_items (mem_keyed.mp hx).1

/-- The hits of one time are due together. -/
theorem keyed_due : keyed Prod.fst t (due w maxTs wm) =
    if t ≤ maxTs - w then keyed Prod.fst t wm else [] := by
  unfold keyed due
  rw [List.filter_filter]
  split
  · rename_i hle
    refine List.filter_congr fun x _ => ?_
    by_cases hx : x.1 = t
    · simp [hx, hle]
    · simp [hx]
  · rename_i hlt
    refine List.filter_eq_nil_iff.mpr fun x _ => ?_
    by_cases hx : x.1 = t
    · simpa [hx] using hlt
    · simp [hx]

theorem keyed_kept : keyed Prod.fst t (kept w maxTs wm) =
    if t ≤ maxTs - w then [] else keyed Prod.fst t wm := by
  unfold keyed kept
  rw [List.filter_filter]
  split
  · rename_i hle
    refine List.filter_eq_nil_iff.mpr fun x _ => ?_
    by_cases hx : x.1 = t
    · simpa [hx] using hle
    · simp [hx]
  · rename_i hlt
    refine List.filter_congr fun x _ => ?_
    by_cases hx : x.1 = t
    · simpa [hx] using hlt
    · simp [hx]

end Pending

/-! ## The order of the replay

What a whole run replays.  If each event is at most the slack older than those before it, nothing
that is flushed comes before what was flushed earlier, and so the replay is the stable sort of the
events, except for those that are still waiting. -/

section Order

variable {w maxTs t : ℚ} {wm : List (ℚ × UInt32)} {e f : Occ} {es : List Occ}

/-- A hit of the replay waited already or belongs to an event. -/
theorem mem_replayed {x : Occ × ℚ} (h : x ∈ replayed w maxTs wm es) :
    (∃ i ∈ wm, i.1 = x.1.ts) ∨ ∃ e ∈ es, e.ts = x.1.ts := by
  induction es generalizing maxTs wm with
  | nil => exact absurd h List.not_mem_nil
  | cons e es ih =>
    have hpend : ∀ i ∈ pend wm e, i.1 = x.1.ts →
        (∃ i ∈ wm, i.1 = x.1.ts) ∨ ∃ e' ∈ e :: es, e'.ts = x.1.ts := by
      intro i hi hts
      rcases mem_pend hi with hold | hnew
      · exact .inl ⟨i, hold, hts⟩
      · exact .inr ⟨e, List.mem_cons_self, hnew ▸ hts⟩
    rw [replayed, List.mem_append] at h
    rcases h with hnow | hlater
    · obtain ⟨i, hi, rfl⟩ := List.mem_map.mp hnow
      exact hpend i (List.mem_filter.mp hi).1 rfl
    · rcases ih hlater with ⟨i, hi, hts⟩ | ⟨e', he', hts⟩
      · exact hpend i (List.mem_filter.mp hi).1 hts
      · exact .inr ⟨e', List.mem_cons_of_mem _ he', hts⟩

/-- Each event is at most the slack older than those before it. -/
def InSlack (w : ℚ) (es : List Occ) : Prop := es.Pairwise fun a b => a.ts ≤ b.ts + w

/-- Events at or before `-w`, which the high-water mark `0` of a new group has passed, come in order
of time. -/
def EarlyInOrder (w : ℚ) (es : List Occ) : Prop := es.Pairwise fun a b => a.ts ≤ -w → a.ts ≤ b.ts

/-- **The replay is in order of time.**  What is flushed is not after the high-water mark less the
slack, what stays is, and so is what comes. -/
theorem inOrder_replayed (hwm : InOrder Prod.fst wm) (hzero : 0 ≤ maxTs)
    (hold : ∀ x ∈ wm, ∀ y ∈ es, x.1 ≤ -w → x.1 ≤ y.ts)
    (hhigh : ∀ y ∈ es, 0 < maxTs → maxTs ≤ y.ts + w) (hslack : InSlack w es)
    (hearly : EarlyInOrder w es) : InOrder (fun x => x.1.ts) (replayed w maxTs wm es) := by
  induction es generalizing maxTs wm with
  | nil => exact .nil
  | cons e es ih =>
    obtain ⟨hslack₁, hslack⟩ := List.pairwise_cons.mp hslack
    obtain ⟨hearly₁, hearly⟩ := List.pairwise_cons.mp hearly
    have hpend : InOrder Prod.fst (pend wm e) := inOrder_pend hwm
    have hzero' : 0 ≤ max maxTs e.ts := le_max_of_le_left hzero
    have hhigh' : ∀ y ∈ es, 0 < max maxTs e.ts → max maxTs e.ts ≤ y.ts + w := by
      intro y hy hpos
      rcases le_total e.ts maxTs with hle | hle
      · rw [max_eq_left hle] at hpos ⊢
        exact hhigh y (List.mem_cons_of_mem _ hy) hpos
      · rw [max_eq_right hle]
        exact hslack₁ y hy
    refine List.pairwise_append.mpr ⟨?_, ?_, ?_⟩
    · exact List.pairwise_map.mpr (hpend.filter _)
    · refine ih (hpend.filter _) hzero' (fun x hx y _ hle => ?_) hhigh' hslack hearly
      -- nothing that stays is that early
      have hlt : max maxTs e.ts - w < x.1 := of_decide_eq_true (List.mem_filter.mp hx).2
      linarith
    · intro x hx y hy
      obtain ⟨i, hi, rfl⟩ := List.mem_map.mp hx
      obtain ⟨hmem, hdue⟩ := List.mem_filter.mp hi
      have hle : i.1 ≤ max maxTs e.ts - w := of_decide_eq_true hdue
      change i.1 ≤ y.1.ts
      rcases mem_replayed hy with ⟨k, hk, hts⟩ | ⟨z, hz, hts⟩
      · have hlt : max maxTs e.ts - w < k.1 := of_decide_eq_true (List.mem_filter.mp hk).2
        rw [← hts]
        exact hle.trans hlt.le
      · rw [← hts]
        rcases hzero'.lt_or_eq with hpos | heq
        · linarith [hhigh' z hz hpos]
        · have hneg : i.1 ≤ -w := by linarith
          rcases mem_pend hmem with hwait | hnew
          · exact hold i hwait z (List.mem_cons_of_mem _ hz) hneg
          · rw [hnew] at hneg ⊢
            exact hearly₁ z hz hneg

/-- The hits of an event, among those of time `t`. -/
theorem keyed_hitsAt (x : Occ × ℚ) : keyed (fun y : Occ × ℚ => y.1.ts) t (hitsAt x) =
    (keyed Prod.fst t x.1.items).map fun i => (oneHit i, x.2) :=
  List.filter_map ..

/-- **Each time has its hits replayed in the order in which they came**, all by the same event. -/
theorem keyed_replayed : keyed (fun x => x.1.ts) t (replayed w maxTs wm es) =
    (flushTime w t maxTs es).toList.flatMap (fun F =>
        (keyed Prod.fst t wm).map fun i => (oneHit i, F)) ++
      keyed (fun x => x.1.ts) t ((flushed w maxTs es).flatMap hitsAt) := by
  induction es generalizing maxTs wm with
  | nil => rfl
  | cons e es ih =>
    -- the hits of `e` are flushed with those of its time that wait
    have hhead : keyed (fun x => x.1.ts) t
        (((flushTime w e.ts maxTs (e :: es)).map (e, ·)).toList.flatMap hitsAt) =
        (flushTime w t maxTs (e :: es)).toList.flatMap fun F =>
          (keyed Prod.fst t e.items).map fun i => (oneHit i, F) := by
      by_cases hts : e.ts = t
      · rw [hts]
        cases flushTime w t maxTs (e :: es) with
        | none => rfl
        | some F => simp [keyed_hitsAt]
      · have hnil : keyed Prod.fst t e.items = [] :=
          keyed_eq_nil fun i hi => ts_of_mem_items hi ▸ hts
        rw [hnil]
        cases flushTime w e.ts maxTs (e :: es) with
        | none => simp
        | some F => simp [keyed_hitsAt, hnil]
    have hnow : keyed (fun x => x.1.ts) t (flushedBy w maxTs wm e) =
        (keyed Prod.fst t (due w (max maxTs e.ts) (pend wm e))).map fun i => (oneHit i, e.ts) :=
      List.filter_map ..
    rw [replayed, keyed_append, hnow, ih, flushed, List.flatMap_append, keyed_append, hhead,
      keyed_due, keyed_kept, keyed_pend, ← List.append_assoc, ← List.append_assoc, flushTime]
    congr 1
    split
    · simp
    · cases flushTime w t (max maxTs e.ts) es with
      | none => rfl
      | some F => simp

/-- **What a run replays** are the hits of the flushed events, in stable order of time. -/
theorem replayed_eq (hslack : InSlack w es) (hearly : EarlyInOrder w es) :
    replayed w 0 [] es = (sortBy (fun x => x.1.ts) (flushed w 0 es)).flatMap hitsAt := by
  have hparts : ∀ x : Occ × ℚ, ∀ y ∈ hitsAt x, y.1.ts = x.1.ts := by
    intro x y hy
    obtain ⟨i, hi, rfl⟩ := List.mem_map.mp hy
    exact ts_of_mem_items hi
  have horder : InOrder (fun x => x.1.ts) (replayed w 0 [] es) :=
    inOrder_replayed .nil le_rfl (fun x hx => absurd hx List.not_mem_nil)
      (fun y _ hpos => absurd hpos (lt_irrefl 0)) hslack hearly
  refine eq_of_inOrder horder (inOrder_flatMap hparts (inOrder_sortBy _)) fun t => ?_
  have hkeyed : keyed (fun x => x.1.ts) t (replayed w 0 [] es) =
      keyed (fun x => x.1.ts) t ((flushed w 0 es).flatMap hitsAt) := by
    rw [keyed_replayed]
    cases flushTime w t 0 es <;> rfl
  rw [hkeyed, keyed_flatMap hparts, keyed_flatMap hparts, keyed_sortBy]

/-- An event that is late enough carries the high-water mark past `t`. -/
theorem flushTime_isSome (hf : f ∈ es) (hlt : t + w ≤ f.ts) : (flushTime w t maxTs es).isSome := by
  induction es generalizing maxTs with
  | nil => exact absurd hf List.not_mem_nil
  | cons e es ih =>
    rw [flushTime]
    split
    · rfl
    · rename_i hwait
      rcases List.mem_cons.mp hf with rfl | hmem
      · exact absurd (by linarith [le_max_right maxTs f.ts]) hwait
      · exact ih hmem

/-- **The events before the last are flushed**, by it at the latest, and the last is not. -/
theorem map_fst_flushed (hw : 0 < w) (hlt : ∀ e ∈ es, e.ts + w < f.ts) (hmax : maxTs < f.ts + w) :
    (flushed w maxTs (es ++ [f])).map Prod.fst = es := by
  induction es generalizing maxTs with
  | nil =>
    have hwait : ¬ f.ts ≤ max maxTs f.ts - w := by
      have hmax' := max_lt hmax (lt_add_of_pos_right f.ts hw)
      linarith
    simp [flushed, flushTime, hwait]
  | cons e es ih =>
    rw [List.forall_mem_cons] at hlt
    have hsome : (flushTime w e.ts maxTs (e :: (es ++ [f]))).isSome :=
      flushTime_isSome (List.mem_append_right (e :: es) List.mem_cons_self) hlt.1.le
    obtain ⟨F, hF⟩ := Option.isSome_iff_exists.mp hsome
    rw [List.cons_append, flushed, hF, List.map_append, ih hlt.2 (max_lt hmax (by linarith [hlt.1]))]
    rfl

end Order

/-! ## Windows and steps

Two things remain different from evaluating the sorted events.  A hit is evaluated in the window of
the event that flushes it, which is later than its own.  And the hits of an event come one at a
time, where the event takes all its steps at once.  `SameWindow` and `TakenInTurn` are the
conditions under which neither matters. -/

section Faithful

variable (order : List UInt32) (span w : ℚ)

/-- The first step of the sequence in progress is in the window of a hit exactly when it is in the
window of the event that flushes the hit. -/
def SameWindow (o : Ordered) (x : Occ × ℚ) : Prop :=
  0 < o.progress → (x.1.ts - span ≤ o.anchorTs ↔ x.2 - span ≤ o.anchorTs)

instance (o : Ordered) (x : Occ × ℚ) : Decidable (SameWindow span o x) :=
  inferInstanceAs (Decidable (_ → _))

/-- The steps that hits take one after the other. -/
def stepsInTurn : ℕ → List UInt32 → ℕ
  | _, [] => 0
  | p, rid :: hits =>
    let k := ((order.drop p).takeWhile fun id => decide (id = rid)).length
    k + stepsInTurn (p + k) hits

/-- The hits of an event take one after the other the steps that they take at once. -/
def TakenInTurn (o : Ordered) (e : Occ) : Prop :=
  stepsInTurn order (o.expire (e.ts - span)).progress e.hits =
    stepsTaken order e.hits (o.expire (e.ts - span))

instance (o : Ordered) (e : Occ) : Decidable (TakenInTurn order span o e) :=
  inferInstanceAs (Decidable (_ = _))

/-- The hits of an event as occurrences. -/
def Occ.singles (e : Occ) : List Occ := e.hits.map fun rid => ⟨e.ts, [rid]⟩

variable {order span w} {o : Ordered} {e f : Occ} {es : List Occ} {t : ℚ}

theorem SameWindow.orderedAt_eq (horder : order ≠ []) {x : Occ × ℚ} (h : SameWindow span o x) :
    orderedAt order span o x = orderedOn order span true o x.1 := by
  have hexpire : o.expire (x.2 - span) = o.expire (x.1.ts - span) := by
    unfold Ordered.expire
    by_cases hpos : 0 < o.progress
    · have hiff := not_congr (h hpos)
      rw [not_le, not_le] at hiff
      simp only [hpos, true_and, hiff]
    · rw [if_neg fun hold => hpos hold.1, if_neg fun hold => hpos hold.1]
  rw [orderedAt, orderedOn, orderedStep_eq horder, orderedStep_eq horder, orderedReach,
    orderedReach, hexpire]

theorem stepsTaken_singleton (rid : UInt32) : stepsTaken order [rid] o =
    ((order.drop o.progress).takeWhile fun id => decide (id = rid)).length := by
  simp [stepsTaken]

theorem Ordered.add_add (o : Ordered) (k k' : ℕ) : (o.add k t).add k' t = o.add (k + k') t := by
  unfold Ordered.add
  by_cases hk : k = 0
  · simp [hk]
  · by_cases hk' : k' = 0
    · simp [hk']
    · simp [hk, hk', Nat.add_assoc]

/-- More steps at a time of the window leave a sequence in the window. -/
theorem Ordered.add_expire {ws : ℚ} (hlive : o.expire ws = o) (hle : ws ≤ t) (k : ℕ) :
    (o.add k t).expire ws = o.add k t := by
  have hkeep : ¬ (0 < o.progress ∧ o.anchorTs < ws) := by
    intro hold
    have hnone : o.expire ws = .none := if_pos hold
    rw [← hlive, hnone] at hold
    exact lt_irrefl 0 hold.1
  refine if_neg fun hold => ?_
  unfold Ordered.add at hold
  split at hold
  · exact hkeep hold
  · obtain ⟨-, hold⟩ := hold
    dsimp only at hold
    split at hold
    · exact not_lt.mpr hle hold
    · rename_i hprog
      exact hkeep ⟨Nat.pos_of_ne_zero hprog, hold⟩

/-- An occurrence on a sequence that its window leaves. -/
theorem orderedOn_live (horder : order ≠ []) (hlive : o.expire (t - span) = o)
    (hopen : ¬ o.Blocked true t) (hits : List UInt32) :
    orderedOn order span true o ⟨t, hits⟩ =
      if order.length ≤ o.progress + stepsTaken order hits o then (true, .none)
      else (false, o.add (stepsTaken order hits o) t) := by
  have hreach : orderedReach order hits t (t - span) true o =
      o.add (stepsTaken order hits o) t := by
    rw [orderedReach_eq (hlive.symm ▸ hopen), hlive]
  rw [orderedOn, orderedStep_eq horder, hreach, Ordered.add_progress]

theorem orderedOn_blocked (horder : order ≠ []) (hlive : o.expire (t - span) = o)
    (hblocked : o.Blocked true t) (hits : List UInt32) :
    orderedOn order span true o ⟨t, hits⟩ =
      if order.length ≤ o.progress then (true, .none) else (false, o) := by
  have hreach : orderedReach order hits t (t - span) true o = o := by
    rw [orderedReach, hlive, orderedAdvance_blocked hblocked]
  rw [orderedOn, orderedStep_eq horder, hreach]

/-- **Hits one after the other** take their steps and complete the sequence at the last. -/
theorem reports_singles (hspan : 0 ≤ span) (horder : order ≠ [])
    (hlive : o.expire (t - span) = o) (hopen : ¬ o.Blocked true t)
    (hlt : o.progress < order.length) (hits : List UInt32) :
    reports (orderedOn order span true) o (Occ.singles ⟨t, hits⟩) =
        decide (order.length ≤ o.progress + stepsInTurn order o.progress hits) ∧
      (o.progress + stepsInTurn order o.progress hits < order.length →
        stateAfter (orderedOn order span true) o (Occ.singles ⟨t, hits⟩) =
          o.add (stepsInTurn order o.progress hits) t) := by
  induction hits generalizing o with
  | nil =>
    refine ⟨?_, fun _ => rfl⟩
    exact (decide_eq_false (Nat.not_le_of_lt hlt)).symm
  | cons rid hits ih =>
    have hstep := orderedOn_live horder hlive hopen [rid]
    rw [stepsTaken_singleton] at hstep
    rw [stepsInTurn]
    generalize ((order.drop o.progress).takeWhile fun id => decide (id = rid)).length = k at hstep ⊢
    change reports _ o (⟨t, [rid]⟩ :: Occ.singles ⟨t, hits⟩) = _ ∧
      (_ → stateAfter _ o (⟨t, [rid]⟩ :: Occ.singles ⟨t, hits⟩) = _)
    by_cases hdone : order.length ≤ o.progress + k
    · rw [if_pos hdone] at hstep
      rw [reports, hstep, Bool.true_or]
      exact ⟨(decide_eq_true (by omega)).symm, fun hlt' => by omega⟩
    · rw [if_neg hdone] at hstep
      have hlive' := Ordered.add_expire hlive (sub_le_self t hspan) k
      have hopen' : ¬ (o.add k t).Blocked true t := by
        by_cases hk : k = 0
        · rwa [Ordered.add, if_pos hk]
        · rw [Ordered.add, if_neg hk]
          exact fun hblocked => lt_irrefl t hblocked.2.2
      obtain ⟨hreports, hafter⟩ := ih hlive' hopen' (by rw [Ordered.add_progress]; omega)
      rw [Ordered.add_progress] at hreports hafter
      rw [reports, hstep, Bool.false_or, hreports, Nat.add_assoc]
      refine ⟨rfl, fun hlt' => ?_⟩
      rw [stateAfter, List.foldl_cons, hstep]
      exact (hafter (by omega)).trans (o.add_add k _)

/-- A sequence too new for the hits is left as it is. -/
theorem reports_singles_blocked (horder : order ≠ []) (hlive : o.expire (t - span) = o)
    (hblocked : o.Blocked true t) (hlt : o.progress < order.length) (hits : List UInt32) :
    reports (orderedOn order span true) o (Occ.singles ⟨t, hits⟩) = false ∧
      stateAfter (orderedOn order span true) o (Occ.singles ⟨t, hits⟩) = o := by
  induction hits with
  | nil => exact ⟨rfl, rfl⟩
  | cons rid hits ih =>
    have hstep := orderedOn_blocked horder hlive hblocked [rid]
    rw [if_neg (Nat.not_le_of_lt hlt)] at hstep
    change reports _ o (⟨t, [rid]⟩ :: Occ.singles ⟨t, hits⟩) = _ ∧
      stateAfter _ o (⟨t, [rid]⟩ :: Occ.singles ⟨t, hits⟩) = _
    rw [reports, hstep, Bool.false_or, stateAfter, List.foldl_cons, hstep]
    exact ih

/-- **An event whose hits take in turn the steps that they take at once.** -/
theorem TakenInTurn.reports_eq (hspan : 0 ≤ span) (horder : order ≠ []) (hhits : e.hits ≠ [])
    (h : TakenInTurn order span o e) :
    reports (orderedOn order span true) o e.singles = (orderedOn order span true o e).1 ∧
      ((orderedOn order span true o e).1 = false →
        stateAfter (orderedOn order span true) o e.singles = (orderedOn order span true o e).2) := by
  obtain ⟨t, hits⟩ := e
  obtain ⟨rid, hits', rfl⟩ := List.exists_cons_of_ne_nil hhits
  unfold TakenInTurn at h
  dsimp only at h
  -- the window is left before the first hit
  have hexpire : ∀ l, orderedOn order span true o ⟨t, l⟩ =
      orderedOn order span true (o.expire (t - span)) ⟨t, l⟩ := fun l =>
    orderedStep_expire horder (Ordered.expire_expire le_rfl).symm
  have hsingles : Occ.singles ⟨t, rid :: hits'⟩ = ⟨t, [rid]⟩ :: Occ.singles ⟨t, hits'⟩ := rfl
  rw [hsingles, reports_cons_congr (hexpire [rid]), stateAfter_cons_congr (hexpire [rid]), hexpire,
    ← hsingles]
  have hlive : (o.expire (t - span)).expire (t - span) = o.expire (t - span) :=
    Ordered.expire_expire le_rfl
  generalize o.expire (t - span) = o' at h hlive ⊢
  by_cases hlt : o'.progress < order.length
  · by_cases hblocked : o'.Blocked true t
    · obtain ⟨hreports, hafter⟩ := reports_singles_blocked horder hlive hblocked hlt (rid :: hits')
      rw [hreports, hafter, orderedOn_blocked horder hlive hblocked,
        if_neg (Nat.not_le_of_lt hlt)]
      exact ⟨rfl, fun _ => rfl⟩
    · obtain ⟨hreports, hafter⟩ := reports_singles hspan horder hlive hblocked hlt (rid :: hits')
      rw [h] at hreports hafter
      rw [hreports, orderedOn_live horder hlive hblocked]
      split
      · rename_i hdone
        exact ⟨decide_eq_true hdone, fun hfalse => absurd hfalse (by simp)⟩
      · rename_i hdone
        exact ⟨decide_eq_false hdone, fun _ => hafter (Nat.lt_of_not_le hdone)⟩
  · -- the first hit completes what is complete already
    have hdone : ∀ l, (orderedOn order span true o' ⟨t, l⟩).1 = true := by
      intro l
      by_cases hblocked : o'.Blocked true t
      · rw [orderedOn_blocked horder hlive hblocked, if_pos (Nat.le_of_not_lt hlt)]
      · rw [orderedOn_live horder hlive hblocked, if_pos (by omega)]
    rw [hsingles, reports, hdone, hdone, Bool.true_or]
    exact ⟨rfl, fun hfalse => absurd hfalse (by simp)⟩

variable (order span w) in
/-- What makes the replay of `es`, flushed by `f`, faithful. -/
structure ReplaysFaithfully (es : List Occ) (f : Occ) : Prop where
  early : EarlyInOrder w es
  flush : -w < f.ts
  windows : UntilReport (orderedAt order span) (SameWindow span) .none (replayed w 0 [] (es ++ [f]))
  inTurn : UntilReport (orderedOn order span true) (TakenInTurn order span) .none (sortBy Occ.ts es)

/-- **The buffer reports what the sorted events report.** -/
theorem reports_buffered_eq_sorted (hspan : 0 ≤ span) (horder : order ≠ []) (hw : 0 < w)
    (hhits : ∀ e ∈ es, e.hits ≠ []) (hslack : InSlack w es) (hlt : ∀ e ∈ es, e.ts + w < f.ts)
    (h : ReplaysFaithfully order span w es f) :
    reports (bufferedStep order span w) ⟨.none, [], 0⟩ (es ++ [f]) =
      reports (orderedOn order span true) .none (sortBy Occ.ts es) := by
  have hslack' : InSlack w (es ++ [f]) :=
    List.pairwise_append.mpr ⟨hslack, List.pairwise_singleton _ _, fun a ha b hb => by
      rw [List.mem_singleton.mp hb]
      linarith [hlt a ha]⟩
  have hearly' : EarlyInOrder w (es ++ [f]) :=
    List.pairwise_append.mpr ⟨h.early, List.pairwise_singleton _ _, fun a ha b hb _ => by
      rw [List.mem_singleton.mp hb]
      linarith [hlt a ha]⟩
  have hsorted : (sortBy (fun x => x.1.ts) (flushed w 0 (es ++ [f]))).map Prod.fst =
      sortBy Occ.ts es := by
    have hmap : (sortBy (fun x => x.1.ts) (flushed w 0 (es ++ [f]))).map Prod.fst =
        sortBy Occ.ts ((flushed w 0 (es ++ [f])).map Prod.fst) := map_sortBy Prod.fst _
    rw [hmap, map_fst_flushed hw hlt (by linarith [h.flush])]
  -- the replayed hits are those of the sorted events
  have hsingles : (replayed w 0 [] (es ++ [f])).map Prod.fst =
      (sortBy Occ.ts es).flatMap Occ.singles := by
    rw [replayed_eq hslack' hearly', List.map_flatMap, ← hsorted, List.flatMap_map]
    refine List.flatMap_congr fun x _ => ?_
    simp [hitsAt, Occ.singles, Occ.items, oneHit, Function.comp_def]
  calc reports (bufferedStep order span w) ⟨.none, [], 0⟩ (es ++ [f])
      = reports (orderedAt order span) .none (replayed w 0 [] (es ++ [f])) :=
        reports_buffered order span w _ _
    _ = reports (orderedOn order span true) .none ((replayed w 0 [] (es ++ [f])).map Prod.fst) := by
        rw [reports_map]
        exact (reports_congr (h.windows.mono fun o x hsame =>
          (hsame.orderedAt_eq horder).symm)).symm
    _ = reports (orderedOn order span true) .none (sortBy Occ.ts es) := by
        rw [hsingles]
        refine reports_flatMap ((h.inTurn.and_mem fun e he => ?_).mono fun o e htaken =>
          htaken.1.reports_eq hspan horder htaken.2)
        exact hhits e (List.mem_mergeSort.mp he)

end Faithful

end LibSigma
