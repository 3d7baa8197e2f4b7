import Mathlib.Data.List.MinMax
import LibSigma.Corr.Watermark
import LibSigma.Library.BoundedQueue

/-!
# The order of the pending items

The watermark buffer is meant as a bounded queue: pending items in order of time, those of one time
in the order of their arrival, and a full buffer loses the oldest.  It makes room by putting its
last item in the place of the oldest, which the insertion then takes to be in order.

The source is right about what is lost (`perm_wmDropOldest`) and wrong about the order of what
stays.  The insertion walks from the end and stops at the first item that is not later, so that an
item which is out of place before it is never seen.  The order is kept if the buffer had one item,
or if all items behind the oldest are the same; then there is nothing to disturb.  Otherwise the
last item is now first, and later than the second.

The statement is about runs of inserts and flushes, and about every state of a run, because a buffer
that was disturbed may be in order again after a flush.

* `evalTemporalOrderedWm_calls`: an evaluation inserts its hits one by one and flushes.
* `perm_wmDropOldest`: a full buffer loses an item that no other is older than.
* `sortedAs_insert_iff`, `sortedAs_flush`: **a flush keeps the order, and so does an insert unless
  it finds the buffer full, of different items behind the oldest.**
* `pending_sorted_iff`: **a run keeps the order in every state exactly if no insert does.**
* `full_buffer_reordered`: 33 hits one after the other.
-/

namespace LibSigma

open Library

/-! ## Calls on the buffer -/

/-- What changes the buffer of a group: `wm_insert`, and the flush of `eval_temporal_ordered_wm`. -/
inductive WmCall
  | insert (ts : ℚ) (rid : UInt32)
  | flush (r : CorrRule) (now windowStart watermarkS : ℚ)

/-- A call on a group; the flush is that of an evaluation without hits. -/
def WmCall.apply (g : Group) : WmCall → Group
  | .insert ts rid => (wmInsert ts (g, []) rid).1
  | .flush r now windowStart watermarkS =>
    (evalTemporalOrderedWm r g [] now windowStart watermarkS).2.1

/-- A new group after the calls. -/
def wmGroup (evCap : ℕ) (calls : List WmCall) : Group := calls.foldl WmCall.apply (groupNew evCap)

/-- The queue that the buffer stands for: what is pending in the order of its arrival, and the
high-water mark. -/
structure WmQueue where
  arrived : List (ℚ × UInt32)
  maxTs : ℚ

/-- A call on the queue; the flush of an event behind the slack does nothing. -/
def WmQueue.apply (q : WmQueue) : WmCall → WmQueue
  | .insert ts rid => ⟨enqueue Prod.fst corrWmCap (ts, rid) q.arrived, max q.maxTs ts⟩
  | .flush _ now _ watermarkS =>
    if 0 < q.maxTs ∧ now + watermarkS < q.maxTs then q
    else ⟨q.arrived.filter fun x => max q.maxTs now - watermarkS < x.1, max q.maxTs now⟩

/-- An empty queue after the calls. -/
def wmQueue (calls : List WmCall) : WmQueue := calls.foldl WmQueue.apply ⟨[], 0⟩

section Calls

variable {r : CorrRule} {now ws w : ℚ}

/-- The counters of an insertion do not matter to the group. -/
theorem foldl_insert (hits : List UInt32) (g : Group) (incs : List CorrCounter) :
    (hits.foldl (wmInsert now) (g, incs)).1 = (hits.map (WmCall.insert now)).foldl WmCall.apply g := by
  induction hits generalizing g incs with
  | nil => rfl
  | cons rid hits ih => exact ih (wmInsert now (g, incs) rid).1 (wmInsert now (g, incs) rid).2

/-- Inserting the hits of an event within the slack leaves it there. -/
theorem slack_foldl_insert (hw : 0 ≤ w) (hits : List UInt32) {g : Group}
    (hslack : 0 < g.wmMaxTs → g.wmMaxTs ≤ now + w) :
    0 < ((hits.map (WmCall.insert now)).foldl WmCall.apply g).wmMaxTs →
      ((hits.map (WmCall.insert now)).foldl WmCall.apply g).wmMaxTs ≤ now + w := by
  induction hits generalizing g with
  | nil => exact hslack
  | cons rid hits ih =>
    refine ih ?_
    show 0 < (if g.wmMaxTs < now then now else g.wmMaxTs) →
      (if g.wmMaxTs < now then now else g.wmMaxTs) ≤ now + w
    split
    · exact fun _ => le_add_of_nonneg_right hw
    · exact hslack

/-- **An evaluation inserts its hits one by one and flushes.** -/
theorem evalTemporalOrderedWm_calls (hw : 0 ≤ w) (hits : List UInt32) {g : Group}
    (hslack : 0 < g.wmMaxTs → g.wmMaxTs ≤ now + w) :
    (evalTemporalOrderedWm r g hits now ws w).2.1 =
      (hits.map (WmCall.insert now) ++ [WmCall.flush r now ws w]).foldl WmCall.apply g := by
  have hslack' := slack_foldl_insert hw hits hslack
  rw [List.foldl_append, ← foldl_insert hits g []]
  rw [← foldl_insert hits g []] at hslack'
  show _ = (evalTemporalOrderedWm r (hits.foldl (wmInsert now) (g, [])).1 [] now ws w).2.1
  rw [evalTemporalOrderedWm, evalTemporalOrderedWm,
    if_neg fun h => not_lt.mpr (hslack h.1) h.2, if_neg fun h => not_lt.mpr (hslack' h.1) h.2]
  rfl

/-- An evaluation behind the slack leaves the buffer as it is. -/
theorem wm_of_late (hits : List UInt32) {g : Group} (hlate : 0 < g.wmMaxTs ∧ now + w < g.wmMaxTs) :
    (evalTemporalOrderedWm r g hits now ws w).2.1.wm = g.wm := by
  rw [evalTemporalOrderedWm, if_pos hlate]
  rfl

end Calls

/-! ## Steps -/

section Steps

variable {g : Group} {q : WmQueue}

/-- In whatever order, a full buffer loses an item that no other is older than. -/
theorem perm_wmDropOldest {wm : List (ℚ × UInt32)} (hne : wm ≠ []) :
    ∃ x ∈ wm, (∀ y ∈ wm, x.1 ≤ y.1) ∧ (x :: wmDropOldest wm).Perm wm := by
  let oldest := fun e : ℚ × UInt32 => wm.all fun e' => decide (e.1 ≤ e'.1)
  obtain ⟨m, hm⟩ := Option.ne_none_iff_exists'.mp
    (mt (List.argmin_eq_none (f := Prod.fst) (l := wm)).mp hne)
  have hfind : wm.findIdx oldest < wm.length := by
    refine List.findIdx_lt_length.mpr ⟨m, List.argmin_mem hm, ?_⟩
    exact List.all_eq_true.mpr fun y hy => decide_eq_true (List.le_of_mem_argmin hy hm)
  have hall : ∀ y ∈ wm, (wm[wm.findIdx oldest]).1 ≤ y.1 := fun y hy =>
    of_decide_eq_true (List.all_eq_true.mp (List.findIdx_getElem (p := oldest)) y hy)
  refine ⟨wm[wm.findIdx oldest], List.getElem_mem hfind, hall, ?_⟩
  rw [wmDropOldest, List.getLast?_eq_some_getLast hne]
  exact perm_set_dropLast hne hfind

/-- A full buffer in order puts its last item in front. -/
theorem wmDropOldest_cons {x : ℚ × UInt32} {l : List (ℚ × UInt32)}
    (hsorted : InOrder Prod.fst (x :: l)) (hne : l ≠ []) :
    wmDropOldest (x :: l) = l.getLast hne :: l.dropLast := by
  have hleast : ((x :: l).all fun y => decide (x.1 ≤ y.1)) = true := by
    refine List.all_eq_true.mpr fun y hy => decide_eq_true ?_
    rcases List.mem_cons.mp hy with rfl | hy
    · exact le_rfl
    · exact (List.pairwise_cons.mp hsorted).1 y hy
  have hfirst : ((x :: l).findIdx fun e => (x :: l).all fun e' => decide (e.1 ≤ e'.1)) = 0 := by
    rw [List.findIdx_cons, hleast]
    rfl
  have hlast : (x :: l).getLast? = some (l.getLast hne) := by
    rw [List.getLast?_eq_some_getLast (List.cons_ne_nil x l), List.getLast_cons hne]
  rw [wmDropOldest, hlast]
  dsimp only
  rw [hfirst, List.set_cons_zero, List.dropLast_cons_of_ne_nil hne]

/-- **An insert keeps the order unless it finds the buffer full, of different items behind the
oldest.** -/
theorem sortedAs_insert_iff (h : SortedAs Prod.fst g.wm q.arrived) (ts : ℚ) (rid : UInt32) :
    SortedAs Prod.fst (WmCall.apply g (.insert ts rid)).wm (q.apply (.insert ts rid)).arrived ↔
      (corrWmCap ≤ g.wm.length → ∀ x ∈ g.wm.tail, ∀ y ∈ g.wm.tail, x = y) := by
  have hlen := h.length_eq
  rw [WmCall.apply, wm_wmInsert]
  show SortedAs Prod.fst _ ((if corrWmCap ≤ q.arrived.length then _ else _) ++ [(ts, rid)]) ↔ _
  rw [SortedAs.insertLast_iff, ← hlen]
  by_cases hfull : corrWmCap ≤ g.wm.length
  · rw [if_pos hfull, if_pos hfull]
    cases hwm : g.wm with
    | nil =>
      rw [hwm] at hfull
      exact absurd hfull (by decide)
    | cons x l =>
      rw [hwm] at h hfull
      have hne : l ≠ [] := by
        rintro rfl
        rw [List.length_singleton] at hfull
        exact absurd hfull (by decide)
      rw [wmDropOldest_cons h.inOrder hne, List.tail_cons, ← cons_dropLast_iff hne]
      constructor
      · exact fun hsorted _ => hsorted.unique h.tail
      · intro hsame
        rw [hsame hfull]
        exact h.tail
  · rw [if_neg hfull, if_neg hfull]
    exact ⟨fun _ hfull' => absurd hfull' hfull, fun _ => h⟩

theorem maxTs_insert (hmax : g.wmMaxTs = q.maxTs) (ts : ℚ) (rid : UInt32) :
    (WmCall.apply g (.insert ts rid)).wmMaxTs = (q.apply (.insert ts rid)).maxTs := by
  show (if g.wmMaxTs < ts then ts else g.wmMaxTs) = max q.maxTs ts
  rw [hmax]
  exact (max_def_lt _ _).symm

/-- A flush drops from the buffer what it drops from the queue. -/
theorem flush_eq (hmax : g.wmMaxTs = q.maxTs) (r : CorrRule) (now ws w : ℚ) :
    ∃ p : ℚ × UInt32 → Bool,
      (WmCall.apply g (.flush r now ws w)).wm = g.wm.filter p ∧
        (q.apply (.flush r now ws w)).arrived = q.arrived.filter p ∧
        (WmCall.apply g (.flush r now ws w)).wmMaxTs = (q.apply (.flush r now ws w)).maxTs := by
  by_cases hlate : 0 < g.wmMaxTs ∧ now + w < g.wmMaxTs
  · refine ⟨fun _ => true, ?_, ?_, ?_⟩
    · rw [List.filter_true]
      exact wm_of_late [] hlate
    · rw [List.filter_true, WmQueue.apply, if_pos (hmax ▸ hlate)]
    · rw [WmQueue.apply, if_pos (hmax ▸ hlate)]
      show (evalTemporalOrderedWm r g [] now ws w).2.1.wmMaxTs = _
      rw [evalTemporalOrderedWm, if_pos hlate]
      exact hmax
  · have hmark : (if g.wmMaxTs < now then now else g.wmMaxTs) = max g.wmMaxTs now :=
      (max_def_lt _ _).symm
    have hgroup : WmCall.apply g (.flush r now ws w) =
        { (g.setOrdered (stateAfter (fun o x => orderedStep r.order [x.2] x.1 ws true o) g.ordered
            (g.wm.filter fun x => x.1 ≤ max g.wmMaxTs now - w))) with
          wm := g.wm.filter fun x => max g.wmMaxTs now - w < x.1
          wmMaxTs := max g.wmMaxTs now } := by
      show (evalTemporalOrderedWm r g [] now ws w).2.1 = _
      rw [evalTemporalOrderedWm, if_neg hlate, List.foldl_nil]
      dsimp only
      rw [hmark, foldl_wmFlush]
      rfl
    refine ⟨fun x => max g.wmMaxTs now - w < x.1, ?_, ?_, ?_⟩
    · rw [hgroup]
    · rw [WmQueue.apply, ← hmax, if_neg hlate]
    · rw [hgroup, WmQueue.apply, ← hmax, if_neg hlate]

/-- A flush keeps the order. -/
theorem sortedAs_flush (h : SortedAs Prod.fst g.wm q.arrived) (hmax : g.wmMaxTs = q.maxTs)
    (r : CorrRule) (now ws w : ℚ) :
    SortedAs Prod.fst (WmCall.apply g (.flush r now ws w)).wm
      (q.apply (.flush r now ws w)).arrived := by
  obtain ⟨p, hwm, harrived, -⟩ := flush_eq hmax r now ws w
  rw [hwm, harrived]
  exact h.filter p

end Steps

/-! ## Runs -/

section Runs

variable (evCap : ℕ)

theorem wmGroup_concat (calls : List WmCall) (call : WmCall) :
    wmGroup evCap (calls ++ [call]) = WmCall.apply (wmGroup evCap calls) call :=
  List.foldl_concat ..

theorem wmQueue_concat (calls : List WmCall) (call : WmCall) :
    wmQueue (calls ++ [call]) = (wmQueue calls).apply call := List.foldl_concat ..

/-- The high-water mark of a run is the largest time seen. -/
theorem wmMaxTs_wmGroup (calls : List WmCall) :
    (wmGroup evCap calls).wmMaxTs = (wmQueue calls).maxTs := by
  induction calls using List.reverseRecOn with
  | nil => rfl
  | append_singleton calls call ih =>
    rw [wmGroup_concat, wmQueue_concat]
    cases call with
    | insert ts rid => exact maxTs_insert ih ts rid
    | flush r now ws w => exact (flush_eq ih r now ws w).choose_spec.2.2

/-- **A run keeps the pending items in order of time and of arrival, and loses exactly the oldest
items, in every state exactly if no insert finds the buffer full, of different items behind the
oldest.** -/
theorem pending_sorted_iff (calls : List WmCall) :
    (∀ pre, pre <+: calls →
        SortedAs Prod.fst (wmGroup evCap pre).wm (wmQueue pre).arrived) ↔
      ∀ pre ts rid, pre ++ [.insert ts rid] <+: calls →
        corrWmCap ≤ (wmGroup evCap pre).wm.length →
          ∀ x ∈ (wmGroup evCap pre).wm.tail, ∀ y ∈ (wmGroup evCap pre).wm.tail, x = y := by
  induction calls using List.reverseRecOn with
  | nil =>
    refine ⟨fun _ pre ts rid hpre => ?_, fun _ pre hpre => ?_⟩
    · exact absurd (List.prefix_nil.mp hpre) (List.concat_ne_nil _ _)
    · rw [List.prefix_nil.mp hpre]
      exact SortedAs.nil
  | append_singleton calls call ih =>
    have hstep : SortedAs Prod.fst (wmGroup evCap calls).wm (wmQueue calls).arrived →
        (SortedAs Prod.fst (wmGroup evCap (calls ++ [call])).wm (wmQueue (calls ++ [call])).arrived ↔
          ∀ ts rid, call = .insert ts rid → corrWmCap ≤ (wmGroup evCap calls).wm.length →
            ∀ x ∈ (wmGroup evCap calls).wm.tail, ∀ y ∈ (wmGroup evCap calls).wm.tail, x = y) := by
      intro hsorted
      rw [wmGroup_concat, wmQueue_concat]
      cases call with
      | insert ts rid =>
        rw [sortedAs_insert_iff hsorted]
        refine ⟨fun hfull _ _ _ => hfull, fun hfull => hfull ts rid rfl⟩
      | flush r now ws w =>
        refine ⟨fun _ ts rid hcall => ?_, fun _ =>
          sortedAs_flush hsorted (wmMaxTs_wmGroup evCap calls) r now ws w⟩
        cases hcall
    constructor
    · intro hall pre ts rid hpre
      rcases List.prefix_concat_iff.mp hpre with heq | hpre
      · obtain ⟨rfl, hcall⟩ := List.append_inj' heq rfl
        have hsorted := hall pre (List.prefix_append _ _)
        exact (hstep hsorted).mp (hall _ List.prefix_rfl) ts rid (List.singleton_inj.mp hcall).symm
      · refine ih.mp (fun pre' hpre' => ?_) pre ts rid hpre
        exact hall pre' (hpre'.trans (List.prefix_append _ _))
    · intro hfull pre hpre
      have hbefore := ih.mpr fun pre' ts rid hpre' =>
        hfull pre' ts rid (hpre'.trans (List.prefix_append _ _))
      rcases List.prefix_concat_iff.mp hpre with rfl | hpre
      · refine (hstep (hbefore calls List.prefix_rfl)).mpr fun ts rid hcall => ?_
        exact hfull calls ts rid (hcall ▸ List.prefix_rfl)
      · exact hbefore pre hpre

/-- 33 hits, one a second. -/
def hitEachSecond : List WmCall := (List.range 33).map fun i => .insert i 1

/-- The last of the first 32 hits is then in front. -/
theorem full_buffer_reordered :
    ¬ ∀ (evCap : ℕ) (calls : List WmCall),
      SortedAs Prod.fst (wmGroup evCap calls).wm (wmQueue calls).arrived := by
  intro hclaim
  have hsorted : ((wmGroup 1 hitEachSecond).wm.map Prod.fst).Pairwise (· ≤ ·) :=
    List.pairwise_map.mpr (hclaim 1 hitEachSecond).inOrder
  have hfront : ((wmGroup 1 hitEachSecond).wm.map Prod.fst).take 2 = [31, 1] := by decide +kernel
  have hle : ∀ t ∈ [(1 : ℚ)], 31 ≤ t := by
    have htake := hsorted.sublist (List.take_sublist 2 _)
    rw [hfront] at htake
    exact (List.pairwise_cons.mp htake).1
  exact absurd (hle 1 (List.mem_singleton_self 1)) (by decide)

end Runs

end LibSigma
