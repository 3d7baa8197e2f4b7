import Mathlib.Algebra.Order.Floor.Ring
import Mathlib.Tactic.Linarith
import LibSigma.Corr.Distinct
import LibSigma.Corr.Ordered
import LibSigma.Corr.Temporal
import LibSigma.Corr.Values
import LibSigma.Library.Forgetting
import LibSigma.Library.Positions

/-!
# What a group remembers

Each type of correlation reads a part of the state of a group, and nothing of it that is older than
the window.  `Memory` says so for one type: which groups agree from a window start on, and up to
when what a group holds can be.

## Why agreement

The sweep drops a group when its last update has left the window, and a later event makes a new one.
To show that nobody can see this, the group that was dropped and the new one have to be compared,
and they are not equal: the old one may still hold expired times, which the next event would prune.
They agree in what an event with a window from `ws` on can see. `Agree ws` is that relation, and it
differs from type to type: the same live times, the same live entries, the same live ids, the same
sequence in progress.

A memory also has a bound, `Held T`: what a group holds is not later than `T`. When the window has
passed `T`, a group agrees with a new one, whatever it holds.

## What has to be shown

For each type: an event keeps the agreement and the bound, decides the same on groups that agree,
and reports the same observed number; a partial that was not meant for the type (`Harmless`) does
nothing to either. The sections below go through the types, and `LibSigma.Corr.Machine` adds
beaconing and puts the machine together.

* `memory_eventCount`, `memory_valueCount`, `memory_sumAvg`, `memory_percentile`, `memory_temporal`,
  `memory_ordered`: the memory of each type.
-/

namespace LibSigma

open Library

/-! ## Memories

The relation `Agree ws` is the heart of a memory: groups that no evaluation in a window from `ws` on
can tell apart.  What has to be shown is small.  Aging makes no difference to it, an event keeps it
and is decided alike, and a group whose content is all older than the window agrees with a new one.
-/

/-- The bookkeeping of a group, replaced. -/
def Group.mark (g : Group) (update deadline : ℚ) (remote : Bool) : Group :=
  { g with lastUpdate := update, firedUntil := deadline, mergeRemote := remote }

/-- A cell of the condition of a rule selects bit `a`. -/
def CorrRule.CondReads (r : CorrRule) (a : UInt32) : Prop := ∃ c ∈ r.cond, c.tok = some (.arg a)

/-- A partial that a rule of its own type would not have been sent, and that carries no bit its
condition reads. -/
structure Harmless (r : CorrRule) (c : CorrContrib) : Prop where
  isLocal : corrContribKindFor r.type = none
  merges : c.kind ≠ some .event
  bits : r.type = some .temporalOrdered → c.kind = some .seen → ∀ a, r.CondReads a →
    c.seenMask.toNat.testBit a.toNat = false

/-- Two evaluations with the same decision, the same observed number and groups that agree. -/
structure SameEval (r : CorrRule) (Agree : Group → Group → Prop) (e e' : Evaluated) : Prop where
  fired : e.fired = e'.fired
  observed : e.fired = true → observedVal r e.group e.vagg = observedVal r e'.group e'.vagg
  agree : Agree e.group e'.group

/-- What a rule remembers of a group that events of `times` hit with ids of `base`: `Agree ws` relates
groups that no event with a window from `ws` on can tell apart, and in a group with `Held T` nothing is
later than `T`. -/
structure Memory (fp : Doubles) (caps : CorrCaps) (r : CorrRule) (base : List UInt32)
    (times : Set ℚ) (Agree : ℚ → Group → Group → Prop) (Held : ℚ → Group → Prop) : Prop where
  mono : ∀ {ws ws' g g'}, ws ≤ ws' → Agree ws g g' → Agree ws' g g'
  agree_mark : ∀ {ws g g'} (u d u' d' : ℚ) (m m' : Bool), Agree ws g g' →
    Agree ws (g.mark u d m) (g'.mark u' d' m')
  held_mark : ∀ {T g} (u d : ℚ) (m : Bool), Held T g → Held T (g.mark u d m)
  agree_new : ∀ ws, Agree ws (groupNew caps.maxEventsPerGroup) (groupNew caps.maxEventsPerGroup)
  held_new : ∀ T, Held T (groupNew caps.maxEventsPerGroup)
  stale : ∀ {T ws g}, Held T g → T < ws → Agree ws (groupNew caps.maxEventsPerGroup) g
  held_event : ∀ {T now g} {hits : List UInt32} (value : Option CStr), now ∈ times → hits ≠ [] →
    (∀ rid ∈ hits, rid ∈ base) → Held T g → T ≤ now →
    Held now (evaluate fp caps r g hits value now (now - r.timespanS)).group
  event : ∀ {T T' now g g'} {hits : List UInt32} (value : Option CStr), now ∈ times → hits ≠ [] →
    (∀ rid ∈ hits, rid ∈ base) → Held T g → Held T' g' → T ≤ now → T' ≤ now →
    Agree (now - r.timespanS) g g' →
    SameEval r (Agree (now - r.timespanS))
      (evaluate fp caps r g hits value now (now - r.timespanS))
      (evaluate fp caps r g' hits value now (now - r.timespanS))
  held_contrib : ∀ {T g} {c : CorrContrib}, Harmless r c → Held T g → T ≤ c.ts →
    Held c.ts (evalContrib fp caps r g c (c.ts - r.timespanS)).group
  contrib : ∀ {g g'} {c : CorrContrib}, Harmless r c → Agree (c.ts - r.timespanS) g g' →
    Agree (c.ts - r.timespanS) (evalContrib fp caps r g c (c.ts - r.timespanS)).group g'

/-- A type whose partials merge is sent no harmless ones. -/
theorem Harmless.elim {r : CorrRule} {c : CorrContrib} {k : CorrContribKind} (h : Harmless r c)
    (hkind : corrContribKindFor r.type = some k) {P : Prop} : P := by
  rw [h.isLocal] at hkind
  cases hkind

/-! ## The ring

Three types remember a ring, with times alone or with values.  Two rings agree when their live parts
are equal.  The dead part may differ, in length as well, so it must be shown that a full ring loses
dead entries first: they are at its front, as the times are in order. -/

section Ring

variable {fp : Doubles} {caps : CorrCaps} {r : CorrRule} {base : List UInt32}
  {times : Set ℚ}

/-- Two queues with the same live part. -/
def LiveEq {α : Type} (time : α → ℚ) (ws : ℚ) (xs ys : List α) : Prop :=
  (xs.dropWhile fun x => before ws (time x)) = ys.dropWhile fun x => before ws (time x)

theorem LiveEq.mono {α : Type} {time : α → ℚ} {ws ws' : ℚ} {xs ys : List α} (h : LiveEq time ws xs ys)
    (hle : ws ≤ ws') : LiveEq time ws' xs ys := by
  have hnest := dropWhile_dropWhile_of_imp fun x => before_mono hle (time x)
  rw [LiveEq, ← hnest xs, ← hnest ys]
  exact congrArg _ h

/-- What is expired of one of them makes no difference. -/
theorem LiveEq.prune {α : Type} {time : α → ℚ} {ws : ℚ} {xs ys : List α} (h : LiveEq time ws xs ys) :
    LiveEq time ws (xs.dropWhile fun x => before ws (time x)) ys := by
  rw [LiveEq, dropWhile_dropWhile_of_imp fun _ hx => hx]
  exact h

/-- One append and one prune. -/
theorem LiveEq.push {α : Type} {time : α → ℚ} {ws : ℚ} {xs ys : List α} {cap : ℕ}
    (h : LiveEq time ws xs ys) (hxs : xs.length ≤ cap) (hys : ys.length ≤ cap) (x : α) :
    ((pushCap cap xs x).dropWhile fun x => before ws (time x)) =
      (pushCap cap ys x).dropWhile fun x => before ws (time x) := by
  rw [dropWhile_pushCap hxs, dropWhile_pushCap hys]
  exact congrArg (fun zs => (pushCap cap zs x).dropWhile fun x => before ws (time x)) h

theorem LiveEq.of_stale {α : Type} {time : α → ℚ} {T ws : ℚ} {ys : List α} (h : ∀ y ∈ ys, time y ≤ T)
    (hlt : T < ws) : LiveEq time ws [] ys := by
  refine Eq.symm (List.dropWhile_eq_nil_iff.mpr fun y hy => ?_)
  exact decide_eq_true (lt_of_le_of_lt (h y hy) hlt)

theorem mem_pushCap {α : Type} {cap : ℕ} {xs : List α} {x y : α} (h : y ∈ pushCap cap xs x) :
    y ∈ xs ∨ y = x := by
  rw [pushCap, List.mem_append, List.mem_singleton] at h
  refine h.imp_left fun h => ?_
  split at h
  · exact List.mem_of_mem_tail h
  · exact h

/-- A ring whose times are not later than `T`. -/
structure HeldTimes (caps : CorrCaps) (T : ℚ) (g : Group) : Prop where
  cap : g.evIdx.cap = (groupNew caps.maxEventsPerGroup).evIdx.cap
  le : ∀ t ∈ g.times, t ≤ T

theorem heldTimes_new (T : ℚ) : HeldTimes caps T (groupNew caps.maxEventsPerGroup) :=
  ⟨rfl, fun _ ht => absurd ht List.not_mem_nil⟩

/-- The ring after an append and a prune. -/
theorem HeldTimes.push {T now ws : ℚ} {g : Group} (h : HeldTimes caps T g) (hle : T ≤ now) :
    HeldTimes caps now (evPrune (evAppend g now) ws) := by
  refine ⟨((sameFrame_evAppend g now).trans (sameFrame_evPrune _ ws)).cap.trans h.cap, fun t ht => ?_⟩
  rw [times_evPrune, times_evAppend] at ht
  rcases mem_pushCap ((List.dropWhile_sublist _).mem ht) with ht | rfl
  · exact (h.le t ht).trans hle
  · exact le_rfl

/-- Rings with the same live times have the same times after an append and a prune. -/
theorem times_push_eq {T T' ws : ℚ} {g g' : Group} (h : HeldTimes caps T g)
    (h' : HeldTimes caps T' g') (hagree : LiveEq id ws g.times g'.times) (now : ℚ) :
    (evPrune (evAppend g now) ws).times = (evPrune (evAppend g' now) ws).times := by
  have hlen := length_times_le g
  have hlen' := length_times_le g'
  rw [times_evPrune, times_evPrune, times_evAppend, times_evAppend]
  rw [h.cap] at hlen ⊢
  rw [h'.cap] at hlen' ⊢
  exact hagree.push hlen hlen' now

theorem len_eq_of_times {g g' : Group} (h : g.times = g'.times) : g.evIdx.len = g'.evIdx.len := by
  rw [← length_times, ← length_times, h]

/-- **event_count remembers the times of its ring.** -/
theorem memory_eventCount (htype : r.type = some .eventCount) :
    Memory fp caps r base times (fun ws g g' => LiveEq id ws g.times g'.times)
      (fun T g => HeldTimes caps T g ∧ g.mergeN = 0) where
  mono hle h := h.mono hle
  agree_mark _ _ _ _ _ _ h := h
  held_mark _ _ _ h := ⟨⟨h.1.cap, h.1.le⟩, h.2⟩
  agree_new _ := rfl
  held_new T := ⟨heldTimes_new T, rfl⟩
  stale h hlt := .of_stale h.1.le hlt
  held_event {T now g hits} value _ _ _ h hle := by
    rw [evaluate, htype]
    exact ⟨h.1.push hle, (sameFrame_evalEventCount r g now _).mergeN.trans h.2⟩
  event {T T' now g g' hits} value _ _ _ h h' _ _ hagree := by
    have htimes := times_push_eq h.1 h'.1 hagree now
    have hlen := len_eq_of_times htimes
    have hmerge := (sameFrame_evalEventCount r g now (now - r.timespanS)).mergeN.trans h.2
    have hmerge' := (sameFrame_evalEventCount r g' now (now - r.timespanS)).mergeN.trans h'.2
    have hcount : (evalEventCount r g now (now - r.timespanS)).group.evIdx.len =
        (evalEventCount r g' now (now - r.timespanS)).group.evIdx.len := hlen
    have hfired : ∀ g, (evalEventCount r g now (now - r.timespanS)).fired =
        cmpThreshold ((evalEventCount r g now (now - r.timespanS)).group.evIdx.len +
          (evalEventCount r g now (now - r.timespanS)).group.mergeN.toNat) r.condOp r.condCount :=
      fun _ => rfl
    simp only [evaluate, htype]
    refine ⟨?_, fun _ => ?_, congrArg _ htimes⟩
    · rw [hfired, hfired, hmerge, hmerge', hcount]
    · rw [observedVal, observedVal, htype, hmerge, hmerge', hcount]
  held_contrib h := h.elim (by rw [htype]; rfl)
  contrib h := h.elim (by rw [htype]; rfl)

end Ring

/-! ## The values

The set of distinct values as a list in order of use, of which the expired entries are a first part.
Sums, averages and percentiles are on the ring with its values. -/

section Values

variable {fp : Doubles} {caps : CorrCaps} {r : CorrRule} {base : List UInt32}
  {times : Set ℚ}

/-- **value_count remembers its values.** -/
theorem memory_valueCount (htype : r.type = some .valueCount) :
    Memory fp caps r base times
      (fun ws g g' => (g.distinct.toList fnv1a).filter (observedFrom ws) =
        (g'.distinct.toList fnv1a).filter (observedFrom ws))
      (fun T g => g.distinct.Wf fnv1a ∧ ∀ e ∈ g.distinct.toList fnv1a, e.2 ≤ T) where
  mono {ws ws' g g'} hle h := by
    have hsub : ∀ es : List (CStr × ℚ), es.filter (observedFrom ws') =
        (es.filter (observedFrom ws)).filter (observedFrom ws') := by
      intro es
      rw [List.filter_filter]
      refine List.filter_congr fun e _ => ?_
      rw [Bool.eq_iff_iff, Bool.and_eq_true, iff_self_and]
      intro he
      rw [observedFrom, before, Bool.not_eq_true', decide_eq_false_iff_not, not_lt] at he ⊢
      exact hle.trans he
    rw [hsub, h, ← hsub]
  agree_mark _ _ _ _ _ _ h := h
  held_mark _ _ _ h := h
  agree_new _ := rfl
  held_new _ := ⟨HashLru.wf_empty (by decide), fun _ he => absurd he List.not_mem_nil⟩
  stale {T ws g} h hlt := by
    refine Eq.symm (List.filter_eq_nil_iff.mpr fun e he => ?_)
    rw [observedFrom, before, Bool.not_eq_true', decide_eq_false_iff_not, not_not]
    exact lt_of_le_of_lt (h.2 e he) hlt
  held_event {T now g hits} value _ _ _ h hle := by
    rw [evaluate, htype]
    cases value with
    | none => exact ⟨h.1, fun e he => (h.2 e he).trans hle⟩
    | some val =>
      obtain ⟨hwf, hlist⟩ := toList_dsetObserve h.1 val now (now - r.timespanS) caps.maxDistinct
      refine ⟨hwf, fun e he => ?_⟩
      have he' : e ∈ observeLru caps.maxDistinct ((g.distinct.toList fnv1a).filter
          fun e => !before (now - r.timespanS) e.2) val now := hlist ▸ he
      rcases mem_observeLru he' with hmem | rfl
      · exact (h.2 e (List.mem_of_mem_filter hmem)).trans hle
      · exact le_rfl
  event {T T' now g g' hits} value _ _ _ h h' _ _ hagree := by
    rw [evaluate, evaluate, htype]
    cases value with
    | none => exact ⟨rfl, fun hfired => (by cases hfired), hagree⟩
    | some val =>
      obtain ⟨hwf, hlist⟩ := toList_dsetObserve h.1 val now (now - r.timespanS) caps.maxDistinct
      obtain ⟨hwf', hlist'⟩ := toList_dsetObserve h'.1 val now (now - r.timespanS) caps.maxDistinct
      have hsame : (dsetObserve g.distinct val now (now - r.timespanS) caps.maxDistinct).1.toList
          fnv1a = (dsetObserve g'.distinct val now (now - r.timespanS) caps.maxDistinct).1.toList
            fnv1a := by
        rw [hlist, hlist']
        exact congrArg (fun xs => observeLru caps.maxDistinct xs val now) hagree
      have hcount : (dsetObserve g.distinct val now (now - r.timespanS) caps.maxDistinct).1.count =
          (dsetObserve g'.distinct val now (now - r.timespanS) caps.maxDistinct).1.count := by
        rw [← hwf.length_toList, ← hwf'.length_toList, hsame]
      refine ⟨?_, fun _ => ?_, congrArg _ hsame⟩
      · exact congrArg (fun n : ℕ => cmpThreshold n r.condOp r.condCount) hcount
      · rw [observedVal, observedVal, htype]
        exact congrArg Nat.cast hcount
  held_contrib h := h.elim (by rw [htype]; rfl)
  contrib h := h.elim (by rw [htype]; rfl)

/-- A ring whose entries are not later than `T`. -/
structure HeldEntries (caps : CorrCaps) (T : ℚ) (g : Group) : Prop where
  cap : g.evIdx.cap = (groupNew caps.maxEventsPerGroup).evIdx.cap
  ok : g.ValsOk
  le : ∀ e ∈ g.entries, e.1 ≤ T

theorem heldEntries_new (T : ℚ) : HeldEntries caps T (groupNew caps.maxEventsPerGroup) :=
  ⟨rfl, Or.inr rfl, fun _ he => absurd he List.not_mem_nil⟩

variable (fp) in
/-- The entries after an event. -/
theorem HeldEntries.observe {T now ws : ℚ} {g : Group} (h : HeldEntries caps T g) (hle : T ≤ now)
    (value : Option CStr) : HeldEntries caps now (evObserve fp g value now ws).1 := by
  obtain ⟨hok, hentries⟩ := entries_evObserve fp h.ok value now ws
  refine ⟨(sameFrame_evObserve fp g value now ws).cap.trans h.cap, hok, fun e he => ?_⟩
  rw [hentries] at he
  have he' := (List.dropWhile_sublist _).mem he
  cases hval : value.bind (sgToF64 fp) with
  | none =>
    rw [hval] at he'
    exact (h.le e he').trans hle
  | some v =>
    rw [hval] at he'
    rcases mem_pushCap he' with hmem | rfl
    · exact (h.le e hmem).trans hle
    · exact le_rfl

variable (fp) in
/-- Rings with the same live entries have the same entries after an event. -/
theorem entries_observe_eq {T T' ws : ℚ} {g g' : Group} (h : HeldEntries caps T g)
    (h' : HeldEntries caps T' g') (hagree : LiveEq Prod.fst ws g.entries g'.entries)
    (value : Option CStr) (now : ℚ) :
    (evObserve fp g value now ws).1.entries = (evObserve fp g' value now ws).1.entries := by
  have hlen : g.entries.length ≤ (groupNew caps.maxEventsPerGroup).evIdx.cap := by
    rw [length_entries, ← h.cap]
    exact g.evIdx.len_le
  have hlen' : g'.entries.length ≤ (groupNew caps.maxEventsPerGroup).evIdx.cap := by
    rw [length_entries, ← h'.cap]
    exact g'.evIdx.len_le
  rw [(entries_evObserve fp h.ok value now ws).2, (entries_evObserve fp h'.ok value now ws).2,
    h.cap, h'.cap]
  cases value.bind (sgToF64 fp) with
  | none => exact hagree
  | some v => exact hagree.push hlen hlen' (now, v)

theorem len_eq_of_entries {g g' : Group} (h : g.entries = g'.entries) :
    g.evIdx.len = g'.evIdx.len := by
  rw [← length_entries, ← length_entries, h]

/-- **value_sum and value_avg remember the entries of their ring.** -/
theorem memory_sumAvg (htype : r.type = some .valueSum ∨ r.type = some .valueAvg) :
    Memory fp caps r base times (fun ws g g' => LiveEq Prod.fst ws g.entries g'.entries)
      (fun T g => HeldEntries caps T g ∧ g.mergeSum = 0 ∧ g.mergeN = 0) where
  mono hle h := h.mono hle
  agree_mark _ _ _ _ _ _ h := h
  held_mark _ _ _ h := ⟨⟨h.1.cap, h.1.ok, h.1.le⟩, h.2⟩
  agree_new _ := rfl
  held_new T := ⟨heldEntries_new T, rfl, rfl⟩
  stale h hlt := .of_stale h.1.le hlt
  held_event {T now g hits} value _ _ _ h hle := by
    have hgroup : (evaluate fp caps r g hits value now (now - r.timespanS)).group =
        (evObserve fp g value now (now - r.timespanS)).1 := by
      rcases htype with htype | htype <;>
        rw [evaluate, htype] <;> exact group_evalValueSumAvg fp r g value _ now _
    have hframe := sameFrame_evObserve fp g value now (now - r.timespanS)
    rw [hgroup]
    exact ⟨h.1.observe fp hle value, hframe.mergeSum.trans h.2.1, hframe.mergeN.trans h.2.2⟩
  event {T T' now g g' hits} value _ _ _ h h' _ _ hagree := by
    have hentries := entries_observe_eq fp h.1 h'.1 hagree value now
    have hok := (entries_evObserve fp h.1.ok value now (now - r.timespanS)).1
    have hok' := (entries_evObserve fp h'.1.ok value now (now - r.timespanS)).1
    have hvals : evVals (evObserve fp g value now (now - r.timespanS)).1 =
        evVals (evObserve fp g' value now (now - r.timespanS)).1 := by
      rw [hok.evVals, hok'.evVals, hentries]
    have hlen := len_eq_of_entries hentries
    have hframe := sameFrame_evObserve fp g value now (now - r.timespanS)
    have hframe' := sameFrame_evObserve fp g' value now (now - r.timespanS)
    have heval : ∀ isAvg,
        (evalValueSumAvg fp r g value isAvg now (now - r.timespanS)).fired =
            (evalValueSumAvg fp r g' value isAvg now (now - r.timespanS)).fired ∧
          (evalValueSumAvg fp r g value isAvg now (now - r.timespanS)).vagg =
            (evalValueSumAvg fp r g' value isAvg now (now - r.timespanS)).vagg := by
      intro isAvg
      simp only [evalValueSumAvg, hvals, hlen, hframe.mergeSum, hframe'.mergeSum, hframe.mergeN,
        hframe'.mergeN, h.2.1, h'.2.1, h.2.2, h'.2.2]
      split <;> exact ⟨rfl, rfl⟩
    rcases htype with htype | htype
    · simp only [evaluate, htype]
      refine ⟨(heval false).1, fun _ => ?_, ?_⟩
      · rw [observedVal, observedVal, htype, (heval false).2]
      · rw [group_evalValueSumAvg, group_evalValueSumAvg]
        exact congrArg _ hentries
    · simp only [evaluate, htype]
      refine ⟨(heval true).1, fun _ => ?_, ?_⟩
      · rw [observedVal, observedVal, htype, (heval true).2]
      · rw [group_evalValueSumAvg, group_evalValueSumAvg]
        exact congrArg _ hentries
  held_contrib h := by
    rcases htype with htype | htype <;> exact h.elim (by rw [htype]; rfl)
  contrib h := by
    rcases htype with htype | htype <;> exact h.elim (by rw [htype]; rfl)

variable (caps r) in
/-- The ring after a partial: the expired part may be gone. -/
theorem entries_evalContrib (g : Group) (c : CorrContrib) (ws : ℚ) :
    (evalContrib fp caps r g c ws).group.evIdx.cap = g.evIdx.cap ∧
      (evalContrib fp caps r g c ws).group.evVal = g.evVal ∧
      ((evalContrib fp caps r g c ws).group.entries = g.entries ∨
        (evalContrib fp caps r g c ws).group.entries = g.entries.dropWhile fun e => before ws e.1) := by
  obtain ⟨hts, hval, hidx⟩ := evalContrib_ring fp caps r g c ws
  refine ⟨(evalContrib_frame fp caps r g c ws).2.2, hval, ?_⟩
  rw [Group.entries, Group.vals, hts, hval, hidx]
  split
  · exact Or.inr (RingIdx.read_popWhile_pair _ _ _ _)
  · exact Or.inl rfl

/-- The decision and the aggregate of a percentile, on the entries of the group it leaves. -/
theorem evalValuePercentile_eq {g : Group} (value : Option CStr) (n : ℕ) (now ws : ℚ)
    (hok : (evObserve fp g value now ws).1.ValsOk) :
    let es := (evObserve fp g value now ws).1.entries
    let scratch := (es.map Prod.snd).insertionSort fun a b => a ≤ b
    let idx := (percentileOf r * es.length + 99) / 100
    let idx := (if idx = 0 then 1 else idx) - 1
    let idx := if es.length ≤ idx then es.length - 1 else idx
    let e := evalValuePercentile fp r g value n now ws
    (e.fired, e.vagg) =
        (if es.length = 0 ∨ n < es.length then (false, 0)
        else
          (condSatisfiedF r.condOp (scratch.getD idx 0) (fp.round r.condCount), scratch.getD idx 0)) ∧
      e.group = (evObserve fp g value now ws).1 := by
  intro es scratch idx₀ idx₁ idx e
  have hlen : (evObserve fp g value now ws).1.evIdx.len = es.length := (length_entries _).symm
  have hskip : (es.length = 0 ∨ (evObserve fp g value now ws).1.evVal.isNone = true ∨
      n < es.length) ↔ (es.length = 0 ∨ n < es.length) := by
    refine ⟨fun h => ?_, fun h => h.imp_right Or.inr⟩
    rcases h with h | h | h
    · exact Or.inl h
    · rcases hok with hsome | hnil
      · rw [Option.isNone_iff_eq_none] at h
        rw [h] at hsome
        cases hsome
      · exact Or.inl (List.length_eq_zero_iff.mpr hnil)
    · exact Or.inr h
  have he : e = evalValuePercentile fp r g value n now ws := rfl
  unfold evalValuePercentile at he
  simp only [hlen, hskip, hok.evVals] at he
  rw [he]
  split <;> exact ⟨rfl, rfl⟩

/-- **value_percentile and value_median remember the entries of their ring.** -/
theorem memory_percentile (htype : r.type = some .valuePercentile ∨ r.type = some .valueMedian) :
    Memory fp caps r base times (fun ws g g' => LiveEq Prod.fst ws g.entries g'.entries)
      (HeldEntries caps) where
  mono hle h := h.mono hle
  agree_mark _ _ _ _ _ _ h := h
  held_mark _ _ _ h := ⟨h.cap, h.ok, h.le⟩
  agree_new _ := rfl
  held_new T := heldEntries_new T
  stale h hlt := .of_stale h.le hlt
  held_event {T now g hits} value _ _ _ h hle := by
    have hok := (entries_evObserve fp h.ok value now (now - r.timespanS)).1
    have hgroup : (evaluate fp caps r g hits value now (now - r.timespanS)).group =
        (evObserve fp g value now (now - r.timespanS)).1 := by
      rcases htype with htype | htype <;>
        rw [evaluate, htype] <;> exact (evalValuePercentile_eq value _ now _ hok).2
    rw [hgroup]
    exact h.observe fp hle value
  event {T T' now g g' hits} value _ _ _ h h' _ _ hagree := by
    have hentries := entries_observe_eq fp h h' hagree value now
    obtain ⟨hpair, hgroup⟩ := evalValuePercentile_eq (r := r) value caps.maxEventsPerGroup now
      (now - r.timespanS) (entries_evObserve fp h.ok value now (now - r.timespanS)).1
    obtain ⟨hpair', hgroup'⟩ := evalValuePercentile_eq (r := r) value caps.maxEventsPerGroup now
      (now - r.timespanS) (entries_evObserve fp h'.ok value now (now - r.timespanS)).1
    rw [hentries, ← hpair'] at hpair
    obtain ⟨hfired, hvagg⟩ := Prod.mk.injEq .. ▸ hpair
    rcases htype with htype | htype
    · simp only [evaluate, htype]
      refine ⟨hfired, fun _ => ?_, ?_⟩
      · rw [observedVal, observedVal, htype, hvagg]
      · rw [hgroup, hgroup']
        exact congrArg _ hentries
    · simp only [evaluate, htype]
      refine ⟨hfired, fun _ => ?_, ?_⟩
      · rw [observedVal, observedVal, htype, hvagg]
      · rw [hgroup, hgroup']
        exact congrArg _ hentries
  held_contrib {T g c} _ h hle := by
    obtain ⟨hcap, hval, hentries⟩ := entries_evalContrib caps r g c (c.ts - r.timespanS)
    refine ⟨hcap.trans h.cap, ?_, fun e he => ?_⟩
    · rw [Group.ValsOk, hval]
      refine h.ok.imp_right fun hnil => ?_
      rcases hentries with heq | heq <;> rw [heq, hnil]
      rfl
    · rcases hentries with heq | heq
      · exact (h.le e (heq ▸ he)).trans hle
      · rw [heq] at he
        exact (h.le e ((List.dropWhile_sublist _).mem he)).trans hle
  contrib {g g' c} _ hagree := by
    rcases (entries_evalContrib caps r g c (c.ts - r.timespanS)).2.2 with heq | heq
    · rw [heq]
      exact hagree
    · rw [heq]
      exact hagree.prune

end Values

/-! ## The seen table

Tables agree when they have the same ids live, now and at any later time.  Recording comes before
expiry, so a table full of dead entries would have no room for a hit that its counterpart can
record; with few base rules there is a place for each, and this cannot happen. -/

section Seen

variable {fp : Doubles} {caps : CorrCaps} {r : CorrRule} {base : List UInt32}
  {times : Set ℚ}

/-- Two tables with the same live entries. -/
def SeenEq (ws : ℚ) (seen seen' : List (UInt32 × ℚ)) : Prop :=
  ∀ rid ws', ws ≤ ws' → (Live seen rid ws' ↔ Live seen' rid ws')

/-- A table of ids of `base` whose times are not later than `T`. -/
structure HeldSeen (base : List UInt32) (T : ℚ) (seen : List (UInt32 × ℚ)) : Prop where
  ok : SeenOk base seen
  le : ∀ e ∈ seen, e.2 ≤ T

theorem heldSeen_nil (T : ℚ) : HeldSeen base T [] :=
  ⟨⟨.nil, fun _ he => absurd he List.not_mem_nil⟩, fun _ he => absurd he List.not_mem_nil⟩

theorem SeenEq.of_stale {T ws : ℚ} {seen : List (UInt32 × ℚ)} (h : HeldSeen base T seen)
    (hlt : T < ws) :
    SeenEq ws [] seen := by
  intro rid ws' hle
  constructor
  · rintro ⟨e, he, -⟩
    exact absurd he List.not_mem_nil
  · rintro ⟨e, he, -, hws⟩
    exact absurd (h.le e he) (not_le.mpr (lt_of_lt_of_le hlt (hle.trans hws)))

/-- The table after an event. -/
theorem HeldSeen.record {T now : ℚ} {g : Group} (h : HeldSeen base T g.seen) (hle : T ≤ now)
    (hbase : base.length ≤ corrMaxSeenRules) {hits : List UInt32}
    (hhits : ∀ rid ∈ hits, rid ∈ base) (ws : ℚ) :
    HeldSeen base now (temporalRecordSeen g hits now ws).1.seen := by
  refine ⟨((h.ok.records now hbase hhits).1).filter _, fun e he => ?_⟩
  rcases mem_seenRecords (List.mem_of_mem_filter he) with he | ⟨-, hts⟩
  · exact (h.le e he).trans hle
  · exact hts.le

/-- Tables with the same live entries have the same rules after an event, and live ones. -/
theorem SeenEq.record {T T' now ws : ℚ} {g g' : Group} (h : SeenEq ws g.seen g'.seen)
    (hheld : HeldSeen base T g.seen) (hheld' : HeldSeen base T' g'.seen) (hle : T ≤ now)
    (hle' : T' ≤ now) (hbase : base.length ≤ corrMaxSeenRules) {hits : List UInt32}
    (hhits : ∀ rid ∈ hits, rid ∈ base) :
    SeenEq ws (temporalRecordSeen g hits now ws).1.seen (temporalRecordSeen g' hits now ws).1.seen ∧
      ∀ rid, seenAny (temporalRecordSeen g hits now ws).1.seen rid =
        seenAny (temporalRecordSeen g' hits now ws).1.seen rid := by
  have hlive : ∀ rid ws', ws ≤ ws' →
      (Live (seenRecords now g.seen hits).1 rid ws' ↔
        Live (seenRecords now g'.seen hits).1 rid ws') := by
    intro rid ws' hws
    rw [hheld.ok.live_records hbase hhits (fun e he => (hheld.le e he).trans hle),
      hheld'.ok.live_records hbase hhits (fun e he => (hheld'.le e he).trans hle'), h rid ws' hws]
  refine ⟨fun rid ws' hws => ?_, fun rid => ?_⟩
  · exact ((live_filter _ hws).trans (hlive rid ws' hws)).trans (live_filter _ hws).symm
  · rw [Bool.eq_iff_iff]
    exact ((seenAny_filter _ rid ws).trans (hlive rid ws le_rfl)).trans (seenAny_filter _ rid ws).symm

theorem corrSeenMask_congr {g g' : Group} (hmerge : g.mergeSeen = g'.mergeSeen)
    (hany : ∀ rid, seenAny g.seen rid = seenAny g'.seen rid) :
    corrSeenMask r g = corrSeenMask r g' := by
  unfold seenAny at hany
  unfold corrSeenMask
  simp only [hany, hmerge]

/-- **temporal remembers its seen table.** -/
theorem memory_temporal (htype : r.type = some .temporal)
    (hbase : base.length ≤ corrMaxSeenRules) :
    Memory fp caps r base times (fun ws g g' => SeenEq ws g.seen g'.seen)
      (fun T g => HeldSeen base T g.seen ∧ g.mergeSeen = 0) where
  mono hle h := fun rid ws' hws => h rid ws' (hle.trans hws)
  agree_mark _ _ _ _ _ _ h := h
  held_mark _ _ _ h := h
  agree_new _ := fun _ _ _ => .rfl
  held_new T := ⟨heldSeen_nil T, rfl⟩
  stale h hlt := .of_stale h.1 hlt
  held_event {T now g hits} value _ _ hhits h hle := by
    rw [evaluate, htype]
    exact ⟨h.1.record hle hbase hhits _, h.2⟩
  event {T T' now g g' hits} value _ _ hhits h h' hle hle' hagree := by
    obtain ⟨hseen, hany⟩ := hagree.record h.1 h'.1 hle hle' hbase hhits
    have hmask : corrSeenMask r (temporalRecordSeen g hits now (now - r.timespanS)).1 =
        corrSeenMask r (temporalRecordSeen g' hits now (now - r.timespanS)).1 :=
      corrSeenMask_congr (h.2.trans h'.2.symm) hany
    simp only [evaluate, htype]
    refine ⟨?_, fun _ => ?_, hseen⟩
    · simp only [evalTemporal, hmask]
    · rw [observedVal, observedVal, htype]
  held_contrib h := h.elim (by rw [htype]; rfl)
  contrib h := h.elim (by rw [htype]; rfl)

end Seen

/-! ## The ordered sequence

The progress, and with a condition the seen table as well.  A partial sent to a rule that is
local-only must not change either, and `Harmless` says what is needed of it. -/

section Progress

/-- A sequence that began at `T` or before, or not at all. -/
def Ordered.BegunBy (T : ℚ) (o : Ordered) : Prop := o = .none ∨ 0 < o.progress ∧ o.anchorTs ≤ T

variable {order hits : List UInt32} {now ws ws' T : ℚ} {eventTime : Bool} {o : Ordered}

theorem Ordered.BegunBy.expire_eq_none (h : o.BegunBy T) (hlt : T < ws) : o.expire ws = .none := by
  rcases h with rfl | ⟨hpos, hle⟩
  · exact expire_none
  · exact if_pos ⟨hpos, lt_of_le_of_lt hle hlt⟩

theorem Ordered.BegunBy.advance (h : o.BegunBy now) (rest : List UInt32) :
    (orderedAdvance hits now eventTime rest o).BegunBy now := by
  induction rest generalizing o with
  | nil => exact h
  | cons id rest ih =>
    rw [orderedAdvance]
    split
    · split
      · exact ih (Or.inr ⟨Nat.one_pos, le_rfl⟩)
      · rename_i hzero
        rcases h with rfl | ⟨hpos, hle⟩
        · exact absurd rfl hzero
        split
        · exact ih (Or.inr ⟨Nat.succ_pos _, hle⟩)
        · exact Or.inr ⟨hpos, hle⟩
    · exact h

/-- A step leaves a sequence that began by now. -/
theorem Ordered.BegunBy.step (horder : order ≠ []) (h : o.BegunBy T) (hle : T ≤ now) :
    (orderedStep order hits now ws eventTime o).2.BegunBy now := by
  have hnow : o.BegunBy now := h.imp_right fun hbegun => ⟨hbegun.1, hbegun.2.trans hle⟩
  have hexpire : (o.expire ws).BegunBy now := by
    rw [Ordered.expire]
    split
    · exact Or.inl rfl
    · exact hnow
  rw [orderedStep_eq horder]
  split
  · exact Or.inl rfl
  · exact hexpire.advance _

end Progress

section Ordered

variable {fp : Doubles} {caps : CorrCaps} {r : CorrRule} {base : List UInt32}
  {times : Set ℚ}

/-- A condition depends on the bits its cells select. -/
theorem corrCondEval_congr {m m' : UInt64} (h : ∀ a, r.CondReads a → maskBit m a = maskBit m' a) :
    corrCondEval r.cond m = corrCondEval r.cond m' := by
  have hreads : ∀ e, CondSpells r.cond e → ∀ a ∈ e.args, r.CondReads a := by
    intro e he a ha
    obtain ⟨c, hc, htok⟩ := exists_of_mem_mapM he.code (BoolExpr.mem_code_of_mem_args ha)
    exact ⟨c, hc, htok⟩
  rw [Bool.eq_iff_iff, corrCondEval_iff, corrCondEval_iff]
  refine exists_congr fun e => and_congr_right fun he => ?_
  rw [BoolExpr.eval_congr fun a ha => h a (hreads e he a ha)]

/-- The bits a condition reads, when no merge set one. -/
theorem maskBit_corrSeenMask_congr {g g' : Group} {a : UInt32}
    (hbit : g.mergeSeen.toNat.testBit a.toNat = false)
    (hbit' : g'.mergeSeen.toNat.testBit a.toNat = false)
    (hany : ∀ rid, seenAny g.seen rid = seenAny g'.seen rid) :
    maskBit (corrSeenMask r g) a = maskBit (corrSeenMask r g') a := by
  rw [Bool.eq_iff_iff, maskBit, maskBit, testBit_corrSeenMask, testBit_corrSeenMask, hbit, hbit']
  simp only [hany]

/-- The group a condition of an ordered rule is evaluated on. -/
def condGroup (r : CorrRule) (g : Group) (hits : List UInt32) (now ws : ℚ) : Group :=
  if r.cond.isEmpty then g else (temporalRecordSeen g hits now ws).1

/-- Without a watermark a sequence completes as `eval_temporal_ordered` says, if the condition holds. -/
theorem evalOrderedCase_off (hwm : caps.watermarkS ≤ 0) (g : Group) (hits : List UInt32)
    (now ws : ℚ) :
    (evalOrderedCase caps r g hits now ws).fired =
        ((orderedStep r.order hits now ws caps.eventTimeOrdering g.ordered).1 &&
          (r.cond.isEmpty || corrCondEval r.cond (corrSeenMask r (condGroup r g hits now ws)))) ∧
      (evalOrderedCase caps r g hits now ws).group = (condGroup r g hits now ws).setOrdered
        (orderedStep r.order hits now ws caps.eventTimeOrdering g.ordered).2 := by
  have hoff : ¬ (0 < caps.watermarkS ∧ caps.eventTimeOrdering = true) :=
    fun h => not_lt.mpr hwm h.1
  simp only [evalOrderedCase, condGroup, if_neg hoff]
  cases r.cond.isEmpty <;> exact ⟨rfl, rfl⟩

/-- What a harmless partial leaves of a group. -/
structure SameLocal (g g' : Group) : Prop where
  ordered : g'.ordered = g.ordered
  seen : g'.seen = g.seen
  bbuckets : g'.bbuckets = g.bbuckets

theorem Harmless.type_ne {c : CorrContrib} (h : Harmless r c) {t : CorrType} {k : CorrContribKind}
    (hkind : corrContribKindFor (some t) = some k) : r.type ≠ some t :=
  fun htype => h.elim (htype ▸ hkind)

/-- **A harmless partial decides nothing** and leaves the sequence, the table and the buckets. -/
theorem Harmless.evalContrib {c : CorrContrib} (h : Harmless r c) (fp : Doubles) (caps : CorrCaps)
    (g : Group) (ws : ℚ) :
    (evalContrib fp caps r g c ws).fired = false ∧
      SameLocal g (LibSigma.evalContrib fp caps r g c ws).group ∧
      (LibSigma.evalContrib fp caps r g c ws).group.mergeSeen =
        if c.kind = some .seen then g.mergeSeen ||| c.seenMask else g.mergeSeen := by
  have hcount := h.type_ne (t := .eventCount) rfl
  have hsum := h.type_ne (t := .valueSum) rfl
  have havg := h.type_ne (t := .valueAvg) rfl
  have hdistinct := h.type_ne (t := .valueCount) rfl
  have htemporal := h.type_ne (t := .temporal) rfl
  unfold LibSigma.evalContrib
  cases hkind : c.kind with
  | none => exact ⟨rfl, ⟨rfl, rfl, rfl⟩, rfl⟩
  | some k =>
    cases k with
    | event => exact absurd hkind h.merges
    | count =>
      refine ⟨?_, ⟨rfl, rfl, rfl⟩, rfl⟩
      simp [hcount]
    | sum =>
      refine ⟨?_, ?_, ?_⟩
      · simp [hsum, havg]
      · simp only [havg, false_and, if_false]
        exact ⟨rfl, rfl, rfl⟩
      · simp only [havg, false_and, if_false]
        rfl
    | distinct =>
      rw [if_neg hdistinct]
      exact ⟨rfl, ⟨rfl, rfl, rfl⟩, rfl⟩
    | seen =>
      dsimp only
      rw [if_neg htemporal]
      exact ⟨rfl, ⟨rfl, rfl, rfl⟩, rfl⟩

/-- What a temporal_ordered rule holds: its sequence and, with a condition, the table. -/
structure HeldOrdered (r : CorrRule) (base : List UInt32) (T : ℚ) (g : Group) : Prop where
  begun : g.ordered.BegunBy T
  seen : r.cond ≠ [] → HeldSeen base T g.seen
  bits : ∀ a, r.CondReads a → g.mergeSeen.toNat.testBit a.toNat = false

/-- Groups with the same sequence and, with a condition, the same live table. -/
structure OrderedEq (r : CorrRule) (ws : ℚ) (g g' : Group) : Prop where
  ordered : g.ordered.expire ws = g'.ordered.expire ws
  seen : r.cond ≠ [] → SeenEq ws g.seen g'.seen

theorem condGroup_seen (g : Group) (hits : List UInt32) (now ws : ℚ) (hcond : r.cond ≠ []) :
    (condGroup r g hits now ws).seen = (temporalRecordSeen g hits now ws).1.seen := by
  rw [condGroup, if_neg (by simpa using hcond)]

theorem condGroup_mergeSeen (g : Group) (hits : List UInt32) (now ws : ℚ) :
    (condGroup r g hits now ws).mergeSeen = g.mergeSeen := by
  rw [condGroup]
  split <;> rfl

/-- **temporal_ordered remembers its progress and, with a condition, its seen table.** -/
theorem memory_ordered (htype : r.type = some .temporalOrdered) (horder : r.order ≠ [])
    (hwm : caps.watermarkS ≤ 0)
    (hbase : r.cond ≠ [] → base.length ≤ corrMaxSeenRules) :
    Memory fp caps r base times (OrderedEq r) (HeldOrdered r base) where
  mono hle h := by
    refine ⟨?_, fun hcond rid ws'' hws => h.seen hcond rid ws'' (hle.trans hws)⟩
    rw [← Ordered.expire_expire hle, h.ordered, Ordered.expire_expire hle]
  agree_mark _ _ _ _ _ _ h := ⟨h.ordered, h.seen⟩
  held_mark _ _ _ h := ⟨h.begun, h.seen, h.bits⟩
  agree_new _ := ⟨rfl, fun _ _ _ _ => .rfl⟩
  held_new T := ⟨Or.inl rfl, fun _ => heldSeen_nil T, fun _ _ => Nat.zero_testBit _⟩
  stale h hlt := by
    refine ⟨?_, fun hcond => .of_stale (h.seen hcond) hlt⟩
    rw [h.begun.expire_eq_none hlt]
    exact Ordered.expire_none
  held_event {T now g hits} value _ _ hhits h hle := by
    obtain ⟨-, hgroup⟩ := evalOrderedCase_off (r := r) hwm g hits now (now - r.timespanS)
    rw [evaluate, htype]
    dsimp only
    rw [hgroup]
    refine ⟨h.begun.step horder hle, fun hcond => ?_, fun a ha => ?_⟩
    · have hseen := condGroup_seen g hits now (now - r.timespanS) hcond
      have hrecord := (h.seen hcond).record hle (hbase hcond) hhits (now - r.timespanS)
      exact hseen ▸ hrecord
    · have hmerge := condGroup_mergeSeen (r := r) g hits now (now - r.timespanS)
      exact (congrArg (fun m => m.toNat.testBit a.toNat) hmerge).trans (h.bits a ha)
  event {T T' now g g' hits} value _ _ hhits h h' hle hle' hagree := by
    obtain ⟨hfired, hgroup⟩ := evalOrderedCase_off (r := r) hwm g hits now (now - r.timespanS)
    obtain ⟨hfired', hgroup'⟩ := evalOrderedCase_off (r := r) hwm g' hits now (now - r.timespanS)
    have hstep : orderedStep r.order hits now (now - r.timespanS) caps.eventTimeOrdering g.ordered =
        orderedStep r.order hits now (now - r.timespanS) caps.eventTimeOrdering g'.ordered :=
      orderedStep_expire horder hagree.ordered
    have hrecord := fun hcond => (hagree.seen hcond).record (h.seen hcond) (h'.seen hcond) hle hle'
      (hbase hcond) hhits
    simp only [evaluate, htype]
    refine ⟨?_, fun _ => ?_, ?_⟩
    · rw [hfired, hfired', hstep]
      by_cases hcond : r.cond = []
      · rw [hcond]
        rfl
      · have heval : corrCondEval r.cond
              (corrSeenMask r (condGroup r g hits now (now - r.timespanS))) =
            corrCondEval r.cond (corrSeenMask r (condGroup r g' hits now (now - r.timespanS))) := by
          refine corrCondEval_congr fun a ha => maskBit_corrSeenMask_congr ?_ ?_ ?_
          · rw [condGroup_mergeSeen]
            exact h.bits a ha
          · rw [condGroup_mergeSeen]
            exact h'.bits a ha
          · rw [condGroup_seen _ _ _ _ hcond, condGroup_seen _ _ _ _ hcond]
            exact (hrecord hcond).2
        rw [heval]
    · rw [observedVal, observedVal, htype]
    · rw [hgroup, hgroup']
      refine ⟨congrArg (fun o : Bool × Ordered => o.2.expire (now - r.timespanS)) hstep,
        fun hcond => ?_⟩
      have hseen := condGroup_seen g hits now (now - r.timespanS) hcond
      have hseen' := condGroup_seen g' hits now (now - r.timespanS) hcond
      exact hseen ▸ hseen' ▸ (hrecord hcond).1
  held_contrib {T g c} hc h hle := by
    obtain ⟨-, hsame, hmerge⟩ := hc.evalContrib fp caps g (c.ts - r.timespanS)
    refine ⟨?_, fun hcond => ?_, fun a ha => ?_⟩
    · rw [hsame.ordered]
      exact h.begun.imp_right fun hbegun => ⟨hbegun.1, hbegun.2.trans hle⟩
    · rw [hsame.seen]
      exact ⟨(h.seen hcond).ok, fun e he => ((h.seen hcond).le e he).trans hle⟩
    · rw [hmerge]
      split
      · rename_i hkind
        rw [UInt64.toNat_or, Nat.testBit_or, h.bits a ha, hc.bits htype hkind a ha]
        rfl
      · exact h.bits a ha
  contrib {g g' c} hc hagree := by
    obtain ⟨-, hsame, -⟩ := hc.evalContrib fp caps g (c.ts - r.timespanS)
    refine ⟨?_, fun hcond => ?_⟩
    · rw [hsame.ordered]
      exact hagree.ordered
    · rw [hsame.seen]
      exact hagree.seen hcond

end Ordered

end LibSigma
