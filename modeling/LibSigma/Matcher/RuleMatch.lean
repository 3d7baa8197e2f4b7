import LibSigma.Matcher.Denotation
import LibSigma.Matcher.RoundTrip

/-!
# The plain denotation of a rule

What the documentation says a rule means, with no order of evaluation in it, and the proof that the
lazy code decides it.

## Three descriptions

The code decides a rule by running a stack over the tokens of its condition, looking selections up
in a memo and computing them when they are not there.  `LibSigma.Matcher.Denotation` takes the memo
and the scratch away: the same stack over the values of the selections.  Here the stack goes too.  A
rule is true when its token string is the code of some boolean expression, and that expression is
true (`RuleTrue`).  No evaluation order is left, so this is what a reader of a rule would write
down.

## Malformed conditions

Nothing makes a token string well formed: operators may lack operands, values may be left over, the
stack may be full.  The code answers "no match" on all of these.  The denotation has to say the same
without running the code, which is why it asks for an expression whose postfix code the string is,
within the depth of the stack; a malformed string is the code of none.  The general part, on stack
machines and postfix code, is `LibSigma.Library.Rpn`.

## Groups

Inside a selection the predicates stand group by group: alternatives of one field are one group, and
each group needs a true member.  The code makes one pass and looks at the border between groups,
which is right when equal groups stand together.  Artifacts of the compiler do (`RuleContiguous`);
the loader does not check it.

* `SelTrue`: a selection is nonempty, and each of its groups has a true predicate.
* `RuleTrue`: all selections, or the boolean expression whose token string the condition is.
* `groupsHold_iff`: one pass over contiguous groups decides "each group has a true predicate".
* `ruleMatch_iff_ruleTrue`: **`rule_match` returns true exactly on the events the rule means.**
-/

namespace LibSigma

open Library

/-! ## Contiguous groups -/

/-- Equal entries stand together. -/
def Contiguous {α : Type} (l : List α) : Prop :=
  ∀ (i j k : ℕ) (a : α), i ≤ j → j ≤ k → l[i]? = some a → l[k]? = some a → l[j]? = some a

theorem Contiguous.tail {α : Type} {a : α} {l : List α} (h : Contiguous (a :: l)) :
    Contiguous l := by
  intro i j k b hij hjk hi hk
  exact h (i + 1) (j + 1) (k + 1) b (by omega) (by omega) hi hk

theorem contiguous_singleton {α : Type} (a : α) : Contiguous [a] := by
  intro i j k b hij hjk hi hk
  have hk0 : k < 1 := (List.getElem?_eq_some_iff.mp hk).1
  obtain rfl : i = j := by omega
  exact hi

/-- An entry that differs from the one before it has not been seen before. -/
theorem Contiguous.not_mem {α : Type} {a b : α} {l : List α} (h : Contiguous (a :: b :: l))
    (hne : b ≠ a) : a ∉ b :: l := by
  intro hmem
  obtain ⟨k, hk⟩ := List.mem_iff_getElem?.mp hmem
  have hb := h 0 1 (k + 1) a (by omega) (by omega) rfl hk
  exact hne (Option.some.inj hb)

/-- Every group has a true member. -/
def EachGroup (l : List (UInt16 × Bool)) : Prop :=
  ∀ x ∈ l, ∃ y ∈ l, y.1 = x.1 ∧ y.2 = true

theorem eachGroup_cons_self {g : UInt16} {a b : Bool} {l : List (UInt16 × Bool)} :
    EachGroup ((g, a) :: (g, b) :: l) ↔ EachGroup ((g, a || b) :: l) := by
  constructor
  · intro h x hx
    have hx' : ∃ x' ∈ (g, a) :: (g, b) :: l, x'.1 = x.1 := by
      rcases List.mem_cons.mp hx with rfl | hx
      · exact ⟨(g, a), by simp, rfl⟩
      · exact ⟨x, by simp [hx], rfl⟩
    obtain ⟨x', hx', hxg⟩ := hx'
    obtain ⟨y, hy, hyg, hyt⟩ := h x' hx'
    simp only [List.mem_cons] at hy
    rcases hy with rfl | rfl | hy
    · exact ⟨(g, a || b), by simp, hyg.trans hxg, by simp at hyt; simp [hyt]⟩
    · exact ⟨(g, a || b), by simp, hyg.trans hxg, by simp at hyt; simp [hyt]⟩
    · exact ⟨y, by simp [hy], hyg.trans hxg, hyt⟩
  · intro h x hx
    have hx' : ∃ x' ∈ (g, a || b) :: l, x'.1 = x.1 := by
      simp only [List.mem_cons] at hx
      rcases hx with rfl | rfl | hx
      · exact ⟨(g, a || b), by simp, rfl⟩
      · exact ⟨(g, a || b), by simp, rfl⟩
      · exact ⟨x, by simp [hx], rfl⟩
    obtain ⟨x', hx', hxg⟩ := hx'
    obtain ⟨y, hy, hyg, hyt⟩ := h x' hx'
    rcases List.mem_cons.mp hy with rfl | hy
    · rcases Bool.or_eq_true_iff.mp hyt with ha | hb
      · exact ⟨(g, a), by simp, hyg.trans hxg, ha⟩
      · exact ⟨(g, b), by simp, hyg.trans hxg, hb⟩
    · exact ⟨y, by simp [hy], hyg.trans hxg, hyt⟩

/-- A group that does not come back is on its own. -/
theorem eachGroup_cons_of_not_mem {g : UInt16} {a : Bool} {l : List (UInt16 × Bool)}
    (hg : g ∉ l.map Prod.fst) : EachGroup ((g, a) :: l) ↔ a = true ∧ EachGroup l := by
  constructor
  · intro h
    constructor
    · obtain ⟨y, hy, hyg, hyt⟩ := h (g, a) (by simp)
      rcases List.mem_cons.mp hy with rfl | hy
      · exact hyt
      · exact absurd (List.mem_map.mpr ⟨y, hy, hyg⟩) hg
    · intro x hx
      obtain ⟨y, hy, hyg, hyt⟩ := h x (by simp [hx])
      rcases List.mem_cons.mp hy with rfl | hy
      · exact absurd (List.mem_map.mpr ⟨x, hx, hyg.symm⟩) hg
      · exact ⟨y, hy, hyg, hyt⟩
  · rintro ⟨rfl, h⟩ x hx
    rcases List.mem_cons.mp hx with rfl | hx
    · exact ⟨(g, true), by simp, rfl, rfl⟩
    · obtain ⟨y, hy, hyg, hyt⟩ := h x hx
      exact ⟨y, by simp [hy], hyg, hyt⟩

/-- **One pass over contiguous groups.**  `acc` stands for the part of group `cur` already seen. -/
theorem groupsHold_iff {l : List (UInt16 × Bool)} {acc : Bool} {cur : UInt16}
    (h : Contiguous (cur :: l.map Prod.fst)) :
    groupsHold l acc cur = true ↔ EachGroup ((cur, acc) :: l) := by
  induction l generalizing acc cur with
  | nil => rw [groupsHold, eachGroup_cons_of_not_mem (by simp)]; simp [EachGroup]
  | cons p l ih =>
    obtain ⟨g, b⟩ := p
    rw [groupsHold]
    by_cases hg : g = cur
    · subst hg
      rw [if_pos rfl, ih h.tail, eachGroup_cons_self]
    · rw [if_neg hg, Bool.and_eq_true, ih h.tail,
        eachGroup_cons_of_not_mem (l := (g, b) :: l) (h.not_mem hg)]

/-! ## The denotation -/

section Denotation

variable (pf : Platform) (db : SigmaDb) (ev : Event)

/-- A selection is true: it is nonempty, and each of its groups contains a true predicate. -/
def SelTrue (sel : SigmaSel) : Prop :=
  0 < sel.predCount.toNat ∧
    ∀ i p, i < sel.predCount.toNat → db.preds[sel.predStart.toNat + i]? = some p →
      ∃ j q, j < sel.predCount.toNat ∧ db.preds[sel.predStart.toNat + j]? = some q ∧
        q.groupId = p.groupId ∧ predHolds pf db ev q (sel.predStart.toNat + j) = true

/-- Selection `idx` of a rule is true. -/
def RuleSelTrue (r : SigmaRule) (idx : ℕ) : Prop :=
  ∃ s, db.sels[r.selStart.toNat + idx]? = some s ∧ SelTrue pf db ev s

/-- A rule is true: without a condition, it has a selection and all are true; with one, its tokens
are the code of a boolean expression that never needs more than 64 cells, that names selections of
the rule only and that is true of them. -/
def RuleTrue (r : SigmaRule) : Prop :=
  if r.condCount = 0 then
    0 < r.selCount.toNat ∧ ∀ i < r.selCount.toNat, RuleSelTrue pf db ev r i
  else
    ∃ e : BoolExpr UInt32, ruleToks db r = e.code ∧ e.depth ≤ sigmaCondStackMax ∧
      (∀ i ∈ e.args, i < r.selCount) ∧ e.Holds fun i => RuleSelTrue pf db ev r i.toNat

/-- The predicates of every selection of a rule are listed group by group. -/
def RuleContiguous (r : SigmaRule) : Prop :=
  ∀ s ∈ slice db.sels r.selStart.toNat r.selCount.toNat,
    Contiguous ((slice db.preds s.predStart.toNat s.predCount.toNat).map (·.groupId))

end Denotation

section Correctness

variable {pf : Platform} {db : SigmaDb} {ev : Event}

theorem mem_selVerdicts {start n : ℕ} {g : UInt16} {b : Bool} :
    (g, b) ∈ selVerdicts pf db ev start n ↔
      ∃ i p, i < n ∧ db.preds[start + i]? = some p ∧ p.groupId = g ∧
        predHolds pf db ev p (start + i) = b := by
  simp only [selVerdicts, List.mem_filterMap, List.mem_range'_1, Option.map_eq_some_iff,
    Prod.mk.injEq]
  constructor
  · rintro ⟨j, ⟨hle, hlt⟩, p, hp, hg, hb⟩
    obtain ⟨i, rfl⟩ := Nat.exists_eq_add_of_le hle
    exact ⟨i, p, by omega, hp, hg, hb⟩
  · rintro ⟨i, p, hi, hp, hg, hb⟩
    exact ⟨start + i, ⟨by omega, by omega⟩, p, hp, hg, hb⟩

theorem map_fst_selVerdicts {start n : ℕ} (h : start + n ≤ db.preds.length) :
    (selVerdicts pf db ev start n).map Prod.fst = (slice db.preds start n).map (·.groupId) := by
  induction n generalizing start with
  | zero => simp [selVerdicts]
  | succ n ih =>
    have hp : db.preds[start]? = some db.preds[start] := List.getElem?_eq_getElem (by omega)
    rw [selVerdicts_succ hp, slice_succ hp, List.map_cons, List.map_cons, ih (by omega)]

theorem selHolds_iff_selTrue (hdb : db.Loaded) {sel : SigmaSel} (hsel : sel ∈ db.sels)
    (hgroups : Contiguous ((slice db.preds sel.predStart.toNat sel.predCount.toNat).map
      (·.groupId))) :
    selHolds pf db ev sel = true ↔ SelTrue pf db ev sel := by
  have hin := hdb.valid.selPreds sel hsel
  have hfst : (selVerdicts pf db ev sel.predStart.toNat sel.predCount.toNat).map Prod.fst = _ :=
    map_fst_selVerdicts hin
  have heach : EachGroup (selVerdicts pf db ev sel.predStart.toNat sel.predCount.toNat) ↔
      ∀ i p, i < sel.predCount.toNat → db.preds[sel.predStart.toNat + i]? = some p →
        ∃ j q, j < sel.predCount.toNat ∧ db.preds[sel.predStart.toNat + j]? = some q ∧
          q.groupId = p.groupId ∧ predHolds pf db ev q (sel.predStart.toNat + j) = true := by
    constructor
    · intro h i p hi hp
      obtain ⟨⟨g, b⟩, hy, hyg, hyt⟩ := h _ (mem_selVerdicts.mpr ⟨i, p, hi, hp, rfl, rfl⟩)
      obtain ⟨j, q, hj, hq, hqg, hqb⟩ := mem_selVerdicts.mp hy
      exact ⟨j, q, hj, hq, hqg.trans hyg, hqb.trans hyt⟩
    · rintro h ⟨g, b⟩ hx
      obtain ⟨i, p, hi, hp, hg, hb⟩ := mem_selVerdicts.mp hx
      obtain ⟨j, q, hj, hq, hqg, hqt⟩ := h i p hi hp
      exact ⟨_, mem_selVerdicts.mpr ⟨j, q, hj, hq, rfl, rfl⟩, hqg.trans hg, hqt⟩
  unfold SelTrue selHolds
  rw [← heach]
  by_cases hzero : sel.predCount.toNat = 0
  · rw [hzero]
    simp [selVerdicts]
  · obtain ⟨n, hn⟩ := Nat.exists_eq_succ_of_ne_zero hzero
    have hp : db.preds[sel.predStart.toNat]? = some db.preds[sel.predStart.toNat] :=
      List.getElem?_eq_getElem (by omega)
    rw [hn, selVerdicts_succ hp] at hfst ⊢
    rw [hn] at hgroups
    rw [← hfst, List.map_cons] at hgroups
    have hpos : 0 < n.succ := Nat.succ_pos n
    -- the first predicate starts its own group, so that group's accumulator is its verdict
    simp only [groupsHold, if_true, Bool.false_or, hpos, true_and]
    exact groupsHold_iff hgroups

theorem ruleSelHolds_iff (hdb : db.Loaded) {r : SigmaRule} (hgroups : RuleContiguous db r)
    {idx : ℕ} (hidx : idx < r.selCount.toNat) :
    ruleSelHolds pf db ev r idx = true ↔ RuleSelTrue pf db ev r idx := by
  unfold ruleSelHolds RuleSelTrue
  cases hs : db.sels[r.selStart.toNat + idx]? with
  | none => simp
  | some s =>
    have hmem : s ∈ slice db.sels r.selStart.toNat r.selCount.toNat := by
      refine List.mem_of_getElem? (i := idx) ?_
      rw [getElem?_slice, if_pos hidx, hs]
    rw [Option.any_some, selHolds_iff_selTrue hdb (List.mem_of_getElem? hs) (hgroups s hmem)]
    simp

/-- **The verdict is the denotation.** -/
theorem ruleHolds_iff_ruleTrue (hdb : db.Loaded) {r : SigmaRule} (hgroups : RuleContiguous db r) :
    ruleHolds pf db ev r = true ↔ RuleTrue pf db ev r := by
  unfold ruleHolds RuleTrue
  split
  · rw [Bool.and_eq_true, decide_eq_true_eq, List.all_eq_true, UInt32.lt_iff_toNat_lt]
    refine and_congr_right fun _ => ?_
    simp only [List.mem_range]
    exact forall_congr' fun i => imp_congr_right fun hi => ruleSelHolds_iff hdb hgroups hi
  · have hsound : ∀ e : BoolExpr UInt32,
        rpnRun sigmaCondStackMax (fun i => decide (i < r.selCount)) (ruleToks db r) [] = some [e] ↔
          ruleToks db r = e.code ∧ e.depth ≤ sigmaCondStackMax ∧ ∀ i ∈ e.args, i < r.selCount := by
      intro e
      rw [rpnRun_eq_singleton_iff]
      simp only [decide_eq_true_eq]
    have hval : ∀ e : BoolExpr UInt32, (∀ i ∈ e.args, i < r.selCount) →
        (e.eval (fun i => ruleSelHolds pf db ev r i.toNat) = true ↔
          e.Holds fun i => RuleSelTrue pf db ev r i.toNat) := by
      intro e he
      exact BoolExpr.eval_iff_holds_of_args fun i hi =>
        ruleSelHolds_iff hdb hgroups (UInt32.lt_iff_toNat_lt.mp (he i hi))
    constructor
    · intro h
      match hrun : rpnRun sigmaCondStackMax (fun i => decide (i < r.selCount)) (ruleToks db r) [],
        h with
      | some [e], h =>
        obtain ⟨hcode, hdepth, hargs⟩ := (hsound e).mp hrun
        exact ⟨e, hcode, hdepth, hargs, (hval e hargs).mp h⟩
    · rintro ⟨e, hcode, hdepth, hargs, hholds⟩
      rw [(hsound e).mpr ⟨hcode, hdepth, hargs⟩]
      exact (hval e hargs).mpr hholds

/-- **`rule_match` decides the plain denotation.**  From every scratch whose memo is right for the
event, it meets no fault and returns true exactly when the rule is true; deferring selections and
negations, folding double negations and skipping right operands never changes the answer. -/
theorem ruleMatch_iff_ruleTrue {buf : Bytes} (hload : sigmaDbLoadBuffer pf buf = .ok db)
    {r : SigmaRule} (hr : r ∈ db.rules) (hgroups : RuleContiguous db r) (ev : Event)
    {e : SigmaEval} (he : MemoOk db ev e) :
    ∃ b e', (ruleMatch pf db ev r).run e = .ok (b, e') ∧ (b = true ↔ RuleTrue pf db ev r) := by
  have hdb := loaded_of_loadBuffer hload
  have hruns : Runs (ruleMatch pf db ev r) e _ := ruleMatch_yields hdb hr e he
  obtain ⟨b, e', hrun, rfl, -, -⟩ := hruns
  exact ⟨_, e', hrun, ruleHolds_iff_ruleTrue hdb hgroups⟩

end Correctness

/-- The theorem at the small artifact, on an event whose field `a` is `wxyz`. -/
theorem ruleMatch_iff_ruleTrue_sample :
    ∃ db, sigmaDbLoadBuffer samplePlatform (sigmaDbSerialize sampleTables) = .ok db ∧
      ∃ r ∈ db.rules, ∃ b e',
        (ruleMatch samplePlatform db (fun _ => some [119, 120, 121, 122]) r).run
          (sigmaEvalCreate db) = .ok (b, e') ∧
        (b = true ↔ RuleTrue samplePlatform db (fun _ => some [119, 120, 121, 122]) r) := by
  obtain ⟨db, hload, hsame⟩ := load_sample
  have hr : sampleTables.rules[0] ∈ db.rules := by
    rw [hsame.rules]
    exact List.getElem_mem _
  have hgroups : RuleContiguous db sampleTables.rules[0] := by
    intro s hs
    rw [hsame.sels] at hs
    rw [hsame.preds]
    obtain rfl : s = ⟨0, 1⟩ := by simpa [slice, sampleTables] using hs
    exact contiguous_singleton 0
  exact ⟨db, hload, _, hr, ruleMatch_iff_ruleTrue hload hr hgroups _ (memoOk_create db _)⟩

end LibSigma
