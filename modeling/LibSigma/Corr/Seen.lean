import Mathlib.Data.Nat.Bitwise
import LibSigma.Corr.Local
import LibSigma.Library.Rpn

/-!
# The seen table, the mask and the condition

`temporal_record_seen` keeps the latest time of each base rule id, `corr_seen_mask` turns the table
into 64 bits and `corr_cond_eval` reads a condition over them.

## The table

The table has 64 entries and is not ordered.  An id that is in it is refreshed; an id that is not is
appended if there is room, and dropped if there is none.  Then expired entries are removed.  With at
most 64 base rule ids there is always room, because only those are recorded and each has at most one
entry: this is `SeenOk`, which an event keeps, and under it the live entries after an event are
those before and the hits.  For rules with more ids the lemmas are stated one hit at a time.

## The mask

Bit `i` is about the `i`-th base rule id, so an id that is listed twice sets two bits, and ids from
the 65th on have none.  Merged partials have set bits of their own, which no window takes away.

## The condition

A condition is a string of tokens in postfix form.  `corr_cond_eval` returns 0 on anything
malformed, also where the operands that are missing would not matter.  What it accepts is described
without the machine: the condition spells an expression that fits its stack (`CondSpells`), and it
holds if the expression does.

* `corrCondEval_iff`: **the conditions that hold are the token strings of the expressions that fit
  the stack and hold.**
* `testBit_corrSeenMask`: bit `i` is the presence of the `i`-th base rule id.
* `live_seenRecord`: what one hit adds to the live part of the table.
-/

namespace LibSigma

open Library

/-! ## Bits

Arithmetic of masks, in the shapes in which the code has it. -/

theorem toNat_one_shiftLeft {i : ℕ} (hi : i < 64) :
    ((1 : UInt64) <<< UInt64.ofNat i).toNat = 2 ^ i := by
  have hmod : (UInt64.ofNat i).toNat % 64 = i := by
    rw [UInt64.toNat_ofNat']
    omega
  have hlt : 2 ^ i < 2 ^ 64 := Nat.pow_lt_pow_right (by decide) hi
  rw [UInt64.toNat_shiftLeft, hmod]
  show 1 <<< i % 2 ^ 64 = 2 ^ i
  rw [Nat.one_shiftLeft, Nat.mod_eq_of_lt hlt]

theorem testBit_or_shift (m : UInt64) {i : ℕ} (hi : i < 64) (j : ℕ) :
    (m ||| (1 <<< UInt64.ofNat i)).toNat.testBit j = (m.toNat.testBit j || decide (i = j)) := by
  rw [UInt64.toNat_or, Nat.testBit_or, toNat_one_shiftLeft hi, Nat.testBit_two_pow]

/-- Setting bits one by one. -/
theorem testBit_setBits {bits : List ℕ} (h : ∀ i ∈ bits, i < 64) (mask : UInt64) (j : ℕ) :
    (bits.foldl (fun mask i => mask ||| (1 <<< UInt64.ofNat i)) mask).toNat.testBit j =
      (mask.toNat.testBit j || decide (j ∈ bits)) := by
  induction bits generalizing mask with
  | nil => simp
  | cons i bits ih =>
    rw [List.foldl_cons, ih (fun j hj => h j (List.mem_cons_of_mem i hj)),
      testBit_or_shift mask (h i List.mem_cons_self), Bool.or_assoc]
    simp [eq_comm]

theorem bne_zero_eq (m : UInt64) : (m != 0) = decide (m.toNat ≠ 0) := by
  rw [Bool.eq_iff_iff, bne_iff_ne, decide_eq_true_eq, ne_eq, ne_eq, ← UInt64.toNat_inj]
  rfl

theorem and_shift_ne_zero (m : UInt64) {i : ℕ} (hi : i < 64) :
    (m &&& (1 <<< UInt64.ofNat i) != 0) = m.toNat.testBit i := by
  rw [bne_zero_eq, UInt64.toNat_and, toNat_one_shiftLeft hi, Nat.and_two_pow]
  cases m.toNat.testBit i <;> simp

theorem shift_and_ne_zero (m : UInt64) {a : UInt32} (ha : a < 64) :
    ((m >>> a.toUInt64) &&& 1 != 0) = m.toNat.testBit a.toNat := by
  have ha' : a.toNat < 64 := ha
  have hmod : a.toUInt64.toNat % 64 = a.toNat := by
    rw [UInt32.toNat_toUInt64]
    omega
  have hone : (1 : UInt64).toNat = 1 := rfl
  rw [bne_zero_eq, UInt64.toNat_and, UInt64.toNat_shiftRight, hmod, hone, Nat.and_one_is_mod,
    Nat.testBit_eq_decide_div_mod_eq, Nat.shiftRight_eq_div_pow, Bool.eq_iff_iff,
    decide_eq_true_eq, decide_eq_true_eq]
  omega

/-! ## The condition

The evaluator's stack holds truth values.  Token by token they are those of the expressions on the
stack of the symbolic machine, so a condition holds exactly if it spells an expression that does. -/

/-- The token of a condition cell; other kinds are malformed. -/
def CorrCtok.tok (c : CorrCtok) : Option (RpnTok UInt32) :=
  if c.kind = corrCSel then some (.arg c.ridIdx)
  else if c.kind = corrCNot then some .not
  else if c.kind = corrCAnd then some .and
  else if c.kind = corrCOr then some .or
  else none

/-- The truth of a selection under a mask. -/
def maskBit (mask : UInt64) (a : UInt32) : Bool := mask.toNat.testBit a.toNat

/-- One token: the values on the stack are those of the expressions. -/
theorem corrCondStep_eq (mask : UInt64) (s : List (BoolExpr UInt32)) (c : CorrCtok) :
    corrCondStep mask (s.map (BoolExpr.eval (maskBit mask))) c =
      (c.tok.bind fun t => rpnStep corrCondStackMax (fun a => decide (a < 64)) t s).map
        (List.map (BoolExpr.eval (maskBit mask))) := by
  unfold corrCondStep CorrCtok.tok
  by_cases hsel : c.kind = corrCSel
  · rw [if_pos hsel, if_pos hsel, Option.bind_some, rpnStep, List.length_map]
    by_cases hok : s.length < corrCondStackMax ∧ decide (c.ridIdx < 64) = true
    · have hlt : c.ridIdx < 64 := of_decide_eq_true hok.2
      have hnot : ¬ (corrCondStackMax ≤ s.length ∨ 64 ≤ c.ridIdx) := by
        rintro (h | h)
        · exact absurd hok.1 (not_lt.mpr h)
        · exact UInt32.not_lt.mpr h hlt
      rw [if_neg hnot, if_pos hok, Option.map_some, List.map_cons, BoolExpr.eval, maskBit,
        shift_and_ne_zero mask hlt]
    · have hbad : corrCondStackMax ≤ s.length ∨ 64 ≤ c.ridIdx := by
        by_contra hgood
        rw [not_or, not_le, UInt32.not_le] at hgood
        exact hok ⟨hgood.1, decide_eq_true hgood.2⟩
      rw [if_pos hbad, if_neg hok, Option.map_none]
  · rw [if_neg hsel, if_neg hsel]
    by_cases hnot : c.kind = corrCNot
    · rw [if_pos hnot, if_pos hnot, Option.bind_some]
      cases s with
      | nil => rfl
      | cons e s => rfl
    · rw [if_neg hnot, if_neg hnot]
      by_cases hand : c.kind = corrCAnd
      · rw [if_pos hand, if_pos hand, Option.bind_some]
        rcases s with _ | ⟨f, _ | ⟨e, s⟩⟩ <;> rfl
      · rw [if_neg hand, if_neg hand]
        by_cases hor : c.kind = corrCOr
        · rw [if_pos hor, if_pos hor, Option.bind_some]
          rcases s with _ | ⟨f, _ | ⟨e, s⟩⟩ <;> rfl
        · rw [if_neg hor, if_neg hor]
          rfl

/-- A whole condition. -/
theorem corrCond_foldlM (mask : UInt64) (cond : List CorrCtok) (s : List (BoolExpr UInt32)) :
    cond.foldlM (corrCondStep mask) (s.map (BoolExpr.eval (maskBit mask))) =
      ((cond.mapM CorrCtok.tok).bind fun ts =>
        rpnRun corrCondStackMax (fun a => decide (a < 64)) ts s).map
          (List.map (BoolExpr.eval (maskBit mask))) := by
  induction cond generalizing s with
  | nil => rfl
  | cons c cond ih =>
    rw [List.foldlM_cons, corrCondStep_eq, List.mapM_cons]
    cases htok : c.tok with
    | none => rfl
    | some t =>
      simp only [Option.bind_some, Option.bind_eq_bind, Option.pure_def]
      cases hstep : rpnStep corrCondStackMax (fun a => decide (a < 64)) t s with
      | none =>
        cases hts : cond.mapM CorrCtok.tok with
        | none => rfl
        | some ts => simp [rpnRun, hstep]
      | some s' =>
        rw [Option.map_some, Option.bind_some, ih]
        cases hts : cond.mapM CorrCtok.tok with
        | none => rfl
        | some ts => simp [rpnRun, hstep]

/-- An expression a condition spells: it fits the stack and selects below 64. -/
structure CondSpells (cond : List CorrCtok) (e : BoolExpr UInt32) : Prop where
  code : cond.mapM CorrCtok.tok = some e.code
  fits : e.depth ≤ corrCondStackMax
  sels : ∀ a ∈ e.args, a < 64

/-- **The conditions that hold** are those that spell an expression that holds. -/
theorem corrCondEval_iff (cond : List CorrCtok) (mask : UInt64) :
    corrCondEval cond mask = true ↔
      ∃ e, CondSpells cond e ∧ e.eval (maskBit mask) = true := by
  have hrun := corrCond_foldlM mask cond []
  rw [List.map_nil] at hrun
  have hspell : ∀ e, CondSpells cond e ↔ (cond.mapM CorrCtok.tok).bind (fun ts =>
      rpnRun corrCondStackMax (fun a => decide (a < 64)) ts []) = some [e] := by
    intro e
    rw [Option.bind_eq_some_iff]
    simp only [rpnRun_eq_singleton_iff]
    constructor
    · intro h
      exact ⟨_, h.code, rfl, h.fits, fun a ha => decide_eq_true (h.sels a ha)⟩
    · intro h
      obtain ⟨ts, hts, rfl, hfit, hsel⟩ := h
      exact ⟨hts, hfit, fun a ha => of_decide_eq_true (hsel a ha)⟩
  simp only [hspell]
  unfold corrCondEval
  rw [hrun]
  cases hb : (cond.mapM CorrCtok.tok).bind fun ts =>
      rpnRun corrCondStackMax (fun a => decide (a < 64)) ts [] with
  | none => simp
  | some s =>
    rcases s with _ | ⟨e, _ | ⟨f, s⟩⟩
    · simp
    · simp
    · simp

/-! ## The mask -/

/-- Whether a rule id is in the table. -/
def seenAny (seen : List (UInt32 × ℚ)) (rid : UInt32) : Bool := seen.any fun e => e.1 == rid

/-- **Bit `i` of the mask** is the presence of the `i`-th base rule id, or was merged. -/
theorem testBit_corrSeenMask (r : CorrRule) (g : Group) (j : ℕ) :
    (corrSeenMask r g).toNat.testBit j = true ↔
      g.mergeSeen.toNat.testBit j = true ∨
        ∃ rid, (r.baseRuleIds.take 64)[j]? = some rid ∧ seenAny g.seen rid = true := by
  have hmask : corrSeenMask r g = ((((r.baseRuleIds.take 64).zipIdx.filter fun p =>
      seenAny g.seen p.1).map Prod.snd).foldl (fun mask i => mask ||| (1 <<< UInt64.ofNat i))
        g.mergeSeen) := by
    rw [List.foldl_map, List.foldl_filter]
    rfl
  have hmem : ∀ i, i ∈ ((r.baseRuleIds.take 64).zipIdx.filter fun p =>
      seenAny g.seen p.1).map Prod.snd ↔
        ∃ rid, (r.baseRuleIds.take 64)[i]? = some rid ∧ seenAny g.seen rid = true := by
    intro i
    simp only [List.mem_map, List.mem_filter, List.mem_zipIdx_iff_getElem?]
    constructor
    · rintro ⟨p, ⟨hget, hseen⟩, rfl⟩
      exact ⟨p.1, hget, hseen⟩
    · rintro ⟨rid, hget, hseen⟩
      exact ⟨(rid, i), ⟨hget, hseen⟩, rfl⟩
  have hlt : ∀ i ∈ ((r.baseRuleIds.take 64).zipIdx.filter fun p =>
      seenAny g.seen p.1).map Prod.snd, i < 64 := by
    intro i hi
    obtain ⟨rid, hget, -⟩ := (hmem i).mp hi
    obtain ⟨hin, -⟩ := List.getElem?_eq_some_iff.mp hget
    rw [List.length_take] at hin
    omega
  rw [hmask, testBit_setBits hlt, Bool.or_eq_true, decide_eq_true_eq, hmem]

/-! ## The table

A compact list of rule ids with the time of the last hit of each, in a fixed array.  A hit refreshes
the entry of its id or takes a free place, and what has expired is removed afterwards.  So dead
entries may stand in the way of a hit.  With few base rules there is a place for each of them;
`SeenOk` is that case, in which no hit is lost. -/

/-- Whether the table has seen a rule id at `ws` or later. -/
def Live (seen : List (UInt32 × ℚ)) (rid : UInt32) (ws : ℚ) : Prop :=
  ∃ e ∈ seen, e.1 = rid ∧ ws ≤ e.2

theorem seenAny_filter (seen : List (UInt32 × ℚ)) (rid : UInt32) (ws : ℚ) :
    seenAny (seen.filter fun e => ws ≤ e.2) rid = true ↔ Live seen rid ws := by
  simp only [seenAny, List.any_eq_true, List.mem_filter, decide_eq_true_eq, beq_iff_eq, Live]
  tauto

theorem live_filter (seen : List (UInt32 × ℚ)) {rid : UInt32} {ws ws' : ℚ} (h : ws ≤ ws') :
    Live (seen.filter fun e => ws ≤ e.2) rid ws' ↔ Live seen rid ws' := by
  constructor
  · intro hl
    obtain ⟨e, he, hrid, hws⟩ := hl
    exact ⟨e, List.mem_of_mem_filter he, hrid, hws⟩
  · intro hl
    obtain ⟨e, he, hrid, hws⟩ := hl
    exact ⟨e, List.mem_filter.mpr ⟨he, decide_eq_true (h.trans hws)⟩, hrid, hws⟩

/-- The entries of a table after a refresh: those before, and the refreshed one. -/
theorem mem_seenRefresh {rid : UInt32} {now : ℚ} {seen : List (UInt32 × ℚ)} {e : UInt32 × ℚ}
    (h : e ∈ seenRefresh rid now seen) : e ∈ seen ∨ e = (rid, now) := by
  induction seen with
  | nil => exact Or.inl h
  | cons p seen ih =>
    obtain ⟨k, t⟩ := p
    rw [seenRefresh] at h
    split at h
    · rename_i hk
      rcases List.mem_cons.mp h with rfl | h
      · exact Or.inr (by rw [hk])
      · exact Or.inl (List.mem_cons_of_mem _ h)
    · rcases List.mem_cons.mp h with rfl | h
      · exact Or.inl List.mem_cons_self
      · exact (ih h).imp_left (List.mem_cons_of_mem _)

@[simp] theorem map_fst_seenRefresh (rid : UInt32) (now : ℚ) (seen : List (UInt32 × ℚ)) :
    (seenRefresh rid now seen).map Prod.fst = seen.map Prod.fst := by
  induction seen with
  | nil => rfl
  | cons p seen ih =>
    obtain ⟨k, t⟩ := p
    rw [seenRefresh]
    split
    · rfl
    · rw [List.map_cons, List.map_cons, ih]

/-- What a refresh loses is older than the refreshed entry. -/
theorem mem_of_mem_seenRefresh (rid : UInt32) (now : ℚ) {seen : List (UInt32 × ℚ)}
    {e : UInt32 × ℚ} (h : e ∈ seen) :
    e ∈ seenRefresh rid now seen ∨ e.1 = rid ∧ (rid, now) ∈ seenRefresh rid now seen := by
  induction seen with
  | nil => exact absurd h List.not_mem_nil
  | cons p seen ih =>
    obtain ⟨k, t⟩ := p
    rw [seenRefresh]
    split
    · rename_i hk
      rcases List.mem_cons.mp h with rfl | h
      · exact Or.inr ⟨hk, by rw [hk]; exact List.mem_cons_self⟩
      · exact Or.inl (List.mem_cons_of_mem _ h)
    · rcases List.mem_cons.mp h with rfl | h
      · exact Or.inl List.mem_cons_self
      · exact (ih h).imp (List.mem_cons_of_mem _) fun hand =>
          ⟨hand.1, List.mem_cons_of_mem _ hand.2⟩

/-- A present rule id is refreshed. -/
theorem self_mem_seenRefresh {rid : UInt32} {now : ℚ} {seen : List (UInt32 × ℚ)}
    (h : seenAny seen rid = true) : (rid, now) ∈ seenRefresh rid now seen := by
  induction seen with
  | nil => cases h
  | cons p seen ih =>
    obtain ⟨k, t⟩ := p
    rw [seenRefresh]
    split
    · rename_i hk
      rw [hk]
      exact List.mem_cons_self
    · rename_i hk
      have hne : (k == rid) = false := beq_eq_false_iff_ne.mpr hk
      rw [seenAny, List.any_cons, hne, Bool.false_or] at h
      exact List.mem_cons_of_mem _ (ih h)

section Record

variable {now : ℚ} {seen : List (UInt32 × ℚ)} {incs : List CorrCounter}

/-- The table after a hit: entries from before, and that of the hit. -/
theorem mem_seenRecord {rid : UInt32} {e : UInt32 × ℚ}
    (h : e ∈ (seenRecord now (seen, incs) rid).1) : e ∈ seen ∨ e = (rid, now) := by
  unfold seenRecord at h
  split at h
  · exact mem_seenRefresh h
  · split at h
    · rcases List.mem_append.mp h with h | h
      · exact Or.inl h
      · exact Or.inr (List.mem_singleton.mp h)
    · exact Or.inl h

/-- A table with room for the rule ids of `base`. -/
structure SeenOk (base : List UInt32) (seen : List (UInt32 × ℚ)) : Prop where
  nodup : (seen.map Prod.fst).Nodup
  subset : ∀ e ∈ seen, e.1 ∈ base

/-- There is room for one more rule id of `base`. -/
theorem SeenOk.length_lt {base : List UInt32} (h : SeenOk base seen)
    (hbase : base.length ≤ corrMaxSeenRules) {rid : UInt32} (hrid : rid ∈ base)
    (hnew : ¬ seenAny seen rid = true) : seen.length < corrMaxSeenRules := by
  have hfresh : rid ∉ seen.map Prod.fst := by
    intro hmem
    obtain ⟨e, he, rfl⟩ := List.mem_map.mp hmem
    exact hnew (List.any_eq_true.mpr ⟨e, he, beq_self_eq_true _⟩)
  have hsub : rid :: seen.map Prod.fst ⊆ base := by
    intro k hk
    rcases List.mem_cons.mp hk with rfl | hk
    · exact hrid
    · obtain ⟨e, he, rfl⟩ := List.mem_map.mp hk
      exact h.subset e he
  have hle := (List.subperm_of_subset (List.nodup_cons.mpr ⟨hfresh, h.nodup⟩) hsub).length_le
  rw [List.length_cons, List.length_map] at hle
  omega

/-- **A hit of `base` finds room**, and the table keeps room for the others. -/
theorem SeenOk.record {base : List UInt32} (h : SeenOk base seen) (now : ℚ)
    (incs : List CorrCounter) (hbase : base.length ≤ corrMaxSeenRules) {rid : UInt32}
    (hrid : rid ∈ base) :
    SeenOk base (seenRecord now (seen, incs) rid).1 ∧
      (seenRecord now (seen, incs) rid).2 = incs ∧
      (rid, now) ∈ (seenRecord now (seen, incs) rid).1 := by
  have hsub : ∀ e ∈ (seenRecord now (seen, incs) rid).1, e.1 ∈ base := by
    intro e he
    rcases mem_seenRecord he with he | rfl
    · exact h.subset e he
    · exact hrid
  unfold seenRecord at hsub ⊢
  by_cases hany : (seen.any fun e => e.1 == rid) = true
  · simp only [if_pos hany] at hsub ⊢
    exact ⟨⟨(map_fst_seenRefresh rid now seen).symm ▸ h.nodup, hsub⟩, trivial,
      self_mem_seenRefresh hany⟩
  · have hroom := h.length_lt hbase hrid hany
    simp only [if_neg hany, if_pos hroom] at hsub ⊢
    refine ⟨⟨?_, hsub⟩, trivial, List.mem_append_right _ List.mem_cons_self⟩
    rw [List.map_append, List.map_singleton, List.nodup_append]
    refine ⟨h.nodup, List.nodup_singleton _, fun k hk k' hk' => ?_⟩
    rw [List.mem_singleton.mp hk']
    rintro rfl
    obtain ⟨e, he, rfl⟩ := List.mem_map.mp hk
    exact hany (List.any_eq_true.mpr ⟨e, he, beq_self_eq_true _⟩)

/-- **One hit in a table with an entry for each rule id**: its entry is the only one that changes. -/
theorem live_seenRecord {rid : UInt32} (hnodup : (seen.map Prod.fst).Nodup)
    (hroom : .seenTruncated ∉ (seenRecord now (seen, incs) rid).2) :
    ((seenRecord now (seen, incs) rid).1.map Prod.fst).Nodup ∧
      ∀ k ws, Live (seenRecord now (seen, incs) rid).1 k ws ↔
        if k = rid then ws ≤ now else Live seen k ws := by
  unfold seenRecord at hroom ⊢
  by_cases hany : (seen.any fun e => e.1 == rid) = true
  · simp only [if_pos hany]
    have hnodup' : ((seenRefresh rid now seen).map Prod.fst).Nodup :=
      (map_fst_seenRefresh rid now seen).symm ▸ hnodup
    refine ⟨hnodup', fun k ws => ?_⟩
    have hself : (rid, now) ∈ seenRefresh rid now seen := self_mem_seenRefresh hany
    split
    · rename_i hk
      subst hk
      refine ⟨fun hl => ?_, fun hws => ⟨_, hself, rfl, hws⟩⟩
      obtain ⟨e, he, hek, hws⟩ := hl
      have heq := List.inj_on_of_nodup_map hnodup' he hself hek
      rwa [heq] at hws
    · rename_i hk
      constructor
      · intro hl
        obtain ⟨e, he, rfl, hws⟩ := hl
        rcases mem_seenRefresh he with he | rfl
        · exact ⟨e, he, rfl, hws⟩
        · exact absurd rfl hk
      · intro hl
        obtain ⟨e, he, rfl, hws⟩ := hl
        rcases mem_of_mem_seenRefresh rid now he with he | ⟨hek, -⟩
        · exact ⟨e, he, rfl, hws⟩
        · exact absurd hek hk
  · rw [if_neg hany] at hroom
    by_cases hlen : seen.length < corrMaxSeenRules
    · have hfresh : ∀ e ∈ seen, e.1 ≠ rid := fun e he heq =>
        hany (List.any_eq_true.mpr ⟨e, he, beq_iff_eq.mpr heq⟩)
      simp only [if_neg hany, if_pos hlen]
      refine ⟨?_, fun k ws => ?_⟩
      · rw [List.map_append, List.map_singleton, List.nodup_append]
        refine ⟨hnodup, List.nodup_singleton _, fun k hk k' hk' heq => ?_⟩
        obtain ⟨e, he, rfl⟩ := List.mem_map.mp hk
        exact hfresh e he (heq.trans (List.mem_singleton.mp hk'))
      · simp only [Live, List.mem_append, List.mem_singleton]
        split
        · rename_i hk
          subst hk
          refine ⟨fun hl => ?_, fun hws => ⟨_, Or.inr rfl, rfl, hws⟩⟩
          obtain ⟨e, he | rfl, hek, hws⟩ := hl
          · exact absurd hek (hfresh e he)
          · exact hws
        · rename_i hk
          constructor
          · intro hl
            obtain ⟨e, he | rfl, rfl, hws⟩ := hl
            · exact ⟨e, he, rfl, hws⟩
            · exact absurd rfl hk
          · intro hl
            obtain ⟨e, he, hand⟩ := hl
            exact ⟨e, Or.inl he, hand⟩
    · rw [if_neg hlen] at hroom
      exact absurd (List.mem_append_right _ List.mem_cons_self) hroom

end Record

/-- The hits of one event, recorded. -/
def seenRecords (now : ℚ) (seen : List (UInt32 × ℚ)) (hits : List UInt32) :
    List (UInt32 × ℚ) × List CorrCounter :=
  hits.foldl (seenRecord now) (seen, [])

/-- The table after an event: entries from before, and those of its hits. -/
theorem mem_seenRecords {now : ℚ} {seen : List (UInt32 × ℚ)} {hits : List UInt32}
    {e : UInt32 × ℚ} (h : e ∈ (seenRecords now seen hits).1) :
    e ∈ seen ∨ e.1 ∈ hits ∧ e.2 = now := by
  have hfold : ∀ (hits : List UInt32) (acc : List (UInt32 × ℚ) × List CorrCounter),
      e ∈ (hits.foldl (seenRecord now) acc).1 → e ∈ acc.1 ∨ e.1 ∈ hits ∧ e.2 = now := by
    intro hits
    induction hits with
    | nil => exact fun acc h => Or.inl h
    | cons rid hits ih =>
      intro acc h
      rcases ih _ h with h | ⟨hmem, hts⟩
      · rcases mem_seenRecord h with h | rfl
        · exact Or.inl h
        · exact Or.inr ⟨List.mem_cons_self, rfl⟩
      · exact Or.inr ⟨List.mem_cons_of_mem _ hmem, hts⟩
  exact hfold hits _ h

/-- **The hits of one event of a rule with few base ids** all find room. -/
theorem SeenOk.records {base : List UInt32} {seen : List (UInt32 × ℚ)} (h : SeenOk base seen)
    (now : ℚ) (hbase : base.length ≤ corrMaxSeenRules) {hits : List UInt32}
    (hhits : ∀ rid ∈ hits, rid ∈ base) :
    SeenOk base (seenRecords now seen hits).1 ∧ (seenRecords now seen hits).2 = [] := by
  have hfold : ∀ (hits : List UInt32) (seen : List (UInt32 × ℚ)) (incs : List CorrCounter),
      (∀ rid ∈ hits, rid ∈ base) → SeenOk base seen →
      SeenOk base (hits.foldl (seenRecord now) (seen, incs)).1 ∧
        (hits.foldl (seenRecord now) (seen, incs)).2 = incs := by
    intro hits
    induction hits with
    | nil => exact fun seen incs _ hok => ⟨hok, rfl⟩
    | cons rid hits ih =>
      intro seen incs hhits hok
      obtain ⟨hok', hincs, -⟩ := hok.record now incs hbase (hhits rid List.mem_cons_self)
      obtain ⟨hok'', hincs'⟩ := ih _ (seenRecord now (seen, incs) rid).2
        (fun k hk => hhits k (List.mem_cons_of_mem _ hk)) hok'
      exact ⟨hok'', hincs'.trans hincs⟩
  exact hfold hits seen [] hhits h

/-- The counters of earlier hits stay. -/
theorem mem_incs_seenRecord {now : ℚ} {acc : List (UInt32 × ℚ) × List CorrCounter} {rid : UInt32}
    {c : CorrCounter} (h : c ∈ acc.2) : c ∈ (seenRecord now acc rid).2 := by
  unfold seenRecord
  split_ifs
  · exact h
  · exact h
  · exact List.mem_append_left _ h

/-- **The hits of one event, if they all find room**, are the entries that change. -/
theorem live_seenRecords {now : ℚ} {seen : List (UInt32 × ℚ)} (hnodup : (seen.map Prod.fst).Nodup)
    {hits : List UInt32} (hroom : .seenTruncated ∉ (seenRecords now seen hits).2) :
    ((seenRecords now seen hits).1.map Prod.fst).Nodup ∧
      ∀ k ws, Live (seenRecords now seen hits).1 k ws ↔
        if k ∈ hits then ws ≤ now else Live seen k ws := by
  have hkeep : ∀ (hits : List UInt32) (acc : List (UInt32 × ℚ) × List CorrCounter),
      .seenTruncated ∈ acc.2 → .seenTruncated ∈ (hits.foldl (seenRecord now) acc).2 := by
    intro hits
    induction hits with
    | nil => exact fun acc h => h
    | cons rid hits ih => exact fun acc h => ih _ (mem_incs_seenRecord h)
  have hfold : ∀ (hits : List UInt32) (seen : List (UInt32 × ℚ)) (incs : List CorrCounter),
      (seen.map Prod.fst).Nodup →
      .seenTruncated ∉ (hits.foldl (seenRecord now) (seen, incs)).2 →
      ((hits.foldl (seenRecord now) (seen, incs)).1.map Prod.fst).Nodup ∧
        ∀ k ws, Live (hits.foldl (seenRecord now) (seen, incs)).1 k ws ↔
          if k ∈ hits then ws ≤ now else Live seen k ws := by
    intro hits
    induction hits with
    | nil => exact fun seen incs hnodup _ => ⟨hnodup, fun k ws => by simp⟩
    | cons rid hits ih =>
      intro seen incs hnodup hroom
      obtain ⟨hnodup', hlive⟩ := live_seenRecord hnodup fun hmem => hroom (hkeep hits _ hmem)
      obtain ⟨hnodup'', hlive'⟩ := ih _ (seenRecord now (seen, incs) rid).2 hnodup' hroom
      refine ⟨hnodup'', fun k ws => (hlive' k ws).trans ?_⟩
      by_cases hk : k ∈ hits
      · rw [if_pos hk, if_pos (List.mem_cons_of_mem _ hk)]
      · rw [if_neg hk, hlive]
        by_cases heq : k = rid
        · rw [if_pos heq, if_pos (heq ▸ List.mem_cons_self)]
        · rw [if_neg heq, if_neg fun hmem => (List.mem_cons.mp hmem).elim heq hk]
  exact hfold hits seen [] hnodup hroom

/-- **What is live after an event**: what was live before, and the hits. -/
theorem SeenOk.live_records {base : List UInt32} {seen : List (UInt32 × ℚ)} (h : SeenOk base seen)
    {now : ℚ} (hbase : base.length ≤ corrMaxSeenRules) {hits : List UInt32}
    (hhits : ∀ rid ∈ hits, rid ∈ base) (hle : ∀ e ∈ seen, e.2 ≤ now) (k : UInt32) (ws : ℚ) :
    Live (seenRecords now seen hits).1 k ws ↔ Live seen k ws ∨ k ∈ hits ∧ ws ≤ now := by
  have hroom : .seenTruncated ∉ (seenRecords now seen hits).2 := by
    rw [(h.records now hbase hhits).2]
    exact List.not_mem_nil
  rw [(live_seenRecords h.nodup hroom).2 k ws]
  split
  · rename_i hk
    refine ⟨fun hws => Or.inr ⟨hk, hws⟩, fun hl => hl.elim (fun hlive => ?_) And.right⟩
    obtain ⟨e, he, -, hws⟩ := hlive
    exact hws.trans (hle e he)
  · rename_i hk
    exact ⟨Or.inl, fun hl => hl.elim id fun hand => absurd hand.1 hk⟩

theorem SeenOk.filter {base : List UInt32} {seen : List (UInt32 × ℚ)} (h : SeenOk base seen)
    (p : UInt32 × ℚ → Bool) : SeenOk base (seen.filter p) :=
  ⟨h.nodup.sublist (List.Sublist.map _ List.filter_sublist),
    fun e he => h.subset e (List.mem_of_mem_filter he)⟩

end LibSigma
