import LibSigma.Matcher.Report
import LibSigma.Matcher.TeddySpec

/-!
# Which rules the prefilter lets through

A rule is a candidate when it is always verified or when every one of its witness clauses has been
credited; what is credited on an event is a function of the tables, the event and the buckets.

## Masks as a set

The prefilter keeps a 32-bit mask for each rule, with the stamp of the event it belongs to.
`Credit` reads both as a set of pairs of rule and clause.  In these terms each step of the code is
one that adds pairs: a posting adds one, a confirmed needle those of its postings that count, a scan
those of the needles met, a witness one more.  The masks, the stamps and the first touch of a rule
appear in `creditClause_runs` and nowhere after it.

## What a scan needs

The callback of a scan is the code that credits, so the rule of `LibSigma.Matcher.TeddySpec` is used
with the set credited so far as its invariant.  The rule wants to know what each confirmed needle
adds and that the order does not matter, and both are plain for a growing set.

## The gate

After the prefilter a rule passes when its mask is complete or when it is always verified.  A rule
with clauses of which none was credited was never touched, has an old stamp, and does not pass.
That stays so until the next event (`pfIsCandidate_runs`), since visits touch no masks.

The prefilter declines when there is nothing to gate with or when it is off; it then leaves the
scratch as it was, and the caller visits everything.

* `ClauseCredited`, `Candidate`: that function.
* `Credit`: the mask array during a run, as a set of credited clauses.
* `creditClause_runs`, `markPostings_marks`, `scanText_runs`, `scanOneField_runs`: the steps.
* `prefilterCandidates_runs`: **after the prefilter, the rules let through are the candidates.**
-/

namespace LibSigma

open Library

/-! ## Candidates

Everything here is a function of the tables and the event.  Which matcher scans a field matters for
what is met, so it appears in the definitions (`needleIds`); that the matchers of the fields and the
full one come to the same is shown elsewhere, and not used. -/

section Candidates

variable (pf : Platform) (db : SigmaDb) (ev : Event)

/-- The scratch has the arrays of the prefilter. -/
def Prefilterable : Prop := db.rules.length ≠ 0 ∧ (db.teddy.isSome = true ∨ db.fwit.length ≠ 0)

instance : Decidable (Prefilterable db) := inferInstanceAs (Decidable (_ ∧ _))

/-- The verdict of a field witness. -/
def fwitTrue (w : SigmaFwit) : Bool :=
  (fieldValue db ev w.fieldId.toNat).any fun v =>
    v.length ≠ 0 &&
      if SigmaOp.ofByte w.op = some .opCidr then
        (db.cidrs[w.ival.toUInt64.toUInt32.toNat]?).any fun c => cidrVerdict pf v c
      else
        match sgToI64 v, SigmaOp.ofByte w.op with
        | some iv, some op => numHolds op iv w.ival
        | _, _ => false

/-- The needles the matcher of field `f` chains. -/
def needleIds (f : ℕ) : List ℕ :=
  if db.litAnyField || db.fieldTeddy.isNone then List.range db.litndl.length
  else db.fieldNeedles f

/-- The scan of field `f` over `v` meets needle `k`. -/
def NeedleMet (f : ℕ) (v : Bytes) (k : ℕ) : Prop :=
  ∃ t tf, db.teddy = some t ∧ fieldMatcher db t f = some tf ∧
    ∃ pos ∈ teddyPositions tf pf.simd v, Probed db tf (needleIds db f) v pos k

/-- The scan of `v` with the matcher `tf`, which chains the needles `ids`, meets needle `k`. -/
def MetIn (tf : SigmaTeddy) (ids : List ℕ) (v : Bytes) (k : ℕ) : Prop :=
  2 ≤ v.length ∧ ∃ pos ∈ teddyPositions tf pf.simd v, Probed db tf ids v pos k

/-- A posting that counts in field `f` and names clause `c` of rule `ri`. -/
def Counts (f : ℕ) (r : SigmaLitref) (ri c : ℕ) : Prop :=
  (r.fieldId = sigmaLitrefAnyField ∨ r.fieldId = f.toUInt16) ∧
    r.ruleIdx.toNat = ri ∧ r.clauseIdx.toNat = c

/-- Some posting of needle `k` counts. -/
def PostingCredits (f k ri c : ℕ) : Prop := ∃ r ∈ db.postings k, Counts f r ri c

/-- The scan of field `f` credits clause `c` of rule `ri`. -/
def FieldCredits (buckets : List ℕ) (f ri c : ℕ) : Prop :=
  scanField db buckets f = true ∧ ∃ v, fieldValue db ev f.toUInt16.toNat = some v ∧
    2 ≤ v.length ∧ ∃ k, NeedleMet pf db f v k ∧ PostingCredits db f k ri c

/-- Clause `c` of rule `ri` is credited on this event: by a witness, or by the scan of a field. -/
def ClauseCredited (buckets : List ℕ) (ri c : ℕ) : Prop :=
  (∃ w ∈ db.fwit, fwitTrue pf db ev w = true ∧ w.ruleIdx.toNat = ri ∧ w.clauseIdx.toNat = c) ∨
    ∃ f < db.fields.length, FieldCredits pf db ev buckets f ri c

/-- Rule `ri` is always verified. -/
def AlwaysVerified (ri : ℕ) : Prop := ∃ a ∈ db.litav, a.toNat = ri

/-- Rule `ri` is let through. -/
def Candidate (buckets : List ℕ) (ri : ℕ) : Prop :=
  AlwaysVerified db ri ∨
    (0 < db.clauses ri ∧ ∀ c < db.clauses ri, ClauseCredited pf db ev buckets ri c)

end Candidates

/-! ## Clause masks -/

theorem testBit_or_one_shiftLeft {m : UInt32} {c : UInt8} (hc : c.toNat < 32) (d : ℕ) :
    (m ||| (1 <<< c.toUInt32)).toNat.testBit d = true ↔
      m.toNat.testBit d = true ∨ d = c.toNat := by
  have hpow : 1 <<< (c.toNat % 32) % 2 ^ 32 = 2 ^ c.toNat := by
    rw [Nat.mod_eq_of_lt hc, Nat.one_shiftLeft, Nat.mod_eq_of_lt]
    exact Nat.pow_lt_pow_right (by decide) hc
  rw [UInt32.toNat_or, UInt32.toNat_shiftLeft, UInt8.toNat_toUInt32, UInt32.toNat_one, hpow,
    Nat.testBit_or, Nat.testBit_two_pow, Bool.or_eq_true, decide_eq_true_eq]
  exact or_congr_right eq_comm

/-- A mask is full exactly when it has the bits below the count. -/
theorem eq_two_pow_sub_one_iff {m n : ℕ} :
    m = 2 ^ n - 1 ↔ ∀ c, m.testBit c = true ↔ c < n := by
  constructor
  · rintro rfl c
    rw [Nat.testBit_two_pow_sub_one, decide_eq_true_eq]
  · intro h
    apply Nat.eq_of_testBit_eq
    intro c
    rw [Nat.testBit_two_pow_sub_one, Bool.eq_iff_iff, h c, decide_eq_true_eq]

section Masks

variable {db : SigmaDb} {ev : Event}

theorem ruleFullMask_yields (hdb : db.Valid) {F : Frame SigmaEval} {ri : ℕ}
    (hri : ri < db.rules.length) :
    ∃ m, m.toNat = 2 ^ db.clauses ri - 1 ∧ Yields F (ruleFullMask db ri) m := by
  have hmax : db.clauses ri ≤ 32 := hdb.clauseMax ri
  unfold ruleFullMask
  cases hcs : db.ruleClauses with
  | none =>
    rw [Tables.clauses_eq_zero_of_none hcs]
    exact ⟨0, rfl, Yields.pure 0⟩
  | some cs =>
    have hlen := db.ruleClauses_length cs hcs
    have hget : cs[ri]? = some cs[ri] := List.getElem?_eq_getElem (by omega)
    have hcount : db.clauses ri = cs[ri].toNat := by
      rw [Tables.clauses, hcs]
      dsimp only
      rw [List.getD_eq_getElem?_getD, hget, Option.getD_some]
    rw [hcount] at hmax ⊢
    dsimp only
    by_cases hzero : cs[ri] = 0
    · refine ⟨0, by rw [hzero]; rfl, (tableAt_yields hget).bind ?_⟩
      rw [if_pos hzero]
      exact Yields.pure 0
    · by_cases hbig : 32 ≤ cs[ri].toNat
      · refine ⟨0xFFFFFFFF, ?_, (tableAt_yields hget).bind ?_⟩
        · rw [show cs[ri].toNat = 32 by omega]
          rfl
        · rw [if_neg hzero, if_pos hbig]
          exact Yields.pure _
      · refine ⟨(1 <<< cs[ri].toUInt32) - 1, ?_, (tableAt_yields hget).bind ?_⟩
        · have hpow : (1 <<< cs[ri].toUInt32 : UInt32).toNat = 2 ^ cs[ri].toNat := by
            rw [UInt32.toNat_shiftLeft, UInt8.toNat_toUInt32, UInt32.toNat_one,
              Nat.mod_eq_of_lt (show cs[ri].toNat < 32 by omega), Nat.one_shiftLeft,
              Nat.mod_eq_of_lt]
            exact Nat.pow_lt_pow_right (by decide) (by omega)
          have hpos : 1 ≤ 2 ^ cs[ri].toNat := Nat.one_le_two_pow
          rw [UInt32.toNat_sub_of_le, hpow, UInt32.toNat_one]
          rw [UInt32.le_iff_toNat_le, hpow, UInt32.toNat_one]
          exact hpos
        · rw [if_neg hzero, if_neg hbig]
          exact Yields.pure _

end Masks

/-! ## The mask array as a set of clauses

A clause is credited by setting a bit.  The first time a rule is touched on an event its mask is
cleared and stamped; then, and every later time, the bit is added.  `Credit` hides the difference.
-/

/-- The scratch while the prefilter runs on `ev`: rule `ri` is touched when it is always verified
(so far) or has a credited clause, and its mask holds exactly its credited clauses. -/
structure Credit (db : SigmaDb) (ev : Event) (e₀ : SigmaEval) (av : ℕ → Prop)
    (C : ℕ → ℕ → Prop) (e : SigmaEval) : Prop where
  memo : MemoOk db ev e
  evalDone : e.evalDone = e₀.evalDone
  gen : e.gen = e₀.gen
  prefilterOn : e.prefilterOn = e₀.prefilterOn
  tscr : db.teddy.isSome = true → ScratchReady db e.tscr
  genLength : e.ruleGen.length = db.rules.length
  maskLength : e.ruleMask.length = db.rules.length
  bounded : Bounded e.gen e.ruleGen
  touched : ∀ ri, Marked e.gen e.ruleGen ri ↔ av ri ∨ ∃ c, C ri c
  bits : ∀ ri m, Marked e.gen e.ruleGen ri → e.ruleMask[ri]? = some m →
    ∀ c, m.toNat.testBit c = true ↔ C ri c

section Credits

variable {pf : Platform} {db : SigmaDb} {ev : Event} {e₀ e : SigmaEval} {av : ℕ → Prop}
  {C : ℕ → ℕ → Prop}

theorem Credit.congr (h : Credit db ev e₀ av C e) {C' : ℕ → ℕ → Prop}
    (hC : ∀ ri c, C ri c ↔ C' ri c) : Credit db ev e₀ av C' e := by
  have heq : C = C' := funext fun ri => funext fun c => propext (hC ri c)
  exact heq ▸ h

/-- What a scan changes outside the masks does not matter to them. -/
theorem Credit.scan (h : Credit db ev e₀ av C e) (cur : UInt16) (st : SigmaEvalStats)
    (log : List Obs) {scr : TeddyScratch} (hscr : db.teddy.isSome = true → ScratchReady db scr) :
    Credit db ev e₀ av C { e with curField := cur, st := st, log := log, tscr := scr } :=
  ⟨h.memo.of_memo_eq rfl, h.evalDone, h.gen, h.prefilterOn, hscr, h.genLength, h.maskLength,
    h.bounded, h.touched, h.bits⟩

/-- Reading fields does not touch the masks. -/
theorem Credit.yields {α : Type} {m : EvalM α} {a : α} (h : Credit db ev e₀ av C e)
    (hm : Yields (memoFrame db ev) m a) :
    Runs m e fun b e' => b = a ∧ Credit db ev e₀ av C e' ∧ e'.curField = e.curField := by
  refine (hm e h.memo).mono ?_
  rintro b e' ⟨hb, hmemo, hfrozen⟩
  have hdone : e'.frozen.evalDone = e.frozen.evalDone := congrArg _ hfrozen
  have hgen : e'.frozen.gen = e.frozen.gen := congrArg _ hfrozen
  have hon : e'.frozen.prefilterOn = e.frozen.prefilterOn := congrArg _ hfrozen
  have htscr : e'.frozen.tscr = e.frozen.tscr := congrArg _ hfrozen
  have hrg : e'.frozen.ruleGen = e.frozen.ruleGen := congrArg _ hfrozen
  have hrm : e'.frozen.ruleMask = e.frozen.ruleMask := congrArg _ hfrozen
  have hcur : e'.frozen.curField = e.frozen.curField := congrArg _ hfrozen
  change e'.evalDone = e.evalDone at hdone
  change e'.gen = e.gen at hgen
  change e'.prefilterOn = e.prefilterOn at hon
  change e'.tscr = e.tscr at htscr
  change e'.ruleGen = e.ruleGen at hrg
  change e'.ruleMask = e.ruleMask at hrm
  refine ⟨hb, ⟨hmemo, hdone.trans h.evalDone, hgen.trans h.gen, hon.trans h.prefilterOn, ?_, ?_, ?_,
    ?_, ?_, ?_⟩, hcur⟩
  · rw [htscr]
    exact h.tscr
  · rw [hrg, h.genLength]
  · rw [hrm, h.maskLength]
  · rw [hgen, hrg]
    exact h.bounded
  · rw [hgen, hrg]
    exact h.touched
  · rw [hgen, hrg, hrm]
    exact h.bits

/-- **Crediting a clause** adds it to the set, whether or not its rule was touched before. -/
theorem creditClause_runs (h : Credit db ev e₀ av C e) {ri : ℕ} (hri : ri < db.rules.length)
    {c : UInt8} (hc : c.toNat < 32) :
    Runs (creditClause ri c) e fun _ e' =>
      Credit db ev e₀ av (fun r d => C r d ∨ (r = ri ∧ d = c.toNat)) e' ∧
        e'.curField = e.curField := by
  have hgl : ri < e.ruleGen.length := by rw [h.genLength]; exact hri
  have hml : ri < e.ruleMask.length := by rw [h.maskLength]; exact hri
  have hg : e.ruleGen[ri]? = some e.ruleGen[ri] :=
    List.getElem?_eq_getElem _
  have hm : e.ruleMask[ri]? = some e.ruleMask[ri] :=
    List.getElem?_eq_getElem _
  unfold creditClause pfTouch
  simp only [bind_assoc]
  refine Runs.get_bind (runs_tableAt hg ?_)
  split
  · rename_i hstale
    have huntouched : ¬ (av ri ∨ ∃ c, C ri c) := by
      rw [← h.touched, Marked, hg]
      exact fun heq => hstale (Option.some.inj heq)
    refine Runs.modify_bind (Runs.get_bind (runs_tableAt (a := 0) ?_ ?_))
    · rw [List.getElem?_set_self hml]
    · rw [if_neg (by omega)]
      refine Runs.modify ⟨⟨h.memo.of_memo_eq rfl, h.evalDone, h.gen, h.prefilterOn, h.tscr, ?_, ?_,
        h.bounded.set ri, fun r => ?_, fun r m hmark hmask d => ?_⟩, rfl⟩
      · rw [List.length_set, h.genLength]
      · rw [List.length_set, List.length_set, h.maskLength]
      · rw [marked_set hgl, h.touched]
        constructor
        · rintro (rfl | hav | ⟨d, hd⟩)
          · exact .inr ⟨_, .inr ⟨rfl, rfl⟩⟩
          · exact .inl hav
          · exact .inr ⟨d, .inl hd⟩
        · rintro (hav | ⟨d, hd | ⟨rfl, rfl⟩⟩)
          · exact .inr (.inl hav)
          · exact .inr (.inr ⟨d, hd⟩)
          · exact .inl rfl
      · rw [marked_set hgl] at hmark
        dsimp only at hmask
        rw [List.set_set] at hmask
        by_cases hr : r = ri
        · subst hr
          rw [List.getElem?_set_self hml] at hmask
          obtain rfl := Option.some.inj hmask
          rw [testBit_or_one_shiftLeft hc]
          have hnone : ¬ C r d := fun hd => huntouched (.inr ⟨d, hd⟩)
          simp [hnone]
        · rw [List.getElem?_set_ne (Ne.symm hr)] at hmask
          rw [h.bits r m (hmark.resolve_left hr) hmask d]
          simp [hr]
  · rename_i hfresh
    have hmarked : Marked e.gen e.ruleGen ri := by
      rw [Marked, hg]
      exact congrArg some (not_not.mp hfresh)
    rw [pure_bind]
    refine Runs.get_bind (runs_tableAt hm ?_)
    rw [if_neg (by omega)]
    refine Runs.modify ⟨⟨h.memo.of_memo_eq rfl, h.evalDone, h.gen, h.prefilterOn, h.tscr,
      h.genLength, ?_, h.bounded, fun r => ?_, fun r m hmark hmask d => ?_⟩, rfl⟩
    · rw [List.length_set, h.maskLength]
    · have hri' := (h.touched ri).mp hmarked
      rw [h.touched]
      constructor
      · rintro (hav | ⟨d, hd⟩)
        · exact .inl hav
        · exact .inr ⟨d, .inl hd⟩
      · rintro (hav | ⟨d, hd | ⟨rfl, rfl⟩⟩)
        · exact .inl hav
        · exact .inr ⟨d, hd⟩
        · exact hri'
    · dsimp only at hmask
      by_cases hr : r = ri
      · subst hr
        rw [List.getElem?_set_self hml] at hmask
        obtain rfl := Option.some.inj hmask
        rw [testBit_or_one_shiftLeft hc, h.bits r _ hmarked hm d]
        simp
      · rw [List.getElem?_set_ne (Ne.symm hr)] at hmask
        rw [h.bits r m hmark hmask d]
        simp [hr]

/-! ## Scanning a field

The scan stamps the needles it confirms, the callback counts them and credits their postings.  The
set credited so far is what the callback keeps and adds to, and the rule of the scan gives it at the
end. -/

/-- The scan of the text `v` in field `f`; a null matcher does not scan. -/
def scanText (pf : Platform) (db : SigmaDb) (tf : Option SigmaTeddy) (f : ℕ) (v : Bytes) :
    EvalM PUnit :=
  match tf with
  | none => pure ⟨⟩
  | some tf =>
    if v.length < 2 then pure ⟨⟩
    else do
      modifyState fun e => { e with curField := f.toUInt16, log := .scan f v.length :: e.log }
      let e ← get
      let scr ← teddyConfirm db tf (markPostings db) pf.simd v e.tscr
      modifyState fun e =>
        { e with
          tscr := scr
          st := { e.st with haystackBytes := e.st.haystackBytes + v.length } }

/-- The loop body of the prefilter chooses a matcher and a text. -/
theorem scanOneField_eq (t : SigmaTeddy) (buckets : List ℕ) (f : ℕ) :
    scanOneField pf db ev t buckets f =
      if !scanField db buckets f then pure ⟨⟩
      else match fieldMatcher db t f with
        | none => pure ⟨⟩
        | some tf => (do
          let val ← resolveField db ev f.toUInt16
          match val with
          | none => pure ⟨⟩
          | some v => scanText pf db (some tf) f v) := rfl

/-- The callback of the scan of field `f`: confirming needle `k` credits its postings that name
the field, or no field. -/
theorem markPostings_marks (hdb : db.Loaded) {f : ℕ} :
    Marks db (markPostings db) fun done e =>
      Credit db ev e₀ av (fun ri c => C ri c ∨ ∃ k ∈ done, PostingCredits db f k ri c) e ∧
        e.curField = f.toUInt16 := by
  intro done k e hk _ ⟨h, hcur⟩
  have hlt : k < db.litpost.length := by rw [db.litpost_length]; exact hk
  have hpost : db.litpost[k]? = some db.litpost[k] := List.getElem?_eq_getElem hlt
  have hrange := hdb.valid.postings _ (List.getElem_mem hlt)
  obtain ⟨start, hstart⟩ : ∃ x, x = (db.litpost[k]).idxStart.toNat := ⟨_, rfl⟩
  obtain ⟨count, hcount⟩ : ∃ x, x = (db.litpost[k]).idxCount.toNat := ⟨_, rfl⟩
  rw [← hstart, ← hcount] at hrange
  unfold markPostings
  refine Runs.modify_bind (runs_tableAt hpost ?_)
  rw [← hstart, ← hcount]
  have hpostings : ∀ ri c, PostingCredits db f k ri c ↔
      ∃ j < count, ∃ r, db.litpostRef[start + j]? = some r ∧ Counts f r ri c := by
    intro ri c
    unfold PostingCredits Tables.postings
    rw [hpost]
    dsimp only
    rw [← hstart, ← hcount]
    constructor
    · rintro ⟨r, hr, hcounts⟩
      obtain ⟨j, hj, hget⟩ := mem_slice.mp hr
      exact ⟨j, hj, r, hget, hcounts⟩
    · rintro ⟨j, hj, r, hget, hcounts⟩
      exact ⟨r, mem_slice.mpr ⟨j, hj, hget⟩, hcounts⟩
  -- after `i` entries, those of the first `i` postings that count are credited
  refine (Runs.forRange (fun i e' => Credit db ev e₀ av (fun ri c =>
      (C ri c ∨ ∃ k ∈ done, PostingCredits db f k ri c) ∨
        ∃ j < i, ∃ r, db.litpostRef[start + j]? = some r ∧ Counts f r ri c) e' ∧
      e'.curField = f.toUInt16) ?_ ?_).mono ?_
  · refine ⟨?_, hcur⟩
    exact (h.congr (by simp)).scan _ _ _ h.tscr
  · rintro i e₁ hi ⟨h₁, hcur₁⟩
    have hget : db.litpostRef[start + i]? = some db.litpostRef[start + i] :=
      List.getElem?_eq_getElem (by omega)
    have hmem := List.mem_of_getElem? hget
    have hsucc : ∀ ri c, (∃ j < i + 1, ∃ r, db.litpostRef[start + j]? = some r ∧ Counts f r ri c) ↔
        (∃ j < i, ∃ r, db.litpostRef[start + j]? = some r ∧ Counts f r ri c) ∨
          Counts f db.litpostRef[start + i] ri c := by
      intro ri c
      rw [Nat.exists_lt_succ_right, hget]
      simp
    refine runs_tableAt hget (Runs.get_bind ?_)
    rw [hcur₁]
    split
    · rename_i hskip
      refine Runs.pure ⟨h₁.congr fun ri c => or_congr_right ?_, hcur₁⟩
      rw [hsucc]
      exact ⟨.inl, fun h => h.elim id fun hc => absurd hc.1 (not_or.mpr hskip)⟩
    · rename_i hcounts
      have hfield : (db.litpostRef[start + i]).fieldId = sigmaLitrefAnyField ∨
          (db.litpostRef[start + i]).fieldId = f.toUInt16 := by
        by_contra hno
        exact hcounts (not_or.mp hno)
      refine (creditClause_runs h₁ (hdb.valid.refRule _ hmem)
        (hdb.valid.clause_lt (hdb.valid.refClause _ hmem))).mono ?_
      rintro _ e₂ ⟨h₂, hcur₂⟩
      refine ⟨h₂.congr fun ri c => ?_, hcur₂.trans hcur₁⟩
      rw [or_assoc, hsucc]
      refine or_congr_right (or_congr_right ?_)
      exact ⟨fun h => ⟨hfield, h.1.symm, h.2.symm⟩, fun h => ⟨h.2.1.symm, h.2.2.symm⟩⟩
  · rintro _ e' ⟨h', hcur'⟩
    refine ⟨h'.congr fun ri c => ?_, hcur'⟩
    rw [← hpostings, or_assoc]
    refine or_congr_right ⟨?_, ?_⟩
    · rintro (⟨j, hj, hp⟩ | hp)
      · exact ⟨j, List.mem_append_left _ hj, hp⟩
      · exact ⟨k, List.mem_append_right _ (List.mem_singleton_self k), hp⟩
    · rintro ⟨j, hj, hp⟩
      rcases List.mem_append.mp hj with hj | hj
      · exact .inl ⟨j, hj, hp⟩
      · exact .inr (List.mem_singleton.mp hj ▸ hp)

/-- The full matcher chains every needle. -/
theorem scannable_teddy (hdb : db.Loaded) {t : SigmaTeddy} (ht : db.teddy = some t) :
    Scannable db (List.range db.litndl.length) t :=
  ⟨hdb.valid, hdb.countNdl, teddyFor_build hdb.countNdl (hdb.teddy.symm.trans ht), List.nodup_range,
    fun _ hk => List.mem_range.mp hk⟩

/-- The matcher of a field chains the needles of that field. -/
theorem scannable_fieldMatcher (hdb : db.Loaded) {t tf : SigmaTeddy} {f : ℕ}
    (ht : db.teddy = some t) (htf : fieldMatcher db t f = some tf) :
    Scannable db (needleIds db f) tf := by
  have hall := scannable_teddy hdb ht
  unfold fieldMatcher at htf
  unfold needleIds
  cases hany : db.litAnyField with
  | true =>
    rw [hany] at htf
    obtain rfl := Option.some.inj htf
    exact hall
  | false =>
    rw [hany] at htf
    cases hft : db.fieldTeddy with
    | none =>
      rw [hft] at htf
      obtain rfl := Option.some.inj htf
      exact hall
    | some arr =>
      rw [hft] at htf
      have htf' : (arr[f]?).join = some tf := htf
      rw [hdb.fieldTeddy arr hft, List.getElem?_map] at htf'
      by_cases hf : f < db.fields.length
      · rw [List.getElem?_range hf] at htf'
        have hnodup : (db.fieldNeedles f).Nodup := List.nodup_range.filter _
        have hin : ∀ k ∈ db.fieldNeedles f, k < db.litndl.length :=
          fun k hk => List.mem_range.mp (List.mem_filter.mp hk).1
        exact ⟨hdb.valid, hdb.countNdl, teddyFor_buildSubset hdb.countNdl hnodup hin htf', hnodup, hin⟩
      · rw [List.getElem?_eq_none (by rw [List.length_range]; omega)] at htf'
        exact absurd htf' (by simp)

/-- **The scan of one text** credits the postings that count of the needles met in it. -/
theorem scanText_runs (hdb : db.Loaded) (hteddy : db.teddy.isSome = true) {tf : SigmaTeddy}
    {ids : List ℕ} (htf : Scannable db ids tf) (f : ℕ) (v : Bytes)
    (h : Credit db ev e₀ av C e) :
    Runs (scanText pf db (some tf) f v) e fun _ e' =>
      Credit db ev e₀ av (fun ri c => C ri c ∨ ∃ k, MetIn pf db tf ids v k ∧
        PostingCredits db f k ri c) e' := by
  obtain ⟨t, ht⟩ := Option.isSome_iff_exists.mp hteddy
  unfold scanText
  dsimp only
  split
  · rename_i hshort
    refine Runs.pure (h.congr fun ri c => ⟨.inl, fun hc => hc.elim id ?_⟩)
    rintro ⟨k, ⟨hlen, -⟩, -⟩
    exact absurd hshort (Nat.not_lt.mpr hlen)
  · rename_i hlen
    refine Runs.modify_bind (Runs.get_bind ?_)
    have hmark : Marks db (markPostings db) fun done e =>
        Credit db ev e₀ av (fun ri c => C ri c ∨ ∃ k ∈ done, PostingCredits db f k ri c) e ∧
          e.curField = f.toUInt16 := markPostings_marks hdb
    refine (teddyConfirm_runs htf hmark pf.simd (h.tscr hteddy) (hdb.litndl_ne_nil ht)
      (Nat.le_of_not_lt hlen) ⟨(h.congr (by simp)).scan _ _ _ h.tscr, rfl⟩).bind ?_
    rintro scr e₂ ⟨hscr, done, -, ⟨h₂, -⟩, hmem⟩
    refine Runs.modify ((h₂.congr fun ri c => or_congr_right (exists_congr fun k => ?_)).scan _ _ _
      fun _ => hscr)
    rw [hmem, MetIn]
    exact and_congr_left' ⟨fun hk => ⟨Nat.le_of_not_lt hlen, hk⟩, fun hk => hk.2⟩

/-- **The scan of one field** credits what the field credits. -/
theorem scanOneField_runs (hdb : db.Loaded) {t : SigmaTeddy} (ht : db.teddy = some t)
    {buckets : List ℕ} {f : ℕ} (h : Credit db ev e₀ av C e) :
    Runs (scanOneField pf db ev t buckets f) e fun _ e' =>
      Credit db ev e₀ av (fun ri c => C ri c ∨ FieldCredits pf db ev buckets f ri c) e' := by
  have hnothing : ∀ {e}, Credit db ev e₀ av C e → (∀ ri c, ¬ FieldCredits pf db ev buckets f ri c) →
      Credit db ev e₀ av (fun ri c => C ri c ∨ FieldCredits pf db ev buckets f ri c) e :=
    fun h hnone => h.congr fun ri c => by simp [hnone ri c]
  rw [scanOneField_eq]
  cases hscan : scanField db buckets f with
  | false =>
    refine Runs.pure (hnothing h fun ri c hc => ?_)
    rw [FieldCredits, hscan] at hc
    exact absurd hc.1 (by decide)
  | true =>
    cases htf : fieldMatcher db t f with
    | none =>
      refine Runs.pure (hnothing h fun ri c hc => ?_)
      obtain ⟨-, v, -, -, k, ⟨t', tf, ht', htf', -⟩, -⟩ := hc
      obtain rfl := Option.some.inj (ht'.symm.trans ht)
      exact absurd (htf'.symm.trans htf) (by simp)
    | some tf =>
      refine (h.yields (resolveField_yields hdb.valid _)).bind ?_
      rintro _ e₁ ⟨rfl, h₁, -⟩
      cases hval : fieldValue db ev f.toUInt16.toNat with
      | none =>
        refine Runs.pure (hnothing h₁ fun ri c hc => ?_)
        obtain ⟨-, v, hv, -⟩ := hc
        exact absurd (hv.symm.trans hval) (by simp)
      | some v =>
        refine (scanText_runs hdb (by rw [ht]; rfl) (scannable_fieldMatcher hdb ht htf) f v h₁).mono
          fun _ e₂ h₂ => h₂.congr fun ri c => or_congr_right ⟨?_, ?_⟩
        · rintro ⟨k, ⟨hlen, hmet⟩, hp⟩
          exact ⟨hscan, v, hval, hlen, k, ⟨t, tf, ht, htf, hmet⟩, hp⟩
        · rintro ⟨-, v', hv', hlen, k, ⟨t', tf', ht', htf', hmet⟩, hp⟩
          obtain rfl := Option.some.inj (hv'.symm.trans hval)
          obtain rfl := Option.some.inj (ht'.symm.trans ht)
          obtain rfl := Option.some.inj (htf'.symm.trans htf)
          exact ⟨k, ⟨hlen, hmet⟩, hp⟩

/-! ## The whole prefilter

Three loops, one after the other: the rules that are always verified, the field witnesses, the
fields that some selected bucket uses.  Each adds to the set, and the order does not matter for the
result. -/

theorem fwitHolds_yields (hdb : db.Valid) (w : SigmaFwit) :
    Yields (memoFrame db ev) (fwitHolds pf db ev w) (fwitTrue pf db ev w) := by
  unfold fwitHolds fwitTrue
  refine (resolveField_yields hdb w.fieldId).bind ?_
  cases fieldValue db ev w.fieldId.toNat with
  | none => exact Yields.pure false
  | some v =>
    dsimp only [Option.any_some]
    by_cases hempty : v.length = 0
    · rw [if_pos hempty, decide_eq_false (not_not.mpr hempty)]
      exact Yields.pure false
    · rw [if_neg hempty, decide_eq_true hempty, Bool.true_and]
      by_cases hop : SigmaOp.ofByte w.op = some .opCidr
      · rw [if_pos hop, if_pos hop]
        split
        · rename_i hout
          rw [List.getElem?_eq_none hout]
          exact Yields.pure false
        · rename_i hin
          have hget := List.getElem?_eq_getElem (Nat.lt_of_not_le hin)
          rw [hget]
          exact (tableAt_yields hget).bind (Yields.pure _)
      · rw [if_neg hop, if_neg hop]
        cases sgToI64 v with
        | none => exact Yields.pure false
        | some iv =>
          cases SigmaOp.ofByte w.op with
          | none => exact Yields.pure false
          | some op => exact Yields.pure _

/-- The rules that are always verified: touched, with no clause to credit. -/
theorem litav_runs (hdb : db.Loaded)
    (h : Credit db ev e₀ (fun _ => False) (fun _ _ => False) e) :
    Runs (forRange db.litav.length fun i => do
      let ri ← tableAt .litav db.litav i
      let full ← ruleFullMask db ri.toNat
      let e ← get
      let _ ← tableAt .stamps e.ruleGen ri.toNat
      let _ ← tableAt .stamps e.ruleMask ri.toNat
      modifyState fun e =>
        { e with
          ruleGen := e.ruleGen.set ri.toNat e.gen
          ruleMask := e.ruleMask.set ri.toNat full }) e fun _ e' =>
      Credit db ev e₀ (AlwaysVerified db) (fun _ _ => False) e' := by
  refine (Runs.forRange (fun i e' => Credit db ev e₀
    (fun ri => ∃ j < i, ∃ a, db.litav[j]? = some a ∧ a.toNat = ri) (fun _ _ => False) e')
    ?_ ?_).mono ?_
  · have hav : (fun _ : ℕ => False) =
        fun ri => ∃ j < 0, ∃ a, db.litav[j]? = some a ∧ a.toNat = ri := by simp
    rwa [← hav]
  · intro i e₁ hi h₁
    have hget : db.litav[i]? = some db.litav[i] := List.getElem?_eq_getElem hi
    have hmem := List.mem_of_getElem? hget
    have hri := hdb.valid.avRule _ hmem
    obtain ⟨full, hfull, hyields⟩ := ruleFullMask_yields (F := memoFrame db ev) hdb.valid hri
    rw [hdb.valid.avClauses _ hmem] at hfull
    refine runs_tableAt hget ((h₁.yields hyields).bind ?_)
    rintro _ e₂ ⟨rfl, h₂, -⟩
    have hgl : (db.litav[i]).toNat < e₂.ruleGen.length := by rw [h₂.genLength]; exact hri
    have hml : (db.litav[i]).toNat < e₂.ruleMask.length := by rw [h₂.maskLength]; exact hri
    refine Runs.get_bind (runs_tableAt (List.getElem?_eq_getElem hgl)
      (runs_tableAt (List.getElem?_eq_getElem hml) (Runs.modify ?_)))
    refine ⟨h₂.memo.of_memo_eq rfl, h₂.evalDone, h₂.gen, h₂.prefilterOn, h₂.tscr, ?_, ?_,
      h₂.bounded.set _, fun r => ?_, fun r m hmark hmask c => ?_⟩
    · rw [List.length_set, h₂.genLength]
    · rw [List.length_set, h₂.maskLength]
    · rw [marked_set hgl, h₂.touched, Nat.exists_lt_succ_right, hget]
      simp only [exists_false, or_false, Option.some.injEq, exists_eq_left']
      rw [or_comm, eq_comm]
    · rw [marked_set hgl] at hmark
      dsimp only at hmask
      by_cases hr : r = (db.litav[i]).toNat
      · subst hr
        rw [List.getElem?_set_self hml] at hmask
        obtain rfl := Option.some.inj hmask
        simp [hfull]
      · rw [List.getElem?_set_ne (Ne.symm hr)] at hmask
        exact h₂.bits r m (hmark.resolve_left hr) hmask c
  · intro _ e' h'
    have hav : (fun ri => ∃ j < db.litav.length, ∃ a, db.litav[j]? = some a ∧ a.toNat = ri) =
        AlwaysVerified db := by
      funext ri
      refine propext ⟨?_, ?_⟩
      · rintro ⟨j, -, a, ha, heq⟩
        exact ⟨a, List.mem_of_getElem? ha, heq⟩
      · rintro ⟨a, ha, heq⟩
        obtain ⟨j, hj⟩ := List.mem_iff_getElem?.mp ha
        exact ⟨j, (List.getElem?_eq_some_iff.mp hj).1, a, hj, heq⟩
    rwa [← hav]

/-- The field witnesses that hold are credited. -/
theorem fwits_runs (hdb : db.Loaded) (h : Credit db ev e₀ av (fun _ _ => False) e) :
    Runs (forRange db.fwit.length fun i => do
      let w ← tableAt .fwit db.fwit i
      let holds ← fwitHolds pf db ev w
      if holds then creditClause w.ruleIdx.toNat w.clauseIdx else pure ⟨⟩) e fun _ e' =>
      Credit db ev e₀ av (fun ri c => ∃ w ∈ db.fwit, fwitTrue pf db ev w = true ∧
        w.ruleIdx.toNat = ri ∧ w.clauseIdx.toNat = c) e' := by
  refine (Runs.forRange (fun i e' => Credit db ev e₀ av (fun ri c => ∃ j < i, ∃ w,
    db.fwit[j]? = some w ∧ fwitTrue pf db ev w = true ∧ w.ruleIdx.toNat = ri ∧
      w.clauseIdx.toNat = c) e') (h.congr (by simp)) ?_).mono ?_
  · intro i e₁ hi h₁
    have hget : db.fwit[i]? = some db.fwit[i] := List.getElem?_eq_getElem hi
    have hmem := List.mem_of_getElem? hget
    refine runs_tableAt hget ((h₁.yields (fwitHolds_yields hdb.valid _)).bind ?_)
    rintro _ e₂ ⟨rfl, h₂, -⟩
    cases hholds : fwitTrue pf db ev db.fwit[i] with
    | false =>
      refine Runs.pure (h₂.congr fun ri c => ?_)
      rw [Nat.exists_lt_succ_right, hget]
      simp [hholds]
    | true =>
      refine (creditClause_runs h₂ (hdb.valid.fwitRule _ hmem)
        (hdb.valid.clause_lt (hdb.valid.fwitClause _ hmem))).mono ?_
      rintro _ e₃ ⟨h₃, -⟩
      refine h₃.congr fun ri c => ?_
      rw [Nat.exists_lt_succ_right, hget]
      refine or_congr_right ⟨?_, ?_⟩
      · rintro ⟨rfl, rfl⟩
        exact ⟨_, rfl, hholds, rfl, rfl⟩
      · rintro ⟨w, hw, -, rfl, rfl⟩
        rw [← Option.some.inj hw]
        exact ⟨rfl, rfl⟩
  · intro _ e' h'
    refine h'.congr fun ri c => ⟨?_, ?_⟩
    · rintro ⟨j, -, w, hw, hrest⟩
      exact ⟨w, List.mem_of_getElem? hw, hrest⟩
    · rintro ⟨w, hw, hrest⟩
      obtain ⟨j, hj⟩ := List.mem_iff_getElem?.mp hw
      exact ⟨j, (List.getElem?_eq_some_iff.mp hj).1, w, hj, hrest⟩

end Credits

/-- The scratch between two calls. -/
structure ScratchOk (db : SigmaDb) (e : SigmaEval) : Prop where
  memo : e.memo.length = max 1 db.fields.length
  evalDone : e.evalDone.length = db.rules.length
  ruleGen : e.ruleGen.length = if Prefilterable db then db.rules.length else 0
  ruleMask : e.ruleMask.length = if Prefilterable db then db.rules.length else 0
  boundedDone : Bounded e.gen e.evalDone
  boundedGen : Bounded e.gen e.ruleGen
  tscr : Prefilterable db → db.teddy.isSome = true → ScratchReady db e.tscr

section Whole

variable {pf : Platform} {db : SigmaDb} {ev : Event} {e₀ e : SigmaEval} {buckets : List ℕ}

/-- Before the prefilter runs nothing is credited. -/
theorem credit_nothing (he : ScratchOk db e) (hmemo : MemoOk db ev e)
    (hfresh : ∀ ri, ¬ Marked e.gen e.ruleGen ri) (hpf : Prefilterable db) :
    Credit db ev e (fun _ => False) (fun _ _ => False) e :=
  ⟨hmemo, rfl, rfl, rfl, he.tscr hpf, by rw [he.ruleGen, if_pos hpf],
    by rw [he.ruleMask, if_pos hpf], he.boundedGen,
    fun ri => iff_of_false (hfresh ri) (by simp), fun ri m hmark => absurd hmark (hfresh ri)⟩

/-- **The prefilter.**  It declines when there is nothing to gate with or when it is off, and
leaves the scratch alone; otherwise the masks hold exactly what the event credits. -/
theorem prefilterCandidates_runs (hdb : db.Loaded) (he : ScratchOk db e) (hmemo : MemoOk db ev e)
    (hfresh : ∀ ri, ¬ Marked e.gen e.ruleGen ri) :
    Runs (prefilterCandidates pf db ev buckets) e fun b e' =>
      b = decide (Prefilterable db ∧ e.prefilterOn ≠ 0) ∧ (b = false → e' = e) ∧
        (b = true →
          Credit db ev e (AlwaysVerified db) (ClauseCredited pf db ev buckets) e') := by
  have hmask : e.ruleMask = [] ↔ ¬ Prefilterable db := by
    rw [← List.length_eq_zero_iff, he.ruleMask]
    split
    · rename_i hpf
      exact iff_of_false hpf.1 (not_not.mpr hpf)
    · rename_i hpf
      exact iff_of_true rfl hpf
  unfold prefilterCandidates
  refine Runs.get_bind ?_
  by_cases hoff : e.ruleMask = [] ∨ e.prefilterOn = 0
  · rw [if_pos hoff]
    have hnot : ¬ (Prefilterable db ∧ e.prefilterOn ≠ 0) := by
      rw [hmask] at hoff
      exact fun h => hoff.elim (fun hn => hn h.1) h.2
    exact Runs.pure ⟨(decide_eq_false hnot).symm, fun _ => rfl, nofun⟩
  · obtain ⟨hne, hon⟩ := not_or.mp hoff
    have hpf : Prefilterable db := not_not.mp (mt hmask.mpr hne)
    have hsome : ¬ (db.teddy.isNone = true ∧ db.fwit.length = 0) := by
      rintro ⟨hteddy, hfwit⟩
      rcases hpf.2 with h | h
      · rw [Option.isNone_iff_eq_none.mp hteddy] at h
        exact absurd h (by decide)
      · exact h hfwit
    rw [if_neg hoff, if_neg hsome]
    refine (litav_runs hdb (credit_nothing he hmemo hfresh hpf)).bind fun _ e₁ h₁ => ?_
    refine (fwits_runs hdb h₁).bind fun _ e₂ h₂ => ?_
    have hdone : ∀ e', Credit db ev e (AlwaysVerified db) (ClauseCredited pf db ev buckets) e' →
        Runs (do
          modifyState fun e => { e with st := { e.st with
            chainSteps := e.tscr.chainSteps, prefilterRuns := e.st.prefilterRuns + 1 } }
          pure true : EvalM Bool) e' fun b e'' =>
          b = decide (Prefilterable db ∧ e.prefilterOn ≠ 0) ∧ (b = false → e'' = e) ∧
            (b = true →
              Credit db ev e (AlwaysVerified db) (ClauseCredited pf db ev buckets) e'') := by
      intro e' h'
      refine Runs.modify_bind (Runs.pure ⟨(decide_eq_true ⟨hpf, hon⟩).symm, nofun, fun _ => ?_⟩)
      exact h'.scan _ _ _ h'.tscr
    cases ht : db.teddy with
    | none =>
      refine hdone e₂ (h₂.congr fun ri c => ⟨.inl, fun h => h.elim id ?_⟩)
      rintro ⟨f, -, -, v, -, -, k, ⟨t, tf, ht', -⟩, -⟩
      exact absurd (ht'.symm.trans ht) (by simp)
    | some t =>
      refine (Runs.forRange (fun f e' => Credit db ev e (AlwaysVerified db) (fun ri c =>
        (∃ w ∈ db.fwit, fwitTrue pf db ev w = true ∧ w.ruleIdx.toNat = ri ∧ w.clauseIdx.toNat = c) ∨
          ∃ g < f, FieldCredits pf db ev buckets g ri c) e') (h₂.congr (by simp)) ?_).bind ?_
      · intro f e₃ _ h₃
        refine (scanOneField_runs hdb ht h₃).mono fun _ e₄ h₄ => h₄.congr fun ri c => ?_
        rw [Nat.exists_lt_succ_right, or_assoc]
      · exact fun _ e₃ h₃ => hdone e₃ h₃

/-- Computations that leave the scratch exactly as it is. -/
def stillFrame : Frame SigmaEval where
  inv _ := True
  keeps s t := t = s
  refl _ := rfl
  trans _ _ _ hst htu := htu.trans hst

/-- **The gate.**  Once the prefilter has run, and until the next event, a rule is let through
exactly when it is a candidate. -/
theorem pfIsCandidate_runs (hdb : db.Loaded)
    (h : Credit db ev e₀ (AlwaysVerified db) (ClauseCredited pf db ev buckets) e)
    {e₁ : SigmaEval} (hgating : e₁.gating = e.gating) {ri : ℕ} (hri : ri < db.rules.length) :
    Runs (pfIsCandidate db ri) e₁ fun b e' =>
      e' = e₁ ∧ (b = true ↔ Candidate pf db ev buckets ri) := by
  have hmask : e₁.ruleMask = e.ruleMask := congrArg Prod.fst hgating
  have hgen : e₁.ruleGen = e.ruleGen := congrArg (fun g => g.2.1) hgating
  have hcur : e₁.gen = e.gen := congrArg (fun g => g.2.2.1) hgating
  have hgl : ri < e.ruleGen.length := by rw [h.genLength]; exact hri
  have hml : ri < e.ruleMask.length := by rw [h.maskLength]; exact hri
  have hg := List.getElem?_eq_getElem hgl
  have hm := List.getElem?_eq_getElem hml
  have hbound : ∀ c, ClauseCredited pf db ev buckets ri c → c < db.clauses ri := by
    rintro c (⟨w, hw, -, hwr, hwc⟩ | ⟨f, -, -, v, -, -, k, -, r, hr, -, hrr, hrc⟩)
    · rw [← hwr, ← hwc]
      exact hdb.valid.fwitClause w hw
    · rw [← hrr, ← hrc]
      exact hdb.valid.refClause r (Tables.mem_litpostRef_of_mem_postings hr)
  have hav : AlwaysVerified db ri → db.clauses ri = 0 := by
    rintro ⟨a, ha, rfl⟩
    exact hdb.valid.avClauses a ha
  unfold pfIsCandidate
  refine Runs.get_bind ?_
  rw [hmask, hgen, hcur]
  refine runs_tableAt hg ?_
  split
  · rename_i hstale
    have huntouched := mt (h.touched ri).mpr fun hmark => by
      rw [Marked, hg] at hmark
      exact hstale (Option.some.inj hmark)
    refine Runs.pure ⟨rfl, iff_of_false (by simp) ?_⟩
    rintro (hal | ⟨hpos, hall⟩)
    · exact huntouched (.inl hal)
    · exact huntouched (.inr ⟨0, hall 0 hpos⟩)
  · rename_i hfresh
    have hmarked : Marked e.gen e.ruleGen ri := by
      rw [Marked, hg]
      exact congrArg some (not_not.mp hfresh)
    obtain ⟨full, hfull, hyields⟩ := ruleFullMask_yields (F := stillFrame) hdb.valid hri
    refine runs_tableAt hm ((hyields e₁ trivial).bind ?_)
    rintro _ e₂ ⟨rfl, -, rfl⟩
    refine Runs.pure ⟨rfl, ?_⟩
    rw [beq_iff_eq, ← UInt32.toNat_inj, hfull, eq_two_pow_sub_one_iff]
    simp only [h.bits ri _ hmarked hm]
    constructor
    · intro hall
      rcases (h.touched ri).mp hmarked with hal | ⟨c, hc⟩
      · exact .inl hal
      · exact .inr ⟨Nat.zero_lt_of_lt (hbound c hc), fun d hd => (hall d).mpr hd⟩
    · rintro (hal | ⟨-, hall⟩) c
      · refine iff_of_false (fun hc => ?_) (by rw [hav hal]; exact Nat.not_lt_zero c)
        exact absurd (hbound c hc) (by rw [hav hal]; exact Nat.not_lt_zero c)
      · exact ⟨hbound c, hall c⟩

end Whole

end LibSigma
