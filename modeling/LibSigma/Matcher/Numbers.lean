import LibSigma.Library.Saturation
import LibSigma.Matcher.Prefilter
import LibSigma.Matcher.RoundTrip

/-!
# The integer at the start of a field

`sg_to_i64` reads the leading signed integer of a field in 64 unsigned bits, with an early stop, and
clamps it to the signed range.

## The integer itself

`leadingInt` is what the string says: an optional sign, the longest run of digits, their value as an
unbounded integer.  It has no width and no loop with a stop, and everything else is compared with
it.  Text behind the digits does not matter, and a string without a digit there has no integer.

## The loop

The magnitude is multiplied and added to in 64 bits, and the loop stops when one more digit might
not fit.  The invariant is that the magnitude is the value of the digits read, exactly, as long as
there was no stop; and when there was one, the value of the whole run is beyond the signed range
(`digitRun_spec`).  The clamp at the end then gives the clamped integer in both cases, whatever
digits were left unread.

## Verdicts

A comparison sees the clamped integer.  That is the right answer for any operand that is strictly
inside the range, and at the two ends a field beyond the range compares as equal to the end.  The
theorem states both, for predicates and for field witnesses, which share the comparison.

* `leadingInt`: the integer itself, unbounded.
* `sgToI64_eq`: **the code returns it clamped**, and fails when there is none.
* `numHolds_clamp`: a comparison with an operand strictly inside the range is the exact one.
* `sgToI64_exact`: **the parse and the numeric verdicts, of predicates and of field witnesses.**
-/

namespace LibSigma

open Library

/-! ## The number a string starts with -/

/-- The string without its sign. -/
def unsigned (s : Bytes) : Bytes :=
  if s.head? = some 45 ∨ s.head? = some 43 then s.tail else s

/-- The longest run of digits behind the sign. -/
def leadingDigits (s : Bytes) : Bytes := (unsigned s).takeWhile isDigit

/-- The number a run of digits writes. -/
def digitsValue (ds : Bytes) : ℕ := Nat.ofDigits 10 (ds.reverse.map fun c => c.toNat - 48)

/-- The integer a string starts with. -/
def leadingInt (s : Bytes) : Option ℤ :=
  if leadingDigits s = [] then none
  else if s.head? = some 45 then some (-(digitsValue (leadingDigits s) : ℤ))
  else some (digitsValue (leadingDigits s))

/-- The string starts with an optional sign and a digit. -/
def StartsNumber (s : Bytes) : Prop :=
  ∃ c rest, isDigit c = true ∧ (s = c :: rest ∨ s = 45 :: c :: rest ∨ s = 43 :: c :: rest)

/-- `INT64_MIN` and `INT64_MAX`. -/
def int64Min : ℤ := -2 ^ 63
def int64Max : ℤ := 2 ^ 63 - 1

theorem digitsValue_eq (ds : Bytes) :
    digitsValue ds = readDecimal 0 (ds.map fun c => c.toNat - 48) := by
  rw [readDecimal_zero, digitsValue, List.map_reverse]

theorem startsNumber_iff (s : Bytes) : StartsNumber s ↔ leadingDigits s ≠ [] := by
  have hdigit : ∀ c : UInt8, isDigit c = true → c ≠ 45 ∧ c ≠ 43 := by
    rintro c hc
    constructor
    · rintro rfl
      exact absurd hc (by decide)
    · rintro rfl
      exact absurd hc (by decide)
  have hstarts : ∀ l : Bytes, l.takeWhile isDigit ≠ [] ↔ ∃ c rest, isDigit c = true ∧ l = c :: rest := by
    intro l
    cases l with
    | nil => simp
    | cons c rest =>
      rw [List.takeWhile_cons]
      by_cases hc : isDigit c = true
      · rw [if_pos hc]
        exact iff_of_true nofun ⟨c, rest, hc, rfl⟩
      · rw [if_neg hc]
        refine iff_of_false (not_not.mpr rfl) ?_
        rintro ⟨c', rest', hc', heq⟩
        exact hc ((List.cons.inj heq).1 ▸ hc')
  unfold StartsNumber leadingDigits
  rw [hstarts]
  constructor
  · rintro ⟨c, rest, hc, rfl | rfl | rfl⟩
    · refine ⟨c, rest, hc, ?_⟩
      obtain ⟨hminus, hplus⟩ := hdigit c hc
      rw [unsigned, if_neg]
      rintro (h | h)
      · exact hminus (Option.some.inj h)
      · exact hplus (Option.some.inj h)
    · exact ⟨c, rest, hc, rfl⟩
    · exact ⟨c, rest, hc, rfl⟩
  · rintro ⟨c, rest, hc, heq⟩
    refine ⟨c, rest, hc, ?_⟩
    unfold unsigned at heq
    split at heq
    · rename_i hsign
      cases s with
      | nil => exact absurd heq nofun
      | cons a s =>
        rw [List.tail_cons] at heq
        rw [heq]
        rcases hsign with h | h
        · exact Or.inr (Or.inl (by rw [Option.some.inj h]))
        · exact Or.inr (Or.inr (by rw [Option.some.inj h]))
    · exact Or.inl heq

/-! ## The loop -/

/-- **One round of the loop** stays in 64 bits: below the stop the product and the sum are exact. -/
theorem digit_step_exact {mag : UInt64} {c : UInt8} (hmag : ¬ (0xFFFFFFFFFFFFFFFF - 9) / 10 < mag)
    (hc : isDigit c = true) :
    mag.toNat * 10 + (c.toNat - 48) < 2 ^ 64 ∧
      (mag * 10 + (c - 48).toUInt64).toNat = mag.toNat * 10 + (c.toNat - 48) := by
  have hbound : mag.toNat ≤ 1844674407370955160 :=
    UInt64.le_iff_toNat_le.mp (UInt64.not_lt.mp hmag)
  unfold isDigit at hc
  rw [Bool.and_eq_true, decide_eq_true_eq, decide_eq_true_eq] at hc
  have hlow : 48 ≤ c.toNat := UInt8.le_iff_toNat_le.mp hc.1
  have hhigh : c.toNat ≤ 57 := UInt8.le_iff_toNat_le.mp hc.2
  have hsub : (c - 48).toUInt64.toNat = c.toNat - 48 := by
    rw [UInt8.toNat_toUInt64, UInt8.toNat_sub_of_le _ _ hc.1]
    rfl
  have hten : (10 : UInt64).toNat = 10 := rfl
  refine ⟨by omega, ?_⟩
  rw [UInt64.toNat_add, UInt64.toNat_mul, hsub, hten]
  omega

/-- **The loop.**  It reads the run exactly, or it stops early and the run is beyond the signed
range.  By induction on the string, the magnitude being what was read so far. -/
theorem digitRun_spec (cs : Bytes) (mag : UInt64) :
    ((digitRun cs mag).1 = false ∧ (digitRun cs mag).2.toNat =
        readDecimal mag.toNat ((cs.takeWhile isDigit).map fun c => c.toNat - 48)) ∨
      ((digitRun cs mag).1 = true ∧
        2 ^ 63 ≤ readDecimal mag.toNat ((cs.takeWhile isDigit).map fun c => c.toNat - 48)) := by
  induction cs generalizing mag with
  | nil => exact Or.inl ⟨rfl, rfl⟩
  | cons c cs ih =>
    rw [digitRun, List.takeWhile_cons]
    by_cases hc : isDigit c = true
    · rw [if_pos hc, if_pos hc, List.map_cons, readDecimal_cons]
      by_cases hmag : (0xFFFFFFFFFFFFFFFF - 9) / 10 < mag
      · rw [if_pos hmag]
        refine Or.inr ⟨rfl, ?_⟩
        have hbound : 1844674407370955160 < mag.toNat := UInt64.lt_iff_toNat_lt.mp hmag
        exact le_trans (by omega) (le_readDecimal _ _)
      · rw [if_neg hmag, ← (digit_step_exact hmag hc).2]
        exact ih _
    · rw [if_neg hc, if_neg hc]
      exact Or.inl ⟨rfl, rfl⟩

/-! ## The result -/

theorem toInt_toInt64_of_lt {mag : UInt64} (h : mag.toNat < 2 ^ 63) :
    mag.toInt64.toInt = mag.toNat := by
  have hof : mag.toInt64 = Int64.ofNat mag.toNat := by
    rw [← UInt64.toInt64_ofNat', UInt64.ofNat_toNat]
  rw [hof, Int64.toInt_ofNat_of_lt h]

theorem toInt_neg_toInt64_of_lt {mag : UInt64} (h : mag.toNat < 2 ^ 63) :
    (-mag.toInt64).toInt = -(mag.toNat : ℤ) := by
  have hof : mag.toInt64 = Int64.ofNat mag.toNat := by
    rw [← UInt64.toInt64_ofNat', UInt64.ofNat_toNat]
  rw [hof, Int64.toInt_neg_ofNat_of_le h.le]

/-- The end of `sg_to_i64`, on a magnitude that is exact or beyond the signed range. -/
theorem clamp_magnitude {sat : Bool} {mag : UInt64} {n : ℕ}
    (h : sat = false ∧ mag.toNat = n ∨ sat = true ∧ 2 ^ 63 ≤ n) (neg : Bool) :
    (if neg then
        if sat || 0x8000000000000000 ≤ mag then some Int64.minValue else some (-mag.toInt64)
      else if sat || 0x7FFFFFFFFFFFFFFF < mag then some Int64.maxValue
      else some mag.toInt64).map Int64.toInt =
      some (clamp int64Min int64Max (if neg then -(n : ℤ) else n)) := by
  have hrange : int64Min ≤ int64Max := by decide
  have hlim : (0x8000000000000000 : UInt64).toNat = 2 ^ 63 := rfl
  have hmax : (0x7FFFFFFFFFFFFFFF : UInt64).toNat = 2 ^ 63 - 1 := rfl
  have hbig : 2 ^ 63 ≤ n ↔ (sat || decide (0x8000000000000000 ≤ mag)) = true := by
    rw [Bool.or_eq_true, decide_eq_true_eq, UInt64.le_iff_toNat_le, hlim]
    rcases h with ⟨rfl, rfl⟩ | ⟨rfl, hn⟩
    · simp
    · exact iff_of_true hn (Or.inl rfl)
  have hsame : (sat || decide (0x7FFFFFFFFFFFFFFF < mag)) =
      (sat || decide (0x8000000000000000 ≤ mag)) := by
    refine congrArg (sat || ·) (decide_eq_decide.mpr ?_)
    rw [UInt64.lt_iff_toNat_lt, UInt64.le_iff_toNat_le, hlim, hmax]
    omega
  rw [hsame]
  by_cases hn : 2 ^ 63 ≤ n
  · rw [if_pos (hbig.mp hn), if_pos (hbig.mp hn)]
    cases neg with
    | true =>
      have hle : -(n : ℤ) ≤ int64Min := by
        unfold int64Min
        omega
      rw [if_pos rfl, if_pos rfl, Option.map_some, Int64.toInt_minValue, clamp_of_le hrange hle]
      rfl
    | false =>
      have hge : int64Max ≤ (n : ℤ) := by
        unfold int64Max
        omega
      rw [if_neg (by decide), if_neg (by decide), Option.map_some, Int64.toInt_maxValue,
        clamp_of_ge hrange hge]
      rfl
  · have hexact : mag.toNat = n := h.elim And.right fun hsat => absurd hsat.2 hn
    have hlt : mag.toNat < 2 ^ 63 := by omega
    rw [if_neg (fun hc => hn (hbig.mpr hc)), if_neg fun hc => hn (hbig.mpr hc), ← hexact]
    cases neg with
    | true =>
      rw [if_pos rfl, if_pos rfl, Option.map_some, toInt_neg_toInt64_of_lt hlt, clamp_of_mem]
      · unfold int64Min
        omega
      · unfold int64Max
        omega
    | false =>
      rw [if_neg (by decide), if_neg (by decide), Option.map_some, toInt_toInt64_of_lt hlt,
        clamp_of_mem]
      · unfold int64Min
        omega
      · unfold int64Max
        omega

/-- **`sg_to_i64` returns the integer a string starts with, clamped**, and fails when there is
none. -/
theorem sgToI64_eq (s : Bytes) :
    (sgToI64 s).map Int64.toInt = (leadingInt s).map (clamp int64Min int64Max) := by
  have hbody : (if (s.head? == some 45 || s.head? == some 43) = true then s.tail else s) =
      unsigned s := by
    unfold unsigned
    simp only [Bool.or_eq_true, beq_iff_eq]
  have hvalue : digitsValue (leadingDigits s) =
      readDecimal 0 (((unsigned s).takeWhile isDigit).map fun c => c.toNat - 48) :=
    digitsValue_eq _
  have hrun := digitRun_spec (unsigned s) 0
  unfold sgToI64 leadingInt
  dsimp only
  rw [hbody, hvalue]
  unfold leadingDigits
  cases hs : unsigned s with
  | nil => rfl
  | cons c cs =>
    rw [hs] at hrun
    dsimp only
    by_cases hc : isDigit c = true
    · have hne : List.takeWhile isDigit (c :: cs) ≠ [] := by
        rw [List.takeWhile_cons, if_pos hc]
        nofun
      rw [if_pos hc, if_neg hne]
      refine (clamp_magnitude hrun (s.head? == some 45)).trans ?_
      simp only [beq_iff_eq]
      split <;> rfl
    · have hnil : List.takeWhile isDigit (c :: cs) = [] := by
        rw [List.takeWhile_cons, if_neg hc]
      rw [if_neg hc, if_pos hnil]
      rfl

/-- `sg_to_i64` fails exactly on the strings that start with no number. -/
theorem sgToI64_eq_none_iff (s : Bytes) : sgToI64 s = none ↔ ¬ StartsNumber s := by
  have hmap : sgToI64 s = none ↔ leadingInt s = none := by
    rw [← Option.map_eq_none_iff (f := Int64.toInt), sgToI64_eq, Option.map_eq_none_iff]
  rw [hmap, startsNumber_iff, not_not]
  unfold leadingInt
  split
  · rename_i hnil
    exact iff_of_true rfl hnil
  · rename_i hne
    refine iff_of_false ?_ hne
    split <;> exact nofun

/-! ## Verdicts -/

/-- The numeric operators. -/
def SigmaOp.IsNumeric (op : SigmaOp) : Prop :=
  op = .opGt ∨ op = .opGte ∨ op = .opLt ∨ op = .opLte ∨ op = .opNumeq

/-- The comparison on unbounded integers. -/
def numCompare (op : SigmaOp) (n ival : ℤ) : Bool :=
  match op with
  | .opGt => ival < n
  | .opGte => ival ≤ n
  | .opLt => n < ival
  | .opLte => n ≤ ival
  | .opNumeq => n = ival
  | _ => false

/-- The comparison of the integer that a field of the event starts with. -/
def exactVerdict (db : SigmaDb) (ev : Event) (fieldId : ℕ) (op : SigmaOp) (ival : ℤ) : Bool :=
  (fieldValue db ev fieldId).any fun v => (leadingInt v).any fun n => numCompare op n ival

section Compare

variable {ival : Int64} (hlo : int64Min < ival.toInt) (hhi : ival.toInt < int64Max)

include hlo hhi in
/-- **Comparing with an operand strictly inside the range** does not see the clamp. -/
theorem numHolds_clamp (op : SigmaOp) {i : Int64} {n : ℤ}
    (hi : i.toInt = clamp int64Min int64Max n) : numHolds op i ival = numCompare op n ival.toInt := by
  cases op with
  | opGt =>
    refine decide_eq_decide.mpr ?_
    rw [Int64.lt_iff_toInt_lt, hi, lt_clamp_iff hlo.le hhi]
  | opGte =>
    refine decide_eq_decide.mpr ?_
    rw [Int64.le_iff_toInt_le, hi, ← not_lt, clamp_lt_iff hlo hhi.le, not_lt]
  | opLt =>
    refine decide_eq_decide.mpr ?_
    rw [Int64.lt_iff_toInt_lt, hi, clamp_lt_iff hlo hhi.le]
  | opLte =>
    refine decide_eq_decide.mpr ?_
    rw [Int64.le_iff_toInt_le, hi, ← not_lt, lt_clamp_iff hlo.le hhi, not_lt]
  | opNumeq =>
    show (i == ival) = decide (n = ival.toInt)
    rw [Bool.eq_iff_iff, beq_iff_eq, decide_eq_true_eq, ← Int64.toInt_inj, hi,
      clamp_eq_iff hlo hhi]
  | opEq | opContains | opStartswith | opEndswith | opExists | opRe | opCidr => rfl

include hlo hhi in
theorem any_numHolds (op : SigmaOp) (s : Bytes) :
    (sgToI64 s).any (numHolds op · ival) =
      (leadingInt s).any fun n => numCompare op n ival.toInt := by
  have heq := sgToI64_eq s
  cases hs : sgToI64 s with
  | none =>
    rw [hs, Option.map_none] at heq
    rw [Option.map_eq_none_iff.mp heq.symm]
    rfl
  | some i =>
    rw [hs, Option.map_some] at heq
    obtain ⟨n, hn, hi⟩ := Option.map_eq_some_iff.mp heq.symm
    rw [hn]
    exact numHolds_clamp hlo hhi op hi.symm

end Compare

/-- The numeric test of a predicate. -/
theorem predHolds_numeric {pf : Platform} {db : SigmaDb} {ev : Event} {p : SigmaPred}
    {op : SigmaOp} (hop : SigmaOp.ofByte p.op = some op) (hnum : op.IsNumeric)
    (hlo : int64Min < p.ival.toInt) (hhi : p.ival.toInt < int64Max) (predIdx : ℕ) :
    predHolds pf db ev p predIdx =
      if p.flags &&& sigmaPfNegate ≠ 0 then !exactVerdict db ev p.fieldId.toNat op p.ival.toInt
      else exactVerdict db ev p.fieldId.toNat op p.ival.toInt := by
  have htest : ∀ v, testHolds pf db ev p predIdx v =
      (leadingInt v).any fun n => numCompare op n p.ival.toInt := by
    intro v
    rw [← any_numHolds hlo hhi, testHolds, hop]
    rcases hnum with rfl | rfl | rfl | rfl | rfl <;> rfl
  have hexists : SigmaOp.ofByte p.op ≠ some .opExists := by
    rw [hop]
    rcases hnum with rfl | rfl | rfl | rfl | rfl <;> decide
  unfold predHolds exactVerdict
  dsimp only
  rw [if_neg hexists, funext htest]

/-- The numeric test of a field witness. -/
theorem fwitTrue_numeric {pf : Platform} {db : SigmaDb} {ev : Event} {w : SigmaFwit}
    {op : SigmaOp} (hop : SigmaOp.ofByte w.op = some op) (hnum : op.IsNumeric)
    (hlo : int64Min < w.ival.toInt) (hhi : w.ival.toInt < int64Max) :
    fwitTrue pf db ev w = exactVerdict db ev w.fieldId.toNat op w.ival.toInt := by
  have hcidr : ¬ SigmaOp.ofByte w.op = some .opCidr := by
    rw [hop]
    rcases hnum with rfl | rfl | rfl | rfl | rfl <;> decide
  unfold fwitTrue exactVerdict
  refine congrArg (Option.any · _) (funext fun v => ?_)
  rw [if_neg hcidr, hop, ← any_numHolds hlo hhi op v]
  cases v with
  | nil => rfl
  | cons c v =>
    cases sgToI64 (c :: v) <;> rfl

/-- **The integer of a field.**  `sg_to_i64` fails exactly on the strings that do not start with an
optional sign and a digit, and returns the longest leading run of digits with its sign, clamped to
64 bits; no round of its loop leaves the unsigned range.  So with an operand strictly inside the
signed range the numeric verdicts of predicates and of field witnesses are those of the unbounded
integer. -/
theorem sgToI64_exact :
    (∀ s, sgToI64 s = none ↔ ¬ StartsNumber s) ∧
      (∀ s, (sgToI64 s).map Int64.toInt = (leadingInt s).map (clamp int64Min int64Max)) ∧
      (∀ (mag : UInt64) (c : UInt8), ¬ (0xFFFFFFFFFFFFFFFF - 9) / 10 < mag → isDigit c = true →
        mag.toNat * 10 + (c.toNat - 48) < 2 ^ 64) ∧
      (∀ pf buf db, sigmaDbLoadBuffer pf buf = .ok db → ∀ (ev : Event) (op : SigmaOp),
        op.IsNumeric →
        (∀ (p : SigmaPred) (predIdx : ℕ), SigmaOp.ofByte p.op = some op →
          int64Min < p.ival.toInt → p.ival.toInt < int64Max →
          Yields (memoFrame db ev) (predMatch pf db ev p predIdx)
            (if p.flags &&& sigmaPfNegate ≠ 0 then
              !exactVerdict db ev p.fieldId.toNat op p.ival.toInt
            else exactVerdict db ev p.fieldId.toNat op p.ival.toInt)) ∧
        ∀ w : SigmaFwit, SigmaOp.ofByte w.op = some op →
          int64Min < w.ival.toInt → w.ival.toInt < int64Max →
          Yields (memoFrame db ev) (fwitHolds pf db ev w)
            (exactVerdict db ev w.fieldId.toNat op w.ival.toInt)) := by
  refine ⟨sgToI64_eq_none_iff, sgToI64_eq, fun mag c hmag hc => (digit_step_exact hmag hc).1, ?_⟩
  intro pf buf db hload ev op hnum
  have hdb := loaded_of_loadBuffer hload
  constructor
  · intro p predIdx hop hlo hhi
    rw [← predHolds_numeric hop hnum hlo hhi predIdx]
    exact predMatch_yields hdb p predIdx
  · intro w hop hlo hhi
    rw [← fwitTrue_numeric hop hnum hlo hhi]
    exact fwitHolds_yields hdb.valid w

/-- Field `a` is greater than 5. -/
def overFive : SigmaPred := ⟨0, 0, 5, 0, Vector.replicate 2 0, 0, Vector.replicate 4 0, 5⟩

/-- In the small artifact the predicate holds of `17 u`. -/
theorem sgToI64_exact_sample :
    ∃ db, sigmaDbLoadBuffer samplePlatform (sigmaDbSerialize sampleTables) = .ok db ∧
      Yields (memoFrame db fun _ => some [49, 55, 32, 117])
        (predMatch samplePlatform db (fun _ => some [49, 55, 32, 117]) overFive 0) true := by
  obtain ⟨db, hload, hsame⟩ := load_sample
  refine ⟨db, hload, ?_⟩
  have hverdict := (sgToI64_exact.2.2.2 samplePlatform _ db hload (fun _ => some [49, 55, 32, 117])
    .opGt (Or.inl rfl)).1 overFive 0 rfl (by decide) (by decide)
  have hvalue : fieldValue db (fun _ => some [49, 55, 32, 117]) overFive.fieldId.toNat =
      some [49, 55, 32, 117] := by
    rw [fieldValue, hsame.fields]
    rfl
  have hexact : exactVerdict db (fun _ => some [49, 55, 32, 117]) overFive.fieldId.toNat .opGt
      overFive.ival.toInt = true := by
    rw [exactVerdict, hvalue]
    decide
  rwa [if_neg (by decide), hexact] at hverdict

end LibSigma
