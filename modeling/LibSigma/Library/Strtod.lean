import Mathlib.Algebra.Order.Field.Rat
import Mathlib.Data.Nat.Digits.Defs
import Mathlib.Tactic.FieldSimp
import Mathlib.Tactic.Ring

/-!
# Numbers at the start of a string

`strtod` of the C locale, on exact numbers: blanks, a sign, then a decimal or hexadecimal number, an
infinity or a NaN.  It returns how many characters the number takes, none if there is none.

## What is read

The function is permissive, and a program that calls it on input of its own format accepts more than
that format has: exponents, hexadecimal digits with a binary exponent, `inf`, `nan` with a word in
parentheses, blanks and a sign in front.  All of these are here, since what a program accepts by
accident is a question that has to have an answer.  The longest prefix that is a number counts, so
an exponent without digits is not part of it.

## Values

A value is a rational number, an infinity or a NaN, and comparisons are those of IEEE: none with a
NaN holds.  Rounding to a double is left out.  A program that asks for more than ranges and equality
of sums of the same numbers needs it, and can apply it to the result.

* `numeral_append`: the value of a numeral written in two pieces.
* `strtod_decimal`: **what `strtod` makes of two digits and a fraction.**
-/

namespace LibSigma.Library

/-! ## Doubles -/

/-- A double whose arithmetic is exact. -/
inductive CDouble where
  | num (q : ℚ)
  | inf (negative : Bool)
  | nan
  deriving DecidableEq

namespace CDouble

/-- `x < y` for a number `y`; no comparison with a NaN holds. -/
def ltNum (x : CDouble) (y : ℚ) : Bool :=
  match x with
  | num q => decide (q < y)
  | inf negative => negative
  | nan => false

/-- `x >= y` for a number `y`. -/
def geNum (x : CDouble) (y : ℚ) : Bool :=
  match x with
  | num q => decide (y ≤ q)
  | inf negative => !negative
  | nan => false

/-- `x > y` for a number `y`. -/
def gtNum (x : CDouble) (y : ℚ) : Bool :=
  match x with
  | num q => decide (y < q)
  | inf negative => !negative
  | nan => false

/-- `x + y` for a number `y`. -/
def addNum (x : CDouble) (y : ℚ) : CDouble :=
  match x with
  | num q => num (q + y)
  | x => x

/-- `-x`. -/
def neg : CDouble → CDouble
  | num q => num (-q)
  | inf negative => inf !negative
  | nan => nan

/-- Only a number lies between two numbers. -/
theorem exists_num_of_between {x : CDouble} {lo hi : ℚ} (hlo : x.geNum lo = true)
    (hhi : x.ltNum hi = true) : ∃ q, x = num q ∧ lo ≤ q ∧ q < hi := by
  cases x with
  | num q => exact ⟨q, rfl, of_decide_eq_true hlo, of_decide_eq_true hhi⟩
  | inf negative =>
    cases negative with
    | false => cases hhi
    | true => cases hlo
  | nan => cases hlo

end CDouble

/-! ## Digits -/

/-- `isdigit`. -/
def isdigit (c : UInt8) : Bool := decide (48 ≤ c) && decide (c ≤ 57)

/-- `isxdigit`. -/
def isxdigit (c : UInt8) : Bool :=
  isdigit c || (decide (97 ≤ c ||| 32) && decide (c ||| 32 ≤ 102))

/-- `isspace`. -/
def isspace (c : UInt8) : Bool := c == 32 || (decide (9 ≤ c) && decide (c ≤ 13))

/-- The value of a digit, also a hexadecimal one. -/
def digitValue (c : UInt8) : ℕ := if isdigit c then c.toNat - 48 else (c ||| 32).toNat - 87

/-- The value of a run of digits. -/
def numeral (base : ℕ) (ds : List UInt8) : ℕ := Nat.ofDigits base (ds.reverse.map digitValue)

theorem numeral_append (base : ℕ) (as bs : List UInt8) :
    numeral base (as ++ bs) = numeral base as * base ^ bs.length + numeral base bs := by
  rw [numeral, List.reverse_append, List.map_append, Nat.ofDigits_append, List.length_map,
    List.length_reverse]
  simp only [numeral]
  ring

/-! ## Numbers -/

/-- An optional sign. -/
def scanSign : List UInt8 → Bool × List UInt8
  | 45 :: p => (true, p)
  | 43 :: p => (false, p)
  | p => (false, p)

/-- The digits before and after an optional point, and what follows. -/
def scanMantissa (digit : UInt8 → Bool) (p : List UInt8) : List UInt8 × List UInt8 × List UInt8 :=
  match p.dropWhile digit with
  | 46 :: rest => (p.takeWhile digit, rest.takeWhile digit, rest.dropWhile digit)
  | rest => (p.takeWhile digit, [], rest)

/-- An optional exponent behind its letter, given in lower case. -/
def scanExponent (letter : UInt8) (p : List UInt8) : ℤ × List UInt8 :=
  match p with
  | [] => (0, [])
  | c :: rest =>
    if c ||| 32 = letter then
      let (negative, digits) := scanSign rest
      let n : ℤ := numeral 10 (digits.takeWhile isdigit)
      if digits.takeWhile isdigit = [] then (0, p)
      else (if negative then -n else n, digits.dropWhile isdigit)
    else (0, p)

/-- A decimal number: at least one digit. -/
def scanDecimal (p : List UInt8) : Option (ℚ × List UInt8) :=
  let (ints, fracs, rest) := scanMantissa isdigit p
  if ints ++ fracs = [] then none
  else
    let (e, rest) := scanExponent 101 rest
    some (numeral 10 (ints ++ fracs) * 10 ^ (e - fracs.length), rest)

/-- A hexadecimal number behind its `0x`. -/
def scanHex : List UInt8 → Option (ℚ × List UInt8)
  | 48 :: x :: p =>
    if x ||| 32 = 120 then
      let (ints, fracs, rest) := scanMantissa isxdigit p
      if ints ++ fracs = [] then none
      else
        let (e, rest) := scanExponent 112 rest
        some (numeral 16 (ints ++ fracs) * 2 ^ (e - 4 * fracs.length), rest)
    else none
  | _ => none

/-- The string starts with a word, in any case. -/
def startsWith (word p : List UInt8) : Bool := (p.take word.length).map (· ||| 32) == word

/-- A letter, a digit or an underscore. -/
def isWordChar (c : UInt8) : Bool :=
  isdigit c || c == 95 || (decide (97 ≤ c ||| 32) && decide (c ||| 32 ≤ 122))

/-- What follows a NaN, which may have a word in parentheses. -/
def scanNan (p : List UInt8) : List UInt8 :=
  match p with
  | 40 :: rest =>
    match rest.dropWhile isWordChar with
    | 41 :: rest => rest
    | _ => p
  | _ => p

/-- A number without sign: an infinity, a NaN, a hexadecimal or a decimal number. -/
def scanUnsigned (p : List UInt8) : Option (CDouble × List UInt8) :=
  if startsWith [105, 110, 102, 105, 110, 105, 116, 121] p then some (.inf false, p.drop 8)
  else if startsWith [105, 110, 102] p then some (.inf false, p.drop 3)
  else if startsWith [110, 97, 110] p then some (.nan, scanNan (p.drop 3))
  else
    match scanHex p with
    | some (q, rest) => some (.num q, rest)
    | none => (scanDecimal p).map fun d => (.num d.1, d.2)

/-- `strtod`: the value, and how many characters it takes. -/
def strtod (p : List UInt8) : CDouble × ℕ :=
  let (negative, unsigned) := scanSign (p.dropWhile isspace)
  match scanUnsigned unsigned with
  | some (x, rest) => (if negative then x.neg else x, p.length - rest.length)
  | none => (.num 0, 0)

/-! ## Two digits and a fraction -/

/-- A digit as a character. -/
def digitChar (i : Fin 10) : UInt8 := UInt8.ofNat (48 + i)

theorem isdigit_iff {c : UInt8} : isdigit c = true ↔ ∃ i, c = digitChar i := by
  constructor
  · intro h
    rw [isdigit, Bool.and_eq_true, decide_eq_true_eq, decide_eq_true_eq, UInt8.le_iff_toNat_le,
      UInt8.le_iff_toNat_le] at h
    have hlo : 48 ≤ c.toNat := h.1
    have hhi : c.toNat ≤ 57 := h.2
    refine ⟨⟨c.toNat - 48, by omega⟩, ?_⟩
    rw [digitChar, Nat.add_sub_cancel' hlo, UInt8.ofNat_toNat]
  · rintro ⟨i, rfl⟩
    revert i
    decide

/-- A digit begins neither blanks nor a sign nor a word, nor does it mark a hexadecimal number. -/
theorem digitChar_plain : ∀ i, isspace (digitChar i) = false ∧ digitChar i ≠ 45 ∧ digitChar i ≠ 43 ∧
    digitChar i ||| 32 ≠ 105 ∧ digitChar i ||| 32 ≠ 110 ∧ digitChar i ||| 32 ≠ 120 := by decide

/-- The text of a fraction: a point and digits, or nothing. -/
def fracText (frac : List UInt8) : List UInt8 := if frac = [] then [] else 46 :: frac

/-- What follows a number does not continue it. -/
def EndsNumber (rest : List UInt8) : Prop :=
  ∀ c ∈ rest.head?, isdigit c = false ∧ c ≠ 46 ∧ c ||| 32 ≠ 101

section Decimal

variable {ds frac rest : List UInt8}

theorem takeWhile_digits (hds : ∀ c ∈ ds, isdigit c = true)
    (hrest : ∀ c ∈ rest.head?, isdigit c = false) :
    (ds ++ rest).takeWhile isdigit = ds ∧ (ds ++ rest).dropWhile isdigit = rest := by
  rw [List.takeWhile_append_of_pos hds, List.dropWhile_append_of_pos hds]
  cases rest with
  | nil => exact ⟨List.append_nil ds, rfl⟩
  | cons c rest =>
    have hc : ¬ isdigit c = true := Bool.eq_false_iff.mp (hrest c rfl)
    rw [List.takeWhile_cons_of_neg hc, List.dropWhile_cons_of_neg hc, List.append_nil]
    exact ⟨rfl, rfl⟩

theorem scanMantissa_eq (hds : ∀ c ∈ ds, isdigit c = true) (hfrac : ∀ c ∈ frac, isdigit c = true)
    (hrest : EndsNumber rest) :
    scanMantissa isdigit (ds ++ (fracText frac ++ rest)) = (ds, frac, rest) := by
  have hends : ∀ c ∈ rest.head?, isdigit c = false := fun c hc => (hrest c hc).1
  rw [scanMantissa, fracText]
  by_cases hnil : frac = []
  · obtain ⟨htake, hdrop⟩ := takeWhile_digits hds hends
    rw [if_pos hnil, List.nil_append, htake, hdrop, hnil]
    split
    · exact absurd rfl (hrest 46 rfl).2.1
    · rfl
  · have hpoint : ∀ c ∈ (46 :: (frac ++ rest)).head?, isdigit c = false := by
      intro c hc
      rw [← Option.some.inj hc]
      rfl
    obtain ⟨htake, hdrop⟩ := takeWhile_digits hds hpoint
    rw [if_neg hnil, List.cons_append, htake, hdrop]
    show (ds, (frac ++ rest).takeWhile isdigit, (frac ++ rest).dropWhile isdigit) = (ds, frac, rest)
    obtain ⟨htake', hdrop'⟩ := takeWhile_digits hfrac hends
    rw [htake', hdrop']

theorem scanExponent_eq (hrest : EndsNumber rest) : scanExponent 101 rest = (0, rest) := by
  cases rest with
  | nil => rfl
  | cons c rest => exact if_neg (hrest c rfl).2.2

theorem scanDecimal_eq (hne : ds ≠ []) (hds : ∀ c ∈ ds, isdigit c = true)
    (hfrac : ∀ c ∈ frac, isdigit c = true) (hrest : EndsNumber rest) :
    scanDecimal (ds ++ (fracText frac ++ rest)) =
      some ((numeral 10 ds : ℚ) + numeral 10 frac / 10 ^ frac.length, rest) := by
  have happ : ds ++ frac ≠ [] := fun h => hne (List.append_eq_nil_iff.mp h).1
  rw [scanDecimal, scanMantissa_eq hds hfrac hrest]
  dsimp only
  rw [if_neg happ, scanExponent_eq hrest]
  dsimp only
  rw [numeral_append, zero_sub, zpow_neg, zpow_natCast]
  congr 2
  push_cast
  field_simp

theorem startsWith_eq_false {w c : UInt8} {word p : List UInt8} (h : c ||| 32 ≠ w) :
    startsWith (w :: word) (c :: p) = false := by
  rw [startsWith, List.length_cons, List.take_succ_cons, List.map_cons]
  exact beq_eq_false_iff_ne.mpr fun heq => h (List.cons.inj heq).1

/-- **What `strtod` makes of two digits and a fraction.** -/
theorem strtod_decimal (i j : Fin 10) (hfrac : ∀ c ∈ frac, isdigit c = true)
    (hrest : EndsNumber rest) :
    strtod (digitChar i :: digitChar j :: (fracText frac ++ rest)) =
      (.num (numeral 10 [digitChar i, digitChar j] + numeral 10 frac / 10 ^ frac.length),
        2 + (fracText frac).length) := by
  obtain ⟨hspace, hminus, hplus, hi, hn, -⟩ := digitChar_plain i
  obtain ⟨-, -, -, -, -, hx⟩ := digitChar_plain j
  have hds : ∀ c ∈ [digitChar i, digitChar j], isdigit c = true := by
    intro c hc
    rw [isdigit_iff]
    rcases List.mem_pair.mp hc with rfl | rfl
    · exact ⟨i, rfl⟩
    · exact ⟨j, rfl⟩
  have hsign : ∀ p, scanSign (digitChar i :: p) = (false, digitChar i :: p) := by
    intro p
    unfold scanSign
    split
    · rename_i heq
      exact absurd (List.cons.inj heq).1 hminus
    · rename_i heq
      exact absurd (List.cons.inj heq).1 hplus
    · rfl
  have hhex : ∀ p, scanHex (digitChar i :: digitChar j :: p) = none := by
    intro p
    unfold scanHex
    split
    · rename_i heq
      rw [← (List.cons.inj (List.cons.inj heq).2).1, if_neg hx]
    · rfl
  have hdecimal := scanDecimal_eq (List.cons_ne_nil _ _) hds hfrac hrest
  rw [List.cons_append, List.cons_append, List.nil_append] at hdecimal
  rw [strtod, List.dropWhile_cons_of_neg (Bool.eq_false_iff.mp hspace), hsign]
  dsimp only
  rw [scanUnsigned, startsWith_eq_false hi, startsWith_eq_false hi, startsWith_eq_false hn, hhex,
    hdecimal]
  simp only [Bool.false_eq_true, if_false, Option.map_some, List.length_cons, List.length_append]
  congr 1
  omega

end Decimal

end LibSigma.Library
