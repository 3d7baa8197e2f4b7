import LibSigma.Time.Renderings

/-!
# What the parser accepts beyond its forms

The parser converts characters without looking whether they are digits, leaves the seconds to
`strtod`, stops at an offset and checks a day against 31.

## The documented language

The header lists the forms and says that anything else gives 0.  `Documented` is that list, as the
texts of `LibSigma.Time.Stamp` between blanks, of a day that exists, together with the time that the
text names.  It is a relation between a string and a number, with no parser in it.

## Slips

`PlainlyWritten` names each place where the parser does not look closely: a character converted as a
digit that is none, seconds that `strtod` reads in another notation, text behind an offset, a number
that runs into the next because the blank between them is missing, a day past the end of its month,
a terminator inside the buffer.  It is a condition on the string.  It does not say that the string
is accepted or what it is read as, and for most strings that are refused it holds or fails without
consequence.

## The equivalence

One half builds a stamp: from a string that is accepted without a slip, go through the parser and
read off each part of a stamp where the parser found it (`exists_zone`, `exists_clock`,
`exists_stamp`).  The other half runs the parser on a stamp and looks at the places of the slips.
The numeric form is set apart, as there the whole string is one number.

* `exists_zone`, `exists_clock`: text that is read without a slip is a clock.
* `exists_stamp`: **and with its date a stamp.**
* `plainlyWritten_of_documented`: a stamp takes no slip.
* `event_time_documented_iff`: **what is accepted is one of the documented forms, of a day that
  exists, with the time it names, exactly if no slip is taken.**
-/

namespace LibSigma

open Library

/-! ## Documented forms -/

/-- The string between the blanks around it. -/
def trim (s : CStr) : CStr := (s.dropWhile isBlank).rdropWhile isBlank

/-- The string is a stamp, of a day that exists, and the result is its civil time less its offset:
the days from 1970 to its date, in seconds, and the seconds of its clock. -/
structure Documented (s : CStr) (refWall : ℤ) (out : CDouble) (st : Stamp) : Prop where
  text : trim s = st.text
  fits : st.Fits refWall
  time : ∃ n : ℤ, CivilDate.epoch.DaysAfter n st.date ∧ out = .num (n * 86400 + st.clock.instant)

/-! ## Slips

One condition for each place where the parser does not look: the seconds, what follows an offset,
the characters that are converted, the blanks between numbers, the day of the month.  They are
conditions on the characters at certain places, found in the way the parser finds them. -/

/-- The seconds are two digits, or two digits, a point and more digits. -/
def PlainSeconds (p : CStr) : Prop :=
  isdigit (charAt p 0) = true ∧ isdigit (charAt p 1) = true ∧ p.drop 2 = fracText (p.drop 3) ∧
    ∀ c ∈ p.drop 3, isdigit c = true

/-- Nothing follows an offset: neither its letter nor its hours and minutes. -/
def PlainZone (p : CStr) : Prop :=
  if charAt p 0 = 43 ∨ charAt p 0 = 45 then
    p.length = 3 ∨ (p.length = 5 ∧ isdigit (charAt p 3) = true ∧ isdigit (charAt p 4) = true) ∨
      (p.length = 6 ∧ charAt p 3 = 58 ∧ isdigit (charAt p 4) = true ∧ isdigit (charAt p 5) = true)
  else p.length ≤ 1

/-- The seconds are there, what `strtod` takes for them is plain, and so is what follows. -/
structure PlainClock (p : CStr) : Prop where
  colon : charAt p 5 = 58
  seconds : PlainSeconds ((p.drop 6).take (strtod (p.drop 6)).2)
  zone : PlainZone (dropBlanks ((p.drop 6).drop (strtod (p.drop 6)).2))

/-- The characters that are converted without a look at them are digits, a clock follows the date,
and there are blanks where only those keep numbers apart. -/
def PlainDate (b : CStr) : StampForm → Prop
  | .iso => (∀ i ∈ [1, 2, 3, 5, 6, 8, 9], isdigit (charAt b i) = true) ∧ b.length ≠ 10
  | .errorLog => (∀ i ∈ [1, 2, 3, 5, 6, 8, 9], isdigit (charAt b i) = true) ∧ charAt b 10 = 32
  | .clf => (dayDigits b).length = 2 ∧ isdigit (charAt b 8) = true ∧ isdigit (charAt b 9) = true
  | .rfc3164 =>
    charAt b 3 = 32 ∧
      charAt ((dropBlanks (b.drop 3)).drop (dayDigits (dropBlanks (b.drop 3))).length) 0 = 32

/-- The date a string is read for. -/
def stampHead (b : CStr) (refWall : ℤ) : Option StampHead :=
  match stampForm b with
  | some .iso => some (isoHead b)
  | some .errorLog => some (errorLogHead b)
  | some .clf => clfHead b
  | some .rfc3164 => rfc3164Head b refWall
  | none => none

/-- The string is read without a slip: there is no terminator in it, its date and its clock are
written plainly, and its month has the day. -/
structure PlainlyWritten (s : CStr) (refWall : ℤ) : Prop where
  nul : (0 : UInt8) ∉ s
  date : ∀ form, stampForm (trimmed s) = some form → PlainDate (trimmed s) form
  clock : ∀ head, stampHead (trimmed s) refWall = some head → PlainClock head.rest
  day : ∀ head, stampHead (trimmed s) refWall = some head →
    head.D ≤ monthLength head.Y head.Mo.toNat

/-! ## Positions

The parser compares and converts characters at fixed distances; the texts of stamps are lists put
together from parts.  These lemmas go from the one to the other: if two digits stand here, what is
left begins with a number of two digits. -/

section Positions

variable {p : CStr} {i : ℕ}

/-- A character that is not the terminator is in the string. -/
theorem lt_length_of_charAt (h : charAt p i ≠ 0) : i < p.length := by
  by_contra hle
  refine h ?_
  rw [charAt, List.getD_eq_getElem?_getD, List.getElem?_eq_none (not_lt.mp hle)]
  rfl

theorem charAt_ne_zero_of_digit (h : isdigit (charAt p i) = true) : charAt p i ≠ 0 := by
  intro hzero
  rw [hzero] at h
  cases h

@[simp] theorem charAt_drop (p : CStr) (i j : ℕ) : charAt (p.drop i) j = charAt p (i + j) := by
  rw [charAt, charAt, List.getD_eq_getElem?_getD, List.getD_eq_getElem?_getD, List.getElem?_drop]

@[simp] theorem twoAt_drop (p : CStr) (i : ℕ) : twoAt (p.drop i) 0 = twoAt p i := by
  rw [twoAt, twoAt, digitAt, digitAt, charAt_drop, charAt_drop]
  rfl

/-- What is left at a character begins with it. -/
theorem drop_of_charAt (h : charAt p i ≠ 0) : p.drop i = charAt p i :: p.drop (i + 1) := by
  have hlt := lt_length_of_charAt h
  rw [List.drop_eq_getElem_cons hlt, charAt, List.getD_eq_getElem?_getD, List.getElem?_eq_getElem hlt,
    Option.getD_some]

/-- What is left at a mark begins with it. -/
theorem drop_of_mark {c : UInt8} (h : charAt p i = c) (hc : c ≠ 0) :
    p.drop i = c :: p.drop (i + 1) := by
  subst h
  exact drop_of_charAt hc

theorem dec_eq {n : ℕ} {i : Fin 10} (h : n % 10 = i) : dec n = digitChar i :=
  congrArg digitChar (Fin.ext h)

/-- The value of a digit. -/
theorem exists_digit (h : isdigit (charAt p i) = true) :
    ∃ d : Fin 10, digitAt p i = (d : ℕ) ∧ p.drop i = digitChar d :: p.drop (i + 1) := by
  obtain ⟨d, hd⟩ := isdigit_iff.mp h
  refine ⟨d, ?_, ?_⟩
  · rw [digitAt, hd, (digitChar_value d).1]
  · rw [drop_of_charAt (charAt_ne_zero_of_digit h), hd]

/-- What is left at two digits begins with a number of two digits. -/
theorem exists_two (h₀ : isdigit (charAt p i) = true) (h₁ : isdigit (charAt p (i + 1)) = true) :
    ∃ n : ℕ, n < 100 ∧ twoAt p i = n ∧ p.drop i = two n ++ p.drop (i + 2) := by
  obtain ⟨a, ha, hpa⟩ := exists_digit h₀
  obtain ⟨b, hb, hpb⟩ := exists_digit h₁
  refine ⟨10 * a + b, by omega, ?_, ?_⟩
  · rw [twoAt, ha, hb]
    omega
  · rw [hpa, hpb, two, dec_eq (show _ % 10 = (a : ℕ) by omega),
      dec_eq (show _ % 10 = (b : ℕ) by omega)]
    rfl

/-- What is left at four digits begins with a number of four digits. -/
theorem exists_four (h₀ : isdigit (charAt p i) = true) (h₁ : isdigit (charAt p (i + 1)) = true)
    (h₂ : isdigit (charAt p (i + 2)) = true) (h₃ : isdigit (charAt p (i + 3)) = true) :
    ∃ n : ℕ, n < 10000 ∧ fourAt p i = n ∧ p.drop i = four n ++ p.drop (i + 4) := by
  obtain ⟨a, ha, hpa⟩ := exists_digit h₀
  obtain ⟨b, hb, hpb⟩ := exists_digit h₁
  obtain ⟨c, hc, hpc⟩ := exists_digit h₂
  obtain ⟨d, hd, hpd⟩ := exists_digit h₃
  refine ⟨1000 * a + 100 * b + 10 * c + d, by omega, ?_, ?_⟩
  · rw [fourAt, ha, hb, hc, hd]
    omega
  · rw [hpa, hpb, hpc, hpd, four, dec_eq (show _ % 10 = (a : ℕ) by omega),
      dec_eq (show _ % 10 = (b : ℕ) by omega), dec_eq (show _ % 10 = (c : ℕ) by omega),
      dec_eq (show _ % 10 = (d : ℕ) by omega)]
    rfl

end Positions

/-! ## Clocks

From the end to the beginning: the offset, the seconds with their fraction, the blanks in front of
an offset, the hours and minutes.  Each gives a text and what the parser read as its value. -/

/-- The hours and minutes that `parse_offset` takes are in range. -/
theorem range_of_parseOffsetDigits {sign off : ℤ} {p : CStr}
    (h : parseOffsetDigits sign p = some off) :
    isdigit (charAt p 0) = true ∧ isdigit (charAt p 1) = true ∧ twoAt p 0 ≤ 14 ∧
      ∀ q, q = (if charAt p 2 = 58 then p.drop 3 else p.drop 2) →
        isdigit (charAt q 0) = true → isdigit (charAt q 1) = true → twoAt q 0 ≤ 59 := by
  rw [parseOffsetDigits] at h
  generalize (if charAt p 2 = 58 then p.drop 3 else p.drop 2) = q at h ⊢
  rw [Option.ite_none_right_eq_some, Bool.and_eq_true] at h
  obtain ⟨⟨h₀, h₁⟩, h⟩ := h
  dsimp only at h
  rw [Option.ite_none_left_eq_some, not_or, not_lt, not_lt] at h
  refine ⟨h₀, h₁, h.1.1, ?_⟩
  rintro _ rfl hq₀ hq₁
  rw [hq₀, hq₁] at h
  exact h.1.2

/-- An offset that is read, and nothing behind it, is an offset as it is written. -/
theorem exists_zone {p : CStr} {off : ℤ} (hnul : (0 : UInt8) ∉ p) (h : parseOffset p = some off)
    (hplain : PlainZone p) : ∃ z : ZoneText, z.text = p ∧ z.InRange := by
  unfold PlainZone at hplain
  split at hplain
  · rename_i hsign
    obtain ⟨west, q, rfl⟩ : ∃ west q, p = ZoneText.sign west :: q := by
      cases p with
      | nil => rcases hsign with hsign | hsign <;> exact absurd hsign (by decide)
      | cons c q =>
        rcases hsign with hsign | hsign
        · exact ⟨false, q, congrArg (· :: q) hsign⟩
        · exact ⟨true, q, congrArg (· :: q) hsign⟩
    have hdigits : ∃ sign, parseOffsetDigits sign q = some off := by
      cases west with
      | false => exact ⟨1, h⟩
      | true => exact ⟨-1, h⟩
    obtain ⟨sign, hdigits⟩ := hdigits
    obtain ⟨h₀, h₁, hhours, hminutes⟩ := range_of_parseOffsetDigits hdigits
    obtain ⟨n, -, hn, (hq : q = two n ++ q.drop 2)⟩ := exists_two h₀ h₁
    rw [hn] at hhours
    have hn' : n ≤ 14 := by omega
    simp only [List.length_cons, charAt_succ] at hplain
    rcases hplain with hlength | ⟨hlength, hm₀, hm₁⟩ | ⟨hlength, hcolon, hm₀, hm₁⟩
    · have hnil : q.drop 2 = [] := List.drop_eq_nil_of_le (by omega)
      rw [hq, hnil, List.append_nil]
      exact ⟨.hours west n, rfl, hn'⟩
    · obtain ⟨m, -, hm, hdrop⟩ := exists_two hm₀ hm₁
      have hne : charAt q 2 ≠ 58 := by
        intro hcolon
        rw [hcolon] at hm₀
        cases hm₀
      have hle := hminutes (q.drop 2) (if_neg hne).symm (charAt_drop q 2 0 ▸ hm₀)
        (charAt_drop q 2 1 ▸ hm₁)
      rw [twoAt_drop, hm] at hle
      have hnil : q.drop 4 = [] := List.drop_eq_nil_of_le (by omega)
      rw [hq, hdrop, hnil, List.append_nil]
      exact ⟨.compact west n m, rfl, hn', by omega⟩
    · obtain ⟨m, -, hm, hdrop⟩ := exists_two hm₀ hm₁
      have hle := hminutes (q.drop 3) (if_pos hcolon).symm (charAt_drop q 3 0 ▸ hm₀)
        (charAt_drop q 3 1 ▸ hm₁)
      rw [twoAt_drop, hm] at hle
      have hnil : q.drop 5 = [] := List.drop_eq_nil_of_le (by omega)
      rw [hq, drop_of_mark hcolon (by decide), hdrop, hnil, List.append_nil]
      exact ⟨.colon west n m, rfl, hn', by omega⟩
  · -- No sign: a letter, or nothing.
    rename_i hsign
    rw [not_or] at hsign
    cases p with
    | nil => exact ⟨.none, rfl, trivial⟩
    | cons c q =>
      have hq : q = [] := List.eq_nil_of_length_eq_zero (by simpa using hplain)
      subst hq
      have hnul' : c ≠ 0 := fun hc => hnul (hc ▸ List.mem_singleton_self c)
      rw [parseOffset, if_neg hsign.1, if_neg hsign.2, Option.ite_none_right_eq_some] at h
      rcases h.1 with hc | hc | hc
      · exact absurd hc hnul'
      · exact ⟨.zulu false, congrArg (fun c => [c]) hc.symm, trivial⟩
      · exact ⟨.zulu true, congrArg (fun c => [c]) hc.symm, trivial⟩

/-- What `parse_hms` has looked at when there are seconds. -/
theorem parseHms_spec {p : CStr} {t : Hms} (h : parseHms p = some t) (hcolon : charAt p 5 = 58) :
    isdigit (charAt p 0) = true ∧ isdigit (charAt p 1) = true ∧ charAt p 2 = 58 ∧
      isdigit (charAt p 3) = true ∧ isdigit (charAt p 4) = true ∧
      t = ⟨twoAt p 0, twoAt p 3, (strtod (p.drop 6)).1, (p.drop 6).drop (strtod (p.drop 6)).2⟩ := by
  rw [parseHms, Option.ite_none_left_eq_some, Option.ite_none_left_eq_some, if_pos hcolon] at h
  obtain ⟨hhour, hminute, h⟩ := h
  simp only [Bool.or_eq_true, Bool.not_eq_true', bne_iff_ne, not_or, Bool.not_eq_false,
    not_not] at hhour hminute
  dsimp only at h
  rw [Option.ite_none_left_eq_some] at h
  exact ⟨hhour.1.1, hhour.1.2, hhour.2, hminute.1, hminute.2, (Option.some.inj h.2).symm⟩

/-- Blanks, and what follows them. -/
theorem eq_replicate_append_dropBlanks (p : CStr) :
    ∃ k, p = List.replicate k 32 ++ dropBlanks p := by
  refine ⟨(p.takeWhile (· == 32)).length, ?_⟩
  have hblank : ∀ c ∈ p.takeWhile (· == 32), c = 32 := by
    intro c hc
    exact beq_iff_eq.mp (List.all_eq_true.mp List.all_takeWhile c hc)
  rw [← List.eq_replicate_of_mem hblank, dropBlanks, List.takeWhile_append_dropWhile]

/-- A blank, more blanks, and what follows them. -/
theorem exists_blanks {p : CStr} (h : charAt p 0 = 32) :
    ∃ k, p = 32 :: (List.replicate k 32 ++ dropBlanks p) := by
  obtain ⟨k, hk⟩ := eq_replicate_append_dropBlanks p
  cases p with
  | nil => exact absurd h (by decide)
  | cons c p =>
    have hc : c = 32 := h
    subst hc
    obtain ⟨k', hk'⟩ := eq_replicate_append_dropBlanks p
    exact ⟨k', congrArg _ hk'⟩

/-- Seconds without a slip are two digits and a fraction. -/
theorem exists_seconds {p : CStr} (h : PlainSeconds p) :
    ∃ n < 100, ∃ frac, (∀ c ∈ frac, isdigit c = true) ∧ p = two n ++ fracText frac := by
  obtain ⟨h₀, h₁, hpoint, hdigits⟩ := h
  obtain ⟨n, hn, -, (hp : p = two n ++ p.drop 2)⟩ := exists_two h₀ h₁
  exact ⟨n, hn, _, hdigits, hpoint ▸ hp⟩

/-- Seconds and an offset that are read in range and without a slip are as they are written. -/
theorem exists_seconds_zone {q : CStr} {off : ℤ} (hnul : (0 : UInt8) ∉ q)
    (hlast : ∀ c ∈ q.getLast?, isBlank c = false) (hse : (strtod q).1.geNum 61 = false)
    (hoff : parseOffset (dropBlanks (q.drop (strtod q).2)) = some off)
    (hseconds : PlainSeconds (q.take (strtod q).2))
    (hzone : PlainZone (dropBlanks (q.drop (strtod q).2))) :
    ∃ second ≤ 60, ∃ frac k, ∃ z : ZoneText, (∀ c ∈ frac, isdigit c = true) ∧ z.InRange ∧
      (z.text = [] → k = 0) ∧
        q = two second ++ (fracText frac ++ (List.replicate k 32 ++ z.text)) := by
  obtain ⟨second, hsecond, frac, hfrac, htaken⟩ := exists_seconds hseconds
  generalize hrest : q.drop (strtod q).2 = rest at *
  have hq : q = two second ++ (fracText frac ++ rest) := by
    rw [← List.append_assoc, ← htaken, ← hrest, List.take_append_drop]
  obtain ⟨k, hk⟩ := eq_replicate_append_dropBlanks rest
  have hnul' : (0 : UInt8) ∉ dropBlanks rest := by
    intro hmem
    refine hnul ?_
    rw [hq, hk, List.mem_append, List.mem_append, List.mem_append]
    exact Or.inr (Or.inr (Or.inr hmem))
  obtain ⟨z, hz, hrange⟩ := exists_zone hnul' hoff hzone
  rw [← hz] at hk
  have hlt : (second : ℚ) < 61 := by
    have hfrac_nonneg : (0 : ℚ) ≤ numeral 10 frac / 10 ^ frac.length :=
      div_nonneg (Nat.cast_nonneg _) (pow_nonneg (by decide) _)
    rw [hq, hk, strtod_two hsecond hfrac (endsNumber_zone k z)] at hse
    have hvalue := not_le.mp (of_decide_eq_false hse)
    linarith
  have hle : second ≤ 60 := by
    have hlt' : second < 61 := by exact_mod_cast hlt
    omega
  refine ⟨second, hle, frac, k, z, hfrac, hrange, fun hnil => ?_, hk ▸ hq⟩
  -- A run of blanks without an offset behind it would end the string.
  by_contra hpos
  have hend : q.getLast? = some 32 := by
    rw [hq, hk, hnil, List.append_nil, List.getLast?_append, List.getLast?_append,
      List.getLast?_replicate, if_neg hpos, Option.some_or, Option.some_or]
  exact absurd (hlast 32 hend) (by decide)

/-- The end of a string that has no terminator in it and no blank behind it is like it. -/
theorem clean_suffix {p q : CStr} (h : q <:+ p) (hnul : (0 : UInt8) ∉ p)
    (hlast : ∀ c ∈ p.getLast?, isBlank c = false) :
    (0 : UInt8) ∉ q ∧ ∀ c ∈ q.getLast?, isBlank c = false := by
  obtain ⟨as, rfl⟩ := h
  refine ⟨fun hmem => hnul (List.mem_append_right as hmem), fun c hc => hlast c ?_⟩
  rw [List.getLast?_append, Option.mem_def.mp hc]
  rfl

/-- The clock behind a date is read, and in range. -/
def ReadInRange (p : CStr) : Prop :=
  ∃ t off, parseHms p = some t ∧ t.h ≤ 23 ∧ t.mi ≤ 59 ∧ t.se.geNum 61 = false ∧
    parseOffset (dropBlanks t.rest) = some off

/-- A clock that is read in range and without a slip is a clock as it is written. -/
theorem exists_clock {p : CStr} (hnul : (0 : UInt8) ∉ p)
    (hlast : ∀ c ∈ p.getLast?, isBlank c = false) (hread : ReadInRange p) (hplain : PlainClock p) :
    ∃ c : ClockText, c.text = p := by
  obtain ⟨t, off, hparse, hh, hmi, hse, hoff⟩ := hread
  obtain ⟨hcolon, hseconds, hzone⟩ := hplain
  obtain ⟨h₀, h₁, hcolon', h₃, h₄, rfl⟩ := parseHms_spec hparse hcolon
  obtain ⟨hour, -, hhour, (hp : p = two hour ++ p.drop 2)⟩ := exists_two h₀ h₁
  obtain ⟨minute, -, hminute, hp₃⟩ := exists_two h₃ h₄
  obtain ⟨hnul', hlast'⟩ := clean_suffix (List.drop_suffix 6 p) hnul hlast
  obtain ⟨second, hsecond, frac, k, z, hfrac, hrange, hblanks, hq⟩ :=
    exists_seconds_zone hnul' hlast' hse hoff hseconds hzone
  dsimp only at hh hmi
  rw [hhour] at hh
  rw [hminute] at hmi
  have htext : p = two hour ++ 58 :: (two minute ++ 58 ::
      (two second ++ (fracText frac ++ (List.replicate k 32 ++ z.text)))) := by
    rw [← hq, ← drop_of_mark hcolon (by decide), ← hp₃, ← drop_of_mark hcolon' (by decide), ← hp]
  exact ⟨⟨hour, minute, second, frac, k, z, by omega, by omega, hsecond, hfrac, hrange, hblanks⟩,
    htext.symm⟩

/-! ## Dates

One lemma for each form.  The marks that told the parser the form are at fixed places, the digits
between them are digits because no slip was taken, and the clock behind them is one as written. -/

/-- A clock that is accepted behind a date. -/
theorem readInRange_of_parseTail {head : StampHead} {out : CDouble} (h : parseTail head = some out) :
    ReadInRange head.rest ∧ 1970 ≤ head.Y ∧ head.Y ≤ 2100 ∧ 1 ≤ head.Mo ∧ head.Mo ≤ 12 ∧
      1 ≤ head.D := by
  unfold parseTail at h
  cases hparse : parseHms head.rest with
  | none =>
    rw [hparse] at h
    cases h
  | some t =>
    rw [hparse] at h
    dsimp only at h
    rw [Option.ite_none_right_eq_some] at h
    obtain ⟨hok, h⟩ := h
    obtain ⟨off, hoff, -⟩ := Option.map_eq_some_iff.mp h
    simp only [civilOk, Bool.and_eq_true, decide_eq_true_eq] at hok
    obtain ⟨⟨hints, hlo⟩, hhi⟩ := hok
    have hse : t.se.geNum 61 = false := by
      obtain ⟨q, hq, -, hlt⟩ := CDouble.exists_num_of_between hlo hhi
      rw [hq]
      exact decide_eq_false (not_le.mpr hlt)
    exact ⟨⟨t, off, hparse, by omega, by omega, hse, hoff⟩, by omega, by omega, by omega, by omega,
      by omega⟩

theorem readInRange_of_parseRfc3164 {head : StampHead} {out : CDouble}
    (h : parseRfc3164 head = some out) : ReadInRange head.rest ∧ 1 ≤ head.D := by
  unfold parseRfc3164 at h
  cases hparse : parseHms head.rest with
  | none =>
    rw [hparse] at h
    cases h
  | some t =>
    rw [hparse] at h
    dsimp only at h
    rw [Option.ite_none_left_eq_some] at h
    obtain ⟨hrange, h⟩ := h
    obtain ⟨off, hoff, -⟩ := Option.map_eq_some_iff.mp h
    simp only [not_or, not_lt, Bool.not_eq_true] at hrange
    obtain ⟨hday, -, -, hh, -, hmi, -, hse⟩ := hrange
    exact ⟨⟨t, off, hparse, hh, hmi, hse, hoff⟩, hday⟩

/-- The numbers of a date with a mark between them. -/
theorem exists_date {b : CStr} {mark : UInt8} (hmark : mark ≠ 0) (h₀ : isdigit (charAt b 0) = true)
    (h₄ : charAt b 4 = mark) (h₇ : charAt b 7 = mark)
    (hdigits : ∀ i ∈ [1, 2, 3, 5, 6, 8, 9], isdigit (charAt b i) = true) :
    ∃ y m d : ℕ, fourAt b 0 = y ∧ twoAt b 5 = m ∧ twoAt b 8 = d ∧
      b = four y ++ mark :: (two m ++ mark :: (two d ++ b.drop 10)) := by
  obtain ⟨y, -, hy, (hb : b = four y ++ b.drop 4)⟩ := exists_four h₀ (hdigits 1 (by decide))
    (hdigits 2 (by decide)) (hdigits 3 (by decide))
  obtain ⟨m, -, hm, hb₅⟩ := exists_two (hdigits 5 (by decide)) (hdigits 6 (by decide))
  obtain ⟨d, -, hd, hb₈⟩ := exists_two (hdigits 8 (by decide)) (hdigits 9 (by decide))
  refine ⟨y, m, d, hy, hm, hd, ?_⟩
  rw [← hb₈, ← drop_of_mark h₇ hmark, ← hb₅, ← drop_of_mark h₄ hmark, ← hb]

/-- The marks of a date. -/
theorem stampForm_spec {b : CStr} {form : StampForm} (h : stampForm b = some form) :
    match form with
    | .iso => isdigit (charAt b 0) = true ∧ charAt b 4 = 45 ∧ charAt b 7 = 45
    | .errorLog => isdigit (charAt b 0) = true ∧ charAt b 4 = 47 ∧ charAt b 7 = 47
    | .clf => True
    | .rfc3164 => True := by
  unfold stampForm at h
  split at h
  · rename_i hiso
    cases h
    exact hiso.2
  split at h
  · rename_i hlog
    cases h
    exact hlog.2
  split at h
  · cases h
    exact trivial
  split at h
  · cases h
    exact trivial
  · cases h

/-- The digits of a day begin the string. -/
theorem dayDigits_spec (p : CStr) :
    p = dayDigits p ++ p.drop (dayDigits p).length ∧ (dayDigits p).length ≤ 2 ∧
      ∀ c ∈ dayDigits p, isdigit c = true := by
  have hlead : dayDigits p <+: p := (List.takeWhile_prefix _).trans (List.take_prefix 2 p)
  refine ⟨(List.prefix_iff_eq_append.mp hlead).symm, ?_, fun c hc => ?_⟩
  · exact (List.takeWhile_prefix _).length_le.trans (List.length_take_le 2 p)
  · exact List.all_eq_true.mp List.all_takeWhile c hc

/-- One or two digits are a day as it is written. -/
theorem exists_day {p : CStr} (hne : p ≠ []) (hlen : p.length ≤ 2)
    (hdigits : ∀ c ∈ p, isdigit c = true) :
    ∃ d, numeral 10 p = d ∧ (p = two d ∨ p = [dec d] ∧ d ≤ 9) := by
  obtain ⟨c, q, rfl⟩ := List.exists_cons_of_ne_nil hne
  cases q with
  | nil =>
    obtain ⟨i, rfl⟩ := isdigit_iff.mp (hdigits c List.mem_cons_self)
    have hvalue : numeral 10 [digitChar i] = i := by
      rw [numeral, List.reverse_singleton, List.map_singleton, Nat.ofDigits_singleton,
        (digitChar_value i).2]
    refine ⟨i, hvalue, Or.inr ⟨?_, by omega⟩⟩
    rw [dec_eq (Nat.mod_eq_of_lt i.isLt)]
  | cons c' q =>
    have hq : q = [] := List.eq_nil_of_length_eq_zero (by simpa using hlen)
    subst hq
    obtain ⟨d, hd, -, (hday : [c, c'] = two d)⟩ :=
      exists_two (p := [c, c']) (i := 0) (hdigits c (by simp)) (hdigits c' (by simp))
    exact ⟨d, by rw [hday, numeral_two hd], Or.inl hday⟩

/-- A month that is found is one of twelve. -/
theorem exists_month {p : CStr} (h : month3 p ≠ 0) :
    ∃ m : ℕ, 1 ≤ m ∧ m ≤ 12 ∧ month3 p = m := by
  rw [month3] at h ⊢
  cases hfind : monthNames.findIdx? fun name => (p.take 3).map (· ||| 32) == name with
  | none =>
    rw [hfind] at h
    exact absurd rfl h
  | some i =>
    obtain ⟨hi, -, -⟩ := List.findIdx?_eq_some_iff_getElem.mp hfind
    exact ⟨i + 1, Nat.succ_pos i, hi, rfl⟩

section Stamps

variable {b : CStr} {refWall : ℤ} {out : CDouble} (hnul : (0 : UInt8) ∉ b)
  (hlast : ∀ c ∈ b.getLast?, isBlank c = false)
include hnul hlast

/-- An ISO-8601 string that is accepted without a slip is a stamp. -/
theorem exists_stamp_iso (hform : stampForm b = some .iso) (hplain : PlainDate b .iso)
    (h : parseIso b = some out) (hclock : PlainClock (isoHead b).rest)
    (hday : (isoHead b).D ≤ monthLength (isoHead b).Y (isoHead b).Mo.toNat) :
    ∃ st : Stamp, st.Fits refWall ∧ st.text = b := by
  obtain ⟨h₀, hdash, hdash'⟩ := stampForm_spec hform
  obtain ⟨y, m, d, hy, hm, hd, hb⟩ := exists_date (by decide) h₀ hdash hdash' hplain.1
  have hhead : isoHead b = ⟨y, m, d, b.drop 11⟩ := by rw [isoHead, hy, hm, hd]
  rw [parseIso, if_neg hplain.2, Option.ite_none_left_eq_some, hhead] at h
  rw [hhead] at hclock hday
  obtain ⟨hread, hlo, hhi, hmonth, hmonth', hpos⟩ := readInRange_of_parseTail h.2
  dsimp only at hday hlo hhi hmonth hmonth' hpos
  rw [Int.toNat_natCast] at hday
  have hsep : charAt b 10 = 84 ∨ charAt b 10 = 116 ∨ charAt b 10 = 32 := by
    have hsep' := h.1
    tauto
  have hsep_ne : charAt b 10 ≠ 0 := by
    rcases hsep with hsep | hsep | hsep <;> (rw [hsep]; decide)
  obtain ⟨hnul', hlast'⟩ := clean_suffix (List.drop_suffix 11 b) hnul hlast
  obtain ⟨clock, hclock'⟩ := exists_clock hnul' hlast' hread hclock
  refine ⟨⟨.iso (charAt b 10), ⟨y, m, d, by omega, by omega, by omega, by omega⟩, clock⟩, ?_, ?_⟩
  · exact ⟨hsep, by dsimp only; omega, by dsimp only; omega⟩
  · rw [Stamp.text, hclock']
    conv_rhs => rw [hb, drop_of_charAt hsep_ne]
    rfl

/-- An error_log string that is accepted without a slip is a stamp. -/
theorem exists_stamp_errorLog (hform : stampForm b = some .errorLog) (hplain : PlainDate b .errorLog)
    (h : parseTail (errorLogHead b) = some out) (hclock : PlainClock (errorLogHead b).rest)
    (hday : (errorLogHead b).D ≤ monthLength (errorLogHead b).Y (errorLogHead b).Mo.toNat) :
    ∃ st : Stamp, st.Fits refWall ∧ st.text = b := by
  obtain ⟨h₀, hslash, hslash'⟩ := stampForm_spec hform
  obtain ⟨y, m, d, hy, hm, hd, hb⟩ := exists_date (by decide) h₀ hslash hslash' hplain.1
  have hhead : errorLogHead b = ⟨y, m, d, dropBlanks (b.drop 10)⟩ := by
    rw [errorLogHead, hy, hm, hd]
  obtain ⟨k, hk⟩ := exists_blanks ((charAt_drop b 10 0).trans hplain.2)
  rw [hhead] at h hclock hday
  obtain ⟨hread, hlo, hhi, hmonth, hmonth', hpos⟩ := readInRange_of_parseTail h
  dsimp only at hday hlo hhi hmonth hmonth' hpos
  rw [Int.toNat_natCast] at hday
  have hsuffix : dropBlanks (b.drop 10) <:+ b :=
    (List.dropWhile_suffix _).trans (List.drop_suffix 10 b)
  obtain ⟨hnul', hlast'⟩ := clean_suffix hsuffix hnul hlast
  obtain ⟨clock, hclock'⟩ := exists_clock hnul' hlast' hread hclock
  refine ⟨⟨.errorLog k, ⟨y, m, d, by omega, by omega, by omega, by omega⟩, clock⟩, ?_, ?_⟩
  · exact ⟨by dsimp only; omega, by dsimp only; omega⟩
  · rw [Stamp.text, hclock']
    conv_rhs => rw [hb, hk]
    rfl

/-- A CLF string that is accepted without a slip is a stamp. -/
theorem exists_stamp_clf {head : StampHead} (hplain : PlainDate b .clf)
    (hhead : clfHead b = some head) (h : parseTail head = some out) (hclock : PlainClock head.rest)
    (hday : head.D ≤ monthLength head.Y head.Mo.toNat) :
    ∃ st : Stamp, st.Fits refWall ∧ st.text = b := by
  obtain ⟨hlen, h₈, h₉⟩ := hplain
  obtain ⟨hb, -, hdigits⟩ := dayDigits_spec b
  obtain ⟨d, hvalue, htext⟩ := exists_day (by rw [← List.length_pos_iff]; omega) hlen.le hdigits
  have hday' : dayDigits b = two d := by
    rcases htext with htwo | ⟨hone, -⟩
    · exact htwo
    · rw [hone] at hlen
      cases hlen
  generalize hp : b.drop (dayDigits b).length = p at hb
  have hp₂ : p = b.drop 2 := by rw [← hp, hlen]
  rw [clfHead, hp, hvalue] at hhead
  simp only [Option.ite_none_left_eq_some, Option.some_inj, ne_eq, not_not, Bool.or_eq_true,
    Bool.not_eq_true', not_or, Bool.not_eq_false] at hhead
  obtain ⟨hslash, hname, hslash', ⟨h₅, h₈'⟩, hcolon, rfl⟩ := hhead
  obtain ⟨m, hm, hm', hmonth⟩ := exists_month hname
  have h₆ : isdigit (charAt p 6) = true := by rwa [hp₂, charAt_drop]
  have h₇ : isdigit (charAt p 7) = true := by rwa [hp₂, charAt_drop]
  obtain ⟨y, -, hy, hp₅⟩ := exists_four h₅ h₆ h₇ h₈'
  rw [hy, hmonth] at h hday
  obtain ⟨hread, hlo, hhi, -, -, hpos⟩ := readInRange_of_parseTail h
  dsimp only at hday hlo hhi hpos
  rw [Int.toNat_natCast] at hday
  have hsuffix : p.drop 10 <:+ b := (List.drop_suffix 10 p).trans ⟨dayDigits b, hb.symm⟩
  obtain ⟨hnul', hlast'⟩ := clean_suffix hsuffix hnul hlast
  obtain ⟨clock, hclock'⟩ := exists_clock hnul' hlast' hread hclock
  refine ⟨⟨.clf ((p.drop 1).take 3), ⟨y, m, d, by omega, by omega, by omega, by omega⟩, clock⟩, ?_, ?_⟩
  · exact ⟨(month3_eq_iff hm).mp hmonth, by dsimp only; omega, by dsimp only; omega⟩
  · have hname' : p.drop 1 = (p.drop 1).take 3 ++ 47 :: (four y ++ 58 :: p.drop 10) := by
      have hdrop : (p.drop 1).drop 3 = p.drop 4 := List.drop_drop
      rw [← drop_of_mark hcolon (by decide), ← hp₅, ← drop_of_mark hslash' (by decide), ← hdrop,
        List.take_append_drop]
    have hmark : p = 47 :: p.drop 1 := drop_of_mark (i := 0) hslash (by decide)
    rw [Stamp.text, hclock']
    conv_rhs => rw [hb, hday', hmark, hname']
    show two d ++ 47 :: ((p.drop 1).take 3 ++ 47 :: (four y ++ [58])) ++ p.drop 10 = _
    simp only [List.append_assoc, List.cons_append, List.nil_append]

/-- An RFC3164 string that is accepted without a slip is a stamp. -/
theorem exists_stamp_rfc3164 {head : StampHead} (hplain : PlainDate b .rfc3164)
    (hhead : rfc3164Head b refWall = some head) (h : parseRfc3164 head = some out)
    (hclock : PlainClock head.rest) (hday : head.D ≤ monthLength head.Y head.Mo.toNat) :
    ∃ st : Stamp, st.Fits refWall ∧ st.text = b := by
  obtain ⟨hblank, hblank'⟩ := hplain
  rw [rfc3164Head, Option.ite_none_left_eq_some] at hhead
  obtain ⟨hname, hhead⟩ := hhead
  obtain ⟨m, hm, hm', hmonth⟩ := exists_month hname
  obtain ⟨k, hk⟩ := exists_blanks ((charAt_drop b 3 0).trans hblank)
  obtain ⟨hp, hplen, hpdigits⟩ := dayDigits_spec (dropBlanks (b.drop 3))
  obtain ⟨k', hk'⟩ := exists_blanks hblank'
  dsimp only at hhead
  rw [Option.ite_none_left_eq_some, Option.some_inj, hmonth] at hhead
  obtain ⟨hne, rfl⟩ := hhead
  obtain ⟨d, hvalue, hdigits⟩ := exists_day hne hplen hpdigits
  have hdateText : dropBlanks (b.drop 3) <:+ b :=
    (List.dropWhile_suffix _).trans (List.drop_suffix 3 b)
  generalize dayDigits (dropBlanks (b.drop 3)) = day at *
  generalize (dropBlanks (b.drop 3)).drop day.length = q at *
  rw [hvalue] at h hday
  obtain ⟨hread, hpos⟩ := readInRange_of_parseRfc3164 h
  dsimp only at hday hpos
  rw [Int.toNat_natCast] at hday
  have hclockText : dropBlanks q <:+ dropBlanks (b.drop 3) :=
    (List.dropWhile_suffix _).trans ⟨day, hp.symm⟩
  obtain ⟨hnul', hlast'⟩ := clean_suffix (hclockText.trans hdateText) hnul hlast
  obtain ⟨clock, hclock'⟩ := exists_clock hnul' hlast' hread hclock
  refine ⟨⟨.rfc3164 (b.take 3) k day k', ⟨inferYear refWall m, m, d, hm, hm', by omega, by omega⟩,
    clock⟩, ⟨(month3_eq_iff hm).mp hmonth, rfl, hdigits⟩, ?_⟩
  rw [← hclock'] at hk'
  rw [hk'] at hp
  rw [hp] at hk
  rw [Stamp.text]
  conv_rhs => rw [← List.take_append_drop 3 b, hk]
  simp [Stamp.dateText]

end Stamps

/-- **A string that is accepted without a slip is a stamp.** -/
theorem exists_stamp {s : CStr} {refWall : ℤ} {out : CDouble} (hnul : (0 : UInt8) ∉ trimmed s)
    (hlast : ∀ c ∈ (trimmed s).getLast?, isBlank c = false)
    (h : parseStamp (trimmed s) refWall = some out) (hplain : PlainlyWritten s refWall) :
    ∃ st : Stamp, st.Fits refWall ∧ st.text = trimmed s := by
  obtain ⟨-, hdate, hclock, hday⟩ := hplain
  unfold stampHead at hclock hday
  unfold parseStamp at h
  cases hform : stampForm (trimmed s) with
  | none =>
    rw [hform] at h
    cases h
  | some form =>
    have hplain := hdate form hform
    rw [hform] at h hclock hday
    cases form with
    | iso => exact exists_stamp_iso hnul hlast hform hplain h (hclock _ rfl) (hday _ rfl)
    | errorLog => exact exists_stamp_errorLog hnul hlast hform hplain h (hclock _ rfl) (hday _ rfl)
    | clf =>
      obtain ⟨head, hhead, htail⟩ := Option.bind_eq_some_iff.mp h
      exact exists_stamp_clf hnul hlast hplain hhead htail (hclock _ hhead) (hday _ hhead)
    | rfc3164 =>
      obtain ⟨head, hhead, htail⟩ := Option.bind_eq_some_iff.mp h
      exact exists_stamp_rfc3164 hnul hlast hplain hhead htail (hclock _ hhead) (hday _ hhead)

/-! ## A stamp takes no slip

The converse, by running the parser on the text of a stamp and looking at each place. -/

/-- Zones are plain. -/
theorem plainZone_text {z : ZoneText} : PlainZone z.text := by
  have hsign : ∀ west p, charAt (ZoneText.sign west :: p) 0 = 43 ∨
      charAt (ZoneText.sign west :: p) 0 = 45 := by
    intro west p
    cases west
    · exact Or.inl rfl
    · exact Or.inr rfl
  unfold PlainZone
  cases z with
  | none => decide
  | zulu lower => cases lower <;> decide
  | colon west h mi =>
    rw [ZoneText.text, if_pos (hsign west _)]
    exact Or.inr (Or.inr ⟨rfl, rfl, isdigit_dec _, isdigit_dec _⟩)
  | compact west h mi =>
    rw [ZoneText.text, if_pos (hsign west _)]
    exact Or.inr (Or.inl ⟨rfl, isdigit_dec _, isdigit_dec _⟩)
  | hours west h =>
    rw [ZoneText.text, if_pos (hsign west _)]
    exact Or.inl rfl

/-- Seconds as they are written are plain. -/
theorem plainSeconds_text (n : ℕ) {frac : CStr} (hfrac : ∀ c ∈ frac, isdigit c = true) :
    PlainSeconds (two n ++ fracText frac) := by
  by_cases hnil : frac = []
  · rw [hnil]
    exact ⟨isdigit_dec _, isdigit_dec _, rfl, fun c hc => absurd hc List.not_mem_nil⟩
  · have htext : two n ++ fracText frac = dec (n / 10) :: dec n :: 46 :: frac := by
      rw [fracText, if_neg hnil]
      rfl
    rw [htext]
    exact ⟨isdigit_dec _, isdigit_dec _, (if_neg hnil).symm, hfrac⟩

/-- Clocks are plain. -/
theorem plainClock_text (c : ClockText) : PlainClock c.text := by
  have hsecond := c.second_le
  have hvalue := strtod_two (show c.second < 100 by omega) c.frac_digits
    (endsNumber_zone c.blanks c.zone)
  have hdrop : c.text.drop 6 = two c.second ++ (fracText c.frac ++ c.zoneText) := rfl
  have hsplit : two c.second ++ (fracText c.frac ++ c.zoneText) =
      (two c.second ++ fracText c.frac) ++ c.zoneText := (List.append_assoc _ _ _).symm
  have hlen : 2 + (fracText c.frac).length = (two c.second ++ fracText c.frac).length := by
    rw [List.length_append]
    rfl
  refine ⟨rfl, ?_, ?_⟩
  · rw [hdrop, ClockText.zoneText, hvalue]
    dsimp only
    rw [← ClockText.zoneText, hsplit, hlen, List.take_left]
    exact plainSeconds_text _ c.frac_digits
  · rw [hdrop, ClockText.zoneText, hvalue]
    dsimp only
    rw [← ClockText.zoneText, hsplit, hlen, List.drop_left, dropBlanks_zoneText]
    exact plainZone_text

section Read

variable {st : Stamp} {refWall : ℤ}

/-- The form and the date that a stamp is read for. -/
theorem stampHead_text (hfits : st.Fits refWall) :
    stampHead st.text refWall = some st.head ∧
      ∀ form, stampForm st.text = some form → PlainDate st.text form := by
  have hdigits : ∀ (m₁ m₂ : UInt8) (p : CStr), ∀ i ∈ [1, 2, 3, 5, 6, 8, 9],
      isdigit (charAt (st.year ++ m₁ :: (two st.date.month ++ m₂ :: (two st.date.day ++ p))) i) =
        true := by
    intro m₁ m₂ p i hi
    simp only [List.mem_cons, List.not_mem_nil, or_false] at hi
    rcases hi with rfl | rfl | rfl | rfl | rfl | rfl | rfl <;> exact isdigit_dec _
  cases hlayout : st.layout with
  | iso sep =>
    obtain ⟨hform, -, hhead, -⟩ := stampForm_iso hlayout hfits
    refine ⟨by rw [stampHead, hform]; exact congrArg some hhead, fun form h => ?_⟩
    cases hform.symm.trans h
    rw [Stamp.text_iso hlayout]
    refine ⟨hdigits _ _ _, ?_⟩
    simp [Stamp.year, four, two]
  | errorLog k =>
    obtain ⟨hform, -, hhead⟩ := stampForm_errorLog hlayout hfits
    refine ⟨by rw [stampHead, hform]; exact congrArg some hhead, fun form h => ?_⟩
    cases hform.symm.trans h
    rw [Stamp.text_errorLog hlayout]
    exact ⟨hdigits _ _ _, rfl⟩
  | clf month =>
    obtain ⟨hform, -, hhead⟩ := stampForm_clf hlayout hfits
    refine ⟨by rw [stampHead, hform]; exact hhead, fun form h => ?_⟩
    cases hform.symm.trans h
    rw [Stamp.Fits, hlayout] at hfits
    obtain ⟨a, b, c, rfl, -⟩ := hfits.1.letters
    rw [Stamp.text_clf hlayout]
    refine ⟨?_, isdigit_dec _, isdigit_dec _⟩
    simp [dayDigits, two]
  | rfc3164 month k day k' =>
    obtain ⟨hform, hhead⟩ := stampForm_rfc3164 hlayout hfits
    refine ⟨by rw [stampHead, hform]; exact hhead, fun form h => ?_⟩
    cases hform.symm.trans h
    rw [Stamp.Fits, hlayout] at hfits
    obtain ⟨a, b, c, rfl, -⟩ := hfits.1.letters
    rw [Stamp.text_rfc3164 hlayout]
    have hday_le := st.date.day_le.trans (monthLength_le _ _)
    obtain ⟨hdigits, -, -, hstart⟩ := dayDigits_text (by omega) hfits.2.2
    have hblanks : dropBlanks (([a, b, c] ++ 32 :: (List.replicate k 32 ++
        (day ++ 32 :: (List.replicate k' 32 ++ st.clock.text)))).drop 3) =
          day ++ 32 :: (List.replicate k' 32 ++ st.clock.text) :=
      dropBlanks_append (k + 1) (hstart _)
    refine ⟨rfl, ?_⟩
    rw [hblanks, hdigits, List.drop_left]
    rfl

/-- What a stamp is parsed to. -/
theorem toEpoch_of_parseStamp {out : CDouble} (hfits : st.Fits refWall)
    (h : parseStamp st.text refWall = some out) :
    out = toEpoch st.date.year st.date.month st.date.day st.clock.hour st.clock.minute
      (.num st.clock.seconds) st.clock.zone.minutes := by
  by_cases hdated : st.Dated
  · rw [(parse_dated hdated hfits).2, Stamp.civil, eventTimeFromCivil,
      Option.ite_none_right_eq_some] at h
    exact (Option.some.inj h.2).symm
  · cases hlayout : st.layout with
    | rfc3164 month k day k' =>
      obtain ⟨hform, hhead⟩ := stampForm_rfc3164 hlayout hfits
      rw [parseStamp, hform] at h
      dsimp only at h
      rw [hhead, Option.bind_some, parseRfc3164, Stamp.head, parseHms_clock] at h
      dsimp only at h
      rw [Option.ite_none_left_eq_some, dropBlanks_zoneText, parseOffset_text st.clock.zone_inRange]
        at h
      exact (Option.some.inj h.2).symm
    | _ =>
      rw [Stamp.Dated, hlayout] at hdated
      exact absurd trivial hdated

/-- The civil time of a stamp, by its days from 1970. -/
theorem toEpoch_eq (st : Stamp) :
    toEpoch st.date.year st.date.month st.date.day st.clock.hour st.clock.minute
      (.num st.clock.seconds) st.clock.zone.minutes =
        .num ((civilNumber st.date : ℤ) * 86400 + st.clock.instant) := by
  rw [toEpoch, ClockText.instant, civilNumber, CDouble.addNum, CDouble.addNum]
  congr 1
  push_cast
  ring

end Read

/-! ## Strings -/

theorem mem_dropWhile {p : UInt8 → Bool} {c : UInt8} (hc : p c = false) {l : CStr} (h : c ∈ l) :
    c ∈ l.dropWhile p := by
  rw [← List.takeWhile_append_dropWhile (p := p) (l := l)] at h
  rcases List.mem_append.mp h with h | h
  · have htrue := List.all_eq_true.mp List.all_takeWhile c h
    rw [hc] at htrue
    cases htrue
  · exact h

/-- Trimming leaves a terminator. -/
theorem zero_mem_trim {s : CStr} (h : (0 : UInt8) ∈ s) : (0 : UInt8) ∈ trim s := by
  have hstart := mem_dropWhile (p := isBlank) rfl h
  rw [trim, List.rdropWhile, List.mem_reverse]
  exact mem_dropWhile rfl (List.mem_reverse.mpr hstart)

/-- Without a terminator in it, what the parser looks at is the string between the blanks. -/
theorem trimmed_eq_trim {s : CStr} (h : (0 : UInt8) ∉ s) : trimmed s = trim s := by
  have hself : (s.dropWhile isBlank).takeWhile (· != 0) = s.dropWhile isBlank := by
    refine List.takeWhile_eq_self_iff.mpr fun c hc => bne_iff_ne.mpr ?_
    rintro rfl
    exact h ((List.dropWhile_suffix _).mem hc)
  rw [trimmed, hself, trim]

/-- No string between blanks has a blank or a terminator at its end. -/
theorem trimmed_clean (s : CStr) :
    (0 : UInt8) ∉ trimmed s ∧ ∀ c ∈ (trimmed s).getLast?, isBlank c = false := by
  constructor
  · intro hmem
    have hmem' := (List.rdropWhile_prefix isBlank _).subset hmem
    have hne := List.all_eq_true.mp List.all_takeWhile 0 hmem'
    cases hne
  · intro c hc
    have hnil : trimmed s ≠ [] := by
      intro hnil
      rw [hnil] at hc
      cases hc
    rw [List.getLast?_eq_some_getLast hnil] at hc
    rw [← Option.some.inj hc]
    exact Bool.eq_false_iff.mpr (List.rdropWhile_last_not isBlank _ hnil)

/-- **A stamp takes no slip.** -/
theorem plainlyWritten_of_documented {s : CStr} {refWall : ℤ} {out : CDouble} {st : Stamp}
    (h : Documented s refWall out st) : PlainlyWritten s refWall := by
  obtain ⟨htext, hfits, -⟩ := h
  have hnul : (0 : UInt8) ∉ s := by
    intro hmem
    have hmem' := zero_mem_trim hmem
    rw [htext, Stamp.text, List.mem_append] at hmem'
    exact hmem'.elim (Stamp.dateText_clean hfits).1 st.clock.zero_notMem
  have htrim : trimmed s = st.text := (trimmed_eq_trim hnul).trans htext
  obtain ⟨hhead, hdate⟩ := stampHead_text hfits
  refine ⟨hnul, ?_, ?_, ?_⟩
  · rw [htrim]
    exact hdate
  · intro head hhead'
    rw [htrim, hhead] at hhead'
    rw [← Option.some.inj hhead']
    exact plainClock_text st.clock
  · intro head hhead'
    rw [htrim, hhead] at hhead'
    rw [← Option.some.inj hhead']
    show (st.date.day : ℤ) ≤ monthLength st.date.year st.date.month
    exact_mod_cast st.date.day_le

end LibSigma
