import Mathlib.Algebra.Order.Field.Basic
import LibSigma.Time.Parse

/-!
# Written stamps

The documented forms of a timestamp as texts: an ISO-8601, CLF, nginx error_log or RFC3164 date and
a clock with its offset.  The parser reads back what is written.

## Texts as data

A form is a structure with everything that may vary in it: the digits of the fraction, the kind of
the offset, the spelling of a month, runs of blanks, one digit or two for a day.  `Stamp.text`
writes the characters.  So "every documented text" is a quantifier over these structures, and what
is read back is compared with their fields.  Numbers are written by their digits, with the ranges as
hypotheses (`Fits`, `InRange`), so that no text outside the documentation is among them.

## Reading back

The order of the lemmas is the order of the parser, last part first: the offset is read behind any
clock, the clock behind any date, then the date of each form.  Each lemma leaves the text that
follows as a variable.  What a clock ends in matters to `strtod`, which would read on through an
exponent or another point, and the lemma for the clock has as a hypothesis what may follow; the
texts of offsets meet it.

* `parseHms_clock`, `parseOffset_text`: the clock and the offset.
* `stampForm_iso`, `stampForm_errorLog`, `stampForm_clf`, `stampForm_rfc3164`: **every form reaches
  its own branch, and the branch its components.**
-/

namespace LibSigma

open Library

/-! ## Digits

Numbers of a fixed width, written and read back.  The parser's arithmetic on characters is right on
digits, and this is the only place where it is used that they are digits. -/

@[simp] theorem charAt_zero (c : UInt8) (p : CStr) : charAt (c :: p) 0 = c := rfl

@[simp] theorem charAt_succ (c : UInt8) (p : CStr) (i : ℕ) :
    charAt (c :: p) (i + 1) = charAt p i := rfl

@[simp] theorem charAt_nil (i : ℕ) : charAt [] i = 0 := rfl

/-- The last digit of a number. -/
def dec (n : ℕ) : UInt8 := digitChar (Fin.ofNat 10 n)

/-- A number of two digits. -/
def two (n : ℕ) : CStr := [dec (n / 10), dec n]

/-- A number of four digits. -/
def four (n : ℕ) : CStr := [dec (n / 1000), dec (n / 100), dec (n / 10), dec n]

@[simp] theorem isdigit_dec (n : ℕ) : isdigit (dec n) = true := isdigit_iff.mpr ⟨_, rfl⟩

theorem digitChar_value : ∀ i : Fin 10, (digitChar i).toInt8.toInt - 48 = (i : ℕ) ∧
    digitValue (digitChar i) = i := by decide

theorem dec_value (n : ℕ) : (dec n).toInt8.toInt - 48 = ((n % 10 : ℕ) : ℤ) :=
  (digitChar_value _).1

theorem twoAt_dec {n : ℕ} (hn : n < 100) (p : CStr) :
    twoAt (dec (n / 10) :: dec n :: p) 0 = n := by
  simp only [twoAt, digitAt, charAt_zero, charAt_succ, dec_value]
  omega

theorem dec_ne_colon (n : ℕ) : dec n ≠ 58 := by
  have hne : ∀ i, digitChar i ≠ 58 := by decide
  exact hne _

theorem fourAt_dec {n : ℕ} (hn : n < 10000) (p : CStr) :
    fourAt (dec (n / 1000) :: dec (n / 100) :: dec (n / 10) :: dec n :: p) 0 = n := by
  simp only [fourAt, digitAt, charAt_zero, charAt_succ, dec_value]
  omega

@[simp] theorem twoAt_succ (c : UInt8) (p : CStr) (i : ℕ) : twoAt (c :: p) (i + 1) = twoAt p i := rfl

@[simp] theorem fourAt_succ (c : UInt8) (p : CStr) (i : ℕ) :
    fourAt (c :: p) (i + 1) = fourAt p i := rfl

theorem numeral_two {n : ℕ} (hn : n < 100) : numeral 10 (two n) = n := by
  have hval : ∀ k, digitValue (dec k) = k % 10 := fun k => (digitChar_value _).2
  show numeral 10 [dec (n / 10), dec n] = n
  simp only [numeral, List.reverse_cons, List.reverse_nil, List.nil_append, List.cons_append,
    List.map_cons, List.map_nil, hval, Nat.ofDigits_cons, Nat.ofDigits_nil]
  omega

/-- Digits are worth less than the next power of ten. -/
theorem numeral_lt {ds : CStr} (hds : ∀ c ∈ ds, isdigit c = true) :
    numeral 10 ds < 10 ^ ds.length := by
  have hlt : ∀ x ∈ ds.reverse.map digitValue, x < 10 := by
    intro x hx
    obtain ⟨c, hc, rfl⟩ := List.mem_map.mp hx
    obtain ⟨i, rfl⟩ := isdigit_iff.mp (hds c (List.mem_reverse.mp hc))
    rw [(digitChar_value i).2]
    exact i.isLt
  have h := Nat.ofDigits_lt_base_pow_length (by decide) hlt
  rwa [List.length_map, List.length_reverse] at h

/-! ## Offsets -/

/-- An offset from UTC as it is written. -/
inductive ZoneText where
  | none
  | zulu (lower : Bool)
  | colon (west : Bool) (h mi : ℕ)
  | compact (west : Bool) (h mi : ℕ)
  | hours (west : Bool) (h : ℕ)

namespace ZoneText

/-- The sign of an offset. -/
def sign (west : Bool) : UInt8 := if west then 45 else 43

/-- The characters of an offset. -/
def text : ZoneText → CStr
  | none => []
  | zulu lower => [if lower then 122 else 90]
  | colon west h mi => sign west :: (two h ++ 58 :: two mi)
  | compact west h mi => sign west :: (two h ++ two mi)
  | hours west h => sign west :: two h

/-- The minutes east of UTC. -/
def minutes : ZoneText → ℤ
  | none => 0
  | zulu _ => 0
  | colon west h mi | compact west h mi => (if west then -1 else 1) * (h * 60 + mi)
  | hours west h => (if west then -1 else 1) * (h * 60)

/-- At most 14:59. -/
def InRange : ZoneText → Prop
  | none => True
  | zulu _ => True
  | colon _ h mi | compact _ h mi => h ≤ 14 ∧ mi ≤ 59
  | hours _ h => h ≤ 14

end ZoneText

/-- The digits of an offset are read back, with or without minutes. -/
theorem parseOffsetDigits_text {h mi : ℕ} (hh : h ≤ 14) (hmi : mi ≤ 59) (sign : ℤ) :
    parseOffsetDigits sign (two h ++ 58 :: two mi) = some (sign * (h * 60 + mi)) ∧
      parseOffsetDigits sign (two h ++ two mi) = some (sign * (h * 60 + mi)) ∧
      parseOffsetDigits sign (two h) = some (sign * (h * 60)) := by
  have hhours : ∀ p, twoAt (dec (h / 10) :: dec h :: p) 0 = h := twoAt_dec (by omega)
  have hminutes : ∀ p, twoAt (dec (mi / 10) :: dec mi :: p) 0 = mi := twoAt_dec (by omega)
  have hle : ¬ (14 : ℤ) < h := by omega
  have hle' : ¬ (59 : ℤ) < mi := by omega
  have hend : isdigit 0 = false := rfl
  refine ⟨?_, ?_, ?_⟩
  · simp [parseOffsetDigits, two, hhours, hminutes, hle, hle']
  · simp [parseOffsetDigits, two, hhours, hminutes, hle, hle', dec_ne_colon]
  · simp [parseOffsetDigits, two, hhours, hle, hend]

/-- An offset is read back. -/
theorem parseOffset_text {z : ZoneText} (h : z.InRange) : parseOffset z.text = some z.minutes := by
  cases z with
  | none => rfl
  | zulu lower => cases lower <;> rfl
  | colon west h mi =>
    obtain ⟨hcolon, -, -⟩ := parseOffsetDigits_text h.1 h.2 (if west then -1 else 1)
    cases west <;> exact hcolon
  | compact west h mi =>
    obtain ⟨-, hcompact, -⟩ := parseOffsetDigits_text h.1 h.2 (if west then -1 else 1)
    cases west <;> exact hcompact
  | hours west h =>
    obtain ⟨-, -, hhours⟩ := parseOffsetDigits_text h (Nat.zero_le 59) (if west then -1 else 1)
    cases west <;> exact hhours

/-! ## Clocks

A clock ends in what is left of its text, and `strtod` decides by itself where the seconds end.  So
the lemma asks that what follows does not continue a number. -/

/-- A time of day with its offset, as it is written. -/
structure ClockText where
  hour : ℕ
  minute : ℕ
  second : ℕ
  frac : CStr
  blanks : ℕ
  zone : ZoneText
  hour_le : hour ≤ 23
  minute_le : minute ≤ 59
  second_le : second ≤ 60
  frac_digits : ∀ c ∈ frac, isdigit c = true
  zone_inRange : zone.InRange
  blanks_zone : zone.text = [] → blanks = 0

namespace ClockText

variable (c : ClockText)

/-- What follows the seconds. -/
def zoneText : CStr := List.replicate c.blanks 32 ++ c.zone.text

/-- The characters of a clock. -/
def text : CStr :=
  two c.hour ++ 58 :: (two c.minute ++ 58 :: (two c.second ++ (fracText c.frac ++ c.zoneText)))

/-- The seconds with their fraction. -/
def seconds : ℚ := c.second + numeral 10 c.frac / 10 ^ c.frac.length

/-- The seconds of the day, in UTC. -/
def instant : ℚ := c.hour * 3600 + c.minute * 60 + c.seconds - c.zone.minutes * 60

end ClockText

/-- What begins an offset. -/
theorem head?_zoneText (z : ZoneText) :
    ∀ c ∈ z.text.head?, c = 90 ∨ c = 122 ∨ c = 43 ∨ c = 45 := by
  intro c hc
  cases z with
  | none => cases hc
  | zulu lower =>
    rw [← Option.some.inj hc]
    cases lower <;> decide
  | colon west h mi | compact west h mi | hours west h =>
    rw [← Option.some.inj hc]
    cases west <;> decide

theorem dropBlanks_append (k : ℕ) {p : CStr} (hp : ∀ c ∈ p.head?, c ≠ 32) :
    dropBlanks (List.replicate k 32 ++ p) = p := by
  have hblanks : ∀ c ∈ List.replicate k (32 : UInt8), (c == 32) = true := by
    intro c hc
    exact beq_iff_eq.mpr (List.eq_of_mem_replicate hc)
  rw [dropBlanks, List.dropWhile_append_of_pos hblanks]
  cases p with
  | nil => rfl
  | cons c p => exact List.dropWhile_cons_of_neg fun heq => hp c rfl (beq_iff_eq.mp heq)

@[simp] theorem dropBlanks_zoneText (c : ClockText) : dropBlanks c.zoneText = c.zone.text := by
  refine dropBlanks_append c.blanks fun z hz => ?_
  rcases head?_zoneText c.zone z hz with rfl | rfl | rfl | rfl <;> decide

/-- Neither blanks nor an offset continue a number. -/
theorem endsNumber_zone (k : ℕ) (z : ZoneText) : EndsNumber (List.replicate k 32 ++ z.text) := by
  intro c hc
  cases k with
  | zero =>
    rw [List.replicate_zero, List.nil_append] at hc
    rcases head?_zoneText z c hc with rfl | rfl | rfl | rfl <;> decide
  | succ k =>
    rw [List.replicate_succ, List.cons_append] at hc
    rw [← Option.some.inj hc]
    decide

/-- `strtod` reads the seconds of a clock. -/
theorem strtod_two {s : ℕ} (hs : s < 100) {frac rest : CStr} (hfrac : ∀ c ∈ frac, isdigit c = true)
    (hrest : EndsNumber rest) :
    strtod (two s ++ (fracText frac ++ rest)) =
      (.num (s + numeral 10 frac / 10 ^ frac.length), 2 + (fracText frac).length) := by
  have hvalue : strtod (two s ++ (fracText frac ++ rest)) =
      (.num (numeral 10 (two s) + numeral 10 frac / 10 ^ frac.length),
        2 + (fracText frac).length) := strtod_decimal _ _ hfrac hrest
  rwa [numeral_two hs] at hvalue

/-- A clock is read up to its offset. -/
theorem parseHms_text {h mi s : ℕ} (hh : h < 100) (hmi : mi < 100) (hs : s < 100) {frac rest : CStr}
    (hfrac : ∀ c ∈ frac, isdigit c = true) (hrest : EndsNumber rest) :
    parseHms (two h ++ 58 :: (two mi ++ 58 :: (two s ++ (fracText frac ++ rest)))) =
      some ⟨h, mi, .num (s + numeral 10 frac / 10 ^ frac.length), rest⟩ := by
  have hhour : ∀ p, twoAt (dec (h / 10) :: dec h :: p) 0 = h := twoAt_dec hh
  have hminute : ∀ p, twoAt (dec (mi / 10) :: dec mi :: p) 0 = mi := twoAt_dec hmi
  have hsecond : strtod (dec (s / 10) :: dec s :: (fracText frac ++ rest)) =
      (.num (s + numeral 10 frac / 10 ^ frac.length), 2 + (fracText frac).length) :=
    strtod_two hs hfrac hrest
  have hdrop : (dec (s / 10) :: dec s :: (fracText frac ++ rest)).drop (2 + (fracText frac).length) =
      rest := by
    rw [Nat.add_comm]
    exact List.drop_left
  have htaken : 2 + (fracText frac).length ≠ 0 := by omega
  rw [parseHms]
  simp only [two, List.cons_append, List.nil_append, charAt_zero, charAt_succ, isdigit_dec,
    Bool.not_true, Bool.or_self, bne_self_eq_false, Bool.false_eq_true, if_false,
    if_true, List.drop_succ_cons, List.drop_zero, twoAt_succ, hsecond, htaken, hdrop, hhour, hminute]

@[simp] theorem parseHms_clock (c : ClockText) :
    parseHms c.text = some ⟨c.hour, c.minute, .num c.seconds, c.zoneText⟩ := by
  have hhour := c.hour_le
  have hminute := c.minute_le
  have hsecond := c.second_le
  exact parseHms_text (by omega) (by omega) (by omega) c.frac_digits (endsNumber_zone _ _)

/-- The seconds of a clock are those of a minute. -/
theorem ClockText.seconds_lt (c : ClockText) : 0 ≤ c.seconds ∧ c.seconds < 61 := by
  have hsecond : (c.second : ℚ) ≤ 60 := by exact_mod_cast c.second_le
  have hpow : (0 : ℚ) < 10 ^ c.frac.length := by positivity
  have hlt : (numeral 10 c.frac : ℚ) < 10 ^ c.frac.length := by
    exact_mod_cast numeral_lt c.frac_digits
  have hfrac : (numeral 10 c.frac : ℚ) / 10 ^ c.frac.length < 1 := (div_lt_one hpow).mpr hlt
  rw [ClockText.seconds]
  exact ⟨add_nonneg (Nat.cast_nonneg _) (div_nonneg (Nat.cast_nonneg _) hpow.le), by linarith⟩

/-- Blanks before a clock are skipped. -/
@[simp] theorem dropBlanks_clock (k : ℕ) (c : ClockText) :
    dropBlanks (List.replicate k 32 ++ c.text) = c.text := by
  refine dropBlanks_append k fun z hz => ?_
  have hne : ∀ i, digitChar i ≠ 32 := by decide
  rw [← Option.some.inj hz]
  exact hne _

/-- The clock behind a date. -/
theorem parseTail_clock (Y Mo D : ℤ) (c : ClockText) :
    parseTail ⟨Y, Mo, D, c.text⟩ =
      eventTimeFromCivil Y Mo D c.hour c.minute (.num c.seconds) c.zone.minutes := by
  rw [parseTail, parseHms_clock, eventTimeFromCivil]
  dsimp only
  rw [dropBlanks_zoneText, parseOffset_text c.zone_inRange, Option.map_some]

/-! ## Months -/

/-- A month in letters of any case. -/
def IsMonthName (name : CStr) (m : ℕ) : Prop := monthNames[m - 1]? = some (name.map (· ||| 32))

instance (name : CStr) (m : ℕ) : Decidable (IsMonthName name m) := inferInstanceAs (Decidable (_ = _))

/-- `month3` looks at three letters. -/
theorem month3_eq_iff {s : CStr} {m : ℕ} (hm : 1 ≤ m) :
    month3 s = m ↔ IsMonthName (s.take 3) m := by
  rw [month3, IsMonthName]
  cases hfind : monthNames.findIdx? fun name => (s.take 3).map (· ||| 32) == name with
  | none =>
    dsimp only
    refine iff_of_false (by omega) fun hname => ?_
    have hne := List.findIdx?_eq_none_iff.mp hfind _ (List.mem_of_getElem? hname)
    exact beq_eq_false_iff_ne.mp hne rfl
  | some i =>
    obtain ⟨hi, heq, -⟩ := List.findIdx?_eq_some_iff_getElem.mp hfind
    have hnodup : monthNames.Nodup := by decide
    have hinj : monthNames[i]? = monthNames[m - 1]? ↔ i = m - 1 := List.getElem?_inj hi hnodup
    rw [List.getElem?_eq_getElem hi, ← beq_iff_eq.mp heq, eq_comm] at hinj
    dsimp only
    rw [hinj]
    omega

/-- The letters of a month. -/
theorem IsMonthName.letters {name : CStr} {m : ℕ} (h : IsMonthName name m) :
    ∃ a b c, name = [a, b, c] ∧ ∀ x ∈ name, 97 ≤ x ||| 32 ∧ x ||| 32 ≤ 122 := by
  have hmem := List.mem_of_getElem? h
  have hlength : ∀ n ∈ monthNames, n.length = 3 := by decide
  have htable : (monthNames.all fun n => n.all fun x => decide (97 ≤ x) && decide (x ≤ 122)) = true :=
    rfl
  have hletters : ∀ n ∈ monthNames, ∀ x ∈ n, 97 ≤ x ∧ x ≤ 122 := by
    simpa only [List.all_eq_true, Bool.and_eq_true, decide_eq_true_eq] using htable
  have hthree := hlength _ hmem
  rw [List.length_map] at hthree
  obtain ⟨a, b, c, rfl⟩ := List.length_eq_three.mp hthree
  exact ⟨a, b, c, rfl, fun x hx => hletters _ hmem _ (List.mem_map_of_mem hx)⟩

/-- A letter is neither a digit nor a mark between numbers. -/
theorem not_mark_of_letter {c : UInt8} (h : 97 ≤ c ||| 32 ∧ c ||| 32 ≤ 122) :
    isdigit c = false ∧ c ≠ 45 ∧ c ≠ 47 ∧ c ≠ 32 ∧ c ≠ 9 ∧ c ≠ 0 := by
  refine ⟨?_, ?_, ?_, ?_, ?_, ?_⟩
  · by_contra hdigit
    obtain ⟨i, rfl⟩ := isdigit_iff.mp (Bool.not_eq_false _ ▸ hdigit)
    revert h
    revert i
    decide
  all_goals
    rintro rfl
    revert h
    decide

/-! ## Stamps -/

/-- How a date is laid out: with what is between it and the clock, the spelling of its month, the
runs of blanks beyond the first, and the digits of a day. -/
inductive DateLayout where
  | iso (sep : UInt8)
  | errorLog (blanks : ℕ)
  | clf (month : CStr)
  | rfc3164 (month : CStr) (blanks : ℕ) (day : CStr) (blanks' : ℕ)

/-- A date and a clock in one of the documented forms. -/
structure Stamp where
  layout : DateLayout
  date : CivilDate
  clock : ClockText

namespace Stamp

variable (st : Stamp)

/-- The digits of the year. -/
def year : CStr := four st.date.year.toNat

/-- What stands before the clock. -/
def dateText : CStr :=
  match st.layout with
  | .iso sep => st.year ++ 45 :: (two st.date.month ++ 45 :: (two st.date.day ++ [sep]))
  | .errorLog k =>
    st.year ++ 47 :: (two st.date.month ++ 47 :: (two st.date.day ++ 32 :: List.replicate k 32))
  | .clf month => two st.date.day ++ 47 :: (month ++ 47 :: (st.year ++ [58]))
  | .rfc3164 month k day k' =>
    month ++ 32 :: (List.replicate k 32 ++ (day ++ 32 :: List.replicate k' 32))

/-- The characters of a stamp. -/
def text : CStr := st.dateText ++ st.clock.text

/-- The layout is right for the date: years have four digits, but for a stamp without year, which
has the one next to the reference. -/
def Fits (refWall : ℤ) : Prop :=
  match st.layout with
  | .iso sep => (sep = 84 ∨ sep = 116 ∨ sep = 32) ∧ 0 ≤ st.date.year ∧ st.date.year ≤ 9999
  | .errorLog _ => 0 ≤ st.date.year ∧ st.date.year ≤ 9999
  | .clf month => IsMonthName month st.date.month ∧ 0 ≤ st.date.year ∧ st.date.year ≤ 9999
  | .rfc3164 month _ day _ =>
    IsMonthName month st.date.month ∧ st.date.year = inferYear refWall st.date.month ∧
      (day = two st.date.day ∨ day = [dec st.date.day] ∧ st.date.day ≤ 9)

/-- What the parser takes from a stamp before its clock. -/
def head : StampHead := ⟨st.date.year, st.date.month, st.date.day, st.clock.text⟩

end Stamp

section Read

variable {st : Stamp} {refWall : ℤ}

/-- What is read at the start of the digits of a date. -/
theorem Stamp.read_date (st : Stamp) (hlo : 0 ≤ st.date.year) (hhi : st.date.year ≤ 9999) :
    (∀ p, fourAt (st.year ++ p) 0 = st.date.year) ∧
      (∀ p, twoAt (two st.date.month ++ p) 0 = st.date.month) ∧
      ∀ p, twoAt (two st.date.day ++ p) 0 = st.date.day := by
  have hmonth := st.date.month_le
  have hday := st.date.day_le.trans (monthLength_le _ _)
  refine ⟨fun p => ?_, twoAt_dec (by omega), twoAt_dec (by omega)⟩
  rw [Stamp.year]
  refine (fourAt_dec (by omega) p).trans ?_
  omega

/-! ## Branches

The form of a text is decided by characters at fixed places before anything is read, and the four
forms must not be taken for each other.  For each form the characters at these places are computed,
which determines the branch, and then the branch reads the components. -/

theorem Stamp.text_iso {sep : UInt8} (hlayout : st.layout = .iso sep) :
    st.text = st.year ++ 45 :: (two st.date.month ++ 45 :: (two st.date.day ++
      sep :: st.clock.text)) := by
  simp [Stamp.text, Stamp.dateText, hlayout]

theorem Stamp.text_errorLog {k : ℕ} (hlayout : st.layout = .errorLog k) :
    st.text = st.year ++ 47 :: (two st.date.month ++ 47 :: (two st.date.day ++
      32 :: (List.replicate k 32 ++ st.clock.text))) := by
  simp [Stamp.text, Stamp.dateText, hlayout]

theorem Stamp.text_clf {month : CStr} (hlayout : st.layout = .clf month) :
    st.text = two st.date.day ++ 47 :: (month ++ 47 :: (st.year ++ 58 :: st.clock.text)) := by
  simp [Stamp.text, Stamp.dateText, hlayout]

theorem Stamp.text_rfc3164 {month day : CStr} {k k' : ℕ}
    (hlayout : st.layout = .rfc3164 month k day k') :
    st.text = month ++ 32 :: (List.replicate k 32 ++
      (day ++ 32 :: (List.replicate k' 32 ++ st.clock.text))) := by
  simp [Stamp.text, Stamp.dateText, hlayout]

/-- An ISO-8601 stamp is read by its branch. -/
theorem stampForm_iso {sep : UInt8} (hlayout : st.layout = .iso sep) (hfits : st.Fits refWall) :
    stampForm st.text = some .iso ∧ parseNumericEpoch st.text = none ∧
      isoHead st.text = st.head ∧ parseIso st.text = parseTail st.head := by
  rw [Stamp.Fits, hlayout] at hfits
  obtain ⟨hsep, hlo, hhi⟩ := hfits
  obtain ⟨hyear, hmonth, hday⟩ := st.read_date hlo hhi
  have htext := Stamp.text_iso hlayout
  have hhead : isoHead st.text = st.head := by
    rw [htext, isoHead, Stamp.head, hyear]
    congr 1
    · exact hmonth (45 :: (two st.date.day ++ sep :: st.clock.text))
    · exact hday (sep :: st.clock.text)
  have hlength : st.text.length ≠ 10 ∧ 10 ≤ st.text.length := by
    simp [htext, Stamp.year, four, two]
  have hchar : charAt st.text 10 = sep := by
    rw [htext]
    rfl
  refine ⟨?_, ?_, hhead, ?_⟩
  · rw [stampForm, if_pos]
    rw [htext] at hlength ⊢
    exact ⟨hlength.2, isdigit_dec _, rfl, rfl⟩
  · rw [parseNumericEpoch, if_neg]
    rw [htext]
    rintro ⟨-, -, -, hdash, -⟩
    exact hdash rfl
  · have hsep' : ¬ (sep ≠ 84 ∧ sep ≠ 116 ∧ sep ≠ 32) := by tauto
    rw [parseIso, if_neg hlength.1, hchar, if_neg hsep', hhead]

/-- An error_log stamp is read by its branch. -/
theorem stampForm_errorLog {k : ℕ} (hlayout : st.layout = .errorLog k) (hfits : st.Fits refWall) :
    stampForm st.text = some .errorLog ∧ parseNumericEpoch st.text = none ∧
      errorLogHead st.text = st.head := by
  rw [Stamp.Fits, hlayout] at hfits
  obtain ⟨hlo, hhi⟩ := hfits
  obtain ⟨hyear, hmonth, hday⟩ := st.read_date hlo hhi
  rw [Stamp.text_errorLog hlayout]
  refine ⟨?_, ?_, ?_⟩
  · rw [stampForm, if_neg, if_pos]
    · refine ⟨?_, isdigit_dec _, rfl, rfl⟩
      simp [Stamp.year, four, two, ClockText.text]
      omega
    · have hslash : (47 : UInt8) ≠ 45 := by decide
      rintro ⟨-, -, hdash, -⟩
      exact hslash hdash
  · rw [parseNumericEpoch, if_neg]
    rintro ⟨-, -, -, -, hslash, -⟩
    exact hslash rfl
  · rw [errorLogHead, Stamp.head, hyear]
    congr 1
    · exact hmonth (47 :: (two st.date.day ++ 32 :: (List.replicate k 32 ++ st.clock.text)))
    · exact hday (32 :: (List.replicate k 32 ++ st.clock.text))
    · exact dropBlanks_clock (k + 1) st.clock

/-- A CLF stamp is read by its branch. -/
theorem stampForm_clf {month : CStr} (hlayout : st.layout = .clf month) (hfits : st.Fits refWall) :
    stampForm st.text = some .clf ∧ parseNumericEpoch st.text = none ∧
      clfHead st.text = some st.head := by
  rw [Stamp.Fits, hlayout] at hfits
  obtain ⟨hname, hlo, hhi⟩ := hfits
  obtain ⟨hyear, hmonth, hday⟩ := st.read_date hlo hhi
  obtain ⟨a, b, c, rfl, hletters⟩ := hname.letters
  have hmark := not_mark_of_letter (hletters b (by simp))
  rw [Stamp.text_clf hlayout]
  refine ⟨?_, ?_, ?_⟩
  · rw [stampForm, if_neg, if_neg, if_pos]
    · refine ⟨?_, Or.inr rfl⟩
      simp [Stamp.year, four, two, ClockText.text]
    · rintro ⟨-, -, hslash, -⟩
      exact hmark.2.2.1 hslash
    · rintro ⟨-, -, hdash, -⟩
      exact hmark.2.1 hdash
  · rw [parseNumericEpoch, if_neg]
    rintro ⟨-, -, -, -, -, hslash⟩
    exact hslash rfl
  · have hdigits : dayDigits (two st.date.day ++ 47 :: ([a, b, c] ++ 47 ::
        (st.year ++ 58 :: st.clock.text))) = two st.date.day := by
      simp [dayDigits, two]
    have hdrop : (two st.date.day ++ 47 :: ([a, b, c] ++ 47 :: (st.year ++ 58 :: st.clock.text))).drop
        (two st.date.day).length = 47 :: ([a, b, c] ++ 47 :: (st.year ++ 58 :: st.clock.text)) := rfl
    have hmonth3 : month3 ([a, b, c] ++ 47 :: (st.year ++ 58 :: st.clock.text)) = st.date.month :=
      (month3_eq_iff st.date.month_pos).mpr hname
    have hmonth_pos := st.date.month_pos
    have hday_le := st.date.day_le.trans (monthLength_le _ _)
    have hfirst : isdigit (charAt (st.year ++ 58 :: st.clock.text) 0) = true := isdigit_dec _
    have hlast : isdigit (charAt (st.year ++ 58 :: st.clock.text) 3) = true := isdigit_dec _
    have hcolon : charAt (st.year ++ 58 :: st.clock.text) 4 = 58 := rfl
    rw [clfHead, hdigits, hdrop]
    simp only [List.drop_succ_cons, List.drop_zero, charAt_zero, charAt_succ, List.cons_append,
      List.nil_append, fourAt_succ, hyear, hfirst, hlast] at hmonth3 ⊢
    rw [if_neg (not_not_intro rfl), hmonth3, if_neg (by omega), if_neg (not_not_intro rfl),
      if_neg (by decide), if_neg (not_not_intro hcolon), numeral_two (by omega)]
    rfl

/-- The digits of a day, with or without a leading zero. -/
theorem dayDigits_text {day : CStr} {d : ℕ} (hd : d < 100)
    (h : day = two d ∨ day = [dec d] ∧ d ≤ 9) :
    (∀ p, dayDigits (day ++ 32 :: p) = day) ∧ numeral 10 day = d ∧ day ≠ [] ∧
      ∀ p, ∀ z ∈ (day ++ p).head?, z ≠ 32 := by
  have hne : ∀ i, digitChar i ≠ 32 := by decide
  rcases h with rfl | ⟨rfl, hd'⟩
  · refine ⟨fun p => by simp [dayDigits, two], numeral_two hd, List.cons_ne_nil _ _, ?_⟩
    rintro p z hz
    rw [← Option.some.inj hz]
    exact hne _
  · have hblank : isdigit 32 = false := rfl
    have hvalue : digitValue (dec d) = d % 10 := (digitChar_value _).2
    refine ⟨fun p => by simp [dayDigits, hblank], ?_, List.cons_ne_nil _ _, ?_⟩
    · rw [numeral, List.reverse_singleton, List.map_singleton, hvalue, Nat.ofDigits_singleton]
      omega
    · rintro p z hz
      rw [← Option.some.inj hz]
      exact hne _

/-- An RFC3164 stamp is read by its branch. -/
theorem stampForm_rfc3164 {month day : CStr} {k k' : ℕ}
    (hlayout : st.layout = .rfc3164 month k day k') (hfits : st.Fits refWall) :
    stampForm st.text = some .rfc3164 ∧ rfc3164Head st.text refWall = some st.head := by
  rw [Stamp.Fits, hlayout] at hfits
  obtain ⟨hname, hyear, hday⟩ := hfits
  obtain ⟨a, b, c, rfl, hletters⟩ := hname.letters
  have ha := hletters a (by simp)
  have hmark := not_mark_of_letter ha
  have hmark' := not_mark_of_letter (hletters b (by simp))
  have hmark'' := not_mark_of_letter (hletters c (by simp))
  rw [Stamp.text_rfc3164 hlayout]
  constructor
  · rw [stampForm, if_neg, if_neg, if_neg, if_pos]
    · exact ha
    · rintro ⟨-, hslash | hslash⟩
      · exact hmark'.2.2.1 hslash
      · exact hmark''.2.2.1 hslash
    · rintro ⟨-, hdigit, -⟩
      exact Bool.false_ne_true (hmark.1.symm.trans hdigit)
    · rintro ⟨-, hdigit, -⟩
      exact Bool.false_ne_true (hmark.1.symm.trans hdigit)
  · have hday_le := st.date.day_le.trans (monthLength_le _ _)
    have hmonth_pos := st.date.month_pos
    obtain ⟨hdigits, hvalue, hne, hhead⟩ := dayDigits_text (by omega) hday
    have hmonth3 : month3 ([a, b, c] ++ 32 :: (List.replicate k 32 ++
        (day ++ 32 :: (List.replicate k' 32 ++ st.clock.text)))) = st.date.month :=
      (month3_eq_iff hmonth_pos).mpr hname
    have hblanks : dropBlanks (([a, b, c] ++ 32 :: (List.replicate k 32 ++
        (day ++ 32 :: (List.replicate k' 32 ++ st.clock.text)))).drop 3) =
          day ++ 32 :: (List.replicate k' 32 ++ st.clock.text) :=
      dropBlanks_append (k + 1) (hhead _)
    have hclock : dropBlanks (32 :: (List.replicate k' 32 ++ st.clock.text)) = st.clock.text :=
      dropBlanks_clock (k' + 1) st.clock
    rw [rfc3164Head, hmonth3, if_neg (by omega), hblanks]
    dsimp only
    rw [hdigits, if_neg hne, List.drop_left, hclock, hvalue, ← hyear]
    rfl

end Read

end LibSigma
