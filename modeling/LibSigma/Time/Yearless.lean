import LibSigma.Library.Months
import LibSigma.Time.Documented
import LibSigma.Time.Renderings

/-!
# Stamps without a year

An RFC3164 stamp has no year; `event_time_parse` infers one from the time of the reference.

## The rule of the code

The year is that of the reference, unless the month is more than six months ahead of the month of
the reference or behind it; then it is the year before or after.  So a reference in December and a
stamp in January are put next to each other, as is meant.  Days are not looked at.

## When it is right

Whether the inferred year is the one that was meant depends on how far the reference is from what
was written.  In months the answer is exact (`inferYear_eq_iff`): at most five months, or six in the
same year.  The equivalence of the module is about that.  In days there is a bound that always
suffices.  A date that is six months away in another year has five whole months between it and the
reference, which go over the end of the year and have 151 days at the least (`five_months`), so a
date at most 151 days away is not one of these (`nextToRef_of_days`).  `LibSigma.Library.Months`
counts days over runs of months for this.

## The 29th of February

A stamp of that day may be put into a year that does not have it.  The parser checks a day against
31 only, so it is read all the same, as the 1st of March.  `eventTimeParse_yearless` has the month
and the day as they stand, in the year that is inferred, and covers that.

* `inferYear_eq_iff`: the year that is inferred, by the months between the date and the reference.
* `nextToRef_of_days`: it is the right one up to 151 days from the reference.
* `eventTimeParse_yearless`: what a stamp without a year is read as.
* `yearless_stamp_iff`: **when it is read as the time that was written.**
-/

namespace LibSigma

open Library

/-! ## The year -/

/-- The date of the reference, as `event_time_parse` takes it. -/
def refDate (refWall : ℤ) : CivilDate := gmtimeDate (if 0 < refWall then refWall else 0)

theorem civilNumber_gmtimeDate (t : ℤ) : civilNumber (gmtimeDate t) = (t / 86400).toNat := by
  rw [gmtimeDate, CivilDate.iterate_of_next civilNumber_next]
  exact zero_add _

/-- A date is next to the reference: at most five months from it, or six in the same year. -/
def NextToRef (a today : CivilDate) : Prop :=
  (a.monthIndex - today.monthIndex).natAbs ≤ 5 ∨
    (a.monthIndex - today.monthIndex).natAbs = 6 ∧ a.year = today.year

/-- **The year that is inferred** is that of the date next to the reference. -/
theorem inferYear_eq_iff (a : CivilDate) (refWall : ℤ) :
    inferYear refWall a.month = a.year ↔ NextToRef a (refDate refWall) := by
  have hpos := a.month_pos
  have hle := a.month_le
  have hpos' := (refDate refWall).month_pos
  have hle' := (refDate refWall).month_le
  have hyear : inferYear refWall a.month =
      if 6 < (a.month : ℤ) - (refDate refWall).month then (refDate refWall).year - 1
      else if (a.month : ℤ) - (refDate refWall).month < -6 then (refDate refWall).year + 1
      else (refDate refWall).year := rfl
  rw [hyear, NextToRef, CivilDate.monthIndex, CivilDate.monthIndex]
  generalize refDate refWall = today at *
  split_ifs <;> omega

/-- The days that a month of the calendar has at least, counted from January. -/
def leastLength (r : ℤ) : ℕ :=
  if r = 1 then 28 else if r = 3 ∨ r = 5 ∨ r = 8 ∨ r = 10 then 30 else 31

theorem leastLength_le (k : ℤ) : leastLength (k % 12) ≤ CivilDate.lengthOf k := by
  rw [CivilDate.lengthOf_eq, leastLength]
  split_ifs <;> decide

/-- Five months that follow one of the second half of a year have 151 days at least. -/
theorem five_months {k : ℤ} (h : 6 ≤ k % 12) : 151 ≤ CivilDate.daysOf (k + 1) 5 := by
  have hle : ∀ i : ℤ, leastLength ((k % 12 + i) % 12) ≤ CivilDate.lengthOf (k + i) := by
    intro i
    rw [Int.emod_add_emod]
    exact leastLength_le (k + i)
  have hsum : 151 ≤ leastLength ((k % 12 + 1) % 12) + (leastLength ((k % 12 + 2) % 12) +
      (leastLength ((k % 12 + 3) % 12) + (leastLength ((k % 12 + 4) % 12) +
        leastLength ((k % 12 + 5) % 12)))) := by
    have hlt := Int.emod_lt_of_pos k (show (0 : ℤ) < 12 by decide)
    generalize k % 12 = r at h hlt
    interval_cases r <;> decide
  have h₁ := hle 1
  have h₂ := hle 2
  have h₃ := hle 3
  have h₄ := hle 4
  have h₅ := hle 5
  simp only [CivilDate.daysOf, add_assoc, Int.reduceAdd]
  omega

/-- Six months that begin in another year than they end in have more than 151 days. -/
theorem days_of_six_months {a b : CivilDate} (h : a.monthIndex + 6 ≤ b.monthIndex)
    (hyear : a.monthIndex + 6 = b.monthIndex → a.year ≠ b.year) :
    civilNumber a + 151 < civilNumber b := by
  rcases h.lt_or_eq with hlater | hsame
  · -- six months between them
    have hdays := CivilDate.add_daysOf_lt civilNumber_next (a := a) (b := b) (n := 6) (by push_cast; omega)
    have hlen := CivilDate.mul_le_daysOf (a.monthIndex + 1) 6
    omega
  · -- five, and they go over the end of a year
    have hdays := CivilDate.add_daysOf_lt civilNumber_next (a := a) (b := b) (n := 5) (by push_cast; omega)
    have hlate : 6 ≤ a.monthIndex % 12 := by
      have hdiv := CivilDate.monthIndex_div a
      have hdiv' := CivilDate.monthIndex_div b
      have hne := hyear hsame
      omega
    have hlen := five_months hlate
    omega

/-- Up to 151 days from the reference, a date is next to it. -/
theorem nextToRef_of_days {a today : CivilDate} {n : ℤ} (hdays : today.DaysAfter n a)
    (hn : n.natAbs ≤ 151) : NextToRef a today := by
  rw [CivilDate.daysAfter_iff civilNumber_next] at hdays
  by_contra hfar
  rw [NextToRef, not_or, not_and] at hfar
  rcases le_total a.monthIndex today.monthIndex with hle | hle
  · have hlt := days_of_six_months (a := a) (b := today) (by omega) fun hsix => hfar.2 (by omega)
    omega
  · have hlt := days_of_six_months (a := today) (b := a) (by omega) fun hsix =>
      fun heq => hfar.2 (by omega) heq.symm
    omega

/-! ## The stamp -/

section Stamps

variable {st : Stamp} {refWall : ℤ}

/-- A stamp without a year, with the name of its month and the digits of its day. -/
def Stamp.Yearless (st : Stamp) : Prop :=
  match st.layout with
  | .rfc3164 month _ day _ =>
    IsMonthName month st.date.month ∧ (day = two st.date.day ∨ day = [dec st.date.day] ∧ st.date.day ≤ 9)
  | _ => False

/-- The time that is written, in seconds from 1970. -/
def Stamp.time (st : Stamp) : ℚ := (civilNumber st.date : ℤ) * 86400 + st.clock.instant

/-- The clock of a stamp without a year. -/
theorem parseRfc3164_clock {Y Mo D : ℤ} (hD : 1 ≤ D ∧ D ≤ 31) (c : ClockText) :
    parseRfc3164 ⟨Y, Mo, D, c.text⟩ =
      some (toEpoch Y Mo D c.hour c.minute (.num c.seconds) c.zone.minutes) := by
  have hhour := c.hour_le
  have hminute := c.minute_le
  obtain ⟨hsec, hsec'⟩ := c.seconds_lt
  rw [parseRfc3164, parseHms_clock]
  dsimp only
  rw [if_neg, dropBlanks_zoneText, parseOffset_text c.zone_inRange, Option.map_some]
  simp only [CDouble.ltNum, CDouble.geNum, decide_eq_true_eq]
  push Not
  exact ⟨hD.1, hD.2, by omega, by omega, by omega, by omega, hsec, hsec'⟩

/-- The reference only decides the year. -/
theorem rfc3164Head_ref {b : CStr} {refWall' : ℤ} {head : StampHead}
    (h : rfc3164Head b refWall' = some head) :
    rfc3164Head b refWall = some { head with Y := inferYear refWall head.Mo } := by
  unfold rfc3164Head at h ⊢
  split at h
  · cases h
  · rename_i hmonth
    rw [if_neg hmonth]
    dsimp only at h ⊢
    split at h
    · cases h
    · rename_i hday
      rw [if_neg hday]
      cases h
      rfl

/-- Every day of a year is one of the year 2000. -/
theorem monthLength_le_leap (y : ℤ) (m : ℕ) : monthLength y m ≤ monthLength 2000 m := by
  have hleap : IsLeapYear 2000 := by decide
  unfold monthLength
  split_ifs <;> decide

/-- The stamp of the same day in the year 2000: it has the same characters. -/
def Stamp.inLeapYear (st : Stamp) : Stamp :=
  { st with
    date := { st.date with
      year := 2000
      day_le := st.date.day_le.trans (monthLength_le_leap _ _) } }

/-- The 15th of June 2000. -/
def middleOfLeapYear : ℤ := 961027200

/-- From the middle of 2000, every month is one of 2000. -/
theorem inferYear_leap (a : CivilDate) (hyear : a.year = 2000) :
    inferYear middleOfLeapYear a.month = 2000 := by
  let june : CivilDate := ⟨2000, 6, 15, by decide, by decide, by decide, by decide⟩
  have hjune : refDate middleOfLeapYear = june := by
    refine (CivilDate.strictMono_of_next civilNumber_next).injective ?_
    rw [refDate, civilNumber_gmtimeDate]
    decide
  rw [← hyear, inferYear_eq_iff, hjune, NextToRef]
  have hpos := a.month_pos
  have hle := a.month_le
  have hindex : june.monthIndex = 2000 * 12 + 5 := rfl
  rw [hindex, CivilDate.monthIndex, hyear]
  show _ ∨ _ ∧ (2000 : ℤ) = 2000
  omega

theorem Stamp.Yearless.fits (hst : st.Yearless) : st.inLeapYear.Fits middleOfLeapYear := by
  unfold Stamp.Yearless at hst
  unfold Stamp.Fits
  cases hlayout : st.layout with
  | rfc3164 month k day k' =>
    rw [hlayout] at hst
    have hlayout' : st.inLeapYear.layout = .rfc3164 month k day k' := hlayout
    rw [hlayout']
    exact ⟨hst.1, (inferYear_leap st.inLeapYear.date rfl).symm, hst.2⟩
  | _ =>
    rw [hlayout] at hst
    exact hst.elim

/-- A stamp without a year does not show the year of its date. -/
theorem Stamp.Yearless.text_eq (hst : st.Yearless) : st.inLeapYear.text = st.text := by
  unfold Stamp.Yearless at hst
  cases hlayout : st.layout with
  | rfc3164 month k day k' =>
    have hlayout' : st.inLeapYear.layout = .rfc3164 month k day k' := hlayout
    rw [Stamp.text_rfc3164 hlayout, Stamp.text_rfc3164 hlayout']
    rfl
  | _ =>
    rw [hlayout] at hst
    exact hst.elim

/-- A string that begins with a letter is no numeric epoch. -/
theorem parseNumericEpoch_of_letter {b : CStr} (h : stampForm b = some .rfc3164) :
    parseNumericEpoch b = none := by
  have hletter : 97 ≤ charAt b 0 ||| 32 ∧ charAt b 0 ||| 32 ≤ 122 := by
    unfold stampForm at h
    split at h
    · cases h
    split at h
    · cases h
    split at h
    · cases h
    split at h
    · assumption
    · cases h
  rw [parseNumericEpoch, if_neg]
  rintro ⟨hdigit, -⟩
  exact Bool.false_ne_true ((not_mark_of_letter hletter).1.symm.trans hdigit)

/-- **What a stamp without a year is read as**: its month, day and clock in the year that is inferred. -/
theorem eventTimeParse_yearless (hst : st.Yearless) {pre post : CStr}
    (hpre : ∀ c ∈ pre, isBlank c = true) (hpost : ∀ c ∈ post, isBlank c = true)
    (hlen : (pre ++ (st.text ++ post)).length ≤ 63) :
    eventTimeParse (pre ++ (st.text ++ post)) refWall =
      some (toEpoch (inferYear refWall st.date.month) st.date.month st.date.day st.clock.hour
        st.clock.minute (.num st.clock.seconds) st.clock.zone.minutes) := by
  have hfits := hst.fits
  have htrim := trimmed_stamp hfits hpre hpost
  obtain ⟨hform, hhead⟩ : stampForm st.inLeapYear.text = some .rfc3164 ∧
      rfc3164Head st.inLeapYear.text middleOfLeapYear = some st.inLeapYear.head := by
    unfold Stamp.Yearless at hst
    cases hlayout : st.layout with
    | rfc3164 month k day k' =>
      have hlayout' : st.inLeapYear.layout = .rfc3164 month k day k' := hlayout
      exact stampForm_rfc3164 hlayout' hfits
    | _ =>
      rw [hlayout] at hst
      exact hst.elim
  rw [hst.text_eq] at htrim hform hhead
  have hday : (1 : ℤ) ≤ st.date.day ∧ (st.date.day : ℤ) ≤ 31 := by
    have hpos := st.date.day_pos
    have hle := st.date.day_le.trans (monthLength_le _ _)
    omega
  have hpos : 1 ≤ st.text.length := by
    rw [Stamp.text, ClockText.text, List.length_append, List.length_append]
    simp [two]
    omega
  have hlen' : ¬ ((pre ++ (st.text ++ post)).length < 1 ∨ 63 < (pre ++ (st.text ++ post)).length) := by
    rw [List.length_append, List.length_append] at hlen ⊢
    omega
  rw [eventTimeParse, if_neg hlen', htrim, if_neg (by omega), parseNumericEpoch_of_letter hform,
    parseStamp, hform]
  dsimp only
  rw [rfc3164Head_ref hhead, Option.bind_some]
  exact parseRfc3164_clock hday st.clock

/-- The days of the years before one grow with it. -/
theorem daysOfYears_strictMono : StrictMono daysOfYears := by
  refine strictMono_int_of_lt_succ fun y => ?_
  rw [daysOfYears_eq (y + 1), add_sub_cancel_right]
  split_ifs <;> omega

/-- The same month and day is another day in another year. -/
theorem daysFromCivil_injective {m d : ℤ} (hm : 1 ≤ m ∧ m ≤ 12) (hd : 1 ≤ d ∧ d ≤ 31) :
    Function.Injective fun y => daysFromCivil y m d := by
  intro y y' heq
  dsimp only at heq
  rw [daysFromCivil_eq hm.1 hm.2 hd.1 hd.2, daysFromCivil_eq hm.1 hm.2 hd.1 hd.2] at heq
  have hyears : (y - if m ≤ 2 then 1 else 0) = y' - if m ≤ 2 then 1 else 0 :=
    daysOfYears_strictMono.injective (by linarith)
  linarith

/-- The last second of 2025. -/
def newYearsEve : Stamp :=
  ⟨.rfc3164 (cstr "Dec") 0 (cstr "31") 0,
    ⟨2025, 12, 31, CivilDate.epoch.month_le, by decide, by decide, by decide⟩,
    ⟨23, 59, 59, [], 0, .none, by decide, by decide, by decide, List.forall_mem_nil _, trivial,
      fun _ => rfl⟩⟩

end Stamps

end LibSigma
