import Mathlib.Data.List.DropRight
import LibSigma.Corr.Rule
import LibSigma.Time.Civil

/-!
# Parsing a log timestamp

`event_time_parse` of `event_time.c`.  A string is its characters before the terminator, a pointer
into it what is left of it.  Characters are signed; `gmtime_r` counts days from the epoch.

## Pointers are suffixes

The code walks a pointer through a buffer that ends in a terminator, and looks ahead by fixed
distances after it has checked a minimal length, or without having checked.  `charAt` answers 0 past
the end of the string.  That is what the code sees at the terminator itself; further on nothing is
promised, and the parser's tests are such that a 0 stops them first.

## Characters are numbers

`p[i] - '0'` is computed for any character, so `digitAt` is an integer that may be negative or
large.  It is not checked in most places.  The consequences are real (a date with letters in it is
accepted) and are the subject of `LibSigma.Time.Documented`, so there is no parser combinator here
that would hide them.

## Forms

The form is decided by a few characters at fixed places, before anything is read (`stampForm`), and
each form reads its own date and hands the clock to one function.  RFC3164 has its own clock check
and no year; the year is inferred from a reference time, which is an input.  A string that begins as
a long number may be an epoch in seconds, and that is tried before the forms.

The seconds of a clock are read by `strtod`, modelled in `LibSigma.Library.Strtod` with an exact
rational result.
-/

namespace LibSigma

open Library

/-! ## Characters -/

/-- `p[i]`: the terminator behind the last character. -/
def charAt (p : CStr) (i : ℕ) : UInt8 := p.getD i 0

/-- `p[i] - '0'`. -/
def digitAt (p : CStr) (i : ℕ) : ℤ := (charAt p i).toInt8.toInt - 48

/-- A number of two characters, whatever they are. -/
def twoAt (p : CStr) (i : ℕ) : ℤ := digitAt p i * 10 + digitAt p (i + 1)

/-- A number of four characters. -/
def fourAt (p : CStr) (i : ℕ) : ℤ :=
  digitAt p i * 1000 + digitAt p (i + 1) * 100 + digitAt p (i + 2) * 10 + digitAt p (i + 3)

/-- The table of `month3`. -/
def monthNames : List CStr :=
  [cstr "jan", cstr "feb", cstr "mar", cstr "apr", cstr "may", cstr "jun", cstr "jul", cstr "aug",
    cstr "sep", cstr "oct", cstr "nov", cstr "dec"]

/-- `month3`. -/
def month3 (s : CStr) : ℤ :=
  match monthNames.findIdx? fun m => (s.take 3).map (· ||| 32) == m with
  | some i => i + 1
  | none => 0

/-- A loop over blanks. -/
def dropBlanks (p : CStr) : CStr := p.dropWhile (· == 32)

/-- The loop over at most two digits of a day. -/
def dayDigits (p : CStr) : CStr := (p.take 2).takeWhile isdigit

/-! ## Clock and offset -/

/-- `parse_offset` behind the sign. -/
def parseOffsetDigits (sign : ℤ) (p : CStr) : Option ℤ :=
  if isdigit (charAt p 0) && isdigit (charAt p 1) then
    let q := if charAt p 2 = 58 then p.drop 3 else p.drop 2
    let om := if isdigit (charAt q 0) && isdigit (charAt q 1) then twoAt q 0 else 0
    if 14 < twoAt p 0 ∨ 59 < om then none else some (sign * (twoAt p 0 * 60 + om))
  else none

/-- `parse_offset`: minutes east of UTC. -/
def parseOffset (p : CStr) : Option ℤ :=
  if charAt p 0 = 0 ∨ charAt p 0 = 90 ∨ charAt p 0 = 122 then some 0
  else if charAt p 0 = 43 then parseOffsetDigits 1 (p.drop 1)
  else if charAt p 0 = 45 then parseOffsetDigits (-1) (p.drop 1)
  else none

/-- What `parse_hms` finds, and where it stops. -/
structure Hms where
  h : ℤ
  mi : ℤ
  se : CDouble
  rest : CStr

/-- `parse_hms`. -/
def parseHms (p : CStr) : Option Hms :=
  if !isdigit (charAt p 0) || !isdigit (charAt p 1) || charAt p 2 != 58 then none
  else if !isdigit (charAt p 3) || !isdigit (charAt p 4) then none
  else if charAt p 5 = 58 then
    let (se, n) := strtod (p.drop 6)
    if n = 0 then none else some ⟨twoAt p 0, twoAt p 3, se, (p.drop 6).drop n⟩
  else some ⟨twoAt p 0, twoAt p 3, .num 0, p.drop 5⟩

/-! ## Dates -/

/-- The date of a stamp, and where its clock begins. -/
structure StampHead where
  Y : ℤ
  Mo : ℤ
  D : ℤ
  rest : CStr

/-- The clock behind a date that must be in range. -/
def parseTail (head : StampHead) : Option CDouble :=
  match parseHms head.rest with
  | none => none
  | some t =>
    if civilOk head.Y head.Mo head.D t.h t.mi t.se then
      (parseOffset (dropBlanks t.rest)).map fun off =>
        toEpoch head.Y head.Mo head.D t.h t.mi t.se off
    else none

/-- The date of an ISO-8601 stamp, and its clock behind the letter. -/
def isoHead (b : CStr) : StampHead := ⟨fourAt b 0, twoAt b 5, twoAt b 8, b.drop 11⟩

/-- ISO-8601 and RFC5424; a date alone is midnight. -/
def parseIso (b : CStr) : Option CDouble :=
  if b.length = 10 then
    if civilOk (isoHead b).Y (isoHead b).Mo (isoHead b).D 0 0 (.num 0) then
      some (toEpoch (isoHead b).Y (isoHead b).Mo (isoHead b).D 0 0 (.num 0) 0)
    else none
  else if charAt b 10 ≠ 84 ∧ charAt b 10 ≠ 116 ∧ charAt b 10 ≠ 32 then none
  else parseTail (isoHead b)

/-- The date of an nginx error_log stamp. -/
def errorLogHead (b : CStr) : StampHead :=
  ⟨fourAt b 0, twoAt b 5, twoAt b 8, dropBlanks (b.drop 10)⟩

/-- The date of a CLF stamp; the middle two characters of the year are not looked at. -/
def clfHead (b : CStr) : Option StampHead :=
  let day := dayDigits b
  let p := b.drop day.length
  if charAt p 0 ≠ 47 then none
  else if month3 (p.drop 1) = 0 then none
  else if charAt p 4 ≠ 47 then none
  else if !isdigit (charAt p 5) || !isdigit (charAt p 8) then none
  else if charAt p 9 ≠ 58 then none
  else some ⟨fourAt p 5, month3 (p.drop 1), numeral 10 day, p.drop 10⟩

/-- `gmtime_r` of a time that is not negative: its date. -/
def gmtimeDate (t : ℤ) : CivilDate := CivilDate.next^[(t / 86400).toNat] CivilDate.epoch

/-- The year of a stamp that has none: the one that puts the month next to the reference. -/
def inferYear (refWall Mo : ℤ) : ℤ :=
  let tm := gmtimeDate (if 0 < refWall then refWall else 0)
  let diff := Mo - tm.month
  if 6 < diff then tm.year - 1 else if diff < -6 then tm.year + 1 else tm.year

/-- The date of an RFC3164 stamp. -/
def rfc3164Head (b : CStr) (refWall : ℤ) : Option StampHead :=
  if month3 b = 0 then none
  else
    let p := dropBlanks (b.drop 3)
    let day := dayDigits p
    if day = [] then none
    else
      some ⟨inferYear refWall (month3 b), month3 b, numeral 10 day,
        dropBlanks (p.drop day.length)⟩

/-- The clock of an RFC3164 stamp has its own range check. -/
def parseRfc3164 (head : StampHead) : Option CDouble :=
  match parseHms head.rest with
  | none => none
  | some t =>
    if head.D < 1 ∨ 31 < head.D ∨ t.h < 0 ∨ 23 < t.h ∨ t.mi < 0 ∨ 59 < t.mi ∨ t.se.ltNum 0 ∨
        t.se.geNum 61 then none
    else
      (parseOffset (dropBlanks t.rest)).map fun off =>
        toEpoch head.Y head.Mo head.D t.h t.mi t.se off

/-! ## Stamps -/

/-- The numeric epoch. -/
def parseNumericEpoch (b : CStr) : Option CDouble :=
  if isdigit (charAt b 0) ∧ 9 ≤ b.length ∧ b.length ≤ 18 ∧ charAt b 4 ≠ 45 ∧ charAt b 4 ≠ 47 ∧
      charAt b 2 ≠ 47 then
    let (v, n) := strtod b
    if n ≠ 0 ∧ (charAt b n = 0 ∨ charAt b n = 32) ∧ v.gtNum 100000000 then some v else none
  else none

/-- The forms that name a day. -/
inductive StampForm where
  | iso
  | errorLog
  | clf
  | rfc3164
  deriving DecidableEq

/-- The form a string is taken for. -/
def stampForm (b : CStr) : Option StampForm :=
  if 10 ≤ b.length ∧ isdigit (charAt b 0) ∧ charAt b 4 = 45 ∧ charAt b 7 = 45 then some .iso
  else if 19 ≤ b.length ∧ isdigit (charAt b 0) ∧ charAt b 4 = 47 ∧ charAt b 7 = 47 then some .errorLog
  else if 20 ≤ b.length ∧ (charAt b 1 = 47 ∨ charAt b 2 = 47) then some .clf
  else if 97 ≤ charAt b 0 ||| 32 ∧ charAt b 0 ||| 32 ≤ 122 then some .rfc3164
  else none

/-- A string that is no numeric epoch. -/
def parseStamp (b : CStr) (refWall : ℤ) : Option CDouble :=
  match stampForm b with
  | some .iso => parseIso b
  | some .errorLog => parseTail (errorLogHead b)
  | some .clf => (clfHead b).bind parseTail
  | some .rfc3164 => (rfc3164Head b refWall).bind parseRfc3164
  | none => none

/-- A blank or a tab. -/
def isBlank (c : UInt8) : Bool := c == 32 || c == 9

/-- The buffer between the blanks around it; it ends at its first terminator. -/
def trimmed (s : CStr) : CStr := ((s.dropWhile isBlank).takeWhile (· != 0)).rdropWhile isBlank

/-- `event_time_parse`. -/
def eventTimeParse (s : CStr) (refWall : ℤ) : Option CDouble :=
  if s.length < 1 ∨ 63 < s.length then none
  else if (trimmed s).length < 1 then none
  else
    match parseNumericEpoch (trimmed s) with
    | some v => some v
    | none => parseStamp (trimmed s) refWall

end LibSigma
