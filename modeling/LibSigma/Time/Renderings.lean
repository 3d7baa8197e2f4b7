import LibSigma.Time.Stamp

/-!
# All renderings of one instant

A stamp may stand between blanks, which are trimmed, and none of its own characters with them.

## What agrees

A date, a time of day with a fraction and an offset can be laid out in several of the documented
forms, with month names in any case, offsets with or without a colon, extra blanks where the form
has them.  All of them name one instant.  The theorem says that the parser makes one number of them,
and that it is the number `event_time_from_civil` makes of the components, so the two entry points
of the module agree as well.

## Where it could fail

Each form must reach its own branch, although the branches are told apart by a few characters: a
text of one form must not look like another.  That is `LibSigma.Time.Stamp`, form by form.  Here two
things are added.  No dated form is taken for a number, which is tried first.  And trimming is
harmless: a stamp neither begins nor ends with a blank, and has no terminator in it, so that the
parser sees it whole (`trimmed_stamp`).

Dates are from 1970 to 2100, as the parser turns away what lies outside.  The forms without a year
are apart, in `LibSigma.Time.Yearless`.

* `trimmed_stamp`: the parser looks at the stamp.
* `parse_dated`: the branch of a dated stamp reads its components, and no epoch is read before.
* `renderings_agree`: **all dated forms of one instant are parsed to what `event_time_from_civil`
  makes of it.**
-/

namespace LibSigma

open Library

/-! ## Blanks around a stamp -/

/-- The blanks around a text are trimmed. -/
theorem trimmed_eq {pre t post : CStr} (hpre : ∀ c ∈ pre, isBlank c = true)
    (hpost : ∀ c ∈ post, isBlank c = true) (hnul : (0 : UInt8) ∉ t) (hne : t ≠ [])
    (hhead : ∀ c ∈ t.head?, isBlank c = false) (hlast : ∀ c ∈ t.getLast?, isBlank c = false) :
    trimmed (pre ++ (t ++ post)) = t := by
  have hnul' : ∀ c ∈ t ++ post, (c != 0) = true := by
    intro c hc
    rw [bne_iff_ne]
    rintro rfl
    rcases List.mem_append.mp hc with hc | hc
    · exact hnul hc
    · exact absurd (hpost 0 hc) (by decide)
  have hstart : (t ++ post).dropWhile isBlank = t ++ post := by
    obtain ⟨c, rest, rfl⟩ := List.exists_cons_of_ne_nil hne
    rw [List.cons_append, List.dropWhile_cons_of_neg (Bool.eq_false_iff.mp (hhead c rfl))]
  have hend : (t ++ post).rdropWhile isBlank = t := by
    have hpost' : ∀ c ∈ post.reverse, isBlank c = true :=
      fun c hc => hpost c (List.mem_reverse.mp hc)
    have hrest : t.reverse.dropWhile isBlank = t.reverse := by
      rw [← List.head?_reverse] at hlast
      obtain ⟨c, rest, hrev⟩ := List.exists_cons_of_ne_nil (List.reverse_ne_nil_iff.mpr hne)
      rw [hrev] at hlast ⊢
      exact List.dropWhile_cons_of_neg (Bool.eq_false_iff.mp (hlast c rfl))
    rw [List.rdropWhile, List.reverse_append, List.dropWhile_append_of_pos hpost', hrest,
      List.reverse_reverse]
  rw [trimmed, List.dropWhile_append_of_pos hpre, hstart, List.takeWhile_eq_self_iff.mpr hnul', hend]

section Clean

/-- A character that is neither a terminator nor a blank. -/
def isSolid (c : UInt8) : Bool := c != 0 && !isBlank c

theorem isSolid_digit {c : UInt8} (h : isdigit c = true) : isSolid c = true := by
  obtain ⟨i, rfl⟩ := isdigit_iff.mp h
  revert i
  decide

theorem isSolid_two {n : ℕ} : ∀ c ∈ two n, isSolid c = true := by
  intro c hc
  refine isSolid_digit ?_
  rcases List.mem_pair.mp hc with rfl | rfl
  · exact isdigit_dec _
  · exact isdigit_dec _

theorem isSolid_fracText {frac : CStr} (h : ∀ c ∈ frac, isdigit c = true) :
    ∀ c ∈ fracText frac, isSolid c = true := by
  intro c hc
  rw [fracText] at hc
  split at hc
  · exact absurd hc List.not_mem_nil
  · rcases List.mem_cons.mp hc with rfl | hc
    · rfl
    · exact isSolid_digit (h c hc)

theorem isSolid_zone (z : ZoneText) : ∀ c ∈ z.text, isSolid c = true := by
  have hsign : ∀ west, isSolid (ZoneText.sign west) = true := by decide
  intro c hc
  cases z with
  | none => cases hc
  | zulu lower =>
    rw [List.mem_singleton.mp hc]
    cases lower <;> rfl
  | colon west h mi =>
    rcases List.mem_cons.mp hc with rfl | hc
    · exact hsign west
    rcases List.mem_append.mp hc with hc | hc
    · exact isSolid_two c hc
    rcases List.mem_cons.mp hc with rfl | hc
    · rfl
    · exact isSolid_two c hc
  | compact west h mi =>
    rcases List.mem_cons.mp hc with rfl | hc
    · exact hsign west
    rcases List.mem_append.mp hc with hc | hc
    · exact isSolid_two c hc
    · exact isSolid_two c hc
  | hours west h =>
    rcases List.mem_cons.mp hc with rfl | hc
    · exact hsign west
    · exact isSolid_two c hc

/-- A text ends with what it ends with. -/
theorem isSolid_getLast {as bs : CStr} (hne : bs ≠ []) (hbs : ∀ c ∈ bs, isSolid c = true) :
    ∀ c ∈ (as ++ bs).getLast?, isBlank c = false := by
  intro c hc
  rw [List.getLast?_append, List.getLast?_eq_some_getLast hne, Option.some_or] at hc
  have hsolid := hbs c (Option.some.inj hc ▸ List.getLast_mem hne)
  rw [isSolid, Bool.and_eq_true, Bool.not_eq_true'] at hsolid
  exact hsolid.2

/-- No clock ends with a blank. -/
theorem ClockText.getLast_text (c : ClockText) (as : CStr) :
    ∀ z ∈ (as ++ c.text).getLast?, isBlank z = false := by
  by_cases hzone : c.zone.text = []
  · have hsolid : ∀ z ∈ two c.second ++ fracText c.frac, isSolid z = true := by
      intro z hz
      rcases List.mem_append.mp hz with hz | hz
      · exact isSolid_two z hz
      · exact isSolid_fracText c.frac_digits z hz
    have htext : as ++ c.text = (as ++ (two c.hour ++ 58 :: (two c.minute ++ [58]))) ++
        (two c.second ++ fracText c.frac) := by
      simp [ClockText.text, ClockText.zoneText, hzone, c.blanks_zone hzone]
    rw [htext]
    exact isSolid_getLast (List.cons_ne_nil _ _) hsolid
  · have htext : as ++ c.text = (as ++ (two c.hour ++ 58 :: (two c.minute ++ 58 :: (two c.second ++
        (fracText c.frac ++ List.replicate c.blanks 32))))) ++ c.zone.text := by
      simp [ClockText.text, ClockText.zoneText]
    rw [htext]
    exact isSolid_getLast hzone (isSolid_zone c.zone)

theorem zero_notMem_of_isSolid {p : CStr} (h : ∀ c ∈ p, isSolid c = true) : (0 : UInt8) ∉ p :=
  fun hmem => absurd (h 0 hmem) (by decide)

theorem ClockText.zero_notMem (c : ClockText) : (0 : UInt8) ∉ c.text := by
  have htwo : ∀ n, (0 : UInt8) ∉ two n := fun n => zero_notMem_of_isSolid isSolid_two
  have hfrac := zero_notMem_of_isSolid (isSolid_fracText c.frac_digits)
  have hzone := zero_notMem_of_isSolid (isSolid_zone c.zone)
  simp [ClockText.text, ClockText.zoneText, List.mem_replicate, htwo, hfrac, hzone]

variable {st : Stamp} {refWall : ℤ}

/-- What stands before the clock has no terminator in it and no blank at its start. -/
theorem Stamp.dateText_clean (hfits : st.Fits refWall) :
    (0 : UInt8) ∉ st.dateText ∧ ∃ c p, st.dateText = c :: p ∧ isBlank c = false := by
  have htwo : ∀ n, (0 : UInt8) ∉ two n := fun n => zero_notMem_of_isSolid isSolid_two
  have hyear : (0 : UInt8) ∉ st.year := by
    refine zero_notMem_of_isSolid fun c hc => isSolid_digit ?_
    simp only [Stamp.year, four, List.mem_cons, List.not_mem_nil, or_false] at hc
    rcases hc with rfl | rfl | rfl | rfl <;> exact isdigit_dec _
  have hdec : ∀ n, isBlank (dec n) = false := by
    have hblank : ∀ i, isBlank (digitChar i) = false := by decide
    exact fun n => hblank _
  unfold Stamp.Fits at hfits
  unfold Stamp.dateText
  cases hlayout : st.layout with
  | iso sep =>
    rw [hlayout] at hfits
    have hsep : (0 : UInt8) ≠ sep := by
      rcases hfits.1 with rfl | rfl | rfl <;> decide
    exact ⟨by simp [htwo, hyear, hsep], _, _, rfl, hdec _⟩
  | errorLog k => exact ⟨by simp [htwo, hyear, List.mem_replicate], _, _, rfl, hdec _⟩
  | clf month =>
    rw [hlayout] at hfits
    obtain ⟨a, b, c, rfl, hletters⟩ := hfits.1.letters
    have hmonth : (0 : UInt8) ∉ [a, b, c] := fun hmem =>
      (not_mark_of_letter (hletters 0 hmem)).2.2.2.2.2 rfl
    refine ⟨?_, _, _, rfl, hdec _⟩
    dsimp only
    generalize [a, b, c] = month at *
    simp [htwo, hyear, hmonth]
  | rfc3164 month k day k' =>
    rw [hlayout] at hfits
    obtain ⟨a, b, c, rfl, hletters⟩ := hfits.1.letters
    have hmonth : (0 : UInt8) ∉ [a, b, c] := fun hmem =>
      (not_mark_of_letter (hletters 0 hmem)).2.2.2.2.2 rfl
    have hday : (0 : UInt8) ∉ day := by
      rcases hfits.2.2 with rfl | ⟨rfl, -⟩
      · exact htwo _
      · exact fun hmem => htwo st.date.day (List.mem_cons_of_mem _ hmem)
    obtain ⟨-, -, -, hblank, htab, -⟩ := not_mark_of_letter (hletters a List.mem_cons_self)
    refine ⟨?_, _, _, rfl, ?_⟩
    · dsimp only
      generalize [a, b, c] = month at *
      simp [hday, hmonth, List.mem_replicate]
    · rw [isBlank, beq_eq_false_iff_ne.mpr hblank, beq_eq_false_iff_ne.mpr htab]
      rfl

/-- A stamp between blanks is what the parser looks at. -/
theorem trimmed_stamp (hfits : st.Fits refWall) {pre post : CStr}
    (hpre : ∀ c ∈ pre, isBlank c = true) (hpost : ∀ c ∈ post, isBlank c = true) :
    trimmed (pre ++ (st.text ++ post)) = st.text := by
  obtain ⟨hnul, c, p, hdate, hblank⟩ := Stamp.dateText_clean hfits
  have hclock := st.clock.zero_notMem
  refine trimmed_eq hpre hpost ?_ ?_ ?_ (st.clock.getLast_text st.dateText)
  · rw [Stamp.text, List.mem_append, not_or]
    exact ⟨hnul, hclock⟩
  · rw [Stamp.text, hdate]
    exact List.cons_ne_nil _ _
  · rw [Stamp.text, hdate]
    intro z hz
    rw [← Option.some.inj hz]
    exact hblank

end Clean

/-! ## Agreement -/

section Agreement

variable {st : Stamp} {refWall : ℤ}

/-- The layouts with a year. -/
def Stamp.Dated (st : Stamp) : Prop :=
  match st.layout with
  | .rfc3164 .. => False
  | _ => True

/-- What `event_time_from_civil` makes of the components of a stamp. -/
def Stamp.civil (st : Stamp) : Option CDouble :=
  eventTimeFromCivil st.date.year st.date.month st.date.day st.clock.hour st.clock.minute
    (.num st.clock.seconds) st.clock.zone.minutes

/-- A dated stamp is no numeric epoch, and its branch reads its components. -/
theorem parse_dated (hdated : st.Dated) (hfits : st.Fits refWall) :
    parseNumericEpoch st.text = none ∧ parseStamp st.text refWall = st.civil := by
  have htail : parseTail st.head = st.civil := parseTail_clock _ _ _ _
  cases hlayout : st.layout with
  | iso sep =>
    obtain ⟨hform, hepoch, -, hiso⟩ := stampForm_iso hlayout hfits
    refine ⟨hepoch, ?_⟩
    rw [parseStamp, hform]
    exact hiso.trans htail
  | errorLog k =>
    obtain ⟨hform, hepoch, hhead⟩ := stampForm_errorLog hlayout hfits
    refine ⟨hepoch, ?_⟩
    rw [parseStamp, hform]
    dsimp only
    rw [hhead, htail]
  | clf month =>
    obtain ⟨hform, hepoch, hhead⟩ := stampForm_clf hlayout hfits
    refine ⟨hepoch, ?_⟩
    rw [parseStamp, hform]
    dsimp only
    rw [hhead, Option.bind_some, htail]
  | rfc3164 month k day k' =>
    rw [Stamp.Dated, hlayout] at hdated
    exact hdated.elim

/-- Components in range have a time. -/
theorem Stamp.civil_isSome (hlo : 1970 ≤ st.date.year) (hhi : st.date.year ≤ 2100) :
    st.civil.isSome := by
  have hmonth := st.date.month_pos
  have hmonth' := st.date.month_le
  have hday := st.date.day_pos
  have hday' := st.date.day_le.trans (monthLength_le _ _)
  have hhour := st.clock.hour_le
  have hminute := st.clock.minute_le
  obtain ⟨hsec, hsec'⟩ := st.clock.seconds_lt
  have hok : civilOk st.date.year st.date.month st.date.day st.clock.hour st.clock.minute
      (.num st.clock.seconds) = true := by
    simp only [civilOk, CDouble.geNum, CDouble.ltNum, Bool.and_eq_true, decide_eq_true_eq]
    exact ⟨⟨by omega, hsec⟩, hsec'⟩
  rw [Stamp.civil, eventTimeFromCivil, if_pos hok]
  rfl

/-- **All dated forms of one instant agree**: a date from 1970 to 2100 with a clock, laid out as an
ISO-8601, CLF or error_log stamp and put between blanks, is accepted and gives what
`event_time_from_civil` makes of its components. -/
theorem renderings_agree (hdated : st.Dated) (hfits : st.Fits refWall) (hlo : 1970 ≤ st.date.year)
    (hhi : st.date.year ≤ 2100) {pre post : CStr} (hpre : ∀ c ∈ pre, isBlank c = true)
    (hpost : ∀ c ∈ post, isBlank c = true) (hlen : (pre ++ (st.text ++ post)).length ≤ 63) :
    (eventTimeParse (pre ++ (st.text ++ post)) refWall).isSome ∧
      eventTimeParse (pre ++ (st.text ++ post)) refWall = st.civil := by
  obtain ⟨hepoch, hstamp⟩ := parse_dated hdated hfits
  have htrim := trimmed_stamp hfits hpre hpost
  have hpos : 1 ≤ st.text.length := by
    rw [Stamp.text, ClockText.text, List.length_append, List.length_append]
    simp [two]
    omega
  have hparse : eventTimeParse (pre ++ (st.text ++ post)) refWall = st.civil := by
    have hlen' : ¬ ((pre ++ (st.text ++ post)).length < 1 ∨ 63 < (pre ++ (st.text ++ post)).length) := by
      rw [List.length_append, List.length_append] at hlen ⊢
      omega
    rw [eventTimeParse, if_neg hlen', htrim, if_neg (by omega), hepoch, hstamp]
  exact ⟨hparse ▸ Stamp.civil_isSome hlo hhi, hparse⟩

/-- A stamp of the 20th of August 2026. -/
def augustStamp : Stamp :=
  ⟨.iso 84, ⟨2026, 8, 20, by decide, by decide, by decide, by decide⟩,
    ⟨12, 34, 56, [53], 0, .colon false 2 0, by decide, by decide, by decide,
      List.forall_mem_singleton.mpr rfl, ⟨by decide, by decide⟩, fun _ => rfl⟩⟩

/-- The stamp between a blank and a tab. -/
theorem renderings_agree_sample :
    eventTimeParse (cstr " 2026-08-20T12:34:56.5+02:00" ++ [9]) 0 =
      some (.num (3574444193 / 2)) :=
  (@renderings_agree augustStamp 0 trivial ⟨Or.inl rfl, by decide, by decide⟩ (by decide)
    (by decide) [32] [9] (List.forall_mem_singleton.mpr rfl) (List.forall_mem_singleton.mpr rfl)
    (by decide)).2.trans (by decide +kernel)

end Agreement

end LibSigma
