import LibSigma.Corr.Doubles
import LibSigma.Library.Pieces
import LibSigma.Matcher.Db

/-!
# The events of the command line tool

`sigma_cli.c`: each line of the input is an event, a list of pairs `key=value` between tabs.

## Reading

`getline`, `strdup`, `strtok_r` and `strchr` are translated as what they do to bytes. Three details
decide what an event is. `getline` keeps the newline, and the last line may have none. `strdup` ends
at a NUL, so that a line is only what comes before one. And `strtok_r` skips empty tokens. A token
without `=` is no pair, and after 64 pairs the rest of a line is ignored.

`eventsOf_eq` says the same without a loop: an event is the list of the pieces of a line between
tabs, those that have a key and a value.

## Writing

`renderInput` is not in the source. It is how one would write events for the tool, and `CleanPair`
says which pairs can be written. What was written is read back, whatever the number of events, so
that statements about the tool can speak of events instead of bytes.

* `eventsOf`: the events of an input; `eventsOf_eq` says it of lines, tabs and `=`.
* `eventsOf_renderInput`: **what was written as lines of pairs is read back.**
* `evLookup_eq_some_iff`: the first pair with a key counts.
-/

namespace LibSigma

open Library

/-- `'\n'`, `'\t'` and `'='`. -/
def newline : UInt8 := 10
def tab : UInt8 := 9
def equalsSign : UInt8 := 61

/-- `MAX_KV`. -/
def maxKv : ℕ := 64

/-- `event_t`: keys and values. -/
abbrev CliEvent := List (Bytes × Bytes)

/-! ## Lines -/

/-- `getline`: the next line, with its newline, and the rest of the input. -/
def getline (input : Bytes) : Option (Bytes × Bytes) :=
  if input = [] then none
  else
    let n := (input.takeWhile fun b => b ≠ newline).length + 1
    some (input.take n, input.drop n)

theorem length_of_getline {input line rest : Bytes} (h : getline input = some (line, rest)) :
    rest.length < input.length := by
  unfold getline at h
  split_ifs at h with hnil
  obtain ⟨-, rfl⟩ := Prod.mk.inj (Option.some.inj h)
  have hpos := List.length_pos_iff.mpr hnil
  rw [List.length_drop]
  omega

/-- The lines of an input. -/
def readLines (input : Bytes) : List Bytes :=
  match _h : getline input with
  | none => []
  | some (line, rest) => line :: readLines rest
termination_by input.length
decreasing_by exact length_of_getline _h

/-- A line without its newline. -/
def chomp (line : Bytes) : Bytes := if line.getLast? = some newline then line.dropLast else line

/-- What `strdup` copies of a line. -/
def strdup (line : Bytes) : Bytes := line.takeWhile fun b => b ≠ 0

/-! ## Pairs -/

/-- `strtok_r` with a tab: the next token, and the rest. -/
def strtokR (s : Bytes) : Option (Bytes × Bytes) :=
  let s := s.dropWhile fun b => b = tab
  if s = [] then none
  else some (s.takeWhile fun b => b ≠ tab, (s.dropWhile fun b => b ≠ tab).drop 1)

theorem length_of_strtokR {s tok rest : Bytes} (h : strtokR s = some (tok, rest)) :
    rest.length < s.length := by
  unfold strtokR at h
  dsimp only at h
  split_ifs at h with hnil
  obtain ⟨-, rfl⟩ := Prod.mk.inj (Option.some.inj h)
  have hskip : (s.dropWhile fun b => b = tab).length ≤ s.length :=
    (List.dropWhile_sublist _).length_le
  have hpos := List.length_pos_iff.mpr hnil
  generalize s.dropWhile (fun b => decide (b = tab)) = s' at hskip hpos ⊢
  have htail : (s'.dropWhile fun b => b ≠ tab).length ≤ s'.length :=
    (List.dropWhile_sublist _).length_le
  rw [List.length_drop]
  omega

/-- The pair of a token. -/
def keyValue (tok : Bytes) : Option (Bytes × Bytes) :=
  match tok.dropWhile fun b => b ≠ equalsSign with
  | [] => none
  | _ :: v => some (tok.takeWhile fun b => b ≠ equalsSign, v)

/-- The loop of `parse_event`, with the pairs so far. -/
def parseEventFrom (s : Bytes) (kv : CliEvent) : CliEvent :=
  match _h : strtokR s with
  | none => kv
  | some (tok, rest) =>
    if maxKv ≤ kv.length then kv
    else
      match keyValue tok with
      | none => parseEventFrom rest kv
      | some p => parseEventFrom rest (kv ++ [p])
termination_by s.length
decreasing_by all_goals exact length_of_strtokR _h

/-- `parse_event`. -/
def parseEvent (line : Bytes) : CliEvent := parseEventFrom line []

/-- `ev_lookup`. -/
def evLookup (e : CliEvent) (name : Bytes) : Option Bytes :=
  (e.find? fun p => p.1.length == name.length && p.1 == name).map Prod.snd

/-- `corr_lookup`. -/
def corrLookup (e : CliEvent) (name : CStr) : Option CStr :=
  match evLookup e name with
  | none => none
  | some v => if v.length = 0 then none else some v

/-- `event_ts`. -/
def eventTs (fp : Doubles) (e : CliEvent) (ln : ℕ) : ℚ :=
  match evLookup e (cstr "_ts") with
  | some v => if v.length ≠ 0 then (fp.strtod (v.take 63)).getD 0 else ln
  | none => ln

/-- The events of some lines: empty ones are none. -/
def eventsIn (lines : List Bytes) : List CliEvent :=
  ((lines.map chomp).filter fun line => line ≠ []).map fun line => parseEvent (strdup line)

/-- The events of an input. -/
def eventsOf (input : Bytes) : List CliEvent := eventsIn (readLines input)

/-! ## Lines, tabs and `=` -/

/-- One line of the input. -/
theorem pieces_getline {input line rest : Bytes} (h : getline input = some (line, rest)) :
    pieces newline input = (if chomp line ≠ [] then [chomp line] else []) ++ pieces newline rest := by
  unfold getline at h
  split_ifs at h with hnil
  obtain ⟨rfl, rfl⟩ := Prod.mk.inj (Option.some.inj h)
  have hpre : ∀ pre : Bytes, newline ∉ pre →
      pieces newline pre = if pre ≠ [] then [pre] else [] := by
    intro pre hnot
    split_ifs with hne
    · exact pieces_of_not_mem hnot hne
    · rw [not_not.mp hne, pieces_nil]
  have hnot : newline ∉ input.takeWhile fun b => b ≠ newline := fun hmem => by
    simpa using List.mem_takeWhile_imp hmem
  rcases takeWhile_ne_append newline input with ⟨hall, hmem⟩ | hall
  · rw [← hall, List.take_of_length_le (Nat.le_succ _), List.drop_eq_nil_of_le (Nat.le_succ _)]
    have hchomp : chomp input = input := by
      rw [chomp, if_neg fun hlast => hmem (List.mem_of_getLast? hlast)]
    rw [hchomp, pieces_nil, List.append_nil]
    exact hpre input hmem
  · generalize input.takeWhile (fun b => decide (b ≠ newline)) = pre at hall hnot ⊢
    generalize (input.dropWhile fun b => decide (b ≠ newline)).drop 1 = post at hall
    subst hall
    have htake : (pre ++ newline :: post).take (pre.length + 1) = pre ++ [newline] := by
      rw [List.take_append, List.take_of_length_le (Nat.le_succ _), Nat.add_sub_cancel_left]
      rfl
    have hdrop : (pre ++ newline :: post).drop (pre.length + 1) = post := by
      rw [List.drop_append, List.drop_eq_nil_of_le (Nat.le_succ _), Nat.add_sub_cancel_left]
      rfl
    have hchomp : chomp (pre ++ [newline]) = pre := by
      rw [chomp, List.getLast?_concat, if_pos rfl, List.dropLast_concat]
    rw [htake, hdrop, hchomp, pieces_append_cons, hpre pre hnot]

theorem readLines_of_some {input line rest : Bytes} (h : getline input = some (line, rest)) :
    readLines input = line :: readLines rest := by
  rw [readLines]
  split
  · rename_i hnone
    rw [h] at hnone
    cases hnone
  · rename_i hsome
    rw [h] at hsome
    cases hsome
    rfl

/-- **The lines that are not empty** are the pieces between newlines. -/
theorem filter_readLines (input : Bytes) :
    (((readLines input).map chomp).filter fun line => line ≠ []) = pieces newline input := by
  induction input using readLines.induct with
  | case1 input h =>
    have hnil : input = [] := by
      unfold getline at h
      split_ifs at h with hnil
      exact hnil
    rw [hnil, readLines, pieces_nil]
    rfl
  | case2 input line rest h ih =>
    rw [readLines_of_some h, List.map_cons, List.filter_cons, ih, pieces_getline h]
    by_cases hnil : chomp line ≠ []
    · rw [if_pos (by simpa using hnil), if_pos hnil]
      rfl
    · rw [if_neg (by simpa using hnil), if_neg hnil]
      rfl

/-- Tokens are the pieces between tabs. -/
theorem pieces_strtokR (s : Bytes) :
    pieces tab s = (strtokR s).elim [] fun p => p.1 :: pieces tab p.2 := by
  unfold strtokR
  dsimp only
  rw [← pieces_skip]
  cases hs : s.dropWhile fun b => b = tab with
  | nil => exact pieces_nil
  | cons b bs =>
    have hb : b ≠ tab := by
      have hhead := List.head?_dropWhile_not (fun b => decide (b = tab)) s
      rw [hs] at hhead
      simpa using hhead
    rw [if_neg (List.cons_ne_nil _ _), Option.elim_some]
    exact pieces_next hb

/-- **The loop of `parse_event`** takes the pairs of the tokens, while there is room. -/
theorem parseEventFrom_eq (s : Bytes) (kv : CliEvent) (hkv : kv.length ≤ maxKv) :
    parseEventFrom s kv = (kv ++ (pieces tab s).filterMap keyValue).take maxKv := by
  induction s, kv using parseEventFrom.induct with
  | case1 s kv h =>
    rw [parseEventFrom, pieces_strtokR, h, Option.elim_none, List.filterMap_nil, List.append_nil,
      List.take_of_length_le hkv]
  | case2 s kv tok rest h hfull =>
    rw [parseEventFrom, pieces_strtokR, h]
    dsimp only
    rw [if_pos hfull, List.take_append_of_le_length hfull, List.take_of_length_le hkv]
  | case3 s kv tok rest h hfull hnone ih =>
    rw [parseEventFrom, pieces_strtokR, h]
    dsimp only [Option.elim_some]
    rw [if_neg hfull, hnone, List.filterMap_cons_none hnone]
    exact ih hkv
  | case4 s kv tok rest h hfull p hp ih =>
    have hroom : (kv ++ [p]).length ≤ maxKv := by
      rw [List.length_append, List.length_singleton]
      omega
    rw [parseEventFrom, pieces_strtokR, h]
    dsimp only [Option.elim_some]
    rw [if_neg hfull, hp, List.filterMap_cons_some hp]
    refine (ih hroom).trans ?_
    rw [List.append_assoc, List.singleton_append]

/-- **The events of an input, by lines, tabs and `=`.** -/
theorem eventsOf_eq (input : Bytes) : eventsOf input =
    (pieces newline input).map fun line =>
      ((pieces tab (strdup line)).filterMap keyValue).take maxKv := by
  rw [eventsOf, eventsIn, filter_readLines]
  exact List.map_congr_left fun line _ => parseEventFrom_eq _ _ (Nat.zero_le _)

/-! ## Written events -/

/-- A pair as a token, the pairs of an event as a line, and events as an input. -/
def renderPair (p : Bytes × Bytes) : Bytes := p.1 ++ equalsSign :: p.2
def renderEvent (e : CliEvent) : Bytes := [tab].intercalate (e.map renderPair)
def renderInput (es : List CliEvent) : Bytes := es.flatMap fun e => renderEvent e ++ [newline]

/-- A pair that can be written: no byte of it ends a line, a token or a string, and none of its key
is `=`. -/
def CleanPair (p : Bytes × Bytes) : Prop :=
  (∀ b ∈ p.1 ++ p.2, b ≠ 0 ∧ b ≠ tab ∧ b ≠ newline) ∧ equalsSign ∉ p.1

instance (p : Bytes × Bytes) : Decidable (CleanPair p) :=
  decidable_of_iff (((p.1 ++ p.2).all fun b => b != 0 && (b != tab && b != newline)) = true ∧
    p.1.contains equalsSign = false) (by
      rw [CleanPair, List.all_eq_true]
      simp only [Bool.and_eq_true, bne_iff_ne, List.contains_eq_mem, decide_eq_false_iff_not])

theorem CleanPair.plain {p : Bytes × Bytes} (h : CleanPair p) :
    ∀ b ∈ renderPair p, b ≠ 0 ∧ b ≠ tab ∧ b ≠ newline := by
  intro b hb
  rw [renderPair, List.mem_append, List.mem_cons] at hb
  rcases hb with hb | rfl | hb
  · exact h.1 b (List.mem_append_left _ hb)
  · decide
  · exact h.1 b (List.mem_append_right _ hb)

theorem keyValue_renderPair {p : Bytes × Bytes} (h : equalsSign ∉ p.1) :
    keyValue (renderPair p) = some p := by
  have hkey : ∀ b ∈ p.1, decide (b ≠ equalsSign) = true := fun b hb =>
    decide_eq_true fun heq => h (heq ▸ hb)
  rw [keyValue, renderPair, List.dropWhile_append_of_pos hkey, List.takeWhile_append_of_pos hkey]
  rw [List.dropWhile_cons, List.takeWhile_cons, if_neg (by simp), if_neg (by simp),
    List.append_nil]

theorem plain_of_mem_renderEvent {e : CliEvent} (h : ∀ p ∈ e, CleanPair p) :
    ∀ b ∈ renderEvent e, b ≠ 0 ∧ b ≠ newline := by
  intro b hb
  rcases mem_intercalate hb with rfl | ⟨l, hl, hb⟩
  · decide
  · obtain ⟨p, hp, rfl⟩ := List.mem_map.mp hl
    obtain ⟨hzero, -, hline⟩ := (h p hp).plain b hb
    exact ⟨hzero, hline⟩

/-- **An event that was written is read back.** -/
theorem parseEvent_renderEvent {e : CliEvent} (h : ∀ p ∈ e, CleanPair p) (hlen : e.length ≤ maxKv) :
    parseEvent (strdup (renderEvent e)) = e := by
  have hdup : strdup (renderEvent e) = renderEvent e :=
    List.takeWhile_eq_self_iff.mpr fun b hb => decide_eq_true (plain_of_mem_renderEvent h b hb).1
  have hpieces : pieces tab (renderEvent e) = e.map renderPair := by
    refine pieces_intercalate fun l hl => ?_
    obtain ⟨p, hp, rfl⟩ := List.mem_map.mp hl
    exact ⟨fun htab => ((h p hp).plain tab htab).2.1 rfl, by simp [renderPair]⟩
  have hpairs : (e.map renderPair).filterMap keyValue = e := by
    rw [List.filterMap_map]
    refine (List.filterMap_congr fun p hp => ?_).trans List.filterMap_some
    exact keyValue_renderPair (h p hp).2
  rw [hdup, parseEvent, parseEventFrom_eq _ _ (Nat.zero_le _), hpieces, hpairs, List.nil_append,
    List.take_of_length_le hlen]

/-- **What was written as lines of pairs is read back.** -/
theorem eventsOf_renderInput {es : List CliEvent}
    (h : ∀ e ∈ es, e ≠ [] ∧ e.length ≤ maxKv ∧ ∀ p ∈ e, CleanPair p) :
    eventsOf (renderInput es) = es := by
  have hlines : pieces newline (renderInput es) = es.map renderEvent := by
    have hrender : renderInput es = (es.map renderEvent).flatMap fun l => l ++ [newline] := by
      rw [renderInput, List.flatMap_map]
    rw [hrender]
    refine pieces_lines fun l hl => ?_
    obtain ⟨e, he, rfl⟩ := List.mem_map.mp hl
    obtain ⟨hne, -, hclean⟩ := h e he
    refine ⟨fun hmem => (plain_of_mem_renderEvent hclean newline hmem).2 rfl, fun hnil => hne ?_⟩
    -- an event that writes nothing is empty
    have hread := parseEvent_renderEvent hclean (h e he).2.1
    rw [hnil] at hread
    rw [← hread]
    decide +kernel
  rw [eventsOf, eventsIn, filter_readLines, hlines, List.map_map]
  refine (List.map_congr_left fun e he => ?_).trans (List.map_id _)
  exact parseEvent_renderEvent (h e he).2.2 (h e he).2.1

/-! ## Lookups -/

/-- **The first pair with a key counts.** -/
theorem evLookup_eq_some_iff (e : CliEvent) (name v : Bytes) :
    evLookup e name = some v ↔ ∃ before after, e = before ++ (name, v) :: after ∧
      ∀ p ∈ before, p.1 ≠ name := by
  have hkey : ∀ p : Bytes × Bytes, (p.1.length == name.length && p.1 == name) = (p.1 == name) := by
    intro p
    by_cases hp : p.1 = name
    · simp [hp]
    · simp [hp]
  rw [evLookup, Option.map_eq_some_iff]
  simp only [hkey, List.find?_eq_some_iff_append, beq_iff_eq]
  constructor
  · rintro ⟨⟨k, v'⟩, ⟨rfl, before, after, rfl, hbefore⟩, rfl⟩
    exact ⟨before, after, rfl, fun p hp => by simpa using hbefore p hp⟩
  · rintro ⟨before, after, rfl, hbefore⟩
    exact ⟨(name, v), ⟨rfl, before, after, rfl, fun p hp => by simpa using hbefore p hp⟩, rfl⟩

end LibSigma
