import LibSigma.Corr.Artifact
import LibSigma.Corr.Life

/-!
# The window of a loaded rule

`parse_one` narrows the window of a correlation from 64 bits to 32, `rule_valid` looks at its sign.

A window that is too large is clamped to the largest there is, as the comment on it says. A window
that is not positive is narrowed by a cast and left to `rule_valid`, which rejects it by its sign.
Down to -2^31 the cast changes nothing. Below, it keeps the low 32 bits, and these can be any
window, also a positive one.

The statement speaks of the engine that is made of a file, and of the rule of one object among the
others. Whether it is admitted depends on more than its window, and all that must be kept apart:
`CorrRule.ValidForSome` is the part of `rule_valid` that does not look at the window,
`CorrRule.BucketsFit` the one that needs it to be long enough for the buckets of a beacon.

* `admitted_window_iff`: what admission asks of the window alone.
* `engineRules_eq`: the rules an engine runs are those of the objects of its file, in their order.
* `timespan_window_iff`: **the engine runs a rule with the window of its file, or not at all for a
  window that is not positive, exactly if the low 32 bits of a very negative one are no window.**
-/

namespace LibSigma

open Library

/-! ## Admission -/

/-- Some window makes the rule valid. -/
def CorrRule.ValidForSome (r : CorrRule) : Prop :=
  ∃ w : ℤ, ({ r with timespanS := w } : CorrRule).admitted = true

/-- A window has a second for each bucket of a beaconing rule. -/
def CorrRule.BucketsFit (r : CorrRule) (w : ℤ) : Prop :=
  r.type = some .beaconing → r.beaconNBuckets ≤ w

instance (r : CorrRule) (w : ℤ) : Decidable (r.BucketsFit w) :=
  inferInstanceAs (Decidable (_ → _))

/-- What a beaconing rule needs of its window. -/
theorem beaconingOk_window {r : CorrRule} {w₀ w : ℤ} (hpos : 0 < w)
    (h : ({ r with timespanS := w₀ } : CorrRule).beaconingOk = true) :
    ({ r with timespanS := w } : CorrRule).beaconingOk = true ↔ r.beaconNBuckets ≤ w := by
  simp only [CorrRule.beaconingOk, Bool.and_eq_true, Bool.not_eq_true', Bool.or_eq_false_iff,
    Bool.and_eq_false_iff, decide_eq_false_iff_not] at h ⊢
  omega

/-- **What admission asks of the window alone.** -/
theorem admitted_window_iff {r : CorrRule} (hvalid : r.ValidForSome) (w : ℤ) :
    ({ r with timespanS := w } : CorrRule).admitted = true ↔ 0 < w ∧ r.BucketsFit w := by
  obtain ⟨w₀, h₀⟩ := hvalid
  unfold CorrRule.admitted ruleValid at h₀ ⊢
  unfold CorrRule.BucketsFit
  cases htype : r.type with
  | none => simp [htype] at h₀
  | some type =>
    simp only [htype, Bool.and_eq_true, decide_eq_true_eq, Bool.or_eq_true, bne_iff_ne, ne_eq,
      Option.some_inj] at h₀ ⊢
    obtain ⟨harity, hid, ⟨⟨⟨⟨⟨hbase, -⟩, hgroup⟩, halias⟩, hfield⟩, hpercentile⟩, hbeacon⟩ := h₀
    constructor
    · rintro ⟨-, -, ⟨⟨⟨⟨⟨-, hpos⟩, -⟩, -⟩, -⟩, -⟩, hok⟩
      refine ⟨hpos, fun hbeaconing => ?_⟩
      have hok₀ := hbeacon.resolve_left (not_not_intro hbeaconing)
      exact (beaconingOk_window hpos hok₀).mp (hok.resolve_left (not_not_intro hbeaconing))
    · rintro ⟨hpos, hfit⟩
      refine ⟨harity, hid, ⟨⟨⟨⟨⟨hbase, hpos⟩, hgroup⟩, halias⟩, hfield⟩, hpercentile⟩, ?_⟩
      rcases hbeacon with hother | hok₀
      · exact Or.inl hother
      · by_cases hbeaconing : type = .beaconing
        · exact Or.inr ((beaconingOk_window hpos hok₀).mpr (hfit hbeaconing))
        · exact Or.inl hbeaconing

/-! ## From the file to the engine -/

section Load

variable (lib : JsonLib)

/-- The rule of an element of the correlations, if it has one. -/
def elementRule : Json → Option CorrRule
  | .obj ms => (parseOne lib (.obj ms) ⟨0, 0, 0, 0⟩).1
  | _ => none

/-- The rules that some elements bring into an engine. -/
def loadedRules (elems : List Json) : List CorrRule :=
  (elems.filterMap (elementRule lib)).filter CorrRule.admitted

/-- The rules of an engine that is made of a file: `corr_artifact_parse`, then `corr_engine_new`. -/
def engineRules (caps : CorrCaps) (root : Json) : Option (List CorrRule) :=
  (corrArtifactParse lib root).map fun p => (corrEngineNew p.1 caps).states.map CorrState.rule

variable {lib}

/-- The counters do not matter for a rule. -/
theorem parseOne_fst (c : Json) (ls : CorrLoadStats) :
    (parseOne lib c ls).1 = (parseOne lib c ⟨0, 0, 0, 0⟩).1 := rfl

theorem parseElement_fst (acc : List CorrRule × CorrLoadStats) (c : Json) :
    (parseElement lib acc c).1 = acc.1 ++ (elementRule lib c).toList := by
  cases c with
  | obj ms =>
    rw [elementRule, ← parseOne_fst _ acc.2, parseElement]
    rcases parseOne lib (.obj ms) acc.2 with ⟨_ | r, ls⟩
    · exact (List.append_nil _).symm
    · rfl
  | _ => exact (List.append_nil _).symm

theorem foldl_parseElement_fst (elems : List Json) (acc : List CorrRule × CorrLoadStats) :
    (elems.foldl (parseElement lib) acc).1 = acc.1 ++ elems.filterMap (elementRule lib) := by
  induction elems generalizing acc with
  | nil => exact (List.append_nil _).symm
  | cons c elems ih =>
    rw [List.foldl_cons, ih, parseElement_fst, List.append_assoc, List.filterMap_cons]
    cases elementRule lib c with
    | none => rfl
    | some r => rfl

/-- The rules an engine runs are those of the objects of its file. -/
theorem engineRules_eq {caps : CorrCaps} {root : Json} (h : (corrArtifactParse lib root).isSome) :
    engineRules lib caps root = some (loadedRules lib (jarr root (cstr "correlations"))) := by
  obtain ⟨p, hp⟩ := Option.isSome_iff_exists.mp h
  have hrules : p.1 = (jarr root (cstr "correlations")).filterMap (elementRule lib) := by
    unfold corrArtifactParse at hp
    split at hp
    · split at hp
      · split at hp
        · cases hp
        · split at hp
          · rename_i elems helems
            rw [← Option.some.inj hp, foldl_parseElement_fst, jarr, helems, List.nil_append]
          · cases hp
      · cases hp
    · cases hp
  rw [engineRules, hp, Option.map_some, (engineOk_new p.1 caps).states, admittedRules, hrules,
    loadedRules]

end Load

/-! ## The window -/

section Window

variable {lib : JsonLib} {caps : CorrCaps} {root c : Json} {before after : List Json}
  {r : CorrRule} {v : Int64}

variable (lib c v r) in
/-- The rule of an object is valid but for the sign of the window it gives, `v`. -/
structure OtherwiseValid : Prop where
  timespan : c.get (cstr "timespan_s") = some (.int v.toInt)
  parsed : elementRule lib c = some r
  valid : r.ValidForSome
  buckets : 0 < v.toInt → r.BucketsFit (min v.toInt int32Max)

variable (lib caps root before after v r) in
/-- The engine runs the rule between those of the other objects, with the window `v` or the largest
there is, or it does not run the rule, if `v` is not positive. -/
def WindowKept : Prop :=
  engineRules lib caps root = some (loadedRules lib before ++
    (if 0 < v.toInt then [{ r with timespanS := min v.toInt int32Max }] else []) ++
    loadedRules lib after)

/-- The window `parse_one` takes. -/
theorem timespanS_of_parse {ls : CorrLoadStats} (h : (parseOne lib c ls).1 = some r) :
    r.timespanS = parseTimespan lib c := by
  unfold parseOne at h
  dsimp only at h
  split at h
  · rw [← Option.some.inj h]
  · cases h

theorem parseTimespan_eq (hlib : lib.Exact) (hv : c.get (cstr "timespan_s") = some (.int v.toInt)) :
    parseTimespan lib c = if int32Max < v.toInt then int32Max else v.toInt32.toInt := by
  rw [parseTimespan, jint, hv]
  dsimp only
  rw [hlib.int64]

/-- Within its range a narrowed window is the window. -/
theorem toInt32_of_range (hlo : int32Min ≤ v.toInt) (hhi : v.toInt ≤ int32Max) :
    v.toInt32.toInt = v.toInt := by
  have hlo' : -2 ^ 31 ≤ v.toInt := hlo
  have hhi' : v.toInt ≤ 2 ^ 31 - 1 := hhi
  rw [Int64.toInt_toInt32]
  exact Int.bmod_eq_of_le (by omega) (by omega)

/-- What the object of the rule brings into the engine. -/
theorem loadedRules_self (h : OtherwiseValid lib c r v) :
    loadedRules lib [c] =
      if ({ r with timespanS := parseTimespan lib c } : CorrRule).admitted then
        [{ r with timespanS := parseTimespan lib c }] else [] := by
  have hwindow : r.timespanS = parseTimespan lib c := by
    cases c with
    | obj ms => exact timespanS_of_parse h.parsed
    | _ => cases h.parsed
  have hself : ({ r with timespanS := parseTimespan lib c } : CorrRule) = r := by rw [← hwindow]
  rw [hself, loadedRules, List.filterMap_cons_some h.parsed, List.filterMap_nil, List.filter_cons,
    List.filter_nil]

/-- **The engine runs a rule with the window of its file**, or not at all for a window that is not
positive, exactly if the window is at least -2^31, or its low 32 bits are no window either: they are
not positive, or too few seconds for the buckets of the rule. -/
theorem timespan_window_iff (hlib : lib.Exact) (caps : CorrCaps)
    (hroot : (corrArtifactParse lib root).isSome)
    (helems : jarr root (cstr "correlations") = before ++ c :: after)
    (h : OtherwiseValid lib c r v) :
    WindowKept lib caps root before after r v ↔
      int32Min ≤ v.toInt ∨ v.toInt32.toInt ≤ 0 ∨ ¬ r.BucketsFit v.toInt32.toInt := by
  have hsplit : loadedRules lib (before ++ c :: after) =
      loadedRules lib before ++ loadedRules lib [c] ++ loadedRules lib after := by
    rw [← List.singleton_append, loadedRules, List.filterMap_append, List.filterMap_append,
      List.filter_append, List.filter_append, ← List.append_assoc]
    rfl
  rw [WindowKept, engineRules_eq hroot, helems, hsplit, Option.some_inj, List.append_left_inj,
    List.append_right_inj, loadedRules_self h, parseTimespan_eq hlib h.timespan]
  by_cases hpos : 0 < v.toInt
  · have hmin : (if int32Max < v.toInt then int32Max else v.toInt32.toInt) =
        min v.toInt int32Max := by
      by_cases hlarge : int32Max < v.toInt
      · rw [if_pos hlarge, min_eq_right hlarge.le]
      · rw [if_neg hlarge, min_eq_left (not_lt.mp hlarge)]
        exact toInt32_of_range (le_trans (by decide) hpos.le) (not_lt.mp hlarge)
    have hadm := (admitted_window_iff h.valid (min v.toInt int32Max)).mpr
      ⟨lt_min hpos (by decide), h.buckets hpos⟩
    rw [hmin, if_pos hadm, if_pos hpos]
    exact iff_of_true rfl (Or.inl (le_trans (by decide) hpos.le))
  · have hsmall : ¬ int32Max < v.toInt := fun hlarge => hpos (lt_trans (by decide) hlarge)
    rw [if_neg hsmall, if_neg hpos, ite_eq_right_iff]
    have hne : ∀ r' : CorrRule, [r'] ≠ [] := fun r' => List.cons_ne_nil r' []
    simp only [hne, imp_false]
    rw [admitted_window_iff h.valid, not_and_or, not_lt]
    by_cases hmin : int32Min ≤ v.toInt
    · rw [toInt32_of_range hmin (not_lt.mp hsmall)]
      exact iff_of_true (Or.inl (not_lt.mp hpos)) (Or.inl hmin)
    · rw [or_iff_right hmin]

/-- A file with one correlation, of window `v`. -/
def windowElement (v : Int64) : Json :=
  .obj [(cstr "id", .str (cstr "c")), (cstr "type", .str (cstr "event_count")),
    (cstr "base_rule_ids", .arr [.int 7]), (cstr "timespan_s", .int v.toInt)]

def windowFile (v : Int64) : Json :=
  .obj [(cstr "version", .int 1), (cstr "correlations", .arr [windowElement v])]

/-- The rule of the file but for its window. -/
def windowRule : CorrRule :=
  ⟨some (cstr "c"), none, some .eventCount, [7], [], [], [], none, some .gte, 0, 0, none, none, [],
    0, 0, 0⟩

theorem otherwiseValid_windowElement (v : Int64) :
    OtherwiseValid JsonLib.strict (windowElement v)
      { windowRule with timespanS := parseTimespan JsonLib.strict (windowElement v) } v := by
  have hvalid : ({ windowRule with timespanS := 60 } : CorrRule).admitted = true := by decide
  have htype : windowRule.type ≠ some .beaconing := by decide
  exact ⟨rfl, rfl, ⟨60, hvalid⟩, fun _ hbeaconing => absurd hbeaconing htype⟩

/-- A window that 32 bits do not hold is the largest one. -/
theorem timespan_window_iff_sample :
    WindowKept JsonLib.strict capsZero (windowFile 5000000000) [] [] windowRule 5000000000 :=
  (timespan_window_iff JsonLib.strict_exact capsZero rfl rfl
    (otherwiseValid_windowElement 5000000000)).mpr (Or.inl (by decide))

/-- A negative window becomes one second. -/
theorem negative_window_wraps :
    ¬ ∀ (lib : JsonLib) (caps : CorrCaps) (root c : Json) (before after : List Json) (r : CorrRule)
      (v : Int64), lib.Exact → (corrArtifactParse lib root).isSome →
        jarr root (cstr "correlations") = before ++ c :: after → OtherwiseValid lib c r v →
        WindowKept lib caps root before after r v := by
  intro hclaim
  have hkept := hclaim JsonLib.strict capsZero (windowFile (-4294967295)) _ [] [] _ (-4294967295)
    JsonLib.strict_exact rfl rfl (otherwiseValid_windowElement (-4294967295))
  revert hkept
  unfold WindowKept
  decide

end Window

end LibSigma
