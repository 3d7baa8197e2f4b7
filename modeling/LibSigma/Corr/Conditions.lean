import LibSigma.Corr.Artifact
import LibSigma.Corr.Seen
import LibSigma.Library.LazyRpn
import LibSigma.Matcher.RuleMatch

/-!
# Conditions from the file to the evaluator

`parse_cond_rpn` looks at one token at a time, `corr_cond_eval` runs them all on a stack of 64
cells.  What the first lets through the second can evaluate when the tokens count right: `sel` adds
a cell, `and` and `or` take one away.

## Balance

Whether a run meets an empty stack or a full one, and how many cells are left at its end, does not
depend on what the cells hold. So it is a matter of counting (`tokenEffect`), and the token strings
that evaluate under every mask are the balanced ones (`evaluable_iff`): every prefix leaves at least
one cell and at most 64, and the whole leaves one. The loader does not count. A file with a lone
`and` is admitted, and the rule can never fire by its condition.

An array without tokens is refused together with its rule, although the comment says that it means
"all".

## Two evaluators

The matcher has a machine of its own for the conditions of its rules, which runs selections when it
needs them. On the same tokens, with bit `i` for the truth of selection `i`, it gives the same
answer as the correlator's. The proof runs both machines on stacks of expressions (`mirror_loop`),
and they stop at the same token.

* `evaluable_iff`: the token strings of the loader that evaluate are the balanced ones.
* `admits_iff`: **the file leads to evaluable conditions only, exactly when its conditions that pass
  token by token are balanced arrays.**
* `corrCondEval_eq_ruleMatch`: **the correlator's machine over bits and the matcher's over
  selections give the same answer**, on every token string, well formed or not.
-/

namespace LibSigma

open Library

/-- Under every mask the run of `corr_cond_eval` ends with one value: it meets no unknown token, it
neither takes from an empty stack nor fills a full one. -/
def Evaluable (cond : List CorrCtok) : Prop :=
  ∀ mask, ∃ b, cond.foldlM (corrCondStep mask) [] = some [b]

/-! ## Balanced conditions

What can be evaluated, read off the tokens by counting.  The evaluator has a stack of its own depth,
and a token that takes from an empty stack or leaves two values is not a condition. -/

/-- **The conditions that can be evaluated** are the balanced ones. -/
theorem evaluable_iff {cond : List CorrCtok} {ts : List (RpnTok UInt32)}
    (hts : cond.mapM CorrCtok.tok = some ts) (hsel : ∀ a, .arg a ∈ ts → a < 64) :
    Evaluable cond ↔ Balanced corrCondStackMax (ts.map RpnTok.effect) := by
  have hrun : ∀ mask, cond.foldlM (corrCondStep mask) [] =
      (rpnRun corrCondStackMax (fun a => decide (a < 64)) ts []).map
        (List.map (BoolExpr.eval (maskBit mask))) := by
    intro mask
    have hfold := corrCond_foldlM mask cond []
    rwa [hts, Option.bind_some, List.map_nil] at hfold
  have hbalanced : (∃ e, rpnRun corrCondStackMax (fun a => decide (a < 64)) ts [] = some [e]) ↔ _ :=
    exists_rpnRun_eq_singleton_iff fun a ha => decide_eq_true (hsel a ha)
  rw [← hbalanced]
  constructor
  · intro h
    obtain ⟨b, hb⟩ := h 0
    rw [hrun, Option.map_eq_some_iff] at hb
    obtain ⟨s, hs, hmap⟩ := hb
    obtain ⟨e, rfl, -⟩ := List.map_eq_singleton_iff.mp hmap
    exact ⟨e, hs⟩
  · rintro ⟨e, he⟩ mask
    exact ⟨e.eval (maskBit mask), by rw [hrun, he]; rfl⟩

section Loader

variable (lib : JsonLib)

/-- The cells a token of the file adds. -/
def tokenEffect (el : Json) : ℤ :=
  match jstr lib el (cstr "k") with
  | some k => if k = cstr "sel" then 1 else if k = cstr "not" then 0 else -1
  | none => 0

/-- The ids of the file that are kept. -/
def keptIds (c : Json) : List Int64 := ((fileIds lib c).take corrMaxRuleIds).filter ridInRange

/-- The checks of `parse_one` other than those of the condition: there is an id, and alias rows
have the shape of the base rules and of `group_by`. -/
def PassesOthers (c : Json) : Prop :=
  (jstr lib c (cstr "id")).isSome ∧
    (parseAliasRows lib c (keptIds lib c).length
      ((jarr c (cstr "group_by")).take corrMaxGroupFields).length).isSome

/-- A condition that is an array and, unless the loader refuses one of its tokens, a balanced
one. -/
def BalancedCond (c v : Json) : Prop :=
  ∃ elems, v = .arr elems ∧
    ((parseCondRpn lib elems (keptIds lib c).length).isSome →
      Balanced corrCondStackMax (elems.map (tokenEffect lib)))

/-- The member is a token string that can be evaluated. -/
def SpellsCond (c v : Json) : Prop :=
  ∃ elems toks, v = .arr elems ∧ parseCondRpn lib elems (keptIds lib c).length = some toks ∧
    Evaluable toks

/-- Behind the elements `pre` the element `c` gives no rule and is counted as rejected. -/
def CountedRejected (pre : List Json) (c : Json) : Prop :=
  (parseElement lib (pre.foldl (parseElement lib) ([], ⟨0, 0, 0, 0⟩)) c).1 =
      (pre.foldl (parseElement lib) ([], ⟨0, 0, 0, 0⟩)).1 ∧
    (parseElement lib (pre.foldl (parseElement lib) ([], ⟨0, 0, 0, 0⟩)) c).2.rulesRejected =
      (pre.foldl (parseElement lib) ([], ⟨0, 0, 0, 0⟩)).2.rulesRejected + 1

/-- Every condition the loader admits can be evaluated, and an object with any other is counted
as rejected. -/
def AdmitsEvaluable (root : Json) : Prop :=
  ∀ rules ls, corrArtifactParse lib root = some (rules, ls) →
    (∀ r ∈ rules, r.cond ≠ [] → Evaluable r.cond) ∧
      ∀ pre ms post v, jarr root (cstr "correlations") = pre ++ .obj ms :: post →
        (Json.obj ms).get (cstr "condition_rpn") = some v → ¬ SpellsCond lib (.obj ms) v →
          CountedRejected lib pre (.obj ms)

variable {lib}

/-- A token of the loader is one of the machine, it adds the cells counted in the file and selects
below 64. -/
theorem tok_of_parse {nBase : ℕ} {el : Json} {tok : CorrCtok}
    (h : parseCondToken lib nBase el = some tok) :
    ∃ t, tok.tok = some t ∧ t.effect = tokenEffect lib el ∧ ∀ a, t = .arg a → a < 64 := by
  unfold parseCondToken at h
  unfold tokenEffect
  split at h
  · cases h
  · rename_i k hk
    rw [hk]
    dsimp only
    split at h
    · rename_i hsel
      rw [if_pos hsel]
      split at h
      · cases h
      · rename_i i hi
        split at h
        · cases h
        · rename_i hbound
          push Not at hbound
          rw [← Option.some.inj h]
          refine ⟨.arg _, rfl, rfl, fun a ha => ?_⟩
          have hnarrow := toUInt32_of_range hbound.1 (by omega)
          rw [← RpnTok.arg.inj ha, UInt32.lt_iff_toNat_lt]
          show i.toUInt64.toUInt32.toNat < 64
          omega
    · rename_i hsel
      rw [if_neg hsel]
      have hand : cstr "and" ≠ cstr "not" := by decide
      have hor : cstr "or" ≠ cstr "not" := by decide
      split at h
      · rename_i hk
        rw [← Option.some.inj h, if_neg (hk ▸ hand)]
        exact ⟨.and, rfl, rfl, nofun⟩
      · split at h
        · rename_i hk
          rw [← Option.some.inj h, if_neg (hk ▸ hor)]
          exact ⟨.or, rfl, rfl, nofun⟩
        · split at h
          · rename_i hk
            rw [← Option.some.inj h, if_pos hk]
            exact ⟨.not, rfl, rfl, nofun⟩
          · cases h

theorem toks_of_mapM {nBase : ℕ} {elems : List Json} {cond : List CorrCtok}
    (h : elems.mapM (parseCondToken lib nBase) = some cond) :
    ∃ ts, cond.mapM CorrCtok.tok = some ts ∧ ts.map RpnTok.effect = elems.map (tokenEffect lib) ∧
      ∀ a, .arg a ∈ ts → a < 64 := by
  induction elems generalizing cond with
  | nil =>
    obtain rfl := Option.some.inj h
    exact ⟨[], rfl, rfl, fun a ha => absurd ha List.not_mem_nil⟩
  | cons el elems ih =>
    rw [List.mapM_cons] at h
    obtain ⟨tok, htok, h⟩ := Option.bind_eq_some_iff.mp h
    obtain ⟨toks, htoks, h⟩ := Option.bind_eq_some_iff.mp h
    obtain rfl := Option.some.inj h
    obtain ⟨t, ht, heffect, hlt⟩ := tok_of_parse htok
    obtain ⟨ts, hts, heffects, hlts⟩ := ih htoks
    refine ⟨t :: ts, ?_, by rw [List.map_cons, List.map_cons, heffect, heffects], ?_⟩
    · rw [List.mapM_cons, ht, hts]
      rfl
    · intro a ha
      rcases List.mem_cons.mp ha with ha | ha
      · exact hlt a ha.symm
      · exact hlts a ha

/-- **What the loader admits can be evaluated exactly when it is balanced.** -/
theorem evaluable_iff_of_parse {nBase : ℕ} {elems : List Json} {cond : List CorrCtok}
    (h : parseCondRpn lib elems nBase = some cond) :
    Evaluable cond ↔ Balanced corrCondStackMax (elems.map (tokenEffect lib)) := by
  unfold parseCondRpn at h
  split at h
  · cases h
  · obtain ⟨ts, hts, heffects, hlts⟩ := toks_of_mapM h
    rw [evaluable_iff hts hlts, heffects]

/-! ## One object -/

/-- `parse_one` gives a rule exactly when the checks pass, the condition's among them. -/
theorem parseOne_isSome_iff {c : Json} {ls : CorrLoadStats} :
    ((parseOne lib c ls).1).isSome ↔
      PassesOthers lib c ∧ (parseCond lib c (keptIds lib c).length).isSome := by
  have hlen : (parseU32Array lib c (cstr "base_rule_ids") ls).1.length = (keptIds lib c).length := by
    rw [keptIds, fileIds, ← List.map_take]
    exact List.length_map _
  have hgroup : ∀ ls, (parseStrArray lib c (cstr "group_by") ls).1.length =
      ((jarr c (cstr "group_by")).take corrMaxGroupFields).length := fun ls => List.length_map _
  unfold parseOne PassesOthers
  dsimp only
  rw [hlen, hgroup]
  split
  · rename_i aliasRows toks id haliasRows htoks hid
    rw [haliasRows, htoks, hid]
    simp
  · rename_i hnot
    refine iff_of_false Bool.false_ne_true fun hsome => ?_
    obtain ⟨id, hid⟩ := Option.isSome_iff_exists.mp hsome.1.1
    obtain ⟨aliasRows, haliasRows⟩ := Option.isSome_iff_exists.mp hsome.1.2
    obtain ⟨toks, htoks⟩ := Option.isSome_iff_exists.mp hsome.2
    exact hnot aliasRows toks id haliasRows htoks hid

theorem parseOne_rulesRejected {c : Json} {ls : CorrLoadStats} :
    (parseOne lib c ls).2.rulesRejected = ls.rulesRejected := rfl

/-- An object counts as rejected exactly when `parse_one` fails on it. -/
theorem countedRejected_iff {pre : List Json} {ms : List (CStr × Json)} :
    CountedRejected lib pre (.obj ms) ↔ ∀ ls, (parseOne lib (.obj ms) ls).1 = none := by
  have hall : ∀ ls ls', (parseOne lib (.obj ms) ls).1 = none →
      (parseOne lib (.obj ms) ls').1 = none := by
    intro ls ls' h
    rw [← Option.not_isSome_iff_eq_none, parseOne_isSome_iff] at h ⊢
    exact h
  unfold CountedRejected
  generalize pre.foldl (parseElement lib) ([], ⟨0, 0, 0, 0⟩) = acc
  have hrejected : (parseOne lib (.obj ms) acc.2).2.rulesRejected = acc.2.rulesRejected :=
    parseOne_rulesRejected
  unfold parseElement
  dsimp only
  split
  · rename_i r ls hparse
    refine iff_of_false ?_ fun h => ?_
    · rintro ⟨hsame, -⟩
      simp at hsame
    · exact absurd (h acc.2) (by rw [hparse]; nofun)
  · rename_i ls hparse
    rw [hparse] at hrejected
    refine iff_of_true ⟨rfl, ?_⟩ fun ls' => hall acc.2 ls' (by rw [hparse])
    rw [hrejected]

/-! ## The file

The loader checks each token and not the string.  What it admits is therefore a list of good tokens,
and the theorem says for which files every such list happens to be a condition.  The other checks of
an object are the same on both sides and are kept apart (`PassesOthers`). -/

variable (lib) in
/-- A file the parse does not refuse as a whole. -/
def VersionOne (root : Json) : Prop :=
  ∃ i elems, root.get (cstr "version") = some (.int i) ∧ lib.getInt (.int i) = 1 ∧
    root.get (cstr "correlations") = some (.arr elems)

theorem corrArtifactParse_eq_some_iff {root : Json} {res : List CorrRule × CorrLoadStats} :
    corrArtifactParse lib root = some res ↔
      VersionOne lib root ∧
        (jarr root (cstr "correlations")).foldl (parseElement lib) ([], ⟨0, 0, 0, 0⟩) = res := by
  unfold VersionOne corrArtifactParse jarr
  cases root with
  | obj ms =>
    dsimp only
    split
    · rename_i i hversion
      rw [hversion]
      split
      · rename_i hone
        refine iff_of_false nofun ?_
        rintro ⟨⟨i', -, hi', hone', -⟩, -⟩
        cases hi'
        exact hone hone'
      · rename_i hone
        push Not at hone
        split
        · rename_i elems helems
          rw [helems, Option.some.injEq]
          exact (and_iff_right ⟨i, elems, rfl, hone, rfl⟩).symm
        · rename_i hnone
          refine iff_of_false nofun ?_
          rintro ⟨⟨-, elems, -, -, helems⟩, -⟩
          exact hnone elems helems
    · rename_i hnone
      refine iff_of_false nofun ?_
      rintro ⟨⟨i, -, hversion, -⟩, -⟩
      exact hnone i hversion
  | null | bool _ | int _ | double _ | str _ | arr _ =>
    refine iff_of_false nofun ?_
    rintro ⟨⟨i, -, hversion, -⟩, -⟩
    cases hversion

/-- Only an object has an id. -/
theorem exists_obj_of_passesOthers {c : Json} (h : PassesOthers lib c) : ∃ ms, c = .obj ms := by
  cases c with
  | obj ms => exact ⟨ms, rfl⟩
  | null | bool _ | int _ | double _ | str _ | arr _ => exact absurd h.1 nofun

/-- A rule's condition was spelled in its object. -/
theorem cond_of_parseOne {c : Json} {ls : CorrLoadStats} {r : CorrRule}
    (h : (parseOne lib c ls).1 = some r) (hne : r.cond ≠ []) :
    ∃ elems, c.get (cstr "condition_rpn") = some (.arr elems) ∧
      parseCondRpn lib elems (keptIds lib c).length = some r.cond := by
  obtain ⟨hbase, -, hcond⟩ := parseOne_spec h
  rw [hbase, List.length_map] at hcond
  unfold parseCond at hcond
  split at hcond
  · rename_i elems helems
    exact ⟨elems, helems, hcond⟩
  · exact absurd (Option.some.inj hcond).symm hne

/-- Without a token string that can be evaluated, the object is refused. -/
theorem parseCond_eq_none {c v : Json} (hv : c.get (cstr "condition_rpn") = some v)
    (hbal : BalancedCond lib c v) (hnot : ¬ SpellsCond lib c v) :
    parseCond lib c (keptIds lib c).length = none := by
  obtain ⟨elems, rfl, hbal⟩ := hbal
  unfold parseCond
  rw [hv]
  show parseCondRpn lib elems (keptIds lib c).length = none
  rw [← Option.not_isSome_iff_eq_none]
  intro hsome
  obtain ⟨toks, htoks⟩ := Option.isSome_iff_exists.mp hsome
  exact hnot ⟨elems, toks, rfl, htoks, (evaluable_iff_of_parse htoks).mpr (hbal hsome)⟩

/-- A member that is not balanced does not make the loader refuse the object. -/
theorem parseCond_isSome {c v : Json} (hv : c.get (cstr "condition_rpn") = some v)
    (hbal : ¬ BalancedCond lib c v) : (parseCond lib c (keptIds lib c).length).isSome := by
  unfold parseCond
  rw [hv]
  cases v with
  | arr elems =>
    show (parseCondRpn lib elems (keptIds lib c).length).isSome
    by_contra hnone
    exact hbal ⟨elems, rfl, fun hsome => absurd hsome hnone⟩
  | null | bool _ | int _ | double _ | str _ | obj _ => rfl

theorem not_spellsCond {c v : Json} (hbal : ¬ BalancedCond lib c v) : ¬ SpellsCond lib c v := by
  rintro ⟨elems, toks, rfl, htoks, heval⟩
  exact hbal ⟨elems, rfl, fun _ => (evaluable_iff_of_parse htoks).mp heval⟩

/-- **When the loader admits evaluable conditions only.**  Of the objects that pass the other
checks, each condition is an array, and one whose tokens pass one by one counts right: a cell for
`sel`, none for `not`, one less for `and` and `or`, every nonempty prefix between 1 and 64 and all
of it 1. -/
theorem admits_iff (lib : JsonLib) (root : Json) :
    AdmitsEvaluable lib root ↔
      (VersionOne lib root → ∀ ms, .obj ms ∈ jarr root (cstr "correlations") →
        PassesOthers lib (.obj ms) → ∀ v, (Json.obj ms).get (cstr "condition_rpn") = some v →
          BalancedCond lib (.obj ms) v) := by
  constructor
  · intro h hversion ms hms hothers v hv
    by_contra hbal
    obtain ⟨pre, post, hsplit⟩ := List.append_of_mem hms
    have hcounted := (h _ _ (corrArtifactParse_eq_some_iff.mpr ⟨hversion, rfl⟩)).2 pre ms post v
      hsplit hv (not_spellsCond hbal)
    have hsome : ((parseOne lib (.obj ms) ⟨0, 0, 0, 0⟩).1).isSome :=
      parseOne_isSome_iff.mpr ⟨hothers, parseCond_isSome hv hbal⟩
    rw [countedRejected_iff.mp hcounted] at hsome
    exact absurd hsome nofun
  · intro h rules ls hparse
    have hversion := (corrArtifactParse_eq_some_iff.mp hparse).1
    constructor
    · intro r hr hne
      obtain ⟨c, hc, ls', hone⟩ := exists_object_of_mem hparse hr
      have hothers : PassesOthers lib c := (parseOne_isSome_iff.mp (by rw [hone]; rfl)).1
      obtain ⟨ms, rfl⟩ := exists_obj_of_passesOthers hothers
      obtain ⟨elems, helems, hcond⟩ := cond_of_parseOne hone hne
      obtain ⟨elems', harr, hbal⟩ := h hversion ms hc hothers _ helems
      obtain rfl := Json.arr.inj harr
      exact (evaluable_iff_of_parse hcond).mpr (hbal (by rw [hcond]; rfl))
    · intro pre ms post v hsplit hv hnot
      refine countedRejected_iff.mpr fun ls' => ?_
      rw [← Option.not_isSome_iff_eq_none, parseOne_isSome_iff]
      rintro ⟨hothers, hsome⟩
      have hmem : Json.obj ms ∈ jarr root (cstr "correlations") := by
        rw [hsplit]
        simp
      rw [parseCond_eq_none hv (h hversion ms hmem hothers v hv) hnot] at hsome
      exact absurd hsome nofun

/-- A file whose correlation has `and` for its condition. -/
def loneAnd : Json :=
  .obj [(cstr "version", .int 1), (cstr "correlations", .arr [.obj [(cstr "id", .str (cstr "c")),
    (cstr "condition_rpn", .arr [.obj [(cstr "k", .str (cstr "and"))]])]])]

/-- The loader admits it, and `corr_cond_eval` takes from an empty stack. -/
theorem loneAnd_admitted : ¬ AdmitsEvaluable JsonLib.strict loneAnd := by
  intro h
  obtain ⟨b, hb⟩ := (h _ _ rfl).1 _ (List.mem_singleton.mpr rfl) nofun 0
  have hnone : (none : Option (List Bool)) = some [b] := hb
  cases hnone

end Loader

/-! ## The two machines

The correlator evaluates its conditions eagerly on a mask and the matcher lazily on a scratch.  Both
follow the symbolic machine of `LibSigma.Library.Rpn` token by token, on well formed strings and on
others, with the same capacity, and so agree. -/

/-- The token of the matcher in the correlator's record. -/
def SigmaCtok.corr (k : SigmaCtok) : CorrCtok := ⟨k.kind, k.selIdx⟩

/-- The mask of an assignment: bit `i` is the truth of selection `i`. -/
def assignmentMask (n : ℕ) (v : ℕ → Bool) : UInt64 :=
  ((List.range n).filter v).foldl (fun mask i => mask ||| (1 <<< UInt64.ofNat i)) 0

theorem maskBit_assignmentMask {n : ℕ} {v : ℕ → Bool} (hn : n ≤ 64) {a : UInt32}
    (ha : a.toNat < n) : maskBit (assignmentMask n v) a = v a.toNat := by
  have hbits : ∀ i ∈ (List.range n).filter v, i < 64 := by
    intro i hi
    have hlt := List.mem_range.mp (List.mem_filter.mp hi).1
    omega
  unfold maskBit assignmentMask
  rw [testBit_setBits hbits]
  simp [ha]

section Mirror

variable {pf : Platform} {db : SigmaDb} {ev : Event} {F : Frame SigmaEval} {r : SigmaRule}
  {v : UInt32 → Bool} {mask : UInt64}

/-- The two kinds of token are the same numbers. -/
theorem tok_corr (k : SigmaCtok) :
    k.corr.tok = if k.kind ≤ sigmaCNot then some k.tok else none := by
  have hknown : ∀ kind : UInt8, kind ≤ sigmaCNot → k.kind = kind → k.kind ≤ sigmaCNot := by
    rintro kind hle rfl
    exact hle
  unfold CorrCtok.tok SigmaCtok.tok
  show (if k.kind = sigmaCSel then _ else if k.kind = sigmaCNot then _ else
    if k.kind = sigmaCAnd then _ else if k.kind = sigmaCOr then _ else _) = _
  by_cases hsel : k.kind = sigmaCSel
  · rw [if_pos hsel, if_pos hsel, if_pos (hknown _ (by decide) hsel)]
    rfl
  by_cases hnot : k.kind = sigmaCNot
  · rw [if_neg hsel, if_neg hsel, if_pos hnot, if_pos hnot, if_pos (hknown _ (by decide) hnot)]
  by_cases hand : k.kind = sigmaCAnd
  · rw [if_neg hsel, if_neg hsel, if_neg hnot, if_neg hnot, if_pos hand, if_pos hand,
      if_pos (hknown _ (by decide) hand)]
  by_cases hor : k.kind = sigmaCOr
  · rw [if_neg hsel, if_neg hsel, if_neg hnot, if_neg hnot, if_neg hand, if_neg hand, if_pos hor,
      if_pos (hknown _ (by decide) hor)]
  rw [if_neg hsel, if_neg hnot, if_neg hand, if_neg hor, if_neg]
  exact fun hle => hor (SigmaCtok.kind_eq_or hle hsel hand hnot)

/-- An unknown token ends the matcher's run. -/
theorem condStep_unknown {k : SigmaCtok} (hk : ¬ k.kind ≤ sigmaCNot) (stack : List RpnCell) :
    Yields F (condStep pf db ev r k stack) none := by
  have hne : ∀ kind : UInt8, kind ≤ sigmaCNot → k.kind ≠ kind := by
    rintro kind hle rfl
    exact hk hle
  unfold condStep
  rw [if_neg (hne sigmaCSel (by decide)), if_neg (hne sigmaCNot (by decide)),
    if_neg (hne sigmaCAnd (by decide)), if_neg (hne sigmaCOr (by decide))]
  exact Yields.pure none

/-- **One token**, from stacks that stand for the same expressions: both machines stop, or both go
on to stacks that again stand for the same expressions. -/
theorem mirror_step (mask : UInt64) (hsels : SelsYield pf db ev F r v) (hcount : r.selCount ≤ 64)
    {k : SigmaCtok} (hidx : k.kind = sigmaCSel → k.selIdx < r.selCount) {stack : List RpnCell}
    {es : List (BoolExpr UInt32)} (h : List.Forall₂ (RpnCell.Means r v) stack es)
    (hargs : ∀ e ∈ es, ∀ a ∈ e.args, a < r.selCount) :
    (Yields F (condStep pf db ev r k stack) none ∧
        corrCondStep mask (es.map (BoolExpr.eval (maskBit mask))) k.corr = none) ∨
      ∃ stack' es', Yields F (condStep pf db ev r k stack) (some stack') ∧
        corrCondStep mask (es.map (BoolExpr.eval (maskBit mask))) k.corr =
          some (es'.map (BoolExpr.eval (maskBit mask))) ∧
        List.Forall₂ (RpnCell.Means r v) stack' es' ∧
        ∀ e ∈ es', ∀ a ∈ e.args, a < r.selCount := by
  rw [corrCondStep_eq, tok_corr]
  by_cases hk : k.kind ≤ sigmaCNot
  · rw [if_pos hk, Option.bind_some]
    obtain ⟨next, hstep, hrel⟩ := hsels.condStep hk h
    have hsame : rpnStep corrCondStackMax (fun a => decide (a < 64)) k.tok es =
        rpnStep sigmaCondStackMax (fun a => decide (a < r.selCount)) k.tok es := by
      cases htok : k.tok with
      | arg a =>
        have ha : a < r.selCount := by
          unfold SigmaCtok.tok at htok
          split_ifs at htok with hsel
          exact RpnTok.arg.inj htok ▸ hidx hsel
        have hlt : a < 64 := UInt32.lt_of_lt_of_le ha hcount
        rw [rpnStep, rpnStep, decide_eq_true ha, decide_eq_true hlt]
        rfl
      | not => cases es <;> rfl
      | and => rcases es with _ | ⟨f, _ | ⟨e, es⟩⟩ <;> rfl
      | or => rcases es with _ | ⟨f, _ | ⟨e, es⟩⟩ <;> rfl
    rw [hsame]
    revert hrel
    cases hrun : rpnStep sigmaCondStackMax (fun a => decide (a < r.selCount)) k.tok es with
    | none =>
      rintro ⟨⟩
      exact Or.inl ⟨hstep, rfl⟩
    | some es' =>
      rintro ⟨hrest⟩
      refine Or.inr ⟨_, es', hstep, rfl, hrest, fun e he a ha => ?_⟩
      exact of_decide_eq_true (forall_args_rpnStep
        (fun e he a ha => decide_eq_true (hargs e he a ha)) hrun e he a ha)
  · rw [if_neg hk, Option.bind_none]
    exact Or.inl ⟨condStep_unknown hk stack, rfl⟩

/-- **All tokens.**  By induction on the tokens left, with the common expressions as the
invariant. -/
theorem mirror_loop (hsels : SelsYield pf db ev F r v)
    (hmask : ∀ a < r.selCount, maskBit mask a = v a) (hcount : r.selCount ≤ 64) {k i : ℕ}
    (hin : r.condStart.toNat + i + k ≤ db.cond.length)
    (hidx : ∀ t ∈ slice db.cond (r.condStart.toNat + i) k, t.kind = sigmaCSel →
      t.selIdx < r.selCount)
    {stack : List RpnCell} {es : List (BoolExpr UInt32)}
    (h : List.Forall₂ (RpnCell.Means r v) stack es)
    (hargs : ∀ e ∈ es, ∀ a ∈ e.args, a < r.selCount) :
    Yields F (condLoop pf db ev r k i stack)
      (match ((slice db.cond (r.condStart.toNat + i) k).map SigmaCtok.corr).foldlM
          (corrCondStep mask) (es.map (BoolExpr.eval (maskBit mask))) with
        | some [b] => b
        | _ => false) := by
  induction k generalizing i stack es with
  | zero =>
    rw [slice_zero, List.map_nil]
    cases h with
    | nil => exact Yields.pure false
    | @cons c e _ _ hc hrest =>
      cases hrest with
      | nil =>
        have hval : e.eval (maskBit mask) = e.eval v :=
          BoolExpr.eval_congr fun a ha => hmask a (hargs e (by simp) a ha)
        show Yields F _ (e.eval (maskBit mask))
        rw [hval, ← hc.2]
        exact hsels.rpnForce hc.1
      | cons _ _ => exact Yields.pure false
  | succ k ih =>
    have htok : db.cond[r.condStart.toNat + i]? = some db.cond[r.condStart.toNat + i] :=
      List.getElem?_eq_getElem (by omega)
    rw [slice_succ htok] at hidx ⊢
    rw [List.map_cons, List.foldlM_cons, condLoop]
    refine (tableAt_yields htok).bind ?_
    rcases mirror_step mask hsels hcount (hidx _ List.mem_cons_self) h hargs with
      ⟨hstep, hnone⟩ | ⟨stack', es', hstep, hsome, hrest, hargs'⟩
    · rw [hnone]
      exact hstep.bind (Yields.pure false)
    · rw [hsome]
      exact hstep.bind (ih (by omega) (fun t ht => hidx t (List.mem_cons_of_mem _ ht)) hrest hargs')

/-- **The two evaluators agree.**  On every token string, well formed or not, and for every
assignment of truth values to at most 64 selections: `rule_match`, whose selections come out as
assigned, returns what `corr_cond_eval` returns on the mask of the assignment. -/
theorem corrCondEval_eq_ruleMatch {toks : List CorrCtok} {v : ℕ → Bool} (hne : toks ≠ [])
    (htoks : (slice db.cond r.condStart.toNat r.condCount.toNat).map SigmaCtok.corr = toks)
    (hlen : toks.length = r.condCount.toNat) (hcount : r.selCount ≤ 64)
    (hidx : ∀ t ∈ toks, t.kind = corrCSel → t.ridIdx < r.selCount)
    (hsels : SelsYield pf db ev F r fun i => v i.toNat) :
    Yields F (ruleMatch pf db ev r)
      (corrCondEval toks (assignmentMask r.selCount.toNat v)) := by
  have hpos : r.condCount.toNat ≠ 0 := by
    rw [← hlen]
    exact fun h => hne (List.length_eq_zero_iff.mp h)
  have hin : r.condStart.toNat + 0 + r.condCount.toNat ≤ db.cond.length := by
    rw [← htoks, List.length_map, slice, List.length_take, List.length_drop] at hlen
    omega
  have hmask : ∀ a < r.selCount,
      maskBit (assignmentMask r.selCount.toNat v) a = v a.toNat := fun a ha =>
    maskBit_assignmentMask (UInt32.le_iff_toNat_le.mp hcount) (UInt32.lt_iff_toNat_lt.mp ha)
  have hidx' : ∀ t ∈ slice db.cond (r.condStart.toNat + 0) r.condCount.toNat,
      t.kind = sigmaCSel → t.selIdx < r.selCount := by
    intro t ht hkind
    exact hidx t.corr (htoks ▸ List.mem_map_of_mem ht) hkind
  have hloop := mirror_loop hsels hmask hcount hin hidx' .nil fun e he => absurd he List.not_mem_nil
  rw [Nat.add_zero, htoks] at hloop
  unfold ruleMatch corrCondEval
  rw [if_neg fun h => hpos (by rw [h]; rfl)]
  exact hloop

end Mirror

/-- The small artifact with the condition "not selection 0". -/
def negatedTables : Tables :=
  { sampleTables with
    cond := [⟨sigmaCSel, .replicate 3 0, 0⟩, ⟨sigmaCNot, .replicate 3 0, 0⟩]
    rules := [⟨7, 0, 1, 0, 2, 1, 2, 300, 0, sigmaNoValue⟩] }

/-- The theorem at that artifact. -/
theorem corrCondEval_eq_ruleMatch_sample :
    ∃ db, sigmaDbLoadBuffer samplePlatform (sigmaDbSerialize negatedTables) = .ok db ∧
      ∃ r ∈ db.rules, ∃ v : ℕ → Bool,
        Yields (memoFrame db fun _ => some [119, 120, 121, 122])
          (ruleMatch samplePlatform db (fun _ => some [119, 120, 121, 122]) r)
          (corrCondEval [⟨corrCSel, 0⟩, ⟨corrCNot, 0⟩] (assignmentMask r.selCount.toNat v)) := by
  obtain ⟨db, hload, hsame⟩ :=
    negatedTables.load_serialize samplePlatform (by decide) (by decide) (by decide)
  have hr : negatedTables.rules[0] ∈ db.rules := by
    rw [hsame.rules]
    exact List.getElem_mem _
  have hcond : db.cond = negatedTables.cond := hsame.cond
  refine ⟨db, hload, _, hr, _, corrCondEval_eq_ruleMatch (by decide) (by rw [hcond]; rfl) rfl
    (by decide) (by decide) (selsYield_memoFrame (loaded_of_loadBuffer hload) hr)⟩

end LibSigma
