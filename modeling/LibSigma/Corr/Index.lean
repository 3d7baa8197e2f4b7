import LibSigma.Corr.Engine

/-!
# What one call does to one correlation

The rule id index leads to the correlations that watch a rule id, and the loop of
`corr_on_event_apply` visits each of them once, whatever the others do.

The loop goes over the matched ids and, for each, over the correlations that watch it. It carries
the states of all correlations, the bytes for those already visited, the outcomes and the counters.
To follow one correlation through it, `visit_fold` states the loop in its terms: the first entry for
the correlation is a visit, every later one does nothing, and entries for others leave its state
alone. The induction is on the entries, with the visited bytes as the invariant.

* `mem_ridIndexFind`: the index finds the correlations with the rule id among their base rules.
* `visit_fold`: **the loop over the index, as one correlation sees it.**
-/

namespace LibSigma

open Library

/-! ## The index -/

theorem ridSlot_lt {n : ℕ} (hn : 0 < n) (rid : UInt32) : ridSlot n rid < n := by
  have hle : rid.toNat &&& (n - 1) ≤ n - 1 := Nat.and_le_right
  rw [ridSlot]
  omega

/-- What a chain holds for a rule id. -/
def ridChainFind (chain : List RidWatch) (rid : UInt32) : List ℕ :=
  ((chain.find? fun w => w.rid == rid).map RidWatch.corrIdx).getD []

@[simp] theorem RidWatch.rid_add (w : RidWatch) (ci : ℕ) : (w.add ci).rid = w.rid := by
  unfold RidWatch.add
  split <;> rfl

/-- A correlation added to those that watch a rule id. -/
def watchAdd (cis : List ℕ) (ci : ℕ) : List ℕ := if ci ∈ cis then cis else cis ++ [ci]

theorem RidWatch.corrIdx_add (w : RidWatch) (ci : ℕ) :
    (w.add ci).corrIdx = watchAdd w.corrIdx ci := by
  unfold RidWatch.add watchAdd
  split <;> rfl

theorem mem_watchAdd {cis : List ℕ} {ci c : ℕ} : c ∈ watchAdd cis ci ↔ c ∈ cis ∨ c = ci := by
  unfold watchAdd
  split
  · rename_i hmem
    exact ⟨Or.inl, fun h => h.elim id fun heq => heq ▸ hmem⟩
  · rw [List.mem_append, List.mem_singleton]

/-- Adding a watch changes what the chain holds for its rule id only. -/
theorem ridChainFind_add (rid : UInt32) (ci : ℕ) (chain : List RidWatch) (rid' : UInt32) :
    ridChainFind (ridChainAdd rid ci chain) rid' =
      if rid' = rid then watchAdd (ridChainFind chain rid) ci else ridChainFind chain rid' := by
  unfold ridChainAdd
  split
  · rename_i hany
    have hmap : (chain.map fun w => if w.rid = rid then w.add ci else w).find?
          (fun w => w.rid == rid') =
        (chain.find? fun w => w.rid == rid').map fun w => if w.rid = rid then w.add ci else w := by
      rw [List.find?_map]
      congr 2
      funext w
      rw [Function.comp_apply]
      split <;> simp
    rw [ridChainFind, hmap, ridChainFind, ridChainFind]
    split
    · rename_i heq
      subst heq
      cases hfind : chain.find? fun w => w.rid == rid' with
      | none =>
        obtain ⟨w, hw, hrid⟩ := List.any_eq_true.mp hany
        exact absurd hrid (List.find?_eq_none.mp hfind w hw)
      | some w =>
        have hw : w.rid = rid' := by simpa using List.find?_some hfind
        rw [Option.map_some, if_pos hw]
        exact w.corrIdx_add ci
    · rename_i hne
      cases hfind : chain.find? fun w => w.rid == rid' with
      | none => rfl
      | some w =>
        have hw : w.rid = rid' := by simpa using List.find?_some hfind
        rw [Option.map_some, if_neg fun hrid => hne (hw ▸ hrid)]
  · rename_i hany
    have hnone : chain.find? (fun w => w.rid == rid) = none := by
      rw [List.find?_eq_none]
      intro w hw hrid
      exact hany (List.any_eq_true.mpr ⟨w, hw, hrid⟩)
    by_cases hrid : rid' = rid
    · subst hrid
      simp [ridChainFind, hnone, watchAdd]
    · have hne : ¬ rid = rid' := fun heq => hrid heq.symm
      simp [ridChainFind, hne, hrid]

theorem ridIndexFind_eq (index : List (List RidWatch)) (rid : UInt32) :
    ridIndexFind index rid = ridChainFind (index.getD (ridSlot index.length rid) []) rid := rfl

@[simp] theorem length_ridIndexAdd (index : List (List RidWatch)) (rid : UInt32) (ci : ℕ) :
    (ridIndexAdd index rid ci).length = index.length := List.length_modify _ _ _

theorem ridIndexFind_add {index : List (List RidWatch)} (hpos : 0 < index.length)
    (rid : UInt32) (ci : ℕ) (rid' : UInt32) :
    ridIndexFind (ridIndexAdd index rid ci) rid' =
      if rid' = rid then watchAdd (ridIndexFind index rid) ci else ridIndexFind index rid' := by
  rw [ridIndexFind_eq, ridIndexFind_eq, ridIndexFind_eq, length_ridIndexAdd, ridIndexAdd]
  have hlt := ridSlot_lt hpos rid'
  rw [List.getD_eq_getElem?_getD, List.getElem?_modify, List.getElem?_eq_getElem hlt,
    Option.map_eq_map, Option.map_some, Option.getD_some]
  by_cases hslot : ridSlot index.length rid = ridSlot index.length rid'
  · rw [if_pos hslot, hslot, List.getD_eq_getElem?_getD, List.getElem?_eq_getElem hlt,
      Option.getD_some]
    exact ridChainFind_add rid ci _ rid'
  · have hne : rid' ≠ rid := fun heq => hslot (heq ▸ rfl)
    rw [if_neg hslot, if_neg hne, List.getD_eq_getElem?_getD, List.getElem?_eq_getElem hlt,
      Option.getD_some]

theorem mem_ridIndexFind_add {index : List (List RidWatch)} (hpos : 0 < index.length)
    (rid : UInt32) (ci : ℕ) (rid' : UInt32) (c : ℕ) :
    c ∈ ridIndexFind (ridIndexAdd index rid ci) rid' ↔
      c ∈ ridIndexFind index rid' ∨ rid' = rid ∧ c = ci := by
  rw [ridIndexFind_add hpos]
  split
  · rename_i heq
    rw [mem_watchAdd, heq, and_iff_right rfl]
  · rename_i hne
    rw [or_iff_left fun h => hne h.1]

@[simp] theorem length_ridIndexAddRule (index : List (List RidWatch)) (p : CorrRule × ℕ) :
    (ridIndexAddRule index p).length = index.length := by
  have hfold : ∀ (rids : List UInt32) (index : List (List RidWatch)),
      (rids.foldl (fun index rid => ridIndexAdd index rid p.2) index).length = index.length := by
    intro rids
    induction rids with
    | nil => exact fun _ => rfl
    | cons rid rids ih => exact fun index => (ih _).trans (length_ridIndexAdd _ _ _)
  exact hfold _ _

theorem mem_ridIndexFind_addRule {index : List (List RidWatch)} (hpos : 0 < index.length)
    (p : CorrRule × ℕ) (rid : UInt32) (c : ℕ) :
    c ∈ ridIndexFind (ridIndexAddRule index p) rid ↔
      c ∈ ridIndexFind index rid ∨ rid ∈ p.1.baseRuleIds ∧ c = p.2 := by
  have hfold : ∀ (rids : List UInt32) (index : List (List RidWatch)), 0 < index.length →
      (c ∈ ridIndexFind (rids.foldl (fun index rid => ridIndexAdd index rid p.2) index) rid ↔
        c ∈ ridIndexFind index rid ∨ rid ∈ rids ∧ c = p.2) := by
    intro rids
    induction rids with
    | nil => exact fun index _ => by simp
    | cons rid' rids ih =>
      intro index hpos
      rw [List.foldl_cons, ih _ (by rwa [length_ridIndexAdd]), mem_ridIndexFind_add hpos,
        List.mem_cons]
      tauto
  exact hfold _ _ hpos

theorem nextPow2_pos (v : ℕ) : 0 < nextPow2 v := by
  unfold nextPow2
  split
  · omega
  · exact Nat.succ_pos _

/-- The rules of an engine: those it admitted. -/
def admittedRules (rules : List CorrRule) : List CorrRule := rules.filter CorrRule.admitted

theorem mem_ridIndexFind_foldl (ps : List (CorrRule × ℕ)) {index : List (List RidWatch)}
    (hpos : 0 < index.length) (rid : UInt32) (c : ℕ) :
    c ∈ ridIndexFind (ps.foldl ridIndexAddRule index) rid ↔
      c ∈ ridIndexFind index rid ∨ ∃ p ∈ ps, rid ∈ p.1.baseRuleIds ∧ c = p.2 := by
  induction ps generalizing index with
  | nil => simp
  | cons p ps ih =>
    rw [List.foldl_cons, ih (by rwa [length_ridIndexAddRule]), mem_ridIndexFind_addRule hpos]
    simp only [List.mem_cons, exists_eq_or_imp]
    tauto

/-- An index without watches finds nothing. -/
@[simp] theorem ridIndexFind_replicate (n : ℕ) (rid : UInt32) :
    ridIndexFind (List.replicate n []) rid = [] := by
  rw [ridIndexFind_eq, List.getD_eq_getElem?_getD]
  cases hget : (List.replicate n ([] : List RidWatch))[ridSlot
      (List.replicate n ([] : List RidWatch)).length rid]? with
  | none => rfl
  | some chain =>
    rw [List.eq_of_mem_replicate (List.mem_of_getElem? hget)]
    rfl

/-- **The index finds the correlations with the rule id among their base rules.** -/
theorem mem_ridIndexFind (rules : List CorrRule) (caps : CorrCaps) (rid : UInt32) (ci : ℕ) :
    ci ∈ ridIndexFind (corrEngineNew rules caps).ridBuckets rid ↔
      ∃ r, (admittedRules rules)[ci]? = some r ∧ rid ∈ r.baseRuleIds := by
  rw [corrEngineNew, mem_ridIndexFind_foldl _ (by rw [List.length_replicate]; exact nextPow2_pos _),
    ridIndexFind_replicate, or_iff_right List.not_mem_nil]
  constructor
  · rintro ⟨p, hp, hrid, rfl⟩
    exact ⟨p.1, List.mem_zipIdx_iff_getElem?.mp hp, hrid⟩
  · rintro ⟨r, hr, hrid⟩
    exact ⟨(r, ci), List.mem_zipIdx_iff_getElem?.mpr hr, hrid, rfl⟩

/-! ## The loop -/

section Visit

variable (fp : Doubles) (caps : CorrCaps) (ev : CorrEvent)
  (apply : Option (CorrRule → List CStr → Bool))

/-- The visit of one correlation, selected by `rid`: its new state, and what it did for which
group. -/
def visitOne (st : CorrState) (rid : UInt32) : CorrState × Option (List CStr × GroupOutcome) :=
  match resolveGroup st.rule ev rid with
  | none => (st, none)
  | some key =>
    if apply.all fun f => f st.rule key then
      let (st', o) := cstateInput fp caps st key (ev.input st.rule)
      (st', some (key, o))
    else (st, none)

/-- The outcomes of correlation `ci`. -/
def outcomesOf (ci : ℕ) (os : List CorrOutcome) : List CorrOutcome := os.filter fun o => o.corr == ci

/-- An outcome of correlation `ci`. -/
def corrOutcome (ci : ℕ) (p : List CStr × GroupOutcome) : CorrOutcome :=
  ⟨ci, p.1, p.2.decided, p.2.fire⟩

/-- An entry for another correlation, or for one already visited, leaves `ci` alone. -/
theorem visitStep_other {ci : ℕ} {acc : VisitState} {p : UInt32 × ℕ}
    (h : p.2 ≠ ci ∨ p.2 ∈ acc.visited) :
    (visitStep fp caps ev apply acc p).states[ci]? = acc.states[ci]? ∧
      (ci ∈ (visitStep fp caps ev apply acc p).visited ↔ ci ∈ acc.visited) ∧
      outcomesOf ci (visitStep fp caps ev apply acc p).outcomes = outcomesOf ci acc.outcomes := by
  unfold visitStep
  by_cases hvisited : p.2 ∈ acc.visited
  · rw [if_pos hvisited]
    exact ⟨rfl, .rfl, rfl⟩
  · have hne : p.2 ≠ ci := h.resolve_right hvisited
    have hmem : ci ∈ p.2 :: acc.visited ↔ ci ∈ acc.visited :=
      ⟨fun h => (List.mem_cons.mp h).resolve_left (Ne.symm hne), List.mem_cons_of_mem _⟩
    rw [if_neg hvisited]
    simp only
    split
    · exact ⟨rfl, hmem, rfl⟩
    · split
      · exact ⟨rfl, hmem, rfl⟩
      · split
        · refine ⟨List.getElem?_set_ne hne, hmem, ?_⟩
          simp [outcomesOf, hne]
        · exact ⟨rfl, hmem, rfl⟩

/-- The first entry for `ci` visits it. -/
theorem visitStep_self {ci : ℕ} {acc : VisitState} (rid : UInt32) {st : CorrState}
    (hst : acc.states[ci]? = some st) (hnew : ci ∉ acc.visited) :
    (visitStep fp caps ev apply acc (rid, ci)).states[ci]? =
        some (visitOne fp caps ev apply st rid).1 ∧
      ci ∈ (visitStep fp caps ev apply acc (rid, ci)).visited ∧
      outcomesOf ci (visitStep fp caps ev apply acc (rid, ci)).outcomes =
        outcomesOf ci acc.outcomes ++
          ((visitOne fp caps ev apply st rid).2.map (corrOutcome ci)).toList := by
  obtain ⟨hlt, -⟩ := List.getElem?_eq_some_iff.mp hst
  unfold visitStep visitOne
  rw [if_neg hnew]
  cases hkey : resolveGroup st.rule ev rid with
  | none =>
    simp only [hst, hkey]
    exact ⟨trivial, List.mem_cons_self, by simp⟩
  | some key =>
    by_cases happly : (apply.all fun f => f st.rule key) = true
    · simp only [hst, hkey, if_pos happly]
      refine ⟨List.getElem?_set_self hlt, List.mem_cons_self, ?_⟩
      simp [outcomesOf, corrOutcome]
    · simp only [hst, hkey, if_neg happly]
      exact ⟨trivial, List.mem_cons_self, by simp⟩

/-- **The loop over the index, as one correlation sees it**: the first entry for it counts. -/
theorem visit_fold {ci : ℕ} {st : CorrState} (ps : List (UInt32 × ℕ)) (acc : VisitState)
    (hst : acc.states[ci]? = some st) (hnew : ci ∉ acc.visited) :
    let acc' := ps.foldl (visitStep fp caps ev apply) acc
    let visit := (ps.find? fun p => p.2 == ci).map fun p => visitOne fp caps ev apply st p.1
    acc'.states[ci]? = some ((visit.map Prod.fst).getD st) ∧
      outcomesOf ci acc'.outcomes =
        outcomesOf ci acc.outcomes ++ ((visit.bind Prod.snd).map (corrOutcome ci)).toList := by
  have hdone : ∀ (ps : List (UInt32 × ℕ)) (acc : VisitState), ci ∈ acc.visited →
      (ps.foldl (visitStep fp caps ev apply) acc).states[ci]? = acc.states[ci]? ∧
        outcomesOf ci (ps.foldl (visitStep fp caps ev apply) acc).outcomes =
          outcomesOf ci acc.outcomes := by
    intro ps
    induction ps with
    | nil => exact fun _ _ => ⟨rfl, rfl⟩
    | cons p ps ih =>
      intro acc hmem
      have hother : p.2 ≠ ci ∨ p.2 ∈ acc.visited := by
        by_cases hp : p.2 = ci
        · exact Or.inr (hp ▸ hmem)
        · exact Or.inl hp
      obtain ⟨hstates, hvisited, hout⟩ := visitStep_other fp caps ev apply hother
      obtain ⟨h₁, h₂⟩ := ih _ (hvisited.mpr hmem)
      exact ⟨h₁.trans hstates, h₂.trans hout⟩
  induction ps generalizing acc with
  | nil => simp [hst]
  | cons p ps ih =>
    obtain ⟨rid, c⟩ := p
    by_cases hp : c = ci
    · subst hp
      obtain ⟨hstates, hvisited, hout⟩ := visitStep_self fp caps ev apply rid hst hnew
      obtain ⟨h₁, h₂⟩ := hdone ps _ hvisited
      simp only [List.foldl_cons, List.find?_cons, beq_self_eq_true, Option.map_some,
        Option.getD_some, Option.bind_some]
      exact ⟨h₁.trans hstates, h₂.trans hout⟩
    · have hother : (rid, c).2 ≠ ci ∨ (rid, c).2 ∈ acc.visited := Or.inl hp
      obtain ⟨hstates, hvisited, hout⟩ := visitStep_other fp caps ev apply hother
      obtain ⟨h₁, h₂⟩ := ih _ (hstates.trans hst) (fun hmem => hnew (hvisited.mp hmem))
      have hbeq : (c == ci) = false := beq_eq_false_iff_ne.mpr hp
      simp only [List.foldl_cons, List.find?_cons, hbeq]
      exact ⟨h₁, h₂.trans (by rw [hout])⟩

end Visit

end LibSigma
