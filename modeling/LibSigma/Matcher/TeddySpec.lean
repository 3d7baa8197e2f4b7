import LibSigma.Library.Chain
import LibSigma.Matcher.Valid

/-!
# What a Teddy scan confirms

A scan confirms each chained needle at most once, and confirms exactly the needles it meets on the
chain of some probed position.

## Two questions

The first is about control: which callbacks run, in what order, how often.  The second is about
text: what it means that a needle is met.  They are kept apart.  `teddyConfirm_runs` answers the
first for an arbitrary callback, for any needle lengths and for any list of positions, in terms of
`Probed`.  `probed_iff_occurs` answers the second, for needles of at least two bytes; a needle of
one byte sits on the chain of two, and is met only where the byte behind it hashes alike.

## The rule of a scan

A callback may touch the scratch of the prefilter, so the rule is an invariant rule: it takes an
invariant that may speak of the needles confirmed so far, asks that the callback keeps it when one
more is confirmed, and gives the invariant at exactly the needles met (`Marks`, `Adds`).  Each layer
of the scan, from one entry of a chain over a walk and a probe to the list of positions, has one
lemma of that shape, and the next layer uses the lemma of the one below.

## Stamps

`Confirmed` ties the stamps to the set of needles confirmed in this scan.  The array is not cleared
between scans; what makes that work is that the generation is ahead of every stamp when a scan
begins, with a clearing when the counter wraps, which is `LibSigma.Library.Stamp` at this array.

* `TeddyFor`: what the builders establish: both hash tables chain exactly the given needles, and the
  nibble tables mark both cases of their first bytes.
* `teddyConfirm_runs`: the scan for an arbitrary callback, as a rule.  Nothing is assumed of the
  needles' lengths.
* `probed_iff_occurs`: **for a needle of at least two bytes, "met on a probed position" is "occurs
  in the text, up to ASCII case"**, with SIMD and without.
-/

namespace LibSigma

open Library

/-! ## Case-insensitive occurrence

The specification: a needle occurs at a position of a text if it is there byte by byte, after
folding.  Bytes that are not letters fold to themselves. -/

/-- `n` starts at the start of `p`, byte by byte. -/
theorem teddyEqCi_iff {p n : Bytes} :
    teddyEqCi p n = true ↔
      n.length ≤ p.length ∧ ∀ i < n.length, sgLower (p.getD i 0) = sgLower (n.getD i 0) := by
  induction n generalizing p with
  | nil => simp [teddyEqCi]
  | cons b n ih =>
    cases p with
    | nil => simp [teddyEqCi]
    | cons a p =>
      rw [teddyEqCi, Bool.and_eq_true, beq_iff_eq, ih, List.length_cons, List.length_cons]
      constructor
      · rintro ⟨hab, hlen, hrest⟩
        refine ⟨by omega, fun i hi => ?_⟩
        cases i with
        | zero => exact hab
        | succ i => exact hrest i (by omega)
      · rintro ⟨hlen, hall⟩
        exact ⟨hall 0 (by omega), by omega, fun i hi => hall (i + 1) (by omega)⟩

/-- The needle occurs in the text, up to ASCII case. -/
def OccursCi (buf ndl : Bytes) : Prop := ∃ pos, teddyEqCi (buf.drop pos) ndl = true

theorem OccursCi.length_le {buf ndl : Bytes} (h : OccursCi buf ndl) : ndl.length ≤ buf.length := by
  obtain ⟨pos, heq⟩ := h
  have hle := (teddyEqCi_iff.mp heq).1
  rw [List.length_drop] at hle
  omega

/-- A byte is one of the two cases of its lower case. -/
theorem eq_of_sgLower_eq {c d : UInt8} (h : sgLower c = sgLower d) :
    c = sgLower d ∨
      c = if 97 ≤ sgLower d ∧ sgLower d ≤ 122 then sgLower d - 32 else sgLower d := by
  rw [← h]
  by_cases hc : 65 ≤ c ∧ c ≤ 90
  · right
    have hlow : sgLower c = c + 32 := if_pos hc
    rw [hlow, if_pos]
    · exact (UInt8.add_sub_cancel c 32).symm
    · simp only [UInt8.le_iff_toNat_le, UInt8.toNat_add, UInt8.reduceToNat] at hc ⊢
      omega
  · left
    exact (if_neg hc).symm

/-! ## What the builders establish

Chaining a needle puts it at the head of one chain and marks both cases of its first byte.  From the
empty matcher on, every chain holds exactly the needles of its hash, in the tables for long needles
and in those for short ones. -/

section Build

variable (litndl : List SigmaStr) (byte : ℕ → UInt8)

/-- The hash of a needle of three bytes or more. -/
def longHash (k : ℕ) : Option UInt32 :=
  (litndl[k]?).bind fun s =>
    if 3 ≤ s.len.toNat then
      some (teddyHash (teddyFp24 (byte s.off.toNat) (byte (s.off.toNat + 1))
        (byte (s.off.toNat + 2))))
    else none

/-- The hash of a shorter needle. -/
def shortHash (k : ℕ) : Option UInt32 :=
  (litndl[k]?).bind fun s =>
    if 3 ≤ s.len.toNat then none
    else some (teddyHash (teddyFp16 (byte s.off.toNat) (byte (s.off.toNat + 1))))

/-- A matcher for the needles `ids`. -/
structure TeddyFor (ids : List ℕ) (t : SigmaTeddy) : Prop where
  nNeedles : t.nNeedles = litndl.length
  long : Chained chainEnd UInt32.ofNat (longHash litndl byte) t.fpHead t.fpNext ids
  short : Chained chainEnd UInt32.ofNat (shortHash litndl byte) t.fp2Head t.fp2Next ids
  nShort : ∀ k ∈ ids, shortHash litndl byte k ≠ none → t.nShort ≠ 0
  fpC2 : ∀ k ∈ ids, ∀ s, litndl[k]? = some s →
    t.fpC2 k = if 3 ≤ s.len.toNat then (sgLower (byte (s.off.toNat + 2))).toUInt16 else teddyNoC2
  marked : ∀ k ∈ ids, ∀ s, litndl[k]? = some s → ∀ c, sgLower c = sgLower (byte s.off.toNat) →
    t.loLut (c &&& 0x0F).toNat = true ∧ t.hiLut (c >>> 4).toNat = true

theorem teddyFor_empty : TeddyFor litndl byte [] (teddyEmpty litndl.length) :=
  ⟨rfl, chained_empty, chained_empty, nofun, nofun, nofun⟩

variable {litndl byte}

theorem update_true_iff {f : ℕ → Bool} {i x : ℕ} :
    Function.update f i true x = true ↔ x = i ∨ f x = true := by
  by_cases hx : x = i
  · rw [hx, Function.update_self]
    simp
  · rw [Function.update_of_ne hx]
    simp [hx]

@[simp] theorem teddyMarkByte_loLut {t : SigmaTeddy} {c : UInt8} {x : ℕ} :
    (teddyMarkByte t c).loLut x = true ↔ x = (c &&& 0x0F).toNat ∨ t.loLut x = true :=
  update_true_iff

@[simp] theorem teddyMarkByte_hiLut {t : SigmaTeddy} {c : UInt8} {x : ℕ} :
    (teddyMarkByte t c).hiLut x = true ↔ x = (c >>> 4).toNat ∨ t.hiLut x = true :=
  update_true_iff

theorem teddyLink_luts (t : SigmaTeddy) (i len : ℕ) (p : ℕ → UInt8) :
    (teddyLink t i len p).loLut = t.loLut ∧ (teddyLink t i len p).hiLut = t.hiLut ∧
      (teddyLink t i len p).nNeedles = t.nNeedles := by
  unfold teddyLink
  split <;> exact ⟨rfl, rfl, rfl⟩

theorem ofNat_ne_chainEnd {k : ℕ} (hk : k < 2 ^ 32 - 1) : UInt32.ofNat k ≠ chainEnd := by
  intro h
  have hnat : (UInt32.ofNat k).toNat = chainEnd.toNat := congrArg UInt32.toNat h
  rw [UInt32.toNat_ofNat', Nat.mod_eq_of_lt (by omega)] at hnat
  simp only [chainEnd, UInt32.reduceToNat] at hnat
  omega

/-- Chaining one more needle. -/
theorem TeddyFor.chain {ids : List ℕ} {t : SigmaTeddy} (h : TeddyFor litndl byte ids t) {k : ℕ}
    (hnew : k ∉ ids) (hk : k < litndl.length) (hcount : litndl.length < 2 ^ 32) :
    TeddyFor litndl byte (ids ++ [k]) (teddyChain litndl byte t k) := by
  obtain ⟨s, hs⟩ : ∃ s, litndl[k]? = some s := ⟨_, List.getElem?_eq_getElem hk⟩
  have hstop : UInt32.ofNat k ≠ chainEnd := ofNat_ne_chainEnd (by omega)
  have hold : ∀ j ∈ ids, j ≠ k := fun j hj heq => hnew (heq ▸ hj)
  obtain ⟨hlo, hhi, hn⟩ := teddyLink_luts t k s.len.toNat fun j => byte (s.off.toNat + j)
  rw [teddyChain, hs]
  dsimp only
  refine ⟨hn.trans h.nNeedles, ?_, ?_, ?_, ?_, ?_⟩
  · change Chained _ _ _ (teddyLink t k s.len.toNat _).fpHead
      (teddyLink t k s.len.toNat _).fpNext _
    unfold teddyLink
    split
    · rename_i hlen
      refine h.long.insert ?_ hnew hstop
      rw [longHash, hs, Option.bind_some, if_pos hlen]
      rfl
    · rename_i hlen
      refine h.long.skip ?_
      rw [longHash, hs, Option.bind_some, if_neg hlen]
  · change Chained _ _ _ (teddyLink t k s.len.toNat _).fp2Head
      (teddyLink t k s.len.toNat _).fp2Next _
    unfold teddyLink
    split
    · rename_i hlen
      refine h.short.skip ?_
      rw [shortHash, hs, Option.bind_some, if_pos hlen]
    · rename_i hlen
      refine h.short.insert ?_ hnew hstop
      rw [shortHash, hs, Option.bind_some, if_neg hlen]
      rfl
  · intro j hj hshort
    change (teddyLink t k s.len.toNat _).nShort ≠ 0
    unfold teddyLink
    split
    · rename_i hlen
      rcases List.mem_append.mp hj with hj | hj
      · exact h.nShort j hj hshort
      · rw [List.mem_singleton.mp hj, shortHash, hs, Option.bind_some, if_pos hlen] at hshort
        exact absurd rfl hshort
    · exact Nat.succ_ne_zero _
  · intro j hj s' hs'
    change (teddyLink t k s.len.toNat _).fpC2 j = _
    unfold teddyLink
    rcases List.mem_append.mp hj with hj | hj
    · have hjk := hold j hj
      split <;> exact (Function.update_of_ne hjk _ _).trans (h.fpC2 j hj s' hs')
    · obtain rfl := List.mem_singleton.mp hj
      obtain rfl := Option.some.inj (hs.symm.trans hs')
      split <;> exact Function.update_self _ _ _
  · intro j hj s' hs' c hc
    rw [teddyMarkByte_loLut, teddyMarkByte_loLut, teddyMarkByte_hiLut, teddyMarkByte_hiLut, hlo, hhi]
    rcases List.mem_append.mp hj with hj | hj
    · obtain ⟨hl, hh⟩ := h.marked j hj s' hs' c hc
      exact ⟨.inr (.inr hl), .inr (.inr hh)⟩
    · obtain rfl := List.mem_singleton.mp hj
      obtain rfl := Option.some.inj (hs.symm.trans hs')
      rcases eq_of_sgLower_eq hc with heq | heq
      · rw [← Nat.add_zero s.off.toNat] at heq
        exact ⟨.inr (.inl (by rw [heq])), .inr (.inl (by rw [heq]))⟩
      · rw [← Nat.add_zero s.off.toNat] at heq
        exact ⟨.inl (by rw [heq]), .inl (by rw [heq])⟩

/-- Chaining a list of needles. -/
theorem TeddyFor.foldl {ids todo : List ℕ} {t : SigmaTeddy} (h : TeddyFor litndl byte ids t)
    (hnodup : (ids ++ todo).Nodup) (hin : ∀ k ∈ todo, k < litndl.length)
    (hcount : litndl.length < 2 ^ 32) :
    TeddyFor litndl byte (ids ++ todo) (todo.foldl (teddyChain litndl byte) t) := by
  induction todo generalizing ids t with
  | nil => rwa [List.append_nil]
  | cons k todo ih =>
    have hnew : k ∉ ids := by
      intro hmem
      exact (List.nodup_append.mp hnodup).2.2 k hmem k (by simp) rfl
    have hassoc : ids ++ k :: todo = (ids ++ [k]) ++ todo := by simp
    rw [hassoc] at hnodup ⊢
    exact ih (h.chain hnew (hin k (by simp)) hcount) hnodup fun j hj => hin j (by simp [hj])

/-- The full matcher chains every needle. -/
theorem teddyFor_build {t : SigmaTeddy} (hcount : litndl.length < 2 ^ 32)
    (ht : sigmaTeddyBuild litndl byte = some t) :
    TeddyFor litndl byte (List.range litndl.length) t := by
  rw [sigmaTeddyBuild] at ht
  split at ht
  · exact absurd ht (by simp)
  · obtain rfl := Option.some.inj ht
    exact (teddyFor_empty litndl byte).foldl List.nodup_range (fun k hk => List.mem_range.mp hk) hcount

/-- A subset matcher chains its needles. -/
theorem teddyFor_buildSubset {t : SigmaTeddy} {ids : List ℕ} (hcount : litndl.length < 2 ^ 32)
    (hnodup : ids.Nodup) (hin : ∀ k ∈ ids, k < litndl.length)
    (ht : sigmaTeddyBuildSubset litndl byte ids = some t) : TeddyFor litndl byte ids t := by
  rw [sigmaTeddyBuildSubset] at ht
  split at ht
  · exact absurd ht (by simp)
  · obtain rfl := Option.some.inj ht
    exact (teddyFor_empty litndl byte).foldl hnodup hin hcount

end Build

/-! ## What a scan confirms

The rule, layer by layer.  At each layer the step adds to the needles confirmed so far exactly those
that are met there and are not confirmed yet, and the callback has run for these. -/

section Scan

variable {σ : Type} {db : SigmaDb} {t : SigmaTeddy} {mark : ℕ → StateT σ (Except Fault) PUnit}
  {I : List ℕ → σ → Prop} {buf : Bytes} {ids done : List ℕ} {scr : TeddyScratch} {s : σ}

/-- Needle `k` passes the comparison at `pos`. -/
def Meets (db : SigmaDb) (t : SigmaTeddy) (buf : Bytes) (pos k : ℕ) : Prop :=
  ∃ n, db.litndl[k]? = some n ∧ n.len.toNat ≤ buf.length - pos ∧
    (t.fpC2 k = teddyNoC2 ∨ (sgLower (buf.getD (pos + 2) 0)).toUInt16 = t.fpC2 k) ∧
    teddyEqCi (buf.drop pos) (db.str n) = true

/-- The needles of this scan that are confirmed so far. -/
structure Confirmed (db : SigmaDb) (scr : TeddyScratch) (done : List ℕ) : Prop where
  length : scr.ndlGen.length = db.litndl.length
  bounded : Bounded scr.gen scr.ndlGen
  marked : ∀ k, Marked scr.gen scr.ndlGen k ↔ k ∈ done
  nodup : done.Nodup

/-- What is assumed of the callback: it meets no fault and keeps `I`, which may speak of the
needles confirmed so far. -/
def Marks (db : SigmaDb) (mark : ℕ → StateT σ (Except Fault) PUnit) (I : List ℕ → σ → Prop) :
    Prop :=
  ∀ done k s, k < db.litndl.length → k ∉ done → I done s →
    Runs (mark k) s fun _ u => I (done ++ [k]) u

/-- A scan step that adds exactly the needles in `P` to those confirmed. -/
def Adds (db : SigmaDb) (I : List ℕ → σ → Prop) (done : List ℕ) (P : ℕ → Prop)
    (scr : TeddyScratch) (u : σ) : Prop :=
  ∃ done', Confirmed db scr done' ∧ I done' u ∧ ∀ j, j ∈ done' ↔ j ∈ done ∨ P j

theorem adds_nothing (hscr : Confirmed db scr done) (hI : I done s) {P : ℕ → Prop}
    (hP : ∀ j, P j → j ∈ done) : Adds db I done P scr s :=
  ⟨done, hscr, hI, fun j => ⟨.inl, fun h => h.elim id (hP j)⟩⟩

/-- Stamping a needle that was not stamped. -/
theorem Confirmed.set (h : Confirmed db scr done) {k : ℕ} (hk : k < db.litndl.length)
    (hnew : k ∉ done) {steps : ℕ} :
    Confirmed db { scr with ndlGen := scr.ndlGen.set k scr.gen, chainSteps := steps }
      (done ++ [k]) := by
  refine ⟨by rw [List.length_set]; exact h.length, h.bounded.set k, fun j => ?_, ?_⟩
  · rw [marked_set (by rw [h.length]; exact hk), h.marked, List.mem_append, List.mem_singleton]
    exact or_comm
  · rw [List.nodup_append]
    refine ⟨h.nodup, List.pairwise_singleton _ k, fun a ha b hb heq => hnew ?_⟩
    rwa [← List.mem_singleton.mp hb, ← heq]

theorem teddyTry_runs (hdb : db.Valid) (hmark : Marks db mark I) {pos k : ℕ}
    (hk : k < db.litndl.length) (hscr : Confirmed db scr done) (hI : I done s) :
    Runs (teddyTry db t mark buf (buf.length - pos) pos k scr) s
      (Adds db I done fun j => j = k ∧ Meets db t buf pos k) := by
  have hscr' : Confirmed db { scr with chainSteps := scr.chainSteps + 1 } done :=
    ⟨hscr.length, hscr.bounded, hscr.marked, hscr.nodup⟩
  have hcell : k < scr.ndlGen.length := by rw [hscr.length]; exact hk
  have hstamp : scr.ndlGen[k]? = some scr.ndlGen[k] :=
    List.getElem?_eq_getElem _
  have hn : db.litndl[k]? = some db.litndl[k] := List.getElem?_eq_getElem hk
  have hpool := hdb.ndlInPool _ (List.getElem_mem hk)
  have hmiss : ¬ Meets db t buf pos k → Adds db I done (fun j => j = k ∧ Meets db t buf pos k)
      { scr with chainSteps := scr.chainSteps + 1 } s :=
    fun hnot => adds_nothing hscr' hI fun j hj => absurd hj.2 hnot
  have hmeets : ∀ n, db.litndl[k]? = some n → n = db.litndl[k] := fun n h =>
    Option.some.inj (h.symm.trans hn)
  unfold teddyTry
  refine runs_tableAt hstamp ?_
  split
  · rename_i hmarked
    have hdone : k ∈ done := (hscr.marked k).mp (by rw [Marked, hstamp, hmarked])
    exact Runs.pure (adds_nothing hscr' hI fun j hj => hj.1 ▸ hdone)
  · rename_i hunmarked
    have hnew : k ∉ done := by
      intro hdone
      have hm := (hscr.marked k).mpr hdone
      rw [Marked, hstamp] at hm
      exact hunmarked (Option.some.inj hm)
    refine runs_tableAt hn ?_
    split
    · rename_i hshort
      refine Runs.pure (hmiss ?_)
      rintro ⟨n, hn', hlen, -, -⟩
      rw [hmeets n hn'] at hlen
      omega
    · rename_i hlen
      split
      · rename_i hc2
        refine Runs.pure (hmiss ?_)
        rintro ⟨n, -, -, hor, -⟩
        exact hor.elim hc2.1 hc2.2
      · rename_i hc2
        refine runs_poolStr hpool ?_
        split
        · rename_i heq
          refine (hmark done k s hk hnew hI).bind fun _ u hu => Runs.pure ?_
          refine ⟨done ++ [k], hscr.set hk hnew, hu, fun j => ?_⟩
          have hmeet : Meets db t buf pos k := by
            refine ⟨_, hn, Nat.le_of_not_lt hlen, ?_, heq⟩
            by_cases hno : t.fpC2 k = teddyNoC2
            · exact .inl hno
            · exact .inr (not_not.mp fun hne => hc2 ⟨hno, hne⟩)
          simp [hmeet]
        · rename_i hne
          refine Runs.pure (hmiss ?_)
          rintro ⟨n, hn', -, -, heq⟩
          rw [hmeets n hn'] at heq
          exact hne heq

/-- A step and then another. -/
theorem Adds.trans {P P' : ℕ → Prop} {m : StateT σ (Except Fault) TeddyScratch}
    {scr₁ : TeddyScratch} {u : σ} (h : Adds db I done P scr₁ u)
    (hm : ∀ done₁, Confirmed db scr₁ done₁ → I done₁ u → Runs m u (Adds db I done₁ P')) :
    Runs m u (Adds db I done fun j => P j ∨ P' j) := by
  obtain ⟨done₁, hscr₁, hI₁, hmem₁⟩ := h
  refine (hm done₁ hscr₁ hI₁).mono ?_
  rintro scr₂ v ⟨done₂, hscr₂, hI₂, hmem₂⟩
  exact ⟨done₂, hscr₂, hI₂, fun j => by rw [hmem₂, hmem₁, or_assoc]⟩

theorem Adds.congr {P P' : ℕ → Prop} {u : σ} (h : Adds db I done P scr u)
    (hP : ∀ j, P j ↔ P' j) : Adds db I done P' scr u := by
  obtain ⟨done', hscr, hI, hmem⟩ := h
  exact ⟨done', hscr, hI, fun j => by rw [hmem, hP]⟩

/-- A walk stops at the end of its chain. -/
theorem teddyWalk_end {avail pos fuel : ℕ} {next : ℕ → UInt32} {head : UInt32}
    (h : head = chainEnd) : teddyWalk db t mark buf avail pos next fuel head scr = pure scr := by
  rw [teddyWalk.eq_def]
  dsimp only
  rw [if_pos h]

/-- A walk tries a needle and follows its link. -/
theorem teddyWalk_link {avail pos fuel k : ℕ} {next : ℕ → UInt32} (hk : k < 2 ^ 32)
    (hstop : UInt32.ofNat k ≠ chainEnd) :
    teddyWalk db t mark buf avail pos next (fuel + 1) (UInt32.ofNat k) scr =
      teddyTry db t mark buf avail pos k scr >>=
        teddyWalk db t mark buf avail pos next fuel (next k) := by
  have hnat : (UInt32.ofNat k).toNat = k := by
    rw [UInt32.toNat_ofNat']
    exact Nat.mod_eq_of_lt hk
  rw [teddyWalk.eq_def]
  dsimp only
  rw [if_neg hstop, hnat]

/-- Walking a chain tries each of its needles. -/
theorem teddyWalk_runs (hdb : db.Valid) (hcount : db.litndl.length < 2 ^ 32)
    (hmark : Marks db mark I) {pos : ℕ} {next : ℕ → UInt32} {l : List ℕ} {fuel : ℕ}
    {head : UInt32} (hlist : Threaded chainEnd UInt32.ofNat next head l) (hfuel : l.length ≤ fuel)
    (hin : ∀ k ∈ l, k < db.litndl.length) (hscr : Confirmed db scr done) (hI : I done s) :
    Runs (teddyWalk db t mark buf (buf.length - pos) pos next fuel head scr) s
      (Adds db I done fun j => j ∈ l ∧ Meets db t buf pos j) := by
  induction l generalizing fuel head scr done s with
  | nil =>
    rw [teddyWalk_end hlist]
    exact Runs.pure (adds_nothing hscr hI (by simp))
  | cons k l ih =>
    obtain ⟨rfl, hstop, hrest⟩ := hlist
    have hk : k < db.litndl.length := hin k (by simp)
    obtain ⟨fuel, rfl⟩ : ∃ f, fuel = f + 1 :=
      Nat.exists_eq_succ_of_ne_zero (by rw [List.length_cons] at hfuel; omega)
    rw [teddyWalk_link (hk.trans hcount) hstop]
    refine (teddyTry_runs hdb hmark hk hscr hI).bind fun scr₁ u hu => ?_
    have hfuel' : l.length ≤ fuel := by
      rw [List.length_cons] at hfuel
      omega
    have hwalk := hu.trans fun done₁ hscr₁ hI₁ =>
      ih hrest hfuel' (fun j hj => hin j (by simp [hj])) hscr₁ hI₁
    refine hwalk.mono fun scr₂ v hv => hv.congr fun j => ?_
    rw [List.mem_cons]
    constructor
    · rintro (⟨rfl, hj⟩ | ⟨hj, hjm⟩)
      · exact ⟨.inl rfl, hj⟩
      · exact ⟨.inr hj, hjm⟩
    · rintro ⟨rfl | hj, hjm⟩
      · exact .inl ⟨rfl, hjm⟩
      · exact .inr ⟨hj, hjm⟩

/-- Needle `k` is on a chain that the probe at `pos` walks, and passes the comparison there. -/
def Probed (db : SigmaDb) (t : SigmaTeddy) (ids : List ℕ) (buf : Bytes) (pos k : ℕ) : Prop :=
  k ∈ ids ∧ Meets db t buf pos k ∧
    (3 ≤ buf.length - pos ∧ longHash db.litndl db.byte k = some (teddyHash (teddyFp24
        (buf.getD (pos + 0) 0) (buf.getD (pos + 1) 0) (buf.getD (pos + 2) 0))) ∨
      shortHash db.litndl db.byte k = some (teddyHash (teddyFp16
        (buf.getD (pos + 0) 0) (buf.getD (pos + 1) 0))))

/-- What a scan needs to know of its matcher. -/
structure Scannable (db : SigmaDb) (ids : List ℕ) (t : SigmaTeddy) : Prop where
  valid : db.Valid
  count : db.litndl.length < 2 ^ 32
  teddyFor : TeddyFor db.litndl db.byte ids t
  nodup : ids.Nodup
  inRange : ∀ k ∈ ids, k < db.litndl.length

theorem Scannable.length_chainOf_le (ht : Scannable db ids t) {hash : ℕ → Option UInt32}
    (h : UInt32) : (chainOf hash ids h).length ≤ t.nNeedles := by
  have hsub : ids ⊆ List.range db.litndl.length :=
    fun k hk => List.mem_range.mpr (ht.inRange k hk)
  have hlen := ht.nodup.length_le_of_subset hsub
  rw [List.length_range] at hlen
  rw [ht.teddyFor.nNeedles]
  exact (Library.length_chainOf_le ids h).trans hlen

theorem teddyProbeAt_runs (ht : Scannable db ids t) (hmark : Marks db mark I) {pos : ℕ}
    (hscr : Confirmed db scr done) (hI : I done s) :
    Runs (teddyProbeAt db t mark buf pos scr) s (Adds db I done (Probed db t ids buf pos)) := by
  have hchain : ∀ {hash : ℕ → Option UInt32} {h : UInt32}, ∀ k ∈ chainOf hash ids h,
      k < db.litndl.length := fun k hk => ht.inRange k (mem_chainOf.mp hk).1
  have hshort : ∀ done₁ scr₁ u, Confirmed db scr₁ done₁ → I done₁ u →
      Runs (if t.nShort ≠ 0 then
          teddyWalk db t mark buf (buf.length - pos) pos t.fp2Next t.nNeedles
            (t.fp2Head (teddyHash (teddyFp16 (buf.getD (pos + 0) 0) (buf.getD (pos + 1) 0)))) scr₁
        else pure scr₁) u
        (Adds db I done₁ fun j => (j ∈ ids ∧ shortHash db.litndl db.byte j =
          some (teddyHash (teddyFp16 (buf.getD (pos + 0) 0) (buf.getD (pos + 1) 0)))) ∧
            Meets db t buf pos j) := by
    intro done₁ scr₁ u hscr₁ hI₁
    split
    · refine (teddyWalk_runs ht.valid ht.count hmark (ht.teddyFor.short _) (ht.length_chainOf_le _)
        hchain hscr₁ hI₁).mono fun _ _ h => h.congr fun j => ?_
      rw [mem_chainOf]
    · rename_i hnone
      refine Runs.pure (adds_nothing hscr₁ hI₁ fun j hj => ?_)
      exact absurd (ht.teddyFor.nShort j hj.1.1 (by rw [hj.1.2]; simp)) hnone
  unfold teddyProbeAt
  dsimp only
  split
  · rename_i hlong
    refine (teddyWalk_runs ht.valid ht.count hmark (ht.teddyFor.long _) (ht.length_chainOf_le _)
      hchain hscr hI).bind fun scr₁ u hu => ?_
    refine (hu.trans fun done₁ => hshort done₁ scr₁ u).mono fun _ _ h => h.congr fun j => ?_
    rw [mem_chainOf, Probed]
    constructor
    · rintro (⟨⟨hj, hh⟩, hm⟩ | ⟨⟨hj, hh⟩, hm⟩)
      · exact ⟨hj, hm, .inl ⟨hlong, hh⟩⟩
      · exact ⟨hj, hm, .inr hh⟩
    · rintro ⟨hj, hm, ⟨-, hh⟩ | hh⟩
      · exact .inl ⟨⟨hj, hh⟩, hm⟩
      · exact .inr ⟨⟨hj, hh⟩, hm⟩
  · rename_i hlong
    rw [pure_bind]
    refine (hshort done scr s hscr hI).mono fun _ _ h => h.congr fun j => ?_
    rw [Probed]
    constructor
    · rintro ⟨⟨hj, hh⟩, hm⟩
      exact ⟨hj, hm, .inr hh⟩
    · rintro ⟨hj, hm, ⟨h3, -⟩ | hh⟩
      · exact absurd h3 hlong
      · exact ⟨⟨hj, hh⟩, hm⟩

theorem teddyScan_runs (ht : Scannable db ids t) (hmark : Marks db mark I) {poss : List ℕ}
    (hscr : Confirmed db scr done) (hI : I done s) :
    Runs (teddyScan db t mark buf poss scr) s
      (Adds db I done fun j => ∃ pos ∈ poss, Probed db t ids buf pos j) := by
  induction poss generalizing scr done s with
  | nil => exact Runs.pure (adds_nothing hscr hI (by simp))
  | cons pos poss ih =>
    refine (teddyProbeAt_runs ht hmark hscr hI).bind fun scr₁ u hu => ?_
    exact (hu.trans fun done₁ hscr₁ hI₁ => ih hscr₁ hI₁).mono fun _ _ h => h.congr fun j => by simp

/-- The scratch between scans. -/
def ScratchReady (db : SigmaDb) (scr : TeddyScratch) : Prop :=
  scr.ndlGen.length = db.litndl.length ∧ Bounded scr.gen scr.ndlGen

/-- A new scan starts with no needle confirmed, whatever the scratch has been used for. -/
theorem confirmed_next (h : ScratchReady db scr) : Confirmed db (sigmaTeddyScratchNext scr) [] := by
  refine ⟨(length_nextCells _ _).trans h.1, h.2.next, fun k => ?_, List.nodup_nil⟩
  exact iff_of_false (notMarked_next h.2 k) (List.not_mem_nil)

/-- **The scan of a text.**  The callback runs once for each needle met on a probed position, and
for no other. -/
theorem teddyConfirm_runs (ht : Scannable db ids t) (hmark : Marks db mark I) (simd : Bool)
    (hscr : ScratchReady db scr) (hne : db.litndl ≠ []) (hlen : 2 ≤ buf.length) (hI : I [] s) :
    Runs (teddyConfirm db t mark simd buf scr) s fun scr' u => ScratchReady db scr' ∧
      ∃ done, done.Nodup ∧ I done u ∧
        ∀ k, k ∈ done ↔ ∃ pos ∈ teddyPositions t simd buf, Probed db t ids buf pos k := by
  have hcells : scr.ndlGen ≠ [] := by
    intro h
    have h0 := hscr.1
    rw [h] at h0
    exact hne (List.eq_nil_of_length_eq_zero h0.symm)
  unfold teddyConfirm
  rw [if_neg (not_or.mpr ⟨by omega, hcells⟩)]
  refine (teddyScan_runs ht hmark (confirmed_next hscr) hI).mono ?_
  rintro scr' u ⟨done, hscr', hI', hmem⟩
  refine ⟨⟨hscr'.length, hscr'.bounded⟩, done, hscr'.nodup, hI', fun k => ?_⟩
  rw [hmem]
  simp

/-! ## Confirmed means present

A needle of at least two bytes that occurs at a position is on a chain that the probe there walks,
because its hash is that of the bytes at the position, folded.  And the position is probed: the
block is not skipped, as the first byte passes both tables, and it is not the last byte of the text.
-/

theorem teddyFp16_congr {a b a' b' : UInt8} (ha : sgLower a = sgLower a')
    (hb : sgLower b = sgLower b') : teddyFp16 a b = teddyFp16 a' b' := by
  rw [teddyFp16, teddyFp16, ha, hb]

theorem teddyFp24_congr {a b c a' b' c' : UInt8} (ha : sgLower a = sgLower a')
    (hb : sgLower b = sgLower b') (hc : sgLower c = sgLower c') :
    teddyFp24 a b c = teddyFp24 a' b' c' := by
  rw [teddyFp24, teddyFp24, teddyFp16_congr ha hb, hc]

/-- Chunks are skipped only when no byte in them is interesting. -/
theorem mem_teddyPositions {simd : Bool} {pos : ℕ} (hpos : pos + 2 ≤ buf.length)
    (hbyte : t.loLut (buf.getD pos 0 &&& 0x0F).toNat = true ∧
      t.hiLut (buf.getD pos 0 >>> 4).toNat = true) :
    pos ∈ teddyPositions t simd buf := by
  unfold teddyPositions
  dsimp only
  generalize hchunks : (if simd then buf.length / 16 else 0) = chunks
  have hle : chunks ≤ buf.length / 16 := by
    rw [← hchunks]
    split
    · exact Nat.le_refl _
    · exact Nat.zero_le _
  rw [List.mem_append]
  by_cases htail : 16 * chunks ≤ pos
  · right
    rw [List.mem_range'_1]
    omega
  · left
    rw [List.mem_flatMap]
    refine ⟨pos / 16, List.mem_range.mpr (by omega), ?_⟩
    have hget : (slice buf (16 * (pos / 16)) 16)[pos % 16]? = some (buf.getD pos 0) := by
      rw [getElem?_slice, if_pos (Nat.mod_lt _ (by decide)), Nat.div_add_mod,
        List.getD_eq_getElem?_getD, List.getElem?_eq_getElem (by omega), Option.getD_some]
    have hint : teddyChunkInteresting t (slice buf (16 * (pos / 16)) 16) = true := by
      rw [teddyChunkInteresting, List.any_eq_true]
      exact ⟨_, List.mem_of_getElem? hget, Bool.and_eq_true_iff.mpr hbyte⟩
    rw [if_pos hint, List.mem_filter, List.mem_map]
    refine ⟨⟨pos % 16, List.mem_range.mpr (Nat.mod_lt _ (by decide)), Nat.div_add_mod _ _⟩, ?_⟩
    exact decide_eq_true (by omega)

/-- The builders and the scan read the same needle bytes. -/
theorem getD_str {n : SigmaStr} (hn : db.InPool n) {i : ℕ} (hi : i < n.len.toNat) :
    (db.str n).getD i 0 = db.byte (n.off.toNat + i) := by
  have hlt : n.off.toNat + i < db.strpool.length := by
    unfold Tables.InPool at hn
    omega
  rw [Tables.str, List.getD_eq_getElem?_getD, List.getElem?_take_of_lt hi, List.getElem?_drop,
    SigmaDb.byte, poolByte, List.getD_eq_getElem?_getD, List.getElem?_append_left hlt]

theorem length_str {n : SigmaStr} (hn : db.InPool n) : (db.str n).length = n.len.toNat := by
  rw [Tables.str, List.length_take, List.length_drop]
  unfold Tables.InPool at hn
  omega

/-- **Confirmed means present.**  A chained needle of at least two bytes is met on a probed
position exactly when it occurs in the text, up to ASCII case. -/
theorem probed_iff_occurs (ht : Scannable db ids t) (simd : Bool) {k : ℕ} {n : SigmaStr}
    (hn : db.litndl[k]? = some n) (hk : k ∈ ids) (htwo : 2 ≤ n.len.toNat) :
    (∃ pos ∈ teddyPositions t simd buf, Probed db t ids buf pos k) ↔
      OccursCi buf (db.str n) := by
  have hpool := ht.valid.ndlInPool n (List.mem_of_getElem? hn)
  constructor
  · rintro ⟨pos, -, -, ⟨n', hn', -, -, heq⟩, -⟩
    obtain rfl := Option.some.inj (hn'.symm.trans hn)
    exact ⟨pos, heq⟩
  · rintro ⟨pos, heq⟩
    obtain ⟨hlen, hbytes⟩ := teddyEqCi_iff.mp heq
    rw [length_str hpool, List.length_drop] at hlen
    rw [length_str hpool] at hbytes
    have hbyte : ∀ i < n.len.toNat,
        sgLower (buf.getD (pos + i) 0) = sgLower (db.byte (n.off.toNat + i)) := by
      intro i hi
      rw [← getD_str hpool hi, ← hbytes i hi]
      simp [List.getD_eq_getElem?_getD, List.getElem?_drop]
    have h0 := hbyte 0 (by omega)
    have h1 := hbyte 1 (by omega)
    rw [Nat.add_zero n.off.toNat] at h0
    refine ⟨pos, mem_teddyPositions (by omega) ?_, hk, ⟨n, hn, hlen, ?_, heq⟩, ?_⟩
    · exact ht.teddyFor.marked k hk n hn _ (by rw [← h0, Nat.add_zero])
    · rw [ht.teddyFor.fpC2 k hk n hn]
      split
      · rename_i hthree
        exact .inr (by rw [hbyte 2 (by omega)])
      · exact .inl rfl
    · by_cases hthree : 3 ≤ n.len.toNat
      · left
        refine ⟨by omega, ?_⟩
        rw [longHash, hn, Option.bind_some, if_pos hthree,
          teddyFp24_congr h0 h1 (hbyte 2 (by omega))]
      · right
        rw [shortHash, hn, Option.bind_some, if_neg hthree, teddyFp16_congr h0 h1]

end Scan

end LibSigma
