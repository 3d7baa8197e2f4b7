import LibSigma.Matcher.Lossless
import LibSigma.Reference.Artifacts

/-!
# Where events go

An event reports the rules of the buckets that the calls put them in, and the literal index that the
calls gave leaves out none of them if it is sound.

## Sound in terms of the calls

`LibSigma.Matcher.Lossless` speaks of postings, field numbers and masks.  Whoever writes a compiler
on top of the builder thinks of other things: this rule cannot match unless that field contains this
literal.  `SourceDb.Gated` and `SourceDb.Sound` say so in the names and strings of the calls, and
the two theorems after them carry it to the tables.

## Buckets

The calls give buckets by name, and one of them may have no name: it is the always-verify bucket.
An event goes to the buckets that its route fields name and to that one.  The numbers of the buckets
come from the sorted order of the names, which only the artifact knows; the set of rules an event
reaches does not depend on it (`inScope_iff`).

## The order of the hits

A report lists rules in the order in which they were visited, and that order is by buckets.  So with
routing the theorem states the report up to order, and the count exactly; without a route field, or
without buckets, the order is that of the calls.

* `SourceDb.Gated`, `SourceDb.Sound`: what the calls owe to the prefilter.
* `gateReady_of_gated`, `indexSound_of_sound`: **the index of the artifact is as sound as that of
  the calls.**
* `artifact_routes_source`: **what an event reports.**
-/

namespace LibSigma

open Library

/-! ## What the calls owe to the prefilter -/

namespace SourceDb

/-- The clause count of a rule. -/
def clauses (s : SourceDb) (i : ℕ) : Int := (s.emittedClauses[i]?).getD 0

/-- The predicates of a rule. -/
def rulePreds (s : SourceDb) (r : PyRule) : List SourcePred :=
  (slice s.sels r.selStart.toNat r.selCount.toNat).flatMap fun sel =>
    slice s.preds sel.1.toNat sel.2.toNat

/-- Rules without clauses are always verified, needles have two bytes, and a scoped posting names
a field that its rule tests. -/
structure Gated (s : SourceDb) : Prop where
  unclaused : ∀ i < s.rules.length, s.clauses i = 0 → (i : Int) ∈ s.alwaysVerify
  needles : ∀ p ∈ s.needles, 2 ≤ (encoded p.1).length
  postField : ∀ p ∈ s.needles, ∀ r ∈ p.2, r.fieldId ≠ sigmaLitrefAnyField.toNat →
    ∃ rule, s.rules[r.ruleIdx.toNat]? = some rule ∧
      ∃ q ∈ s.rulePreds rule, s.fields[r.fieldId.toNat]? = some q.field

/-- A needle for clause `c` of rule `i` occurs in the field it was given for, or in any field. -/
def NeedlePresent (s : SourceDb) (ev : Event) (i c : ℕ) : Prop :=
  ∃ p ∈ s.needles, ∃ r ∈ p.2, r.ruleIdx = i ∧ r.clause = c ∧
    ∃ (f : ℕ) (name : PyStr) (v : Bytes), (r.fieldId = sigmaLitrefAnyField.toNat ∨ r.fieldId = f) ∧
      s.fields[f]? = some name ∧ ev (encoded name) = some v ∧ OccursCi v (encoded p.1)

/-- A field witness holds of an event. -/
def witnessHolds (pf : Platform) (s : SourceDb) (ev : Event) (w : PyFwit) : Bool :=
  ((s.fields[w.fieldId.toNat]?).bind fun name => ev (encoded name)).any fun v =>
    v.length ≠ 0 &&
      if w.sigmaOp = some .opCidr then
        (s.cidrs[w.ival.toNat]?).any fun c => cidrVerdict pf v c.network
      else
        match sgToI64 v, w.sigmaOp with
        | some iv, some op => numHolds op iv (Int64.ofInt w.ival)
        | _, _ => false

/-- Every clause of a rule that holds is witnessed. -/
def Sound (pf : Platform) (s : SourceDb) (ev : Event) : Prop :=
  ∀ i r, s.rules[i]? = some r → ruleHolds pf s ev r = true → ∀ c : ℕ, (c : Int) < s.clauses i →
    s.NeedlePresent ev i c ∨
      ∃ w ∈ s.fwits, w.ruleIdx = i ∧ w.clause = c ∧ witnessHolds pf s ev w = true

end SourceDb

/-! ## The tables behind it -/

/-- The tables that were read back hold what is said. -/
theorem Laid.of_same {s : SourceDb} {t t' : Tables} (h : Laid s t) (hsame : t.Same t') : Laid s t' where
  fields := by rw [hsame.fields, hsame.strpool]; exact h.fields
  values := by rw [hsame.values, hsame.strpool]; exact h.values
  preds := by rw [hsame.preds]; exact h.preds
  sels := by rw [hsame.sels]; exact h.sels
  cond := by rw [hsame.cond]; exact h.cond
  rules := by rw [hsame.rules]; exact h.rules
  cidrs := by rw [hsame.cidrs]; exact h.cidrs
  keys := by rw [hsame.bucketKeys, hsame.strpool]; exact h.keys
  lists := by rw [hsame.buckets, hsame.bucketIdx]; exact h.lists
  bucketIdx := by rw [hsame.bucketIdx]; exact h.bucketIdx
  ndls := by rw [hsame.litndl, hsame.strpool]; exact h.ndls
  posts := by rw [hsame.litpost, hsame.litpostRef]; exact h.posts
  litpostRef := by rw [hsame.litpostRef]; exact h.litpostRef
  litav := by rw [hsame.litav]; exact h.litav
  clauses := by rw [hsame.ruleClauses]; exact h.clauses
  fwit := by rw [hsame.fwit]; exact h.fwit

/-- A string of the pool. -/
theorem Tables.str_of_spells {t : Tables} {v : PyStr} {k : SigmaStr}
    (h : Spells t.strpool v k.toRow) : t.str k = encoded v :=
  Lies.slice_eq h

/-- What is read of a mapped list at a reference. -/
theorem map_slice_of_lies {α β : Type} {f : α → β} {xs : List α} {piece : List β} {a b : ℕ}
    (h : Lies (xs.map f) piece ((a : Int), (b : Int))) : (slice xs a b).map f = piece := by
  have hread := h.slice_eq
  rwa [Int.toNat_natCast, Int.toNat_natCast, slice, ← List.map_drop, ← List.map_take] at hread

namespace Laid

variable {pf : Platform} {s : SourceDb} {db : SigmaDb} {ev : Event}

section Tables

variable {t : Tables} (h : Laid s t)
include h

theorem clauses_eq (i : ℕ) : (t.clauses i : Int) = s.clauses i := by
  rw [SourceDb.clauses, ← h.getElem?_clauses, Tables.clauses]
  cases t.ruleClauses with
  | none => rfl
  | some cs =>
    dsimp only
    rw [Option.getD_some, List.getD_eq_getElem?_getD]
    cases cs[i]? <;> rfl

/-- A needle with its postings. -/
theorem needle_at (k : ℕ) : (s.needles[k]? = none ∧ t.litndl[k]? = none) ∨
    ∃ p n, s.needles[k]? = some p ∧ t.litndl[k]? = some n ∧ Spells t.strpool p.1 n.toRow ∧
      (t.postings k).map SigmaLitref.toRow = p.2 := by
  rcases forall₂_getElem? h.ndls k with hnone | ⟨p, n, hp, hn, hspells⟩
  · exact .inl hnone
  · rcases forall₂_getElem? h.posts k with ⟨hnone, -⟩ | ⟨p', q, hp', hq, hlies⟩
    · exact absurd (hnone.symm.trans hp) (Option.some_ne_none _).symm
    · obtain rfl := Option.some.inj (hp'.symm.trans hp)
      refine .inr ⟨p', n, hp, hn, hspells, ?_⟩
      rw [Tables.postings, hq]
      exact map_slice_of_lies hlies

/-- The predicates of a rule. -/
theorem rulePreds_rel (r : SigmaRule) :
    List.Forall₂ (PredRecord s.fields) (s.rulePreds r.toRow) (t.rulePreds r) := by
  have hstart : r.toRow.selStart.toNat = r.selStart.toNat := Int.toNat_natCast _
  have hcount : r.toRow.selCount.toNat = r.selCount.toNat := Int.toNat_natCast _
  rw [SourceDb.rulePreds, Tables.rulePreds, h.sels, hstart, hcount, slice, slice, ← List.map_drop,
    ← List.map_take, List.flatMap_map]
  generalize (t.sels.drop r.selStart.toNat).take r.selCount.toNat = sels
  induction sels with
  | nil => exact .nil
  | cons sel sels ih =>
    rw [List.flatMap_cons, List.flatMap_cons]
    refine List.rel_append ?_ ih
    have hfrom : sel.toRow.1.toNat = sel.predStart.toNat := Int.toNat_natCast _
    have hnum : sel.toRow.2.toNat = sel.predCount.toNat := Int.toNat_natCast _
    rw [hfrom, hnum]
    exact List.forall₂_take _ (List.forall₂_drop _ h.preds)

theorem alwaysVerified_iff (i : ℕ) :
    (∃ a ∈ t.litav, a.toNat = i) ↔ (i : Int) ∈ s.alwaysVerify := by
  rw [← h.litav, List.mem_map]
  exact exists_congr fun a => and_congr_right' Int.ofNat_inj.symm

end Tables

section Transfer

/-- A bucket with its rules. -/
theorem bucket_at (hl : Laid s db.toTables) (b : ℕ) :
    (s.buckets[b]? = none ∧ db.bucketKeys[b]? = none) ∨
      ∃ p k, s.buckets[b]? = some p ∧ db.bucketKeys[b]? = some k ∧ Spells db.strpool p.1 k.toRow ∧
        (bucketRules db b).map (fun i : ℕ => (i : Int)) = p.2 := by
  rcases forall₂_getElem? hl.keys b with hnone | ⟨p, k, hp, hk, hspells⟩
  · exact .inl hnone
  · rcases forall₂_getElem? hl.lists b with ⟨hnone, -⟩ | ⟨p', bk, hp', hbk, hlies⟩
    · exact absurd (hnone.symm.trans hp) (Option.some_ne_none _).symm
    · obtain rfl := Option.some.inj (hp'.symm.trans hp)
      refine .inr ⟨p', k, hp, hk, hspells, ?_⟩
      rw [bucketRules, hbk]
      dsimp only
      rw [List.map_map]
      exact map_slice_of_lies hlies

/-- **The buckets of an event are those of the calls.** -/
theorem inScope_iff (hl : Laid s db.toTables) (hbuckets : ∀ p ∈ s.buckets, Encodes p.1) (i : ℕ) :
    (∃ b, RoutedTo db ev b ∧ i ∈ bucketRules db b) ↔ s.inScope ev i := by
  have hkey : ∀ {p : PyStr × List Int} {k : SigmaStr}, p ∈ s.buckets →
      Spells db.strpool p.1 k.toRow → ((k.len = 0 ∨ ∃ name ∈ routeNames, ∃ v, ev name = some v ∧
        v ≠ [] ∧ db.str k = v) ↔
      (p.1 = [] ∨ ∃ name ∈ routeNames, ∃ v, ev name = some v ∧ v ≠ [] ∧ encoded p.1 = v)) := by
    intro p k hp hk
    rw [← nil_iff_of_spells (hbuckets p hp) hk, Tables.str_of_spells hk]
  have hmem : ∀ {p : PyStr × List Int} {b : ℕ},
      (bucketRules db b).map (fun i : ℕ => (i : Int)) = p.2 →
      (i ∈ bucketRules db b ↔ (i : Int) ∈ p.2) := by
    intro p b hmap
    rw [← hmap, List.mem_map_of_injective Nat.cast_injective]
  constructor
  · rintro ⟨b, ⟨k, hk, hto⟩, hi⟩
    rcases hl.bucket_at b with ⟨-, hnone⟩ | ⟨p, k', hp, hk', hspells, hmap⟩
    · exact absurd (hnone.symm.trans hk) (Option.some_ne_none _).symm
    · obtain rfl := Option.some.inj (hk'.symm.trans hk)
      have hin := List.mem_of_getElem? hp
      exact ⟨p, hin, (hmem hmap).mp hi, (hkey hin hspells).mp hto⟩
  · rintro ⟨p, hin, hi, hto⟩
    obtain ⟨b, hb⟩ := List.mem_iff_getElem?.mp hin
    rcases hl.bucket_at b with ⟨hnone, -⟩ | ⟨p', k, hp, hk, hspells, hmap⟩
    · exact absurd (hnone.symm.trans hb) (Option.some_ne_none _).symm
    · obtain rfl := Option.some.inj (hp.symm.trans hb)
      exact ⟨b, ⟨k, hk, (hkey hin hspells).mpr hto⟩, (hmem hmap).mpr hi⟩

/-- The keys are distinct. -/
theorem nodup_keys (hl : Laid s db.toTables) (hkept : s.Kept)
    (hbuckets : ∀ p ∈ s.buckets, Encodes p.1) : (db.bucketKeys.map db.str).Nodup := by
  have hstr : db.bucketKeys.map db.str = s.buckets.map fun p => encoded p.1 := by
    refine List.ext_getElem? fun b => ?_
    rw [List.getElem?_map, List.getElem?_map]
    rcases hl.bucket_at b with ⟨hs, hdb⟩ | ⟨p, k, hp, hk, hspells, -⟩
    · rw [hs, hdb]
      rfl
    · rw [hp, hk, Option.map_some, Option.map_some, Tables.str_of_spells hspells]
  have hinj : ∀ x ∈ s.buckets, ∀ y ∈ s.buckets, encoded x.1 = encoded y.1 → x.1 = y.1 :=
    fun x hx y hy heq => (hbuckets x hx).encoded_inj (hbuckets y hy) heq
  rw [hstr]
  refine List.Nodup.map_on ?_ (List.Nodup.of_map _ hkept.buckets)
  intro x hx y hy heq
  exact List.inj_on_of_nodup_map hkept.buckets hx hy (hinj x hx y hy heq)

/-! ## Soundness -/

/-- **An index that the calls keep ready is ready.** -/
theorem gateReady_of_gated (hl : Laid s db.toTables) (hkept : s.Kept) (hgated : s.Gated) :
    GateReady db where
  unclaused := by
    intro i hi hzero
    refine (hl.alwaysVerified_iff i).mpr (hgated.unclaused i ?_ ?_)
    · rwa [hl.rules, List.length_map]
    · rw [← hl.clauses_eq, hzero]
      rfl
  needles := by
    intro n hn
    obtain ⟨k, hk⟩ := List.mem_iff_getElem?.mp hn
    rcases hl.needle_at k with ⟨-, hnone⟩ | ⟨p, n', hp, hn', ⟨pre, post, -, href⟩, -⟩
    · exact absurd (hnone.symm.trans hk) (Option.some_ne_none _).symm
    · obtain rfl := Option.some.inj (hn'.symm.trans hk)
      have hlen : n'.len.toNat = (encoded p.1).length := Int.ofNat.inj (Prod.mk.inj href).2
      rw [hlen]
      exact hgated.needles p (List.mem_of_getElem? hp)
  postField := by
    intro k r hr hscoped
    rcases hl.needle_at k with ⟨-, hnone⟩ | ⟨p, n, hp, -, -, hmap⟩
    · have hlen := db.litpost_length
      have hout : db.litpost.length ≤ k := hlen ▸ List.getElem?_eq_none_iff.mp hnone
      rw [Tables.postings, List.getElem?_eq_none hout] at hr
      exact absurd hr List.not_mem_nil
    · have hmem : r.toRow ∈ p.2 := hmap ▸ List.mem_map_of_mem hr
      have hne : r.toRow.fieldId ≠ sigmaLitrefAnyField.toNat := fun heq =>
        hscoped (UInt16.toNat_inj.mp (Int.ofNat.inj heq))
      obtain ⟨rule, hrule, q, hq, hname⟩ :=
        hgated.postField p (List.mem_of_getElem? hp) r.toRow hmem hne
      have hidx : r.toRow.ruleIdx.toNat = r.ruleIdx.toNat := Int.toNat_natCast _
      have hfid : r.toRow.fieldId.toNat = r.fieldId.toNat := Int.toNat_natCast _
      rw [hl.rules, List.getElem?_map, hidx] at hrule
      obtain ⟨rule', hrule', rfl⟩ := Option.map_eq_some_iff.mp hrule
      obtain ⟨i, hi⟩ := List.mem_iff_getElem?.mp hq
      rcases forall₂_getElem? (hl.rulePreds_rel rule') i with ⟨hnone, -⟩ | ⟨q', p', hq', hp', hrec⟩
      · exact absurd (hnone.symm.trans hi) (Option.some_ne_none _).symm
      · obtain rfl := Option.some.inj (hq'.symm.trans hi)
        refine ⟨rule', hrule', p', List.mem_of_getElem? hp', UInt16.toNat_inj.mp ?_⟩
        -- a field has one number
        have hlt := (List.getElem?_eq_some_iff.mp hrec.field).1
        exact (List.getElem?_inj hlt hkept.fields).mp (hrec.field.trans (hfid ▸ hname).symm)

/-- A field witness of the database means what was said. -/
theorem fwitTrue_eq (h : Compiled pf s db) {w : SigmaFwit} (hw : db.fwitOk w = true)
    (hcidrs : db.cidrs.length < 2 ^ 32) :
    fwitTrue pf db ev w = SourceDb.witnessHolds pf s ev w.toRow := by
  have hop : w.toRow.sigmaOp = SigmaOp.ofByte w.op := by
    rw [PyFwit.sigmaOp, SigmaFwit.toRow, Int.toNat_natCast, UInt8.ofNat_toNat]
  have hfield : w.toRow.fieldId.toNat = w.fieldId.toNat := Int.toNat_natCast _
  have hival : Int64.ofInt w.toRow.ival = w.ival := Int64.ofInt_toInt _
  rw [fwitTrue, SourceDb.witnessHolds, h.fieldValue_eq, hop, hfield, hival]
  refine congrArg (Option.any · _) (funext fun v => congrArg (_ && ·) ?_)
  split
  · rename_i hcidr
    -- the number of a network that is there fits 32 bits
    have hnet : w.ival.toUInt64.toNat < db.cidrs.length := by
      simp only [Tables.fwitOk, hcidr, Bool.and_eq_true, decide_eq_true_eq] at hw
      exact hw.2
    have hlow : w.ival.toUInt64.toUInt32.toNat = w.ival.toUInt64.toNat := by
      rw [UInt64.toNat_toUInt32]
      exact Nat.mod_eq_of_lt (by omega)
    have hnum : w.toRow.ival.toNat = w.ival.toUInt64.toNat := by
      have hbits := toInt_eq_or w.ival
      change w.ival.toInt.toNat = _
      omega
    rw [hlow, hnum]
    rcases forall₂_getElem? h.cidrs w.ival.toUInt64.toNat with ⟨hs, hdb⟩ | ⟨c, k, hs, hdb, rfl⟩
    · rw [hs, hdb]
      rfl
    · rw [hs, hdb]
      rfl
  · rfl

/-- **An index that the calls keep sound is sound.** -/
theorem indexSound_of_sound (hl : Laid s db.toTables) (h : Compiled pf s db) (hdb : db.Loaded)
    (hok : db.rangesOk = true) (hcidrs : db.cidrs.length < 2 ^ 32) (hsound : s.Sound pf ev) :
    IndexSound pf db ev := by
  intro i hacc c hc
  have hholds := (ruleAccepts_iff hdb).mpr hacc
  rw [h.ruleAccepts_eq hdb.valid, Option.any_eq_true] at hholds
  obtain ⟨r, hr, hrule⟩ := hholds
  have hcount : (c : Int) < s.clauses i := by
    rw [← hl.clauses_eq]
    exact Int.ofNat_lt.mpr hc
  rcases hsound i r hr hrule c hcount with
    ⟨p, hp, q, hq, hqi, hqc, f, name, v, hfield, hname, hv, hocc⟩ | ⟨w, hw, hwi, hwc, hholds⟩
  · left
    obtain ⟨k, hk⟩ := List.mem_iff_getElem?.mp hp
    rcases hl.needle_at k with ⟨hnone, -⟩ | ⟨p', n, hp', hn, hspells, hmap⟩
    · exact absurd (hnone.symm.trans hk) (Option.some_ne_none _).symm
    · obtain rfl := Option.some.inj (hp'.symm.trans hk)
      rw [← hmap] at hq
      obtain ⟨q, hpost, rfl⟩ := List.mem_map.mp hq
      refine ⟨k, n, hn, q, hpost, Int.ofNat.inj hqi, Int.ofNat.inj hqc, f, v, ?_, ?_, ?_⟩
      · refine hfield.imp (fun heq => UInt16.toNat_inj.mp (Int.ofNat.inj heq)) fun heq => ?_
        exact Int.ofNat.inj heq
      · rw [h.fieldValue_eq, hname]
        exact hv
      · rwa [Tables.str_of_spells hspells]
  · right
    rw [← hl.fwit] at hw
    obtain ⟨w, hmem, rfl⟩ := List.mem_map.mp hw
    have hwok : db.fwitOk w = true := by
      simp only [Tables.rangesOk, Bool.and_eq_true, List.all_eq_true] at hok
      exact hok.2 w hmem
    refine ⟨w, hmem, Int.ofNat.inj hwi, Int.ofNat.inj hwc, (fwitTrue_iff hdb).mp ?_⟩
    rw [fwitTrue_eq h hwok hcidrs]
    exact hholds

end Transfer

end Laid

/-! ## Reports -/

section Artifact

variable {pf : Platform} {calls : List BuilderCall} {version : Int} {bytes : Bytes} {db : SigmaDb}

/-- Without buckets, or without a route field, all rules that hold are reported. -/
theorem runReport_unrouted
    (hser : (calls.foldl BuilderCall.apply .init).serialize version = some bytes)
    (hsize : bytes.length < 2 ^ 32) (hload : sigmaDbLoadBuffer pf bytes = .ok db)
    (hfields : (SourceDb.ofCalls calls).fields.length ≤ 65536) (ev : Event)
    (hall : (SourceDb.ofCalls calls).buckets = [] ∨ ¬ Routed ev) (mode maxHits : Int) :
    runReport pf db ev mode maxHits = (SourceDb.ofCalls calls).report pf ev maxHits := by
  obtain ⟨t, htotal, rfl, hlaid, -⟩ := wellFormed_iff_checks hser hsize
  have h := compiled_of_calls hser hsize hload
  have hl := hlaid.of_same (same_of_load htotal hload)
  have hdb := loaded_of_loadBuffer hload
  have hfull : db.bucketKeys.length = 0 ∨ hasRoute db ev = false := by
    refine hall.imp (fun hnil => ?_) fun hnot => ?_
    · rw [← hl.keys.length_eq, hnil]
      rfl
    · exact Bool.eq_false_iff.mpr (mt (hasRoute_iff hdb (h.fields.length_eq ▸ hfields)).mp hnot)
  rw [runReport, runVisits, if_pos hfull]
  exact h.linearReport_eq hdb.valid maxHits

/-- **What an event reports.**  If a route field is set and there are buckets: exactly the rules of
the buckets the calls put them in for this event that hold, each once; otherwise all rules that
hold, in the order of their calls.  The prefilter is off, or its index is sound. -/
theorem artifact_routes_source
    (hser : (calls.foldl BuilderCall.apply .init).serialize version = some bytes)
    (hsize : bytes.length < 2 ^ 32) (hload : sigmaDbLoadBuffer pf bytes = .ok db)
    (hfields : (SourceDb.ofCalls calls).fields.length ≤ 65536) (ev : Event) (maxHits : Int)
    {e : SigmaEval} (he : Reached pf db e)
    (hmode : e.prefilterOn = 0 ∨
      (SourceDb.ofCalls calls).Gated ∧ (SourceDb.ofCalls calls).Sound pf ev) :
    ∃ rep e', (sigmaEvalRun pf db ev maxHits).run e = .ok (rep, e') ∧
      ((SourceDb.ofCalls calls).buckets ≠ [] → Routed ev → ∃ fired : List ℕ, fired.Nodup ∧
        (∀ i, i ∈ fired ↔ (SourceDb.ofCalls calls).inScope ev i ∧
          ∃ r, (SourceDb.ofCalls calls).rules[i]? = some r ∧
            SourceDb.ruleHolds pf (SourceDb.ofCalls calls) ev r = true) ∧
        rep = (SourceDb.ofCalls calls).reportOf maxHits
          (fired.filterMap fun i : ℕ => (SourceDb.ofCalls calls).rules[i]?)) ∧
      ((SourceDb.ofCalls calls).buckets = [] ∨ ¬ Routed ev →
        rep = (SourceDb.ofCalls calls).report pf ev maxHits) := by
  have hunrouted := fun hall => runReport_unrouted hser hsize hload hfields ev hall 0 maxHits
  obtain ⟨t, htotal, rfl, hlaid, -⟩ := wellFormed_iff_checks hser hsize
  obtain ⟨hbuckets, -⟩ := encodes_of_serialize (.ofCalls calls) hser
  have h := compiled_of_calls hser hsize hload
  have hkept := SourceDb.kept_ofCalls calls
  have hl := hlaid.of_same (same_of_load htotal hload)
  have hdb := loaded_of_loadBuffer hload
  generalize SourceDb.ofCalls calls = s at *
  have hfields' : db.fields.length ≤ 65536 := h.fields.length_eq ▸ hfields
  have hruns : Runs (sigmaEvalRun pf db ev maxHits) e _ :=
    sigmaEvalRun_runs hdb (he.scratchOk hdb).1
  obtain ⟨rep, e', hrun, hrep, -, -⟩ := hruns
  -- with a sound index the mode does not matter
  have hoff : rep = runReport pf db ev 0 maxHits := by
    rcases hmode with hmode | ⟨hgated, hsound⟩
    · rw [hrep, hmode]
    · obtain ⟨-, hcidrs⟩ := t.section_lt htotal 7 rfl (by decide)
      rw [← (same_of_load htotal hload).cidrs] at hcidrs
      rw [hrep]
      exact runReport_eq hdb hfields' (hl.gateReady_of_gated hkept hgated)
        (hl.indexSound_of_sound h hdb (rangesOk_of_loadBuffer hload).1 hcidrs hsound) _ _
  have hkeys : db.bucketKeys.length = 0 ↔ s.buckets = [] := by
    rw [← hl.keys.length_eq, List.length_eq_zero_iff]
  refine ⟨rep, e', hrun, fun hsome hrouted => ?_, fun hall => hoff.trans (hunrouted hall)⟩
  have hroute := (hasRoute_iff hdb hfields').mpr hrouted
  rw [runReport, runVisits, if_neg (by simp [mt hkeys.mp hsome, hroute]), if_neg (fun h => h.2.2 rfl)]
    at hoff
  have hmem : ∀ i, i ∈ firedOf (ruleAccepts pf db ev)
      ((bucketSel db ev).flatMap (bucketRules db)) ↔ s.inScope ev i ∧
        ∃ r, s.rules[i]? = some r ∧ SourceDb.ruleHolds pf s ev r = true := by
    intro i
    rw [mem_firedOf, List.mem_flatMap, h.ruleAccepts_eq hdb.valid, Option.any_eq_true,
      ← hl.inScope_iff hbuckets]
    simp only [mem_bucketSel_iff hdb (hl.nodup_keys hkept hbuckets) hfields']
  refine ⟨_, nodup_firedOf _ _, hmem, ?_⟩
  rw [hoff]
  refine h.reportOf_eq maxHits fun i hi => ?_
  obtain ⟨-, r, hr, -⟩ := (hmem i).mp hi
  exact (List.getElem?_eq_some_iff.mp hr).1

end Artifact

/-- The theorem at the small builder, whose rule is in the bucket `k`. -/
theorem artifact_routes_source_sample :
    ∃ bytes db e rep e', sampleBuilder.serialize 5 = some bytes ∧
      sigmaDbLoadBuffer samplePlatform bytes = .ok db ∧
      (sigmaEvalRun samplePlatform db sampleSourceEvent 4).run e = .ok (rep, e') ∧
      ∃ fired : List ℕ, fired.Nodup ∧
        (∀ i, i ∈ fired ↔ (SourceDb.ofCalls sampleBuilderCalls).inScope sampleSourceEvent i ∧
          ∃ r, (SourceDb.ofCalls sampleBuilderCalls).rules[i]? = some r ∧
            SourceDb.ruleHolds samplePlatform (SourceDb.ofCalls sampleBuilderCalls)
              sampleSourceEvent r = true) ∧
        rep = (SourceDb.ofCalls sampleBuilderCalls).reportOf 4
          (fired.filterMap fun i : ℕ => (SourceDb.ofCalls sampleBuilderCalls).rules[i]?) := by
  obtain ⟨bytes, db, hbytes, hsize, hload⟩ := sampleBuilder_loads
  have hrouted : Routed sampleSourceEvent := ⟨ascii "techno", by decide, [107], by decide, by decide⟩
  obtain ⟨rep, e', hrun, hreport, -⟩ := artifact_routes_source hbytes hsize hload (by decide)
    sampleSourceEvent 4 ⟨[.setPrefilter 0], [none], rfl⟩ (.inl rfl)
  exact ⟨bytes, db, _, rep, e', hbytes, hload, hrun, hreport (by decide) hrouted⟩

end LibSigma
