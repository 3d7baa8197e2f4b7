import Mathlib.Data.List.Chain
import LibSigma.Matcher.Valid

/-!
# Decoding undoes encoding

`sigma_db_load_buffer` accepts what `sigma_db_serialize` writes and reads the same tables back.

## Sections in a chain

The serializer copies each table to its offset in a zeroed buffer.  That a table can be read back
needs that no later copy lands on it.  `Tables.layout_chain` gives the offsets as a chain: each
section begins where the one before it may end, rounded up to 8.  From that every section is
disjoint from every other by transitivity, and one lemma on buffers with disjoint writes reads each
back (`tableOf_serialize`).

## What comes back

All tables come back, padding included.  One thing does not: an empty `rule_clauses` section has the
offset of an absent one, and the loader takes it for absent.  `Same` is equality up to that, and no
function of the matcher tells the two apart.

## Accepting

A file is also checked.  Sizes, magic, version and checksum are right by construction, and the
bounds on the sections follow from the chain.  The references between the tables are the caller's: a
builder that refers to a string it did not add gets a file that is refused, so `sigmac_round_trip`
has the loader's own conditions as its hypothesis, and that the total size fits 32 bits, since the
header holds it in 32.  The artifacts of the builder are shown to meet them in
`LibSigma.Reference.Artifacts`.

The last section has a small artifact, which the witnesses of this layer are about.

* `Tables.layout_chain`: the sections follow one another, each at a multiple of 8.
* `tableOf_serialize`: every table is read back.
* `load_serialize`: **the whole artifact is accepted and read back.**
-/

namespace LibSigma

open Library

/-! ## Alignment -/

theorem le_align8 (x : ℕ) : x ≤ align8 x := by
  rw [align8]
  omega

@[simp] theorem align8_mod (x : ℕ) : align8 x % 8 = 0 := by
  rw [align8]
  exact Nat.mul_mod_left _ _

/-! ## The layout

The header and seventeen sections, most of which may be empty, each at an offset computed from the
ones before.  The chain says only that each ends where the next may start; order and disjointness
follow.  The checksum is added as a last section, so that it is read back like the others. -/

/-- A section ends where the next may start. -/
def Precedes (s u : ℕ × Bytes) : Prop := s.1 + s.2.length ≤ u.1

instance : IsTrans (ℕ × Bytes) Precedes where
  trans s u v hsu huv := by
    unfold Precedes at *
    omega

namespace Tables

variable (t : Tables)

/-- The checksum as a section of its own. -/
def crcSection : ℕ × Bytes :=
  (t.layout.total - 4, Codec.u32.enc (sigmaCrc32c 0 (t.body.take (t.layout.total - 4))))

theorem serialize_eq_pokes :
    sigmaDbSerialize t =
      pokes (List.replicate t.layout.total 0) (t.sections ++ [t.crcSection]) := by
  rw [pokes_append]
  rfl

/-- The sections follow one another. -/
theorem layout_chain : List.IsChain Precedes (t.sections ++ [t.crcSection]) := by
  have hbuckets := t.buckets_length
  have hpost := t.litpost_length
  have hclauses : (t.ruleClauses.getD []).length = t.ruleClausesLen := by
    unfold ruleClausesLen
    cases h : t.ruleClauses with
    | none => rfl
    | some cs => exact t.ruleClauses_length cs h
  simp only [sections, crcSection, layout, List.cons_append, List.nil_append, List.isChain_cons_cons,
    List.isChain_singleton, and_true, Precedes, Codec.length_encTable, Codec.length_enc, hbuckets,
    hpost, hclauses, Nat.zero_add, Nat.add_sub_cancel]
  refine ⟨le_align8 _, le_align8 _, le_align8 _, le_align8 _, le_align8 _, le_align8 _, le_align8 _,
    le_align8 _, le_align8 _, le_align8 _, le_align8 _, le_align8 _, le_align8 _, le_align8 _,
    le_align8 _, ?_, le_align8 _, Nat.le_refl _⟩
  rw [show (Codec.u8.size) = 1 from rfl, Nat.mul_one]
  exact le_align8 _

theorem layout_ordered : Library.Ordered (t.sections ++ [t.crcSection]) :=
  (List.isChain_iff_pairwise (R := Precedes)).mp t.layout_chain

@[simp] theorem length_crcSection : t.crcSection.2.length = 4 := rfl

/-- The sections end before the checksum. -/
theorem section_end {s : ℕ × Bytes} (hs : s ∈ t.sections) :
    s.1 + s.2.length ≤ t.layout.total - 4 :=
  (List.pairwise_append.mp t.layout_ordered).2.2 s hs t.crcSection (List.mem_singleton_self _)

theorem four_le_total : 4 ≤ t.layout.total := Nat.le_add_left 4 _

theorem sections_fit : Fits t.layout.total (t.sections ++ [t.crcSection]) := by
  have hfour := t.four_le_total
  intro s hs
  rcases List.mem_append.mp hs with hs | hs
  · exact (t.section_end hs).trans (Nat.sub_le _ _)
  · rw [List.mem_singleton.mp hs, length_crcSection, crcSection]
    omega

@[simp] theorem length_serialize : (sigmaDbSerialize t).length = t.layout.total := by
  rw [serialize_eq_pokes, length_pokes, List.length_replicate]
  rw [List.length_replicate]
  exact t.sections_fit

/-- Every section is read back, the checksum included. -/
theorem slice_serialize {s : ℕ × Bytes} (hs : s ∈ t.sections ++ [t.crcSection]) :
    slice (sigmaDbSerialize t) s.1 s.2.length = s.2 := by
  rw [serialize_eq_pokes]
  refine slice_pokes ?_ t.layout_ordered hs
  rw [List.length_replicate]
  exact t.sections_fit

@[simp] theorem length_body : t.body.length = t.layout.total := by
  rw [body, length_pokes, List.length_replicate]
  rw [List.length_replicate]
  exact fun s hs => t.sections_fit s (List.mem_append_left _ hs)

/-- The checksum covers what stands before it. -/
theorem take_serialize :
    (sigmaDbSerialize t).take (t.layout.total - 4) = t.body.take (t.layout.total - 4) := by
  have hfour := t.four_le_total
  have hfit : t.layout.total - 4 + t.crcSection.2.length ≤ t.body.length := by
    rw [t.length_body, length_crcSection]
    omega
  have hslice : slice (poke t.body (t.layout.total - 4) t.crcSection.2) 0 (t.layout.total - 4) =
      slice t.body 0 (t.layout.total - 4) :=
    slice_poke_before hfit (by omega)
  exact hslice

/-! ## Reading the tables back

One lemma for any table: if the section that the header names is the encoding of the records, the
loader's check of the section passes and decoding gives the records. -/

/-- A table that starts at `off` is decoded to its records. -/
theorem tableOf_of_slice {α : Type} {c : Codec α} {buf : Bytes} {off n : UInt32} {xs : List α}
    (hn : n.toNat = xs.length)
    (h : slice buf off.toNat (c.encTable xs).length = c.encTable xs) :
    tableOf c buf off n = xs := by
  have hsplit : buf.drop off.toNat = c.encTable xs ++
      (buf.drop off.toNat).drop (c.encTable xs).length := by
    conv_lhs => rw [← List.take_append_drop (c.encTable xs).length (buf.drop off.toNat)]
    rw [show (buf.drop off.toNat).take (c.encTable xs).length = c.encTable xs from h]
  rw [tableOf, hn, hsplit, Codec.decTable_encTable_append]

/-- What the header says of a section, and what the section check makes of it. -/
theorem tableOf_serialize {α : Type} (c : Codec α) (xs : List α) (off : ℕ) (b : Bool)
    (hsize : t.layout.total < 2 ^ 32) (hs : (off, c.encTable xs) ∈ t.sections) (hc : 0 < c.size)
    (hoff : off % 8 = 0) (hb : b = false → xs = []) :
    sectOk (offIf b off) (UInt32.ofNat xs.length).toNat c.size t.layout.total = true ∧
      tableOf c (sigmaDbSerialize t) (offIf b off) (UInt32.ofNat xs.length) = xs := by
  have hend := t.section_end hs
  have hfour := t.four_le_total
  have hmul : xs.length ≤ xs.length * c.size := Nat.le_mul_of_pos_right _ hc
  simp only [Codec.length_encTable] at hend
  have hcount : (UInt32.ofNat xs.length).toNat = xs.length := by
    rw [UInt32.toNat_ofNat']
    exact Nat.mod_eq_of_lt (by omega)
  rw [hcount]
  cases b with
  | false =>
    obtain rfl := hb rfl
    exact ⟨by simp [sectOk, offIf], by simp [tableOf, Codec.decTable]⟩
  | true =>
    have hoff' : (UInt32.ofNat off).toNat = off := by
      rw [UInt32.toNat_ofNat']
      exact Nat.mod_eq_of_lt (by omega)
    rw [offIf, if_pos rfl]
    refine ⟨?_, tableOf_of_slice hcount ?_⟩
    · rw [sectOk, hoff', if_neg (by omega), if_neg (by omega)]
      exact decide_eq_true (by omega)
    · rw [hoff']
      exact t.slice_serialize (List.mem_append_left _ hs)

/-! ## The header -/

/-- The header is read back. -/
@[simp] theorem readHdr_serialize : readHdr (sigmaDbSerialize t) hdrSize = t.header := by
  have hslice := t.slice_serialize (s := (0, SigmaHdr.codec.enc t.header)) (by simp [sections])
  have htake : (sigmaDbSerialize t).take hdrSize = SigmaHdr.codec.enc t.header := hslice
  rw [readHdr, htake, Codec.dec_enc_append]

/-- The loader's first look at a buffer sees the header's magic and version. -/
theorem magic_readHdr {buf : Bytes} (h : hdrSize ≤ buf.length) :
    Codec.u32.dec (slice buf 0 4) = (readHdr buf hdrSize).magic ∧
      Codec.u32.dec (slice buf 4 4) = (readHdr buf hdrSize).version := by
  obtain ⟨hd, rest, rfl, hlen⟩ : ∃ hd rest, buf = hd ++ rest ∧ hd.length = hdrSize :=
    ⟨buf.take hdrSize, buf.drop hdrSize, (List.take_append_drop _ _).symm, by
      rw [List.length_take]
      omega⟩
  have htake : (hd ++ rest).take hdrSize = hd := List.take_left' hlen
  have hmagic : slice (hd ++ rest) 0 4 = hd.take 4 := by
    rw [slice, List.drop_zero, List.take_append_of_le_length (by rw [hlen]; decide)]
  have hversion : slice (hd ++ rest) 4 4 = (hd.drop 4).take 4 := by
    rw [slice, List.drop_append_of_le_length (by rw [hlen]; decide),
      List.take_append_of_le_length (by rw [List.length_drop, hlen]; decide)]
  rw [hmagic, hversion, readHdr, htake, Nat.sub_self, List.replicate_zero, List.append_nil]
  exact ⟨rfl, rfl⟩

/-! ## Equal tables -/

/-- Two databases hold the same tables; an absent `rule_clauses` and an empty one are the same. -/
structure Same (t t' : Tables) : Prop where
  fields : t'.fields = t.fields
  values : t'.values = t.values
  preds : t'.preds = t.preds
  sels : t'.sels = t.sels
  cond : t'.cond = t.cond
  rules : t'.rules = t.rules
  cidrs : t'.cidrs = t.cidrs
  bucketKeys : t'.bucketKeys = t.bucketKeys
  buckets : t'.buckets = t.buckets
  bucketIdx : t'.bucketIdx = t.bucketIdx
  litndl : t'.litndl = t.litndl
  litpost : t'.litpost = t.litpost
  litpostRef : t'.litpostRef = t.litpostRef
  litav : t'.litav = t.litav
  ruleClauses : t'.ruleClauses.getD [] = t.ruleClauses.getD []
  fwit : t'.fwit = t.fwit
  strpool : t'.strpool = t.strpool

theorem Same.symm {t t' : Tables} (h : t.Same t') : t'.Same t :=
  ⟨h.fields.symm, h.values.symm, h.preds.symm, h.sels.symm, h.cond.symm, h.rules.symm,
    h.cidrs.symm, h.bucketKeys.symm, h.buckets.symm, h.bucketIdx.symm, h.litndl.symm,
    h.litpost.symm, h.litpostRef.symm, h.litav.symm, h.ruleClauses.symm, h.fwit.symm,
    h.strpool.symm⟩

theorem Same.str {t t' : Tables} (h : t.Same t') : t'.str = t.str := by
  funext s
  rw [Tables.str, Tables.str, h.strpool]

theorem Same.clauses {t t' : Tables} (h : t.Same t') (i : ℕ) : t'.clauses i = t.clauses i := by
  have hgetD : ∀ u : Tables, u.clauses i = ((u.ruleClauses.getD []).getD i 0).toNat := by
    intro u
    unfold Tables.clauses
    cases u.ruleClauses with
    | none => rfl
    | some cs => rfl
  rw [hgetD, hgetD, h.ruleClauses]

/-- Where there is a rule, an absent table of clause counts is not an empty one. -/
theorem Same.isSome_ruleClauses {t t' : Tables} (h : t.Same t') (hrules : t.rules ≠ []) :
    t'.ruleClauses.isSome = t.ruleClauses.isSome := by
  have hpos := List.length_pos_iff.mpr hrules
  have hcl := h.ruleClauses
  cases hc : t.ruleClauses with
  | none =>
    cases hc' : t'.ruleClauses with
    | none => rfl
    | some cs' =>
      have hlen := t'.ruleClauses_length cs' hc'
      rw [hc, hc'] at hcl
      rw [show cs' = [] from hcl, h.rules, List.length_nil] at hlen
      omega
  | some cs =>
    cases hc' : t'.ruleClauses with
    | some cs' => rfl
    | none =>
      have hlen := t.ruleClauses_length cs hc
      rw [hc, hc'] at hcl
      rw [show cs = [] from hcl.symm, List.length_nil] at hlen
      omega

/-- The same tables take the same space. -/
theorem Same.layout {t t' : Tables} (h : t.Same t') : t'.layout = t.layout := by
  have hclauses : t'.ruleClausesLen = t.ruleClausesLen := by
    rw [ruleClausesLen, ruleClausesLen, h.rules]
    by_cases hrules : t.rules = []
    · rw [hrules, List.length_nil, ite_self, ite_self]
    · rw [h.isSome_ruleClauses hrules]
  simp only [Tables.layout, hclauses, h.fields, h.values, h.preds, h.sels, h.cond, h.rules, h.cidrs,
    h.bucketKeys, h.bucketIdx, h.litndl, h.litpostRef, h.litav, h.fwit, h.strpool]

/-- The checks see no difference between the same tables. -/
theorem Same.rangesOk {t t' : Tables} (h : t.Same t') : t'.rangesOk = t.rangesOk := by
  have hnamed : ∀ ri c, ri.toNat < t.rules.length → t'.clauseNamed ri c = t.clauseNamed ri c := by
    intro ri c hri
    rw [clauseNamed, clauseNamed, h.clauses, h.isSome_ruleClauses]
    exact List.ne_nil_of_length_pos (by omega)
  have hlitref : ∀ r, t'.litrefOk r = t.litrefOk r := by
    intro r
    rw [litrefOk, litrefOk, h.rules, h.fields]
    by_cases hri : r.ruleIdx.toNat < t.rules.length
    · rw [hnamed _ _ hri]
    · simp [hri]
  have hlitav : ∀ ri, t'.litavOk ri = t.litavOk ri := by
    intro ri
    rw [litavOk, litavOk, h.rules, h.clauses]
    by_cases hri : ri.toNat < t.rules.length
    · rw [← Option.not_isSome, ← Option.not_isSome, h.isSome_ruleClauses]
      exact List.ne_nil_of_length_pos (by omega)
    · simp [hri]
  have hfwit : ∀ w, t'.fwitOk w = t.fwitOk w := by
    intro w
    rw [fwitOk, fwitOk, h.rules, h.fields, h.cidrs]
    by_cases hri : w.ruleIdx.toNat < t.rules.length
    · rw [hnamed _ _ hri]
    · simp [hri]
  have hfield : t'.fieldOk = t.fieldOk := by
    funext f
    rw [fieldOk, fieldOk, h.strpool]
  have hpred : t'.predOk = t.predOk := by
    funext p
    rw [predOk, predOk, h.fields, h.cidrs, h.values]
  have hsel : t'.selOk = t.selOk := by
    funext s
    rw [selOk, selOk, h.preds]
  have hrule : t'.ruleOk = t.ruleOk := by
    funext r
    rw [ruleOk, ruleOk, h.sels, h.cond, h.values]
  have hbucket : t'.bucketOk = t.bucketOk := by
    funext b
    rw [bucketOk, bucketOk, h.bucketIdx]
  have hlitpost : t'.litpostOk = t.litpostOk := by
    funext p
    rw [litpostOk, litpostOk, h.litpostRef]
  have hpool : ∀ s, t'.InPool s ↔ t.InPool s := by
    intro s
    rw [InPool, InPool, h.strpool]
  simp only [Tables.rangesOk, h.fields, h.values, h.preds, h.sels, h.cond, h.rules, h.bucketKeys,
    h.buckets, h.bucketIdx, h.litndl, h.litpost, h.litpostRef, h.litav, h.ruleClauses, h.fwit,
    hfield, hpred, hsel, hrule, hbucket, hlitpost, funext hlitref, funext hlitav, funext hfwit,
    hpool]

/-! ## The whole artifact

The pieces for the loader's checks in its order: magic, version, size, sections, checksum, tables,
and last the finalizer, which fails on a pattern predicate without a pattern and on nothing else
when memory does not run out. -/

/-- The clause counts are read back; where they are absent or there is no rule, so is the offset
that would say otherwise. -/
theorem ruleClauses_serialize (hsize : t.layout.total < 2 ^ 32) :
    sectOk t.header.offRuleClauses
        (if t.header.offRuleClauses ≠ 0 then t.header.nRules.toNat else 0) 1 t.layout.total = true ∧
      (t.header.tables (sigmaDbSerialize t)).ruleClauses.getD [] = t.ruleClauses.getD [] := by
  have hoff : t.header.offRuleClauses =
      offIf (t.ruleClauses.isSome && decide (t.rules.length ≠ 0)) t.layout.offRuleClauses := rfl
  have htab : (t.header.tables (sigmaDbSerialize t)).ruleClauses =
      if t.header.offRuleClauses ≠ 0 then
        some (tableOf Codec.u8 (sigmaDbSerialize t) t.header.offRuleClauses t.header.nRules)
      else none := rfl
  rw [htab, hoff]
  cases hc : t.ruleClauses with
  | none => exact ⟨rfl, rfl⟩
  | some cs =>
    have hlen := t.ruleClauses_length cs hc
    have hmem : (t.layout.offRuleClauses, Codec.u8.encTable cs) ∈ t.sections := by
      have hget : t.sections[15]? =
          some (t.layout.offRuleClauses, Codec.u8.encTable (t.ruleClauses.getD [])) := rfl
      rw [hc] at hget
      exact List.mem_of_getElem? hget
    rw [Option.isSome_some, Bool.true_and]
    by_cases hrules : t.rules.length = 0
    · rw [decide_eq_false (not_not.mpr hrules), List.eq_nil_of_length_eq_zero (hlen.trans hrules)]
      exact ⟨rfl, rfl⟩
    · obtain ⟨hok, hget⟩ := t.tableOf_serialize Codec.u8 cs _ true hsize hmem (by decide)
        (align8_mod _) nofun
      have hend := t.section_end hmem
      have hpos : hdrSize ≤ t.layout.offRuleClauses := by
        have hhdr := List.pairwise_cons.mp t.layout_ordered
        have hle := hhdr.1 _ (List.mem_of_getElem? (i := 14) rfl)
        rw [Codec.length_enc] at hle
        exact hle
      have hne : offIf true t.layout.offRuleClauses ≠ 0 := by
        have hnat : (UInt32.ofNat t.layout.offRuleClauses).toNat = t.layout.offRuleClauses := by
          rw [UInt32.toNat_ofNat']
          exact Nat.mod_eq_of_lt (by omega)
        intro hzero
        have hzero' : (UInt32.ofNat t.layout.offRuleClauses).toNat = 0 := congrArg UInt32.toNat hzero
        rw [hnat] at hzero'
        rw [hzero'] at hpos
        exact absurd hpos (by decide)
      rw [decide_eq_true hrules, if_pos hne, if_pos hne, Option.getD_some, Option.getD_some,
        show t.header.nRules = UInt32.ofNat t.rules.length from rfl, ← hlen]
      exact ⟨hok, hget⟩

/-- Every table of a serialized artifact passes its section check and is read back. -/
theorem tables_serialize (hsize : t.layout.total < 2 ^ 32) :
    t.header.sectionsOk t.layout.total = true ∧
      t.Same (t.header.tables (sigmaDbSerialize t)) := by
  have hne : ∀ {α : Type} {xs : List α}, decide (xs.length ≠ 0) = false → xs = [] := by
    intro α xs h
    simpa using h
  obtain ⟨okFields, getFields⟩ := t.tableOf_serialize SigmaStr.codec t.fields _ true hsize
    (List.mem_of_getElem? (i := 1) rfl) (by decide) (align8_mod _) nofun
  obtain ⟨okValues, getValues⟩ := t.tableOf_serialize SigmaStr.codec t.values _ true hsize
    (List.mem_of_getElem? (i := 2) rfl) (by decide) (align8_mod _) nofun
  obtain ⟨okPreds, getPreds⟩ := t.tableOf_serialize SigmaPred.codec t.preds _ true hsize
    (List.mem_of_getElem? (i := 3) rfl) (by decide) (align8_mod _) nofun
  obtain ⟨okSels, getSels⟩ := t.tableOf_serialize SigmaSel.codec t.sels _ true hsize
    (List.mem_of_getElem? (i := 4) rfl) (by decide) (align8_mod _) nofun
  obtain ⟨okCond, getCond⟩ := t.tableOf_serialize SigmaCtok.codec t.cond _ true hsize
    (List.mem_of_getElem? (i := 5) rfl) (by decide) (align8_mod _) nofun
  obtain ⟨okRules, getRules⟩ := t.tableOf_serialize SigmaRule.codec t.rules _ true hsize
    (List.mem_of_getElem? (i := 6) rfl) (by decide) (align8_mod _) nofun
  obtain ⟨okCidrs, getCidrs⟩ := t.tableOf_serialize SigmaCidr.codec t.cidrs _ true hsize
    (List.mem_of_getElem? (i := 7) rfl) (by decide) (align8_mod _) nofun
  obtain ⟨okKeys, getKeys⟩ := t.tableOf_serialize SigmaStr.codec t.bucketKeys _
    (t.bucketKeys.length ≠ 0) hsize (List.mem_of_getElem? (i := 8) rfl) (by decide)
    (align8_mod _) hne
  obtain ⟨okBuckets, getBuckets⟩ := t.tableOf_serialize SigmaBucket.codec t.buckets _
    (t.buckets.length ≠ 0) hsize (List.mem_of_getElem? (i := 9) rfl) (by decide)
    (align8_mod _) hne
  obtain ⟨okBidx, getBidx⟩ := t.tableOf_serialize Codec.u32 t.bucketIdx _
    (t.bucketIdx.length ≠ 0) hsize (List.mem_of_getElem? (i := 10) rfl) (by decide)
    (align8_mod _) hne
  obtain ⟨okNdl, getNdl⟩ := t.tableOf_serialize SigmaStr.codec t.litndl _
    (t.litndl.length ≠ 0) hsize (List.mem_of_getElem? (i := 11) rfl) (by decide)
    (align8_mod _) hne
  obtain ⟨okPost, getPost⟩ := t.tableOf_serialize SigmaLitpost.codec t.litpost _
    (t.litpost.length ≠ 0) hsize (List.mem_of_getElem? (i := 12) rfl) (by decide)
    (align8_mod _) hne
  obtain ⟨okRef, getRef⟩ := t.tableOf_serialize SigmaLitref.codec t.litpostRef _
    (t.litpostRef.length ≠ 0) hsize (List.mem_of_getElem? (i := 13) rfl) (by decide)
    (align8_mod _) hne
  obtain ⟨okAv, getAv⟩ := t.tableOf_serialize Codec.u32 t.litav _
    (t.litav.length ≠ 0) hsize (List.mem_of_getElem? (i := 14) rfl) (by decide)
    (align8_mod _) hne
  obtain ⟨okCl, getCl⟩ := t.ruleClauses_serialize hsize
  obtain ⟨okFwit, getFwit⟩ := t.tableOf_serialize SigmaFwit.codec t.fwit _
    (t.fwit.length ≠ 0) hsize (List.mem_of_getElem? (i := 16) rfl) (by decide)
    (align8_mod _) hne
  have hkeys := t.buckets_length
  have hpost := t.litpost_length
  rw [hkeys] at okBuckets getBuckets
  rw [hpost] at okPost getPost
  have hend : t.layout.offStrpool + t.strpool.length ≤ t.layout.total - 4 :=
    t.section_end (List.mem_of_getElem? (i := 17) rfl)
  have hoff : t.header.offStrpool.toNat = t.layout.offStrpool := by
    rw [show t.header.offStrpool = UInt32.ofNat t.layout.offStrpool from rfl, UInt32.toNat_ofNat']
    exact Nat.mod_eq_of_lt (by omega)
  have hlen : t.header.strpoolLen.toNat = t.strpool.length := by
    rw [show t.header.strpoolLen = UInt32.ofNat t.strpool.length from rfl, UInt32.toNat_ofNat']
    exact Nat.mod_eq_of_lt (by omega)
  have hfour := t.four_le_total
  have hpool : slice (sigmaDbSerialize t) t.header.offStrpool.toNat t.header.strpoolLen.toNat =
      t.strpool := by
    rw [hoff, hlen]
    exact t.slice_serialize (s := (t.layout.offStrpool, t.strpool))
      (List.mem_append_left _ (List.mem_of_getElem? (i := 17) rfl))
  have okPool : (!(decide (t.layout.total < t.header.offStrpool.toNat) ||
      decide (t.layout.total - t.header.offStrpool.toNat < t.header.strpoolLen.toNat))) = true := by
    rw [hoff, hlen, decide_eq_false (by omega), decide_eq_false (by omega)]
    rfl
  refine ⟨?_, ⟨getFields, getValues, getPreds, getSels, getCond, getRules, getCidrs, getKeys,
    getBuckets, getBidx, getNdl, getPost, getRef, getAv, getCl, getFwit, hpool⟩⟩
  simp only [SigmaHdr.sectionsOk, Bool.and_eq_true]
  exact ⟨⟨⟨⟨⟨⟨⟨⟨⟨⟨⟨⟨⟨⟨⟨⟨okFields, okValues⟩, okPreds⟩, okSels⟩, okCond⟩, okRules⟩, okCidrs⟩, okKeys⟩,
    okBuckets⟩, okBidx⟩, okNdl⟩, okPost⟩, okRef⟩, okAv⟩, okCl⟩, okFwit⟩, okPool⟩

@[simp] theorem header_magic : t.header.magic = sigmaMagic := rfl

@[simp] theorem header_version : t.header.version = sigmaFormatVersion := rfl

theorem header_totalSize (hsize : t.layout.total < 2 ^ 32) :
    t.header.totalSize.toNat = t.layout.total := by
  rw [show t.header.totalSize = UInt64.ofNat t.layout.total from rfl, UInt64.toNat_ofNat']
  exact Nat.mod_eq_of_lt (by omega)

theorem hdrSize_add_four_le_total : hdrSize + 4 ≤ t.layout.total := by
  have hend := t.section_end (s := (0, SigmaHdr.codec.enc t.header))
    (List.mem_of_getElem? (i := 0) rfl)
  have hfour := t.four_le_total
  rw [Codec.length_enc, Nat.zero_add] at hend
  have hsz : SigmaHdr.codec.size = hdrSize := rfl
  omega

/-- The checksum at the end of a serialized artifact is the one the loader computes. -/
theorem crc_serialize :
    sigmaCrc32c 0 ((sigmaDbSerialize t).take (t.layout.total - 4)) =
      Codec.u32.dec (slice (sigmaDbSerialize t) (t.layout.total - 4) 4) := by
  have hread : slice (sigmaDbSerialize t) (t.layout.total - 4) 4 = t.crcSection.2 :=
    t.slice_serialize (s := t.crcSection) (List.mem_append_right _ (List.mem_singleton_self _))
  rw [take_serialize, hread, crcSection, Codec.dec_enc]

/-- **The loader accepts what the serializer writes, and reads the same tables back.** -/
theorem load_serialize (pf : Platform) (hok : t.rangesOk = true) (hre : t.ReOk)
    (hsize : t.layout.total < 2 ^ 32) :
    ∃ db, sigmaDbLoadBuffer pf (sigmaDbSerialize t) = .ok db ∧ t.Same db.toTables := by
  obtain ⟨hsect, hsame⟩ := t.tables_serialize hsize
  have hlen := t.length_serialize
  have hmin := t.hdrSize_add_four_le_total
  have hhdr := t.readHdr_serialize
  obtain ⟨hmagic, hversion⟩ := magic_readHdr (show hdrSize ≤ (sigmaDbSerialize t).length by omega)
  rw [hhdr, header_magic] at hmagic
  rw [hhdr, header_version] at hversion
  have hfresh := fresh_toDb (t.header.tables (sigmaDbSerialize t))
    ((sigmaDbSerialize t).getD (t.header.offStrpool.toNat + t.header.strpoolLen.toNat) 0)
  have hre' : (t.header.tables (sigmaDbSerialize t)).ReOk := by
    unfold Tables.ReOk
    rw [hsame.preds, hsame.values]
    exact hre
  obtain ⟨db, hfin⟩ : ∃ db, sigmaDbFinalize pf (fun _ => true) _ = (0, db) :=
    (sigmaDbFinalize_eq_zero_iff hfresh).mpr hre'
  refine ⟨db, ?_, ?_⟩
  · have hsz : hdrSize = 144 := rfl
    unfold sigmaDbLoadBuffer
    dsimp only
    rw [hmagic, hversion, if_neg (show ¬ sigmaFormatVersion = 4 by decide), hlen, hhdr,
      t.header_totalSize hsize, if_neg (by omega), if_neg (not_not.mpr rfl), if_neg (by decide),
      if_neg (by omega), if_neg (not_not.mpr rfl), hsect, if_neg (by decide),
      if_neg (not_not.mpr t.crc_serialize), hsame.rangesOk, hok, if_neg (by decide), hfin]
    rfl
  · rw [(sigmaDbFinalize_fresh hfresh hfin).1.toTables]
    exact hsame

end Tables

/-! ## Loaded artifacts

The other direction starts from a file somebody else wrote, possibly of the older version.  Its
tables pass the checks again when they are written, and the new file has the current version. -/

/-- What the loader accepted passes its own checks again. -/
theorem rangesOk_of_loadBuffer {pf : Platform} {buf : Bytes} {db : SigmaDb}
    (h : sigmaDbLoadBuffer pf buf = .ok db) : db.rangesOk = true ∧ db.ReOk := by
  obtain ⟨-, -, -, hranges, poolNext, hfin⟩ := loadBuffer_eq_ok h
  have hfresh := fresh_toDb ((readHdr buf (hdrSizeOf buf)).tables buf) poolNext
  rw [(sigmaDbFinalize_fresh hfresh hfin).1.toTables]
  exact ⟨hranges, (sigmaDbFinalize_eq_zero_iff hfresh).mp ⟨db, hfin⟩⟩

/-- A version 4 header names no field witness. -/
theorem nFwit_readHdr_v4 {buf : Bytes} (h : hdrV4Size ≤ buf.length) :
    (readHdr buf hdrV4Size).nFwit = 0 := by
  have hlen : (buf.take hdrV4Size).length = 136 := by
    rw [List.length_take]
    exact Nat.min_eq_left h
  have hread : ∀ bs, (SigmaHdr.codec.dec bs).nFwit = Codec.u32.dec ((bs.drop 136).take 4) := by
    intro bs
    simp only [SigmaHdr.codec, Codec.map, Codec.pair, List.drop_drop]
    rfl
  rw [readHdr, hread, List.drop_left' hlen]
  rfl

theorem fwit_of_version_four {pf : Platform} {buf : Bytes} {db : SigmaDb}
    (h : sigmaDbLoadBuffer pf buf = .ok db) (hv : Codec.u32.dec (slice buf 4 4) = 4) :
    db.fwit = [] := by
  obtain ⟨hlen, -, -, -, poolNext, hfin⟩ := loadBuffer_eq_ok h
  have hsz : hdrSizeOf buf = hdrV4Size := if_pos hv
  rw [hsz] at hlen hfin
  rw [(sigmaDbFinalize_fresh (fresh_toDb _ poolNext) hfin).1.toTables]
  apply List.eq_nil_of_length_eq_zero
  rw [Tables.toDb, SigmaHdr.tables, length_tableOf, nFwit_readHdr_v4 (by omega)]
  rfl

/-- The version field of what the serializer writes. -/
theorem version_serialize (t : Tables) :
    Codec.u32.dec (slice (sigmaDbSerialize t) 4 4) = sigmaFormatVersion := by
  have hmin := t.hdrSize_add_four_le_total
  have hlen := t.length_serialize
  rw [(Tables.magic_readHdr (by omega)).2, t.readHdr_serialize]
  rfl

/-- The field that selects buckets, as the loader caches it. -/
theorem catFieldIdOf_eq_some_iff {t : Tables} {f : ℕ} :
    t.catFieldIdOf = some f ↔ t.bucketKeys ≠ [] ∧
      (∃ s, t.fields[f]? = some s ∧ t.str s = catf ∧ s.len.toNat = catf.length) ∧
      ∀ g < f, ∀ s, t.fields[g]? = some s → ¬ (t.str s = catf ∧ s.len.toNat = catf.length) := by
  unfold Tables.catFieldIdOf
  by_cases hzero : t.bucketKeys.length = 0
  · rw [if_pos hzero]
    refine iff_of_false (by simp) fun h => h.1 (List.eq_nil_of_length_eq_zero hzero)
  · have hne : t.bucketKeys ≠ [] := fun h => hzero (by rw [h]; rfl)
    rw [if_neg hzero, List.findIdx?_eq_some_iff_getElem]
    constructor
    · rintro ⟨hlt, hf, hbefore⟩
      simp only [Bool.and_eq_true, beq_iff_eq] at hf
      refine ⟨hne, ⟨_, List.getElem?_eq_getElem hlt, hf.2, hf.1⟩, fun g hg s hs => ?_⟩
      rintro ⟨hstr, hlen⟩
      have hg' := hbefore g hg
      obtain ⟨hglt, rfl⟩ := List.getElem?_eq_some_iff.mp hs
      simp [hstr, hlen] at hg'
    · rintro ⟨-, ⟨s, hs, hstr, hlen⟩, hbefore⟩
      obtain ⟨hlt, rfl⟩ := List.getElem?_eq_some_iff.mp hs
      refine ⟨hlt, by simp [hstr, hlen], fun g hg => ?_⟩
      have hg' := hbefore g hg _ (List.getElem?_eq_getElem (hg.trans hlt))
      simp only [Bool.and_eq_true, beq_iff_eq]
      exact fun h => hg' ⟨h.2, h.1⟩

/-- **Decoding undoes encoding over the whole format.**  Tables that meet the loader's conditions
are read back, with the always-verify bucket and the category field they determine; and an accepted
artifact of either version keeps its tables when it is loaded, written and loaded again. -/
theorem sigmac_round_trip (pf : Platform) :
    (∀ t : Tables, t.rangesOk = true → t.ReOk → t.layout.total < 2 ^ 32 →
      ∃ db, sigmaDbLoadBuffer pf (sigmaDbSerialize t) = .ok db ∧ t.Same db.toTables ∧
        (∀ j, db.avBucket = some j ↔ ∃ k, t.bucketKeys[j]? = some k ∧ k.len = 0) ∧
        ∀ f, db.catFieldId = some f ↔ t.bucketKeys ≠ [] ∧
          (∃ s, t.fields[f]? = some s ∧ t.str s = catf ∧ s.len.toNat = catf.length) ∧
          ∀ g < f, ∀ s, t.fields[g]? = some s → ¬ (t.str s = catf ∧ s.len.toNat = catf.length)) ∧
    ∀ (buf : Bytes) (db : SigmaDb), sigmaDbLoadBuffer pf buf = .ok db →
      db.layout.total < 2 ^ 32 →
      ∃ db', sigmaDbLoadBuffer pf (sigmaDbSerialize db.toTables) = .ok db' ∧
        db.Same db'.toTables ∧
        (Codec.u32.dec (slice buf 4 4) = 4 →
          db'.fwit = [] ∧
            Codec.u32.dec (slice (sigmaDbSerialize db.toTables) 4 4) = sigmaFormatVersion) := by
  constructor
  · intro t hok hre hsize
    obtain ⟨db, hload, hsame⟩ := t.load_serialize pf hok hre hsize
    have hdb := loaded_of_loadBuffer hload
    refine ⟨db, hload, hsame, fun j => ?_, fun f => ?_⟩
    · rw [hdb.avBucket, hsame.bucketKeys]
    · rw [hdb.catFieldId, catFieldIdOf_eq_some_iff, hsame.bucketKeys, hsame.fields]
      simp only [Tables.str, hsame.strpool]
  · intro buf db hload hsize
    obtain ⟨hok, hre⟩ := rangesOk_of_loadBuffer hload
    obtain ⟨db', hload', hsame⟩ := db.load_serialize pf hok hre hsize
    refine ⟨db', hload', hsame, fun hv => ⟨?_, version_serialize _⟩⟩
    rw [hsame.fwit, fwit_of_version_four hload hv]

/-! ## A small artifact -/

/-- One rule, "field `a` contains `xy`", in the bucket `a`, indexed by the needle `xy`. -/
def sampleTables : Tables where
  fields := [⟨0, 1⟩]
  values := [⟨2, 2⟩]
  preds := [⟨0, 0, 1, 0, #v[0, 0], 0, #v[0, 0, 0, 0], 0⟩]
  sels := [⟨0, 1⟩]
  cond := []
  rules := [⟨7, 0, 1, 0, 0, 1, 2, 300, 0, sigmaNoValue⟩]
  cidrs := []
  bucketKeys := [⟨0, 1⟩]
  buckets := [⟨0, 1⟩]
  bucketIdx := [0]
  litndl := [⟨2, 2⟩]
  litpost := [⟨0, 1⟩]
  litpostRef := [⟨0, 0, 0, 0⟩]
  litav := []
  ruleClauses := some [1]
  fwit := []
  strpool := [97, 0, 120, 121]
  buckets_length := rfl
  litpost_length := rfl
  ruleClauses_length := by
    intro cs hcs
    obtain rfl := Option.some.inj hcs
    rfl

/-- A platform that parses no address and compiles no pattern. -/
def samplePlatform : Platform where
  inetPton4 _ := none
  inetPton6 _ := none
  pcre2Compiles _ := false
  pcre2Match _ _ := false
  strayVerdict _ _ := false
  simd := false

/-- The loader accepts the small artifact. -/
theorem load_sample :
    ∃ db, sigmaDbLoadBuffer samplePlatform (sigmaDbSerialize sampleTables) = .ok db ∧
      sampleTables.Same db.toTables :=
  sampleTables.load_serialize samplePlatform (by decide) (by decide) (by decide)

/-- Both halves of the theorem at the small artifact. -/
theorem sigmac_round_trip_sample :
    ∃ db db', sigmaDbLoadBuffer samplePlatform (sigmaDbSerialize sampleTables) = .ok db ∧
      sigmaDbLoadBuffer samplePlatform (sigmaDbSerialize db.toTables) = .ok db' ∧
      sampleTables.Same db.toTables ∧ db.Same db'.toTables := by
  obtain ⟨hencode, hdecode⟩ := sigmac_round_trip samplePlatform
  obtain ⟨db, hload, hsame, -⟩ := hencode sampleTables (by decide) (by decide) (by decide)
  obtain ⟨db', hload', hsame', -⟩ := hdecode _ db hload (by rw [hsame.layout]; decide)
  exact ⟨db, db', hload, hload', hsame, hsame'⟩

end LibSigma
