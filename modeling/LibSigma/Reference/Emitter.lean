import LibSigma.Matcher.Integrity
import LibSigma.Reference.Rows

/-!
# The reference emitter and the serializer write the same artifact

`SigmaDbBuilder.serialize` against `sigma_db_serialize`.

## Two programs and one format

The format is defined twice, by structs in C and by format strings in Python, and the two programs
share no code.  They agree when, for a builder and a database that hold the same tables, the bytes
are the same.  So the first thing to say is what "the same tables" means (`SameTables`): the numbers
of the rows are equal, the string pool is that of the builder with the keys of the buckets and the
needles after it, in the order in which `serialize` interns them, and the padding of every record is
zero, since a row has none.

## The steps

Each table is a list of rows on one side and of records on the other, and `LibSigma.Reference.Rows`
has the agreement of one row with one record.  The layouts are the same numbers in another order
(`layout_eq`).  Then each write of the emitter is the copy of the section that the serializer copies
(`writes_copy`), and the checksums are of the same bytes.

## Where it returns

Python raises where a number does not fit, and the serializer would cut it off.  The theorem is
about builders whose `serialize` returns, and for each of these there is a database that holds its
tables (`exists_sameTables`), so it is not empty for any of them.

* `SigmaDbBuilder.Ok`, `ok_of_reachable`: what the methods keep.
* `internAll_eq`: what the interning loops compute.
* `pyCrc32c_eq`: the two checksums agree.
* `SameTables`: a database that holds the tables of a builder.
* `serialize_eq_sigmaDbSerialize`: **both write the same bytes.**
-/

namespace LibSigma

open Library

/-! ## What the methods keep -/

/-- The parallel lists have one length, and every network has 16 bytes. -/
structure SigmaDbBuilder.Ok (b : SigmaDbBuilder) : Prop where
  buckets : b.bucketKeys.length = b.bucketLists.length
  needles : b.litNeedles.length = b.litPostings.length
  nets : ∀ c ∈ b.cidrs, c.net.length = 16

theorem length_padNet (net : List UInt8) : (SigmaDbBuilder.padNet net).length = 16 := by
  have htake : (net.take 16).length ≤ 16 := List.length_take_le 16 net
  rw [SigmaDbBuilder.padNet, List.length_append, List.length_replicate]
  omega

namespace SigmaDbBuilder

variable {b : SigmaDbBuilder}

theorem ok_init : Ok init := ⟨rfl, rfl, by simp [init]⟩

/-- The invariant looks at five of the lists only. -/
theorem Ok.of_eq {b' : SigmaDbBuilder} (h : b.Ok) (hkeys : b'.bucketKeys = b.bucketKeys)
    (hlists : b'.bucketLists = b.bucketLists) (hneedles : b'.litNeedles = b.litNeedles)
    (hposts : b'.litPostings = b.litPostings) (hcidrs : b'.cidrs = b.cidrs) : b'.Ok :=
  ⟨by rw [hkeys, hlists, h.buckets], by rw [hneedles, hposts, h.needles], by
    rw [hcidrs]
    exact h.nets⟩

theorem Ok.field (h : b.Ok) {name : PyStr} {r : ℕ × SigmaDbBuilder}
    (hr : b.field name = some r) : r.2.Ok := by
  unfold SigmaDbBuilder.field at hr
  cases hid : b.fieldIds.lookup name with
  | some fid =>
    rw [hid] at hr
    rw [← Option.some.inj hr]
    exact h
  | none =>
    rw [hid] at hr
    simp only [internCstr, Option.map_map, Option.map_eq_some_iff] at hr
    obtain ⟨bs, -, rfl⟩ := hr
    exact h.of_eq rfl rfl rfl rfl rfl

theorem Ok.cidr (h : b.Ok) (family prefixLen : Int) (net : List UInt8) :
    (b.cidr family prefixLen net).2.Ok := by
  simp only [SigmaDbBuilder.cidr]
  split
  · exact h
  · refine ⟨h.buckets, h.needles, fun c hc => ?_⟩
    rcases List.mem_append.mp hc with hc | hc
    · exact h.nets c hc
    · rw [List.mem_singleton.mp hc]
      exact length_padNet net

/-- A call keeps the invariant. -/
theorem Ok.apply (h : b.Ok) (call : BuilderCall) : (call.apply b).Ok := by
  cases call with
  | field name =>
    cases hr : b.field name with
    | none =>
      rw [BuilderCall.apply, hr]
      exact h
    | some r =>
      rw [BuilderCall.apply, hr]
      exact h.field hr
  | value s =>
    cases hs : encodeUtf8 s with
    | none =>
      rw [BuilderCall.apply, SigmaDbBuilder.value, intern, hs]
      exact h
    | some bs =>
      rw [BuilderCall.apply, SigmaDbBuilder.value, intern, hs]
      exact h.of_eq rfl rfl rfl rfl rfl
  | cidr family prefixLen net => exact h.cidr family prefixLen net
  | pred fieldName op valueId group flags ival =>
    cases hr : b.field fieldName with
    | none =>
      rw [BuilderCall.apply, SigmaDbBuilder.pred, hr]
      exact h
    | some r =>
      rw [BuilderCall.apply, SigmaDbBuilder.pred, hr]
      exact (h.field hr).of_eq rfl rfl rfl rfl rfl
  | endSel predStart => exact h.of_eq rfl rfl rfl rfl rfl
  | rule ruleId selStart selCount cond verdict severity scoreX100 nameId mitreId =>
    exact h.of_eq rfl rfl rfl rfl rfl
  | setBuckets buckets => exact ⟨by simp [BuilderCall.apply, setBuckets], h.needles, h.nets⟩
  | setLitidx needleRefs alwaysVerify ruleClauses fwits =>
    exact ⟨h.buckets, by simp [BuilderCall.apply, setLitidx], h.nets⟩

/-- **Every reachable builder satisfies the invariant.** -/
theorem ok_of_reachable (h : b.Reachable) : b.Ok := by
  obtain ⟨calls, rfl⟩ := h
  have hrun : ∀ (calls : List BuilderCall) (b : SigmaDbBuilder), b.Ok →
      (calls.foldl BuilderCall.apply b).Ok := by
    intro calls
    induction calls with
    | nil => exact fun b hb => hb
    | cons call calls ih => exact fun b hb => ih _ (hb.apply call)
  exact hrun calls init ok_init

end SigmaDbBuilder

/-! ## The interning loops

The loop over buckets and the loop over needles are one loop, run twice, with the pool handed on.
It appends to four lists at once, and each of them has a closed form. -/

/-- Consecutive spans of the given lengths, with their starts. -/
def spans : ℕ → List ℕ → List (Int × Int)
  | _, [] => []
  | off, n :: ns => ((off : Int), (n : Int)) :: spans (off + n) ns

@[simp] theorem length_spans (off : ℕ) (ns : List ℕ) : (spans off ns).length = ns.length := by
  induction ns generalizing off with
  | nil => rfl
  | cons n ns ih => rw [spans, List.length_cons, ih, List.length_cons]

/-- The bytes of a string that can be encoded. -/
def encoded (s : PyStr) : List UInt8 := (encodeUtf8 s).getD []

/-- The loop from any state appends to each of its lists. -/
theorem foldlM_internStep {β : Type} {ps : List (PyStr × List β)} {acc r : Interned β}
    (h : ps.foldlM internStep acc = some r) :
    r = ⟨acc.pool ++ (ps.map fun p => encoded p.1).flatten,
      acc.refs ++ spans acc.pool.length (ps.map fun p => (encoded p.1).length),
      acc.flat ++ (ps.map Prod.snd).flatten,
      acc.descr ++ spans acc.flat.length (ps.map fun p => p.2.length)⟩ := by
  induction ps generalizing acc with
  | nil =>
    rw [List.foldlM_nil] at h
    rw [← Option.some.inj h]
    simp [spans]
  | cons p ps ih =>
    rw [List.foldlM_cons] at h
    obtain ⟨acc', hstep, hrest⟩ := Option.bind_eq_some_iff.mp h
    obtain ⟨kb, hkb, rfl⟩ := Option.map_eq_some_iff.mp hstep
    have henc : encoded p.1 = kb := by rw [encoded, hkb, Option.getD_some]
    rw [ih hrest]
    simp [spans, henc]

/-- **The interning loop**: the pool is extended by the keys, and what it collects are the spans of
the keys in the pool and of the lists in their concatenation. -/
theorem internAll_eq {β : Type} {pool : List UInt8} {keys : List PyStr} {lists : List (List β)}
    (hlen : keys.length = lists.length) {r : Interned β}
    (h : internAll pool (keys.zip lists) = some r) :
    r = ⟨pool ++ (keys.map encoded).flatten,
      spans pool.length (keys.map fun k => (encoded k).length), lists.flatten,
      spans 0 (lists.map List.length)⟩ := by
  have hfst : ∀ {γ : Type} (f : PyStr → γ), ((keys.zip lists).map fun p => f p.1) = keys.map f := by
    intro γ f
    conv_rhs => rw [← List.map_fst_zip hlen.le, List.map_map]
    rfl
  have hsnd : ∀ {γ : Type} (f : List β → γ), ((keys.zip lists).map fun p => f p.2) = lists.map f := by
    intro γ f
    conv_rhs => rw [← List.map_snd_zip hlen.ge, List.map_map]
    rfl
  rw [foldlM_internStep h, hfst encoded, hfst fun k => (encoded k).length, hsnd List.length,
    List.map_snd_zip hlen.ge]
  rfl

namespace SigmaDbBuilder

variable {b : SigmaDbBuilder}

theorem internBuckets_eq (hok : b.Ok) {bk : Interned Int} (h : b.internBuckets = some bk) :
    bk = ⟨b.pool ++ (b.bucketKeys.map encoded).flatten,
      spans b.pool.length (b.bucketKeys.map fun k => (encoded k).length), b.bucketLists.flatten,
      spans 0 (b.bucketLists.map List.length)⟩ := by
  rw [internBuckets] at h
  split at h
  · exact internAll_eq hok.buckets h
  · rename_i hemit
    have hkeys : b.bucketKeys = [] := by simpa [emitBuckets] using hemit
    have hlists : b.bucketLists = [] := by
      rw [← List.length_eq_zero_iff, ← hok.buckets, hkeys, List.length_nil]
    rw [← Option.some.inj h, hkeys, hlists]
    simp [spans]

theorem internNeedles_eq (hok : b.Ok) {pool : List UInt8} {ln : Interned PyLitref}
    (h : b.internNeedles pool = some ln) :
    ln = ⟨pool ++ (b.litNeedles.map encoded).flatten,
      spans pool.length (b.litNeedles.map fun k => (encoded k).length), b.litPostings.flatten,
      spans 0 (b.litPostings.map List.length)⟩ := by
  rw [internNeedles] at h
  split at h
  · exact internAll_eq hok.needles h
  · rename_i hemit
    have hkeys : b.litNeedles = [] := by
      simp only [emitLitidx, Bool.or_eq_true, Bool.not_eq_true', not_or, Bool.not_eq_false,
        List.isEmpty_iff] at hemit
      exact hemit.1.1
    have hlists : b.litPostings = [] := by
      rw [← List.length_eq_zero_iff, ← hok.needles, hkeys, List.length_nil]
    rw [← Option.some.inj h, hkeys, hlists]
    simp [spans]

/-- The always-verify list and the witnesses are emitted whenever there are any. -/
@[simp] theorem emittedLitav_eq : b.emittedLitav = b.litAlwaysVerify := by
  rw [emittedLitav]
  split
  · rfl
  · rename_i hemit
    simp only [emitLitidx, Bool.or_eq_true, Bool.not_eq_true', not_or, Bool.not_eq_false,
      List.isEmpty_iff] at hemit
    exact hemit.1.2.symm

@[simp] theorem emittedFwits_eq : b.emittedFwits = b.fwits := by
  rw [emittedFwits]
  split
  · rfl
  · rename_i hemit
    simp only [emitLitidx, Bool.or_eq_true, Bool.not_eq_true', not_or, Bool.not_eq_false,
      List.isEmpty_iff] at hemit
    exact hemit.2.symm

end SigmaDbBuilder

/-! ## The checksum -/

/-- The builder shifts the register as the loader does. -/
theorem pyCrcByte_eq : pyCrcByte = crcOctet castagnoli := by
  have hbit : pyCrcBit = shiftOut castagnoli := by
    funext crc
    have hodd : crc &&& 1 ≠ 0 ↔ crc.testBit 0 = true := by
      rw [Nat.and_one_is_mod, Nat.testBit_zero, decide_eq_true_eq]
      omega
    rw [pyCrcBit, shiftOut, if_congr hodd rfl rfl]
    rfl
  funext crc byte
  rw [pyCrcByte, hbit, crcOctet]

/-- The two checksums agree. -/
theorem pyCrc32c_eq (data : List UInt8) : pyCrc32c data = (sigmaCrc32c 0 data).toNat := by
  have hnot : ∀ c : UInt32, ~~~ c = c ^^^ 0xFFFFFFFF := by
    intro c
    rw [← UInt32.xor_neg_one]
    rfl
  rw [pyCrc32c, sigmaCrc32c, hnot (data.foldl _ _), UInt32.toNat_xor, toNat_foldl_crcByte,
    pyCrcByte_eq, show (0xFFFFFFFF : ℕ) = 2 ^ 32 - 1 from rfl, Nat.and_two_pow_sub_one_eq_mod]
  refine Nat.mod_eq_of_lt (Nat.xor_lt_two_pow ?_ (by decide))
  rw [show 2 ^ 32 - 1 = (~~~ (0 : UInt32)).toNat from rfl, ← toNat_foldl_crcByte]
  exact UInt32.toNat_lt _

/-! ## The same tables

All that two programs with no common code can be compared by.  The padding is zero because a row has
none to write, and a table of clause counts is absent when the builder has no index. -/

namespace SigmaDbBuilder

/-- The bucket tables: the pool with the keys after it, the spans of the keys, the rule indices of
all buckets, and their spans. -/
def bucketTables (b : SigmaDbBuilder) : Interned Int where
  pool := b.pool ++ (b.bucketKeys.map encoded).flatten
  refs := spans b.pool.length (b.bucketKeys.map fun k => (encoded k).length)
  flat := b.bucketLists.flatten
  descr := spans 0 (b.bucketLists.map List.length)

/-- The needle tables, on the pool the bucket keys extended. -/
def needleTables (b : SigmaDbBuilder) : Interned PyLitref where
  pool := b.bucketTables.pool ++ (b.litNeedles.map encoded).flatten
  refs := spans b.bucketTables.pool.length (b.litNeedles.map fun k => (encoded k).length)
  flat := b.litPostings.flatten
  descr := spans 0 (b.litPostings.map List.length)

end SigmaDbBuilder

/-- A database that holds the tables of a builder: the same numbers, the pool followed by the
bucket keys and then the needles, no clause counts where none are emitted, and zero padding. -/
structure SameTables (b : SigmaDbBuilder) (t : Tables) : Prop where
  fields : t.fields.map SigmaStr.toRow = b.fields
  values : t.values.map SigmaStr.toRow = b.values
  preds : t.preds.map SigmaPred.toRow = b.preds
  predsClean : ∀ p ∈ t.preds, p.Clean
  sels : t.sels.map SigmaSel.toRow = b.sels
  cond : t.cond.map SigmaCtok.toRow = b.cond
  condClean : ∀ k ∈ t.cond, k.Clean
  rules : t.rules.map SigmaRule.toRow = b.rules
  cidrs : t.cidrs.map SigmaCidr.toRow = b.cidrs
  cidrsClean : ∀ c ∈ t.cidrs, c.Clean
  bucketKeys : t.bucketKeys.map SigmaStr.toRow = b.bucketTables.refs
  buckets : t.buckets.map SigmaBucket.toRow = b.bucketTables.descr
  bucketIdx : t.bucketIdx.map (fun i => (i.toNat : Int)) = b.bucketTables.flat
  litndl : t.litndl.map SigmaStr.toRow = b.needleTables.refs
  litpost : t.litpost.map SigmaLitpost.toRow = b.needleTables.descr
  litpostRef : t.litpostRef.map SigmaLitref.toRow = b.needleTables.flat
  litpostRefClean : ∀ r ∈ t.litpostRef, r.Clean
  litav : t.litav.map (fun i => (i.toNat : Int)) = b.litAlwaysVerify
  ruleClauses : t.ruleClauses.map (List.map fun n => (n.toNat : Int)) =
    if b.emittedClauses = [] then none else some b.emittedClauses
  fwit : t.fwit.map SigmaFwit.toRow = b.fwits
  strpool : t.strpool = b.needleTables.pool

/-! ## The layout -/

theorem pyAlign8_eq (x : ℕ) : pyAlign8 x = align8 x := by
  rw [pyAlign8, align8]
  omega

/-- The offsets of `serialize`, from those of `sigma_db_serialize`. -/
def Layout.toPy (l : Layout) : PyLayout where
  offFields := l.offFields
  offValues := l.offValues
  offPreds := l.offPreds
  offSels := l.offSels
  offCond := l.offCond
  offRules := l.offRules
  offCidrs := l.offCidrs
  offBkeys := l.offBkeys
  offBuckets := l.offBuckets
  offBidx := l.offBidx
  offLitndl := l.offLitndl
  offLitpost := l.offLitpost
  offLitpostRef := l.offLitpostRef
  offLitav := l.offLitav
  offRuleClauses := l.offRuleClauses
  offFwit := l.offFwit
  offStrpool := l.offStrpool
  total := l.total

namespace SameTables

variable {b : SigmaDbBuilder} {t : Tables} (h : SameTables b t)

include h

/-- The emitted clause counts are those of the database, none where it has none. -/
@[simp] theorem clauses_map : (t.ruleClauses.getD []).map (fun n => (n.toNat : Int)) = b.emittedClauses := by
  have hcl := h.ruleClauses
  split at hcl
  · rename_i hnil
    rw [Option.map_eq_none_iff.mp hcl, hnil]
    rfl
  · obtain ⟨cs, hcs, hmap⟩ := Option.map_eq_some_iff.mp hcl
    rw [hcs, Option.getD_some, hmap]

/-- The database has clause counts exactly when some are emitted. -/
theorem isSome_ruleClauses : t.ruleClauses.isSome = true ↔ b.emittedClauses ≠ [] := by
  rw [← Option.isSome_map (f := List.map fun n => ((UInt8.toNat n : ℕ) : Int)), h.ruleClauses]
  by_cases hnil : b.emittedClauses = []
  · rw [if_pos hnil]
    simp [hnil]
  · rw [if_neg hnil]
    simp [hnil]

theorem ruleClausesLen_eq : t.ruleClausesLen = b.emittedClauses.length := by
  rw [← h.clauses_map, List.length_map, Tables.ruleClausesLen]
  cases hcs : t.ruleClauses with
  | none => rfl
  | some cs => exact (t.ruleClauses_length cs hcs).symm

/-- **The two layouts are one.** -/
theorem layout_eq : b.layout b.bucketTables b.needleTables = t.layout.toPy := by
  have hav := congrArg List.length h.litav
  have hfw := congrArg List.length h.fwit
  rw [← SigmaDbBuilder.emittedLitav_eq, List.length_map] at hav
  rw [← SigmaDbBuilder.emittedFwits_eq, List.length_map] at hfw
  simp only [SigmaDbBuilder.layout, Tables.layout, Layout.toPy, pyAlign8_eq, pyHdrSize, hdrSize,
    szStr, szPred, szSel, szCtok, szRule, szCidr, szBucket, szLitpost, szLitref, szFwit, ← h.fields,
    ← h.values, ← h.preds, ← h.sels, ← h.cond, ← h.rules, ← h.cidrs, ← h.bucketKeys, ← h.bucketIdx,
    ← h.litndl, ← h.litpostRef, ← hav, ← hfw, ← h.ruleClausesLen_eq, ← h.strpool, List.length_map]

end SameTables

/-! ## The header

The header's numbers on both sides, one by one, with the bounds that make them fit their fields: a
section that lies in a file of less than 4 GiB has a small offset and a small count. -/

/-- The numbers of a header, in the order of the format. -/
def SigmaHdr.toVals (h : SigmaHdr) : List StructVal :=
  [.int h.magic.toNat, .int h.version.toNat, .int h.totalSize.toNat,
    .int h.nFields.toNat, .int h.offFields.toNat,
    .int h.nValues.toNat, .int h.offValues.toNat,
    .int h.nPreds.toNat, .int h.offPreds.toNat,
    .int h.nSels.toNat, .int h.offSels.toNat,
    .int h.nCond.toNat, .int h.offCond.toNat,
    .int h.nRules.toNat, .int h.offRules.toNat,
    .int h.strpoolLen.toNat, .int h.offStrpool.toNat,
    .int h.nCidrs.toNat, .int h.offCidrs.toNat,
    .int h.flags.toNat,
    .int h.nBuckets.toNat, .int h.offBkeys.toNat, .int h.offBuckets.toNat,
    .int h.nBucketIdx.toNat, .int h.offBucketIdx.toNat,
    .int h.nLitndl.toNat, .int h.offLitndl.toNat, .int h.offLitpost.toNat,
    .int h.nLitpostRef.toNat, .int h.offLitpostRef.toNat,
    .int h.nLitav.toNat, .int h.offLitav.toNat,
    .int h.offRuleClauses.toNat,
    .int h.nFwit.toNat, .int h.offFwit.toNat]

theorem pack_toVals (h : SigmaHdr) : pack fmtHdr h.toVals = some (SigmaHdr.codec.enc h) := by
  simp [fmtHdr, SigmaHdr.toVals, SigmaHdr.codec, Codec.map, Codec.pair, List.replicate]

theorem toNat_offIf {n off : ℕ} (h : off < 2 ^ 32) :
    (offIf (decide (n ≠ 0)) off).toNat = pyOffIf n off := by
  by_cases hn : n = 0
  · simp [offIf, pyOffIf, hn]
  · simp only [offIf, pyOffIf, if_pos hn, decide_eq_true hn, if_true]
    exact UInt32.toNat_ofNat_of_lt' h

/-- A section of a small artifact has a small offset and a small count. -/
theorem Tables.section_lt (t : Tables) (hsize : t.layout.total < 2 ^ 32) {α : Type} {c : Codec α}
    {xs : List α} {off : ℕ} (i : ℕ) (hs : t.sections[i]? = some (off, c.encTable xs))
    (hc : 0 < c.size) : off < 2 ^ 32 ∧ xs.length < 2 ^ 32 := by
  have hend := t.section_end (List.mem_of_getElem? hs)
  have hmul : xs.length ≤ xs.length * c.size := Nat.le_mul_of_pos_right _ hc
  rw [Codec.length_encTable] at hend
  omega

namespace SameTables

variable {b : SigmaDbBuilder} {t : Tables} (h : SameTables b t)

include h

/-- The header of `serialize` holds the numbers of the header of `sigma_db_serialize`. -/
theorem hdrVals_eq (hsize : t.layout.total < 2 ^ 32) :
    b.hdrVals b.bucketTables b.needleTables = t.header.toVals := by
  obtain ⟨offFields, nFields⟩ := t.section_lt hsize 1 rfl (by decide)
  obtain ⟨offValues, nValues⟩ := t.section_lt hsize 2 rfl (by decide)
  obtain ⟨offPreds, nPreds⟩ := t.section_lt hsize 3 rfl (by decide)
  obtain ⟨offSels, nSels⟩ := t.section_lt hsize 4 rfl (by decide)
  obtain ⟨offCond, nCond⟩ := t.section_lt hsize 5 rfl (by decide)
  obtain ⟨offRules, nRules⟩ := t.section_lt hsize 6 rfl (by decide)
  obtain ⟨offCidrs, nCidrs⟩ := t.section_lt hsize 7 rfl (by decide)
  obtain ⟨offBkeys, nBuckets⟩ := t.section_lt hsize 8 rfl (by decide)
  obtain ⟨offBuckets, -⟩ := t.section_lt hsize 9 rfl (by decide)
  obtain ⟨offBidx, nBidx⟩ := t.section_lt hsize 10 rfl (by decide)
  obtain ⟨offLitndl, nLitndl⟩ := t.section_lt hsize 11 rfl (by decide)
  obtain ⟨offLitpost, -⟩ := t.section_lt hsize 12 rfl (by decide)
  obtain ⟨offLitpostRef, nLitpostRef⟩ := t.section_lt hsize 13 rfl (by decide)
  obtain ⟨offLitav, nLitav⟩ := t.section_lt hsize 14 rfl (by decide)
  obtain ⟨offRuleClauses, -⟩ := t.section_lt hsize 15 rfl (by decide)
  obtain ⟨offFwit, nFwit⟩ := t.section_lt hsize 16 rfl (by decide)
  have hpool : t.layout.offStrpool + t.strpool.length ≤ t.layout.total - 4 :=
    t.section_end (List.mem_of_getElem? (i := 17) rfl)
  have offStrpool : t.layout.offStrpool < 2 ^ 32 := by omega
  have strpoolLen : t.strpool.length < 2 ^ 32 := by omega
  have total : t.layout.total < 2 ^ 64 := by omega
  have hclauses : (t.ruleClauses.isSome && decide (t.rules.length ≠ 0)) =
      decide (t.ruleClausesLen ≠ 0) := by
    unfold Tables.ruleClausesLen
    cases t.ruleClauses.isSome <;> simp
  have hav := congrArg List.length h.litav
  have hfw := congrArg List.length h.fwit
  rw [← SigmaDbBuilder.emittedLitav_eq, List.length_map] at hav
  rw [← SigmaDbBuilder.emittedFwits_eq, List.length_map] at hfw
  simp only [SigmaDbBuilder.hdrVals, h.layout_eq, Layout.toPy, ← h.fields, ← h.values, ← h.preds,
    ← h.sels, ← h.cond, ← h.rules, ← h.cidrs, ← h.bucketKeys, ← h.bucketIdx, ← h.litndl,
    ← h.litpostRef, ← hav, ← hfw, ← h.ruleClausesLen_eq, ← h.strpool, List.length_map]
  have h32 : ∀ {n : ℕ}, n < 2 ^ 32 → (UInt32.ofNat n).toNat = n := UInt32.toNat_ofNat_of_lt'
  have h64 : ∀ {n : ℕ}, n < 2 ^ 64 → (UInt64.ofNat n).toNat = n := UInt64.toNat_ofNat_of_lt'
  simp (disch := assumption) only [SigmaHdr.toVals, Tables.header, h32, h64, hclauses, toNat_offIf]
  rfl

/-- **Each write of `serialize` copies the section `sigma_db_serialize` copies.** -/
theorem writes_copy (hsize : t.layout.total < 2 ^ 32) :
    List.Forall₂ (Copies t.layout.total) (b.writes b.bucketTables b.needleTables) t.sections := by
  have hend : ∀ (i : ℕ) {s : ℕ × Bytes}, t.sections[i]? = some s →
      s.1 + s.2.length ≤ t.layout.total := fun i s hs =>
    (t.section_end (List.mem_of_getElem? hs)).trans (Nat.sub_le _ _)
  have hhdr : Copies t.layout.total
      (fun buf => packInto fmtHdr buf 0 (b.hdrVals b.bucketTables b.needleTables))
      (0, SigmaHdr.codec.enc t.header) := by
    intro buf hlen
    change packInto fmtHdr buf 0 _ = _
    rw [packInto, h.hdrVals_eq hsize, pack_toVals, Option.bind_some,
      if_pos (by rw [hlen]; exact hend 0 rfl)]
  simp only [SigmaDbBuilder.writes, Tables.sections, h.layout_eq, Layout.toPy,
    SigmaDbBuilder.emittedLitav_eq, SigmaDbBuilder.emittedFwits_eq]
  refine .cons hhdr (.cons (strFormat.copies h.fields (fun _ _ => trivial) rfl (hend 1 rfl))
    (.cons (strFormat.copies h.values (fun _ _ => trivial) rfl (hend 2 rfl))
    (.cons (predFormat.copies h.preds h.predsClean rfl (hend 3 rfl))
    (.cons (selFormat.copies h.sels (fun _ _ => trivial) rfl (hend 4 rfl))
    (.cons (ctokFormat.copies h.cond h.condClean rfl (hend 5 rfl))
    (.cons (ruleFormat.copies h.rules (fun _ _ => trivial) rfl (hend 6 rfl))
    (.cons (cidrFormat.copies h.cidrs h.cidrsClean rfl (hend 7 rfl))
    (.cons (strFormat.copies h.bucketKeys (fun _ _ => trivial) rfl (hend 8 rfl))
    (.cons (bucketFormat.copies h.buckets (fun _ _ => trivial) rfl (hend 9 rfl))
    (.cons (u32Format.copies h.bucketIdx (fun _ _ => trivial) rfl (hend 10 rfl))
    (.cons (strFormat.copies h.litndl (fun _ _ => trivial) rfl (hend 11 rfl))
    (.cons (litpostFormat.copies h.litpost (fun _ _ => trivial) rfl (hend 12 rfl))
    (.cons (litrefFormat.copies h.litpostRef h.litpostRefClean rfl (hend 13 rfl))
    (.cons (u32Format.copies h.litav (fun _ _ => trivial) rfl (hend 14 rfl))
    (.cons (u8Format.copies h.clauses_map (fun _ _ => trivial) rfl (hend 15 rfl))
    (.cons (fwitFormat.copies h.fwit (fun _ _ => trivial) rfl (hend 16 rfl))
    (.cons ?_ .nil)))))))))))))))))
  intro buf _
  rw [h.strpool]

/-- **The end of `serialize` is `sigma_db_serialize`.** -/
theorem emit_eq (hsize : t.layout.total < 2 ^ 32) :
    b.emit b.bucketTables b.needleTables = some (sigmaDbSerialize t) := by
  have hfour := t.four_le_total
  have hrun := runWrites_eq_pokes (h.writes_copy hsize)
    (fun s hs => t.sections_fit s (List.mem_append_left _ hs))
    (List.length_replicate (n := t.layout.total) (a := (0 : UInt8)))
  have hcrc : pack fmtI [.int (pyCrc32c (t.body.take (t.layout.total - 4)))] =
      some (Codec.u32.enc (sigmaCrc32c 0 (t.body.take (t.layout.total - 4)))) := by
    rw [pyCrc32c_eq]
    exact u32Format.pack_row _ trivial
  simp only [SigmaDbBuilder.emit, h.layout_eq, Layout.toPy]
  rw [hrun, Option.bind_some, packInto, show pokes _ t.sections = t.body from rfl, hcrc,
    Option.bind_some, if_pos]
  · rfl
  · rw [t.length_body, Codec.length_enc, show Codec.u32.size = 4 from rfl]
    omega

end SameTables

/-! ## A database for what is emitted

Where packing succeeds every row is the row of a record, so there is a database with these records,
and the theorem of agreement is about every artifact there is. -/

namespace SigmaDbBuilder

variable {b : SigmaDbBuilder}

/-- A table that `serialize` writes consists of the rows of records. -/
theorem exists_table {bk : Interned Int} {ln : Interned PyLitref} {bytes : List UInt8}
    (h : b.emit bk ln = some bytes) {ρ α : Type} (F : RecordFormat ρ α) {size off : ℕ}
    {rows : List ρ} (i : ℕ)
    (hi : (b.writes bk ln)[i]? = some (packRows F.fmt F.vals size off rows))
    (hgood : ∀ r ∈ rows, F.good r) :
    ∃ xs : List α, (∀ a ∈ xs, F.clean a) ∧ xs.map F.row = rows := by
  simp only [emit, Option.bind_eq_some_iff] at h
  obtain ⟨buf, hrun, -⟩ := h
  obtain ⟨c, c', hwrite⟩ := exists_of_runWrites hrun (List.mem_of_getElem? hi)
  exact exists_of_packRows F hgood hwrite

/-- **Where `serialize` returns, some database holds the tables of the builder.** -/
theorem exists_sameTables (hok : b.Ok) {bytes : List UInt8}
    (hclauses : b.emittedClauses = [] ∨ b.emittedClauses.length = b.rules.length)
    (h : b.emit b.bucketTables b.needleTables = some bytes) : ∃ t, SameTables b t := by
  obtain ⟨fields, -, hfields⟩ := exists_table h strFormat 1 rfl (fun _ _ => trivial)
  obtain ⟨values, -, hvalues⟩ := exists_table h strFormat 2 rfl (fun _ _ => trivial)
  obtain ⟨preds, hpredsClean, hpreds⟩ := exists_table h predFormat 3 rfl (fun _ _ => trivial)
  obtain ⟨sels, -, hsels⟩ := exists_table h selFormat 4 rfl (fun _ _ => trivial)
  obtain ⟨cond, hcondClean, hcond⟩ := exists_table h ctokFormat 5 rfl (fun _ _ => trivial)
  obtain ⟨rules, -, hrules⟩ := exists_table h ruleFormat 6 rfl (fun _ _ => trivial)
  obtain ⟨cidrs, hcidrsClean, hcidrs⟩ := exists_table h cidrFormat 7 rfl hok.nets
  obtain ⟨keys, -, hkeys⟩ := exists_table h strFormat 8 rfl (fun _ _ => trivial)
  obtain ⟨buckets, -, hbuckets⟩ := exists_table h bucketFormat 9 rfl (fun _ _ => trivial)
  obtain ⟨bidx, -, hbidx⟩ := exists_table h u32Format 10 rfl (fun _ _ => trivial)
  obtain ⟨litndl, -, hlitndl⟩ := exists_table h strFormat 11 rfl (fun _ _ => trivial)
  obtain ⟨litpost, -, hlitpost⟩ := exists_table h litpostFormat 12 rfl (fun _ _ => trivial)
  obtain ⟨litref, hrefClean, hlitref⟩ := exists_table h litrefFormat 13 rfl (fun _ _ => trivial)
  obtain ⟨litav, -, hlitav⟩ := exists_table h u32Format 14 rfl (fun _ _ => trivial)
  obtain ⟨clauses, -, hcl⟩ := exists_table h u8Format 15 rfl (fun _ _ => trivial)
  obtain ⟨fwit, -, hfwit⟩ := exists_table h fwitFormat 16 rfl (fun _ _ => trivial)
  have hnBuckets : buckets.length = keys.length := by
    have hl := congrArg List.length hbuckets
    have hr := congrArg List.length hkeys
    simp only [List.length_map, bucketTables, length_spans] at hl hr
    rw [hl, hr, hok.buckets]
  have hnPosts : litpost.length = litndl.length := by
    have hl := congrArg List.length hlitpost
    have hr := congrArg List.length hlitndl
    simp only [List.length_map, needleTables, length_spans] at hl hr
    rw [hl, hr, hok.needles]
  have hnClauses : ∀ cs, (if b.emittedClauses = [] then none else some clauses) = some cs →
      cs.length = rules.length := by
    intro cs hcs
    split at hcs
    · exact absurd hcs (by simp)
    · rename_i hne
      have hl := congrArg List.length hcl
      have hr := congrArg List.length hrules
      rw [List.length_map] at hl hr
      rw [← Option.some.inj hcs, hl, hr]
      exact hclauses.resolve_left hne
  rw [emittedLitav_eq] at hlitav
  rw [emittedFwits_eq] at hfwit
  refine ⟨⟨fields, values, preds, sels, cond, rules, cidrs, keys, buckets, bidx, litndl, litpost,
    litref, litav, if b.emittedClauses = [] then none else some clauses, fwit, b.needleTables.pool,
    hnBuckets, hnPosts, hnClauses⟩, ⟨hfields, hvalues, hpreds, hpredsClean, hsels, hcond,
    hcondClean, hrules, hcidrs, hcidrsClean, hkeys, hbuckets, hbidx, hlitndl, hlitpost, hlitref,
    hrefClean, hlitav, ?_, hfwit, rfl⟩⟩
  split
  · rfl
  · exact congrArg some hcl

/-- The writes keep the size of the buffer. -/
theorem length_of_writes {bk : Interned Int} {ln : Interned PyLitref} {buf : List UInt8}
    (h : runWrites (b.writes bk ln) (List.replicate (b.layout bk ln).total 0) = some buf) :
    buf.length = (b.layout bk ln).total := by
  refine length_runWrites ?_ List.length_replicate h
  intro write hw c c' hlen hwrite
  simp only [writes, List.mem_cons, List.not_mem_nil, or_false] at hw
  rcases hw with rfl | rfl | rfl | rfl | rfl | rfl | rfl | rfl | rfl | rfl | rfl | rfl | rfl | rfl |
    rfl | rfl | rfl | rfl
  · rw [length_packInto hwrite, hlen]
  all_goals try rw [length_packRows hwrite, hlen]
  rw [← Option.some.inj hwrite, length_poke, hlen]
  rw [hlen]
  simp only [layout]
  omega

/-- What `serialize` returns has the size its header gives. -/
theorem length_of_emit {bk : Interned Int} {ln : Interned PyLitref} {bytes : List UInt8}
    (h : b.emit bk ln = some bytes) : bytes.length = (b.layout bk ln).total := by
  simp only [emit, Option.bind_eq_some_iff] at h
  obtain ⟨buf, hrun, hcrc⟩ := h
  rw [length_packInto hcrc, length_of_writes hrun]

/-- The checksum always fits its field. -/
theorem isSome_emit (bk : Interned Int) (ln : Interned PyLitref) :
    (b.emit bk ln).isSome =
      (runWrites (b.writes bk ln) (List.replicate (b.layout bk ln).total 0)).isSome := by
  simp only [emit]
  cases hrun : runWrites (b.writes bk ln) (List.replicate (b.layout bk ln).total 0) with
  | none => rfl
  | some buf =>
    have hlen := length_of_writes hrun
    have hfour : 4 ≤ (b.layout bk ln).total := Nat.le_add_left 4 _
    have hcrc := u32Format.pack_row (sigmaCrc32c 0 (buf.take ((b.layout bk ln).total - 4))) trivial
    rw [Option.bind_some, packInto, pyCrc32c_eq]
    erw [hcrc]
    rw [Option.bind_some, if_pos (by
      rw [hlen, Codec.length_enc, show u32Format.codec.size = 4 from rfl]
      omega)]
    rfl

end SigmaDbBuilder

/-! ## Agreement -/

/-- **The reference emitter and the C serializer agree byte for byte.** -/
theorem serialize_eq_sigmaDbSerialize {b : SigmaDbBuilder} (hreach : b.Reachable)
    {version : Int} {bytes : List UInt8} (h : b.serialize version = some bytes)
    (hsize : bytes.length < 2 ^ 32) :
    (∃ t, SameTables b t) ∧ ∀ t, SameTables b t → bytes = sigmaDbSerialize t := by
  have hok := SigmaDbBuilder.ok_of_reachable hreach
  rw [SigmaDbBuilder.serialize] at h
  split at h
  · exact absurd h (by simp)
  obtain ⟨bk, hbk, h⟩ := Option.bind_eq_some_iff.mp h
  obtain ⟨ln, hln, h⟩ := Option.bind_eq_some_iff.mp h
  obtain rfl : bk = b.bucketTables := SigmaDbBuilder.internBuckets_eq hok hbk
  obtain rfl : ln = b.needleTables := SigmaDbBuilder.internNeedles_eq hok hln
  split at h
  · exact absurd h (by simp)
  · rename_i hclauses
    refine ⟨SigmaDbBuilder.exists_sameTables hok ?_ h, fun t ht => ?_⟩
    · by_contra hne
      exact hclauses ⟨fun hnil => hne (.inl hnil), fun hlen => hne (.inr hlen)⟩
    · have htotal : t.layout.total = bytes.length := by
        rw [SigmaDbBuilder.length_of_emit h, ht.layout_eq]
        rfl
      rw [ht.emit_eq (by omega)] at h
      exact (Option.some.inj h).symm

/-- A rule on one field, with a bucket, a needle and a network. -/
def sampleBuilderCalls : List BuilderCall :=
  [.value [98], .pred [97] 1 0 0 0 (-7), .endSel 0,
    .rule 7 0 1 (some [(0, 0)]) 0 1 0 0xFFFFFFFF 0xFFFFFFFF, .cidr 4 8 [10],
    .setBuckets ⟨[([107], [0]), ([], [])], by decide⟩,
    .setLitidx ⟨[([98], [⟨0, 0, 0⟩])], by decide⟩ [] (some [1]) none]

def sampleBuilder : SigmaDbBuilder := sampleBuilderCalls.foldl BuilderCall.apply .init

theorem sampleBuilder_serialize :
    ∃ bytes, sampleBuilder.serialize 5 = some bytes ∧ bytes.length < 2 ^ 32 := by
  have hemit : (sampleBuilder.emit sampleBuilder.bucketTables sampleBuilder.needleTables).isSome =
      true := by
    rw [SigmaDbBuilder.isSome_emit]
    decide +kernel
  obtain ⟨bytes, hbytes⟩ := Option.isSome_iff_exists.mp hemit
  have hbuckets : sampleBuilder.internBuckets = some sampleBuilder.bucketTables := rfl
  have hneedles : sampleBuilder.internNeedles sampleBuilder.bucketTables.pool =
      some sampleBuilder.needleTables := rfl
  refine ⟨bytes, ?_, ?_⟩
  · rw [SigmaDbBuilder.serialize, if_neg (by decide), hbuckets, Option.bind_some, hneedles,
      Option.bind_some, if_neg (by decide +kernel), hbytes]
  · rw [SigmaDbBuilder.length_of_emit hbytes]
    decide +kernel

/-- The theorem at the small builder. -/
theorem serialize_eq_sigmaDbSerialize_sample :
    ∃ t, SameTables sampleBuilder t ∧ sampleBuilder.serialize 5 = some (sigmaDbSerialize t) := by
  obtain ⟨bytes, hbytes, hsize⟩ := sampleBuilder_serialize
  obtain ⟨⟨t, ht⟩, hall⟩ := serialize_eq_sigmaDbSerialize ⟨sampleBuilderCalls, rfl⟩ hbytes hsize
  exact ⟨t, ht, by rw [hbytes, hall t ht]⟩

end LibSigma
