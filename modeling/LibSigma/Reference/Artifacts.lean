import LibSigma.Reference.Meaning

/-!
# Which artifacts load, and where their events go

The two ends of the development of the compiler: the artifact of a builder is a file, and the loader
reads it.

## Well formed calls

The methods of the builder check little.  They intern strings, keep lists in step and raise when a
name cannot be written; they take a number of a string, a clause or a network as it is given.  So a
sequence of calls can refer to what is not there.  `WellFormed` collects these references, in terms
of what was said and not of the tables, and leaves out everything that the methods get right by
themselves (`Kept`).  That it leaves out enough, and not too much, is what the equivalence says: the
loader's checks on the tables are well-formedness of the calls, one for one (`rangesOk_iff`).

## Strings

Names are compared as code points by the builder and as bytes by the matcher.  An encoding that took
two names to one would let the matcher mistake them, so that `encodeUtf8` is injective is needed,
and is proved for all strings that can be written at all.

## Sizes

Offsets in a header have 32 bits, and the emitter raises when a number does not fit.  The theorems
are about builders whose `serialize` returns, and about files of less than 4 GiB, as the total size
is in the header too.

* `encodeUtf8_inj`: strings with the same bytes are the same.
* `lies_spans`: the spans of pieces that are put one after the other.
* `artifact_loads_iff`: **the loader accepts the artifact of a builder exactly when the calls were
  well formed**: only references that the calls gave can be wrong.
* `artifact_means_source`: **a full scan reports what the calls say.**
-/

namespace LibSigma

open Library

/-! ## Strings

UTF-8 is a prefix code: the bytes of a code point are not the beginning of those of another one.  So
the code points of a string can be read off its bytes one after the other. -/

/-- No code is the beginning of another one. -/
theorem utf8Char_prefix {c d : ℕ} (hc : c < 0x110000) (hd : d < 0x110000)
    {bs bs' rest rest' : List UInt8} (h : utf8Char c = some bs) (h' : utf8Char d = some bs')
    (heq : bs ++ rest = bs' ++ rest') : c = d ∧ rest = rest' := by
  have hbyte : ∀ x y : ℕ, UInt8.ofNat x = UInt8.ofNat y ↔ x % 256 = y % 256 := by
    intro x y
    rw [← UInt8.toNat_inj, UInt8.toNat_ofNat', UInt8.toNat_ofNat']
  unfold utf8Char at h h'
  split_ifs at h h'
  all_goals
    obtain rfl := Option.some.inj h
    obtain rfl := Option.some.inj h'
    simp only [List.cons_append, List.nil_append, List.cons.injEq, hbyte] at heq
  -- codes of different lengths differ in their first bytes
  all_goals
    refine ⟨by omega, ?_⟩
    first
    | exact heq.2
    | exact heq.2.2
    | exact heq.2.2.2
    | exact heq.2.2.2.2
    | (exfalso; omega)

theorem encodeUtf8_cons {c : Fin 0x110000} {s : PyStr} {bs : List UInt8}
    (h : encodeUtf8 (c :: s) = some bs) :
    ∃ x y, utf8Char c.val = some x ∧ encodeUtf8 s = some y ∧ bs = x ++ y := by
  rw [encodeUtf8, List.mapM_cons] at h
  obtain ⟨pieces, hpieces, rfl⟩ := Option.map_eq_some_iff.mp h
  obtain ⟨x, hx, hrest⟩ := Option.bind_eq_some_iff.mp hpieces
  obtain ⟨ys, hys, hcons⟩ := Option.bind_eq_some_iff.mp hrest
  obtain rfl := Option.some.inj hcons
  refine ⟨x, ys.flatten, hx, ?_, List.flatten_cons⟩
  rw [encodeUtf8, hys]
  rfl

theorem utf8Char_ne_nil {c : ℕ} : utf8Char c ≠ some [] := by
  unfold utf8Char
  split_ifs <;> exact fun h => nomatch h

/-- **Strings with the same bytes are the same.** -/
theorem encodeUtf8_inj {s t : PyStr} {bs : List UInt8} (hs : encodeUtf8 s = some bs)
    (ht : encodeUtf8 t = some bs) : s = t := by
  induction s generalizing t bs with
  | nil =>
    cases t with
    | nil => rfl
    | cons d t =>
      obtain ⟨x, y, hx, -, rfl⟩ := encodeUtf8_cons ht
      have hnil : x ++ y = [] := (Option.some.inj hs).symm
      rw [(List.append_eq_nil_iff.mp hnil).1] at hx
      exact absurd hx utf8Char_ne_nil
  | cons c s ih =>
    obtain ⟨x, y, hx, hy, rfl⟩ := encodeUtf8_cons hs
    cases t with
    | nil =>
      have hnil : x ++ y = [] := (Option.some.inj ht).symm
      rw [(List.append_eq_nil_iff.mp hnil).1] at hx
      exact absurd hx utf8Char_ne_nil
    | cons d t =>
      obtain ⟨x', y', hx', hy', heq⟩ := encodeUtf8_cons ht
      obtain ⟨hcd, rfl⟩ := utf8Char_prefix c.isLt d.isLt hx hx' heq
      rw [Fin.ext hcd, ih hy hy']

/-- Strings that can be written. -/
def Encodes (v : PyStr) : Prop := (encodeUtf8 v).isSome = true

theorem Encodes.encoded_eq {v : PyStr} (h : Encodes v) : encodeUtf8 v = some (encoded v) := by
  obtain ⟨bs, hbs⟩ := Option.isSome_iff_exists.mp h
  rw [encoded, hbs, Option.getD_some]

theorem Encodes.encoded_inj {v w : PyStr} (hv : Encodes v) (hw : Encodes w)
    (h : encoded v = encoded w) : v = w :=
  encodeUtf8_inj hv.encoded_eq (h ▸ hw.encoded_eq)

theorem Encodes.encoded_eq_nil_iff {v : PyStr} (hv : Encodes v) : encoded v = [] ↔ v = [] := by
  refine ⟨fun h => ?_, fun h => by rw [h]; rfl⟩
  have hnil : Encodes [] := rfl
  exact hv.encoded_inj hnil (h.trans rfl)

/-! ## Spans

The interning loops put pieces one after the other and note where each begins and how long it is.
What is read at such a note is the piece, whatever comes before and after. -/

/-- What is read at a reference. -/
theorem Lies.slice_eq {α : Type} {buf piece : List α} {ref : Int × Int} (h : Lies buf piece ref) :
    slice buf ref.1.toNat ref.2.toNat = piece := by
  obtain ⟨pre, post, rfl, rfl⟩ := h
  rw [slice, Int.toNat_natCast, Int.toNat_natCast, List.append_assoc, List.drop_left, List.take_left]

theorem Lies.le {α : Type} {buf piece : List α} {ref : Int × Int} (h : Lies buf piece ref) :
    ref.1.toNat + ref.2.toNat ≤ buf.length := by
  obtain ⟨pre, post, rfl, rfl⟩ := h
  rw [Int.toNat_natCast, Int.toNat_natCast, List.length_append, List.length_append]
  exact Nat.le_add_right _ _

/-- **Pieces that are put one after the other lie at their spans.** -/
theorem lies_spans {α : Type} (buf : List α) (pieces : List (List α)) (more : List α) :
    List.Forall₂ (Lies (buf ++ pieces.flatten ++ more)) pieces
      (spans buf.length (pieces.map List.length)) := by
  induction pieces generalizing buf with
  | nil => exact .nil
  | cons piece pieces ih =>
    refine .cons ⟨buf, pieces.flatten ++ more, ?_, rfl⟩ ?_
    · rw [List.flatten_cons, List.append_assoc, List.append_assoc, List.append_assoc]
    · have hrest := ih (buf ++ piece)
      rw [List.length_append, List.append_assoc buf, ← List.flatten_cons] at hrest
      exact hrest

/-- The loop over the keys returns only if all of them can be written. -/
theorem encodes_of_internAll {β : Type} {pool : List UInt8} {ps : List (PyStr × List β)}
    {r : Interned β} (h : internAll pool ps = some r) : ∀ p ∈ ps, Encodes p.1 := by
  rw [internAll] at h
  generalize (⟨pool, [], [], []⟩ : Interned β) = acc at h
  induction ps generalizing acc with
  | nil => exact fun p hp => absurd hp List.not_mem_nil
  | cons q ps ih =>
    rw [List.foldlM_cons] at h
    obtain ⟨acc', hstep, hrest⟩ := Option.bind_eq_some_iff.mp h
    obtain ⟨kb, hkb, -⟩ := Option.map_eq_some_iff.mp hstep
    intro p hp
    rcases List.mem_cons.mp hp with rfl | hp
    · exact Option.isSome_iff_exists.mpr ⟨kb, hkb⟩
    · exact ih acc' hrest p hp

/-! ## Well formed calls

The conditions are on what was said, one for each kind of reference: strings, networks, fields,
rules, clauses.  Offsets and descriptors are not among them, as the caller never sees these. -/

/-- The operator of a field witness. -/
def PyFwit.sigmaOp (w : PyFwit) : Option SigmaOp := SigmaOp.ofByte (UInt8.ofNat w.op.toNat)

namespace SourceDb

/-- The clause counts that are written. -/
def emittedClauses (s : SourceDb) : List Int :=
  if s.needles.isEmpty && s.alwaysVerify.isEmpty && s.fwits.isEmpty then [] else s.ruleClauses

/-- The number of a string, or of none. -/
def StringOk (s : SourceDb) (id : Int) : Prop := id = sigmaNoValue.toNat ∨ id < s.values.length

/-- The operand of a predicate is there. -/
def OperandOk (s : SourceDb) (p : SourcePred) : Prop :=
  (if p.flag sigmaPfFieldref then p.valueId < s.fields.length
    else if p.sigmaOp = some .opCidr then p.valueId < s.cidrs.length
    else s.StringOk p.valueId) ∧
  (p.sigmaOp = some .opRe → p.valueId < s.values.length)

/-- A clause that its rule has. -/
def ClauseOk (s : SourceDb) (rule clause : Int) : Prop :=
  rule < s.rules.length ∧ clause < sigmaMaxClauses ∧
    (s.emittedClauses[rule.toNat]?).any fun n => clause < n

/-- A field witness tests a network that is there, or compares with a number. -/
def WitnessOk (s : SourceDb) (w : PyFwit) : Prop :=
  (w.sigmaOp = some .opCidr ∧ 0 ≤ w.ival ∧ w.ival < s.cidrs.length) ∨
    w.sigmaOp ∈ [SigmaOp.opGt, .opGte, .opLt, .opLte, .opNumeq].map some

/-- **Well formed calls**: what they refer to is there. -/
structure WellFormed (s : SourceDb) : Prop where
  preds : ∀ p ∈ s.preds, s.OperandOk p
  rules : ∀ r ∈ s.rules, r.selStart + r.selCount ≤ s.sels.length ∧ s.StringOk r.nameId ∧
    s.StringOk r.mitreId
  cond : ∀ k ∈ s.cond, k.1 ≤ 3
  buckets : ∀ p ∈ s.buckets, ∀ i ∈ p.2, i < s.rules.length
  needles : ∀ p ∈ s.needles, ∀ r ∈ p.2, s.ClauseOk r.ruleIdx r.clause ∧
    (r.fieldId = sigmaLitrefAnyField.toNat ∨ r.fieldId < s.fields.length)
  alwaysVerify : ∀ i ∈ s.alwaysVerify, i < s.rules.length ∧
    (s.emittedClauses[i.toNat]?).all fun n => n = 0
  clauses : ∀ n ∈ s.emittedClauses, n ≤ sigmaMaxClauses
  fwits : ∀ w ∈ s.fwits, s.ClauseOk w.ruleIdx w.clause ∧ w.fieldId ≠ sigmaLitrefAnyField.toNat ∧
    w.fieldId < s.fields.length ∧ s.WitnessOk w

instance (s : SourceDb) (id : Int) : Decidable (s.StringOk id) :=
  inferInstanceAs (Decidable (_ ∨ _))

instance (s : SourceDb) (p : SourcePred) : Decidable (s.OperandOk p) :=
  inferInstanceAs (Decidable (_ ∧ _))

instance (s : SourceDb) (rule clause : Int) : Decidable (s.ClauseOk rule clause) :=
  inferInstanceAs (Decidable (_ ∧ _))

instance (s : SourceDb) (w : PyFwit) : Decidable (s.WitnessOk w) :=
  inferInstanceAs (Decidable (_ ∨ _))

theorem wellFormed_iff (s : SourceDb) : s.WellFormed ↔
    (∀ p ∈ s.preds, s.OperandOk p) ∧
    (∀ r ∈ s.rules, r.selStart + r.selCount ≤ s.sels.length ∧ s.StringOk r.nameId ∧
      s.StringOk r.mitreId) ∧
    (∀ k ∈ s.cond, k.1 ≤ 3) ∧ (∀ p ∈ s.buckets, ∀ i ∈ p.2, i < s.rules.length) ∧
    (∀ p ∈ s.needles, ∀ r ∈ p.2, s.ClauseOk r.ruleIdx r.clause ∧
      (r.fieldId = sigmaLitrefAnyField.toNat ∨ r.fieldId < s.fields.length)) ∧
    (∀ i ∈ s.alwaysVerify, i < s.rules.length ∧
      ((s.emittedClauses[i.toNat]?).all fun n => n = 0) = true) ∧
    (∀ n ∈ s.emittedClauses, n ≤ sigmaMaxClauses) ∧
    ∀ w ∈ s.fwits, s.ClauseOk w.ruleIdx w.clause ∧ w.fieldId ≠ sigmaLitrefAnyField.toNat ∧
      w.fieldId < s.fields.length ∧ s.WitnessOk w :=
  ⟨fun ⟨hp, hr, hc, hb, hn, ha, hcl, hf⟩ => ⟨hp, hr, hc, hb, hn, ha, hcl, hf⟩,
    fun ⟨hp, hr, hc, hb, hn, ha, hcl, hf⟩ => ⟨hp, hr, hc, hb, hn, ha, hcl, hf⟩⟩

instance (s : SourceDb) : Decidable s.WellFormed := decidable_of_iff _ s.wellFormed_iff.symm

/-! ## What any calls keep

The other half of the loader's checks is about what the methods write by themselves, and holds after
any calls: the ranges of selections and conditions, distinct names of fields and buckets, the
numbers of fields. -/

/-- What the methods get right by themselves: the predicates of a selection and the condition of a
rule are there, no field and no bucket comes twice and no needle is empty. -/
structure Kept (s : SourceDb) : Prop where
  fields : s.fields.Nodup
  sels : ∀ sel ∈ s.sels, sel.1 + sel.2 ≤ s.preds.length
  cond : ∀ r ∈ s.rules, r.condStart + r.condCount ≤ s.cond.length
  buckets : (s.buckets.map Prod.fst).Nodup
  needles : ∀ p ∈ s.needles, p.1 ≠ []

theorem kept_init : Kept init where
  fields := List.nodup_nil
  sels := fun _ h => absurd h List.not_mem_nil
  cond := fun _ h => absurd h List.not_mem_nil
  buckets := List.nodup_nil
  needles := fun _ h => absurd h List.not_mem_nil

/-- The items of a dictionary, in any order. -/
theorem nodup_sorted {ν : Type} (d : PyDict ν) : (d.sorted.map Prod.fst).Nodup :=
  ((List.perm_insertionSort _ d.items).map Prod.fst).nodup_iff.mpr d.nodup

theorem mention_eq {s s' : SourceDb} {name : PyStr} (hs : s.fields.Nodup)
    (h : s.mention name = some s') :
    ∃ names, names.Nodup ∧ s' = { s with fields := names } := by
  unfold mention at h
  split at h
  · exact ⟨s.fields, hs, (Option.some.inj h).symm⟩
  · rename_i hnew
    split at h
    · refine ⟨s.fields ++ [name], ?_, (Option.some.inj h).symm⟩
      rw [← List.concat_eq_append]
      exact hs.concat hnew
    · cases h

theorem Kept.apply {s : SourceDb} (h : s.Kept) (call : BuilderCall) : (s.apply call).Kept := by
  cases call with
  | field name =>
    rw [SourceDb.apply]
    cases hs : s.mention name with
    | none => exact h
    | some s' =>
      obtain ⟨names, hnames, rfl⟩ := mention_eq h.fields hs
      exact ⟨hnames, h.sels, h.cond, h.buckets, h.needles⟩
  | value v =>
    rw [SourceDb.apply]
    split
    · exact ⟨h.fields, h.sels, h.cond, h.buckets, h.needles⟩
    · exact h
  | cidr family prefixLen net =>
    simp only [SourceDb.apply]
    split
    · exact h
    · exact ⟨h.fields, h.sels, h.cond, h.buckets, h.needles⟩
  | pred fieldName op valueId group flags ival =>
    rw [SourceDb.apply]
    cases hs : s.mention fieldName with
    | none => exact h
    | some s' =>
      obtain ⟨names, hnames, rfl⟩ := mention_eq h.fields hs
      refine ⟨hnames, fun sel hsel => ?_, h.cond, h.buckets, h.needles⟩
      have hle := h.sels sel hsel
      simp only [Option.map_some, Option.getD_some, List.length_append, List.length_singleton]
      omega
  | endSel predStart =>
    refine ⟨h.fields, fun sel hsel => ?_, h.cond, h.buckets, h.needles⟩
    rcases List.mem_append.mp hsel with hsel | hsel
    · exact h.sels sel hsel
    · obtain rfl := List.mem_singleton.mp hsel
      exact (add_sub_cancel predStart _).le
  | rule ruleId selStart selCount cond verdict severity scoreX100 nameId mitreId =>
    refine ⟨h.fields, h.sels, fun r hr => ?_, h.buckets, h.needles⟩
    have hgrow : ((s.cond ++ cond.getD []).length : Int) = s.cond.length + (cond.getD []).length := by
      rw [List.length_append, Nat.cast_add]
    rcases List.mem_append.mp hr with hr | hr
    · have hle := h.cond r hr
      simp only [SourceDb.apply, hgrow]
      omega
    · obtain rfl := List.mem_singleton.mp hr
      exact hgrow.ge
  | setBuckets buckets =>
    refine ⟨h.fields, h.sels, h.cond, ?_, h.needles⟩
    exact (nodup_sorted buckets).sublist (List.filter_sublist.map Prod.fst)
  | setLitidx needleRefs alwaysVerify ruleClauses fwits =>
    refine ⟨h.fields, h.sels, h.cond, h.buckets, fun p hp => ?_⟩
    have hkept := (List.mem_filter.mp hp).2
    simp only [Bool.and_eq_true, Bool.not_eq_true', List.isEmpty_eq_false_iff] at hkept
    exact hkept.1

/-- **Any calls.** -/
theorem kept_ofCalls (calls : List BuilderCall) : (ofCalls calls).Kept := by
  induction calls using List.reverseRecOn with
  | nil => exact kept_init
  | append_singleton calls call ih =>
    rw [ofCalls, List.foldl_append]
    exact ih.apply call

end SourceDb

/-! ## The tables behind what is said -/

/-- The tables hold what is said. -/
structure Laid (s : SourceDb) (t : Tables) : Prop where
  fields : List.Forall₂ (fun name f => SpellsName t.strpool name (SigmaStr.toRow f)) s.fields t.fields
  values : List.Forall₂ (fun v f => Spells t.strpool v (SigmaStr.toRow f)) s.values t.values
  preds : List.Forall₂ (PredRecord s.fields) s.preds t.preds
  sels : s.sels = t.sels.map SigmaSel.toRow
  cond : s.cond = t.cond.map SigmaCtok.toRow
  rules : s.rules = t.rules.map SigmaRule.toRow
  cidrs : s.cidrs.length = t.cidrs.length
  keys : List.Forall₂ (fun p k => Spells t.strpool p.1 (SigmaStr.toRow k)) s.buckets t.bucketKeys
  lists : List.Forall₂ (fun p b => Lies (t.bucketIdx.map fun i => (i.toNat : Int)) p.2
    (SigmaBucket.toRow b)) s.buckets t.buckets
  bucketIdx : t.bucketIdx.map (fun i => (i.toNat : Int)) = (s.buckets.map Prod.snd).flatten
  ndls : List.Forall₂ (fun p k => Spells t.strpool p.1 (SigmaStr.toRow k)) s.needles t.litndl
  posts : List.Forall₂ (fun p q => Lies (t.litpostRef.map SigmaLitref.toRow) p.2
    (SigmaLitpost.toRow q)) s.needles t.litpost
  litpostRef : t.litpostRef.map SigmaLitref.toRow = (s.needles.map Prod.snd).flatten
  litav : t.litav.map (fun i => (i.toNat : Int)) = s.alwaysVerify
  clauses : (t.ruleClauses.getD []).map (fun n => (n.toNat : Int)) = s.emittedClauses
  fwit : t.fwit.map SigmaFwit.toRow = s.fwits

section Tables

variable {s : SourceDb} {b : SigmaDbBuilder} {t : Tables}

theorem emittedClauses_eq (hs : Recorded s b) : b.emittedClauses = s.emittedClauses := by
  rw [SigmaDbBuilder.emittedClauses, SourceDb.emittedClauses, SigmaDbBuilder.emitLitidx,
    hs.litNeedles, hs.litAlwaysVerify, hs.fwits, hs.ruleClauses, List.isEmpty_map]
  cases s.needles.isEmpty <;> cases s.alwaysVerify.isEmpty <;> cases s.fwits.isEmpty <;> rfl

/-- The keys of an interning loop lie at its references. -/
theorem spells_spans {β : Type} {pool more : List UInt8} {ps : List (PyStr × List β)}
    {ks : List SigmaStr}
    (h : ks.map SigmaStr.toRow = spans pool.length (ps.map fun p => (encoded p.1).length)) :
    List.Forall₂ (fun p k => Spells (pool ++ (ps.map fun p => encoded p.1).flatten ++ more) p.1
      (SigmaStr.toRow k)) ps ks := by
  have hspans := lies_spans pool (ps.map fun p => encoded p.1) more
  have hlen : ((ps.map fun p => encoded p.1).map List.length) = ps.map fun p => (encoded p.1).length :=
    List.map_map
  rw [hlen, ← h] at hspans
  have hkeys : List.Forall₂ (fun p r => Lies (pool ++ (ps.map fun p => encoded p.1).flatten ++ more)
      (encoded p.1) r) ps (ks.map SigmaStr.toRow) := List.forall₂_map_left_iff.mp hspans
  exact List.forall₂_map_right_iff.mp hkeys

/-- The lists of an interning loop lie at its descriptors. -/
theorem lies_lists {β ρ : Type} {row : ρ → Int × Int} {ps : List (PyStr × List β)} {rs : List ρ}
    (h : rs.map row = spans 0 (ps.map fun p => p.2.length)) :
    List.Forall₂ (fun p r => Lies (ps.map Prod.snd).flatten p.2 (row r)) ps rs := by
  have hspans := lies_spans [] (ps.map Prod.snd) []
  have hlen : (ps.map Prod.snd).map List.length = ps.map fun p => p.2.length := List.map_map
  rw [List.append_nil, List.nil_append, List.length_nil, hlen, ← h] at hspans
  exact List.forall₂_map_right_iff.mp (List.forall₂_map_left_iff.mp hspans)

/-- **The tables of a builder hold what is said.** -/
theorem laid_of_sameTables (hs : Recorded s b) (ht : SameTables b t) : Laid s t := by
  have hkeys : b.bucketKeys.map encoded = s.buckets.map fun p => encoded p.1 := by
    rw [hs.bucketKeys, List.map_map]
    rfl
  have hndls : b.litNeedles.map encoded = s.needles.map fun p => encoded p.1 := by
    rw [hs.litNeedles, List.map_map]
    rfl
  have hbuckets : b.bucketTables.pool = b.pool ++ (s.buckets.map fun p => encoded p.1).flatten := by
    rw [← hkeys]
    rfl
  have hpool : t.strpool =
      b.bucketTables.pool ++ (s.needles.map fun p => encoded p.1).flatten ++ [] := by
    rw [ht.strpool, ← hndls, List.append_nil]
    rfl
  have hgrown : t.strpool = b.pool ++ ((s.buckets.map fun p => encoded p.1).flatten ++
      (s.needles.map fun p => encoded p.1).flatten) := by
    rw [hpool, List.append_nil, hbuckets, List.append_assoc]
  have hlists : ∀ {β : Type} (ps : List (PyStr × List β)),
      (ps.map Prod.snd).map List.length = ps.map fun p => p.2.length := fun ps => List.map_map
  have hnames : ∀ {β : Type} (ps : List (PyStr × List β)),
      (ps.map Prod.fst).map (fun k => (encoded k).length) = ps.map fun p => (encoded p.1).length :=
    fun ps => List.map_map
  have hbidx := ht.bucketIdx
  have hrefs := ht.litpostRef
  rw [SigmaDbBuilder.bucketTables, hs.bucketLists] at hbidx
  rw [SigmaDbBuilder.needleTables, hs.litPostings] at hrefs
  refine ⟨?_, ?_, ?_, ?_, ?_, ?_, ?_, ?_, ?_, hbidx, ?_, ?_, hrefs, ?_, ?_, ?_⟩
  · rw [hgrown]
    exact List.forall₂_map_right_iff.mp (ht.fields ▸ hs.fields.imp fun _ _ hf => hf.append _)
  · rw [hgrown]
    exact List.forall₂_map_right_iff.mp (ht.values ▸ hs.values.imp fun _ _ hv => hv.append _)
  · have hrows : List.Forall₂ (fun p q => PredRow s.fields p (SigmaPred.toRow q)) s.preds t.preds :=
      List.forall₂_map_right_iff.mp (ht.preds ▸ hs.preds)
    exact hrows.imp fun _ _ hp => hp.record
  · rw [ht.sels, hs.sels]
  · rw [ht.cond, hs.cond]
  · rw [ht.rules, hs.rules]
  · rw [← hs.cidrs, ← ht.cidrs, List.length_map]
  · rw [hgrown, ← List.append_assoc]
    refine spells_spans (ht.bucketKeys.trans ?_)
    rw [SigmaDbBuilder.bucketTables, hs.bucketKeys, hnames]
  · rw [hbidx]
    refine lies_lists (ht.buckets.trans ?_)
    rw [SigmaDbBuilder.bucketTables, hs.bucketLists, hlists]
  · rw [hpool]
    refine spells_spans (ht.litndl.trans ?_)
    rw [SigmaDbBuilder.needleTables, hs.litNeedles, hnames]
  · rw [hrefs]
    refine lies_lists (ht.litpost.trans ?_)
    rw [SigmaDbBuilder.needleTables, hs.litPostings, hlists]
  · rw [ht.litav, hs.litAlwaysVerify]
  · rw [ht.clauses_map, emittedClauses_eq hs]
  · rw [ht.fwit, hs.fwits]

/-- The keys of a serialized builder can be written. -/
theorem encodes_of_serialize (hs : Recorded s b) {version : Int} {bytes : List UInt8}
    (h : b.serialize version = some bytes) :
    (∀ p ∈ s.buckets, Encodes p.1) ∧ ∀ p ∈ s.needles, Encodes p.1 := by
  rw [SigmaDbBuilder.serialize] at h
  split at h
  · cases h
  obtain ⟨bk, hbk, h⟩ := Option.bind_eq_some_iff.mp h
  obtain ⟨ln, hln, -⟩ := Option.bind_eq_some_iff.mp h
  have hzip : ∀ {β : Type} (l : List (PyStr × β)), (l.map Prod.fst).zip (l.map Prod.snd) = l :=
    fun l => by rw [List.zip_map', List.map_id']
  constructor
  · rw [SigmaDbBuilder.internBuckets] at hbk
    split at hbk
    · rw [hs.bucketKeys, hs.bucketLists, hzip] at hbk
      exact encodes_of_internAll hbk
    · rename_i hnone
      have hnil : s.buckets = [] := by
        rw [SigmaDbBuilder.emitBuckets, hs.bucketKeys, List.isEmpty_map] at hnone
        simpa using hnone
      rw [hnil]
      exact fun p hp => absurd hp List.not_mem_nil
  · rw [SigmaDbBuilder.internNeedles] at hln
    split at hln
    · rw [hs.litNeedles, hs.litPostings, hzip] at hln
      exact encodes_of_internAll hln
    · rename_i hnone
      have hnil : s.needles = [] := by
        rw [SigmaDbBuilder.emitLitidx, hs.litNeedles, List.isEmpty_map] at hnone
        simp only [Bool.or_eq_true, Bool.not_eq_true', not_or, Bool.not_eq_false,
          List.isEmpty_iff] at hnone
        exact hnone.1.1
      rw [hnil]
      exact fun p hp => absurd hp List.not_mem_nil

end Tables

/-! ## The checks of the loader

Table by table, a check over the records of the database is the condition on what was said.  The two
are related entry by entry, so most of these are a relation between the entries carried through a
list. -/

/-- A relation between the entries of two lists gives another one. -/
theorem forall₂_imp_of_mem {α β : Type} {R S : α → β → Prop} {xs : List α} {ys : List β}
    (h : List.Forall₂ R xs ys) (hRS : ∀ x ∈ xs, ∀ y, R x y → S x y) : List.Forall₂ S xs ys := by
  induction h with
  | nil => exact .nil
  | cons hxy hrest ih =>
    refine .cons (hRS _ List.mem_cons_self _ hxy) (ih fun x hx => ?_)
    exact hRS x (List.mem_cons_of_mem _ hx)

/-- What holds of one list holds of a related one. -/
theorem forall₂_forall_iff {α β : Type} {P : α → Prop} {Q : β → Prop} {xs : List α} {ys : List β}
    (h : List.Forall₂ (fun x y => P x ↔ Q y) xs ys) : (∀ x ∈ xs, P x) ↔ ∀ y ∈ ys, Q y := by
  induction h with
  | nil => exact ⟨fun _ _ h => absurd h List.not_mem_nil, fun _ _ h => absurd h List.not_mem_nil⟩
  | cons hxy hrest ih => rw [List.forall_mem_cons, List.forall_mem_cons, hxy, ih]

/-- What a relation gives holds of the second list. -/
theorem forall₂_right {α β : Type} {R : α → β → Prop} {Q : β → Prop} {xs : List α} {ys : List β}
    (h : List.Forall₂ R xs ys) (hQ : ∀ x ∈ xs, ∀ y, R x y → Q y) : ∀ y ∈ ys, Q y :=
  (forall₂_forall_iff (forall₂_imp_of_mem h fun x hx y hxy => iff_of_true trivial (hQ x hx y hxy))).mp
    fun _ _ => trivial

/-- The entries of the lists, one list after the other. -/
theorem forall_mem_lists {α β : Type} {P : β → Prop} (ps : List (α × List β)) :
    (∀ b ∈ (ps.map Prod.snd).flatten, P b) ↔ ∀ p ∈ ps, ∀ b ∈ p.2, P b := by
  constructor
  · intro h p hp b hb
    exact h b (List.mem_flatten_of_mem (List.mem_map_of_mem hp) hb)
  · intro h b hb
    obtain ⟨l, hl, hb⟩ := List.mem_flatten.mp hb
    obtain ⟨p, hp, rfl⟩ := List.mem_map.mp hl
    exact h p hp b hb

/-- Distinct keys: at most one is empty, and the scan ends. -/
theorem isSome_avScan {β : Type} {ps : List (PyStr × β)} {ks : List SigmaStr}
    (h : List.Forall₂ (fun p k => p.1 = [] ↔ k.len = 0) ps ks) (hnodup : (ps.map Prod.fst).Nodup)
    {i : ℕ} {av : Option ℕ} (hav : av = none ∨ ∀ p ∈ ps, p.1 ≠ []) :
    (Tables.avScan ks i av).isSome = true := by
  induction h generalizing i av with
  | nil => rfl
  | @cons p k ps ks hpk hrest ih =>
    obtain ⟨hp, hps⟩ := List.nodup_cons.mp hnodup
    rw [Tables.avScan.eq_def]
    dsimp only
    split
    · rename_i hlen
      have hnil := hpk.mpr hlen
      obtain rfl := hav.resolve_right fun hne => hne p List.mem_cons_self hnil
      refine ih hps (.inr fun q hq hq' => hp ?_)
      rw [hnil, ← hq']
      exact List.mem_map_of_mem hq
    · exact ih hps (hav.imp_right fun hne q hq => hne q (List.mem_cons_of_mem _ hq))

namespace Laid

variable {s : SourceDb} {t : Tables}

theorem inPool_of_spells {v : PyStr} {k : SigmaStr} (h : Spells t.strpool v k.toRow) : t.InPool k :=
  Lies.le h

theorem fieldOk_of_spells {name : PyStr} {f : SigmaStr} (h : SpellsName t.strpool name f.toRow) :
    t.fieldOk f = true := by
  obtain ⟨pre, post, hpool, href⟩ := h
  obtain ⟨hoff, hlen⟩ := Prod.mk.inj href
  have hfin : f.off.toNat + f.len.toNat = (pre ++ encoded name).length := by
    rw [List.length_append, Int.ofNat.inj hoff, Int.ofNat.inj hlen]
  rw [Tables.fieldOk, hfin, hpool, Bool.and_eq_true, decide_eq_true_eq, beq_iff_eq]
  constructor
  · simp only [List.length_append, List.length_cons]
    omega
  · rw [List.getD_eq_getElem?_getD, List.getElem?_append_right le_rfl, Nat.sub_self]
    rfl

/-- A string is empty exactly if its record is. -/
theorem nil_iff_of_spells {v : PyStr} {k : SigmaStr} (hv : Encodes v)
    (h : Spells t.strpool v k.toRow) : v = [] ↔ k.len = 0 := by
  obtain ⟨pre, post, -, href⟩ := h
  have hlen : k.len.toNat = (encoded v).length := Int.ofNat.inj (Prod.mk.inj href).2
  rw [← hv.encoded_eq_nil_iff, ← List.length_eq_zero_iff, ← hlen]
  exact UInt32.toNat_inj (b := 0)

variable (h : Laid s t)
include h

theorem getElem?_clauses (i : ℕ) :
    ((t.ruleClauses.getD [])[i]?).map (fun n => (n.toNat : Int)) = s.emittedClauses[i]? := by
  rw [← h.clauses, List.getElem?_map]

theorem clauses_iff : (∀ n ∈ s.emittedClauses, n ≤ sigmaMaxClauses) ↔
    ∀ n ∈ t.ruleClauses.getD [], n.toNat ≤ sigmaMaxClauses := by
  rw [← h.clauses, List.forall_mem_map]
  exact forall₂_congr fun n _ => Int.ofNat_le

/-- A rule without an emitted clause count has no clauses. -/
theorem clauseNamed_iff (ruleIdx : UInt32) (clause : UInt8) : t.clauseNamed ruleIdx clause = true ↔
    ((s.emittedClauses[ruleIdx.toNat]?).any fun n => (clause.toNat : Int) < n) = true := by
  rw [← h.getElem?_clauses, Tables.clauseNamed, Tables.clauses]
  cases t.ruleClauses with
  | none => simp
  | some cs =>
    simp only [Option.isSome_some, Bool.true_and, decide_eq_true_eq, Option.getD_some,
      List.getD_eq_getElem?_getD]
    cases cs[ruleIdx.toNat]? with
    | none => simp
    | some n => simp

theorem litav_iff (ri : UInt32) : (t.ruleClauses.isNone || t.clauses ri.toNat = 0) = true ↔
    ((s.emittedClauses[ri.toNat]?).all fun n => n = 0) = true := by
  rw [← h.getElem?_clauses, Tables.clauses]
  cases t.ruleClauses with
  | none => simp
  | some cs =>
    simp only [Option.isNone_some, Bool.false_or, decide_eq_true_eq, Option.getD_some,
      List.getD_eq_getElem?_getD]
    cases cs[ri.toNat]? with
    | none => simp
    | some n => simp

theorem clauseOk_iff (ruleIdx : UInt32) (clause : UInt8) :
    s.ClauseOk ruleIdx.toNat clause.toNat ↔
      ruleIdx.toNat < t.rules.length ∧ clause.toNat < sigmaMaxClauses ∧
        t.clauseNamed ruleIdx clause = true := by
  rw [SourceDb.ClauseOk, h.clauseNamed_iff, h.rules, List.length_map, Int.toNat_natCast, Int.ofNat_lt]
  exact and_congr_right' (and_congr_left' Int.ofNat_lt)

theorem stringOk_iff (id : UInt32) :
    s.StringOk id.toNat ↔ (id = sigmaNoValue || id.toNat < t.values.length) = true := by
  rw [SourceDb.StringOk, h.values.length_eq, Bool.or_eq_true, decide_eq_true_eq, decide_eq_true_eq,
    ← UInt32.toNat_inj]
  exact or_congr Int.ofNat_inj Int.ofNat_lt

/-- A predicate passes its checks exactly if its operand is there. -/
theorem operandOk_iff {p : SourcePred} {q : SigmaPred} (hp : PredRecord s.fields p q) :
    s.OperandOk p ↔
      t.predOk q = true ∧ (q.isRe = true → q.valueId.toNat < t.values.length) := by
  have hfield : q.fieldId.toNat < t.fields.length := by
    rw [← h.fields.length_eq]
    exact (List.getElem?_eq_some_iff.mp hp.field).1
  have hstring := h.stringOk_iff q.valueId
  have hlt : ∀ n : ℕ, p.valueId < n ↔ q.valueId.toNat < n := fun n => by
    rw [hp.valueId]
    exact Int.ofNat_lt
  have hre : q.isRe = true ↔ p.sigmaOp = some .opRe := by
    rw [SigmaPred.isRe, beq_iff_eq, hp.sigmaOp_eq]
  rw [SourceDb.OperandOk, hre, hlt s.fields.length, hlt s.cidrs.length, hlt s.values.length,
    h.values.length_eq]
  refine and_congr_left' ?_
  rw [Tables.predOk, Bool.and_eq_true, decide_eq_true_eq, and_iff_right hfield, hp.flag_eq,
    hp.sigmaOp_eq, h.fields.length_eq, h.cidrs, hp.valueId, hstring]
  by_cases href : q.flags &&& sigmaPfFieldref ≠ 0
  · rw [if_pos (decide_eq_true href), if_pos href, decide_eq_true_eq]
  · rw [if_neg (by simpa using href), if_neg href]
    by_cases hcidr : SigmaOp.ofByte q.op = some .opCidr
    · rw [if_pos hcidr, if_pos hcidr, decide_eq_true_eq]
    · rw [if_neg hcidr, if_neg hcidr]

theorem ruleOk_iff (r : SigmaRule) (hcond : r.toRow.condStart + r.toRow.condCount ≤ s.cond.length) :
    (r.toRow.selStart + r.toRow.selCount ≤ s.sels.length ∧ s.StringOk r.toRow.nameId ∧
      s.StringOk r.toRow.mitreId) ↔ t.ruleOk r = true := by
  have hcond' : r.condStart.toNat + r.condCount.toNat ≤ t.cond.length := by
    rw [h.cond, List.length_map] at hcond
    exact Int.ofNat_le.mp hcond
  have hsels : r.toRow.selStart + r.toRow.selCount ≤ s.sels.length ↔
      r.selStart.toNat + r.selCount.toNat ≤ t.sels.length := by
    rw [h.sels, List.length_map]
    exact Int.ofNat_le
  have hname := h.stringOk_iff r.nameId
  have hmitre := h.stringOk_iff r.mitreId
  rw [hsels, Tables.ruleOk, Bool.and_eq_true, Bool.and_eq_true, Bool.and_eq_true,
    decide_eq_true_eq, decide_eq_true_eq, and_iff_left hcond', ← hname, ← hmitre, and_assoc]
  rfl

theorem litrefOk_iff (r : SigmaLitref) :
    (s.ClauseOk r.toRow.ruleIdx r.toRow.clause ∧ (r.toRow.fieldId = sigmaLitrefAnyField.toNat ∨
      r.toRow.fieldId < s.fields.length)) ↔ t.litrefOk r = true := by
  have hclause := h.clauseOk_iff r.ruleIdx r.clauseIdx
  have hfield : (r.toRow.fieldId = sigmaLitrefAnyField.toNat ∨ r.toRow.fieldId < s.fields.length) ↔
      (r.fieldId = sigmaLitrefAnyField ∨ r.fieldId.toNat < t.fields.length) := by
    rw [h.fields.length_eq, ← UInt16.toNat_inj]
    exact or_congr Int.ofNat_inj Int.ofNat_lt
  rw [hfield, Tables.litrefOk]
  simp only [Bool.and_eq_true, Bool.or_eq_true, decide_eq_true_eq]
  rw [show s.ClauseOk r.toRow.ruleIdx r.toRow.clause ↔ _ from hclause]
  tauto

omit h in
/-- A signed number is its bits, or it is negative. -/
theorem toInt_eq_or (x : Int64) :
    x.toInt = x.toUInt64.toNat ∨ (2 ^ 63 ≤ x.toUInt64.toNat ∧ x.toInt < 0) := by
  have hlt := x.toUInt64.toNat_lt
  rw [Int64.toInt, BitVec.toInt_eq_toNat_cond]
  change (if 2 * x.toUInt64.toNat < 2 ^ 64 then _ else _) = _ ∨
    (_ ∧ (if 2 * x.toUInt64.toNat < 2 ^ 64 then _ else _) < _)
  split
  · exact .inl rfl
  · refine .inr ⟨by omega, ?_⟩
    change ((x.toUInt64.toNat : ℕ) : Int) - (2 ^ 64 : ℕ) < 0
    omega

/-- The operand of a field witness; the number of a network is unsigned. -/
theorem witnessOk_iff (w : SigmaFwit) (hcidrs : t.cidrs.length < 2 ^ 63) :
    s.WitnessOk w.toRow ↔ (match SigmaOp.ofByte w.op with
      | some .opCidr => decide (w.ival.toUInt64.toNat < t.cidrs.length)
      | some .opGt | some .opGte | some .opLt | some .opLte | some .opNumeq => true
      | _ => false) = true := by
  have hop : w.toRow.sigmaOp = SigmaOp.ofByte w.op := by
    rw [PyFwit.sigmaOp, SigmaFwit.toRow, Int.toNat_natCast, UInt8.ofNat_toNat]
  have hnet : (0 ≤ w.ival.toInt ∧ w.ival.toInt < t.cidrs.length) ↔
      w.ival.toUInt64.toNat < t.cidrs.length := by
    have hbits := toInt_eq_or w.ival
    omega
  rw [SourceDb.WitnessOk, hop, h.cidrs]
  cases SigmaOp.ofByte w.op with
  | none => simp
  | some op => cases op <;> simp [SigmaFwit.toRow, hnet]

theorem fwitOk_iff (w : SigmaFwit) (hcidrs : t.cidrs.length < 2 ^ 63) :
    (s.ClauseOk w.toRow.ruleIdx w.toRow.clause ∧ w.toRow.fieldId ≠ sigmaLitrefAnyField.toNat ∧
      w.toRow.fieldId < s.fields.length ∧ s.WitnessOk w.toRow) ↔ t.fwitOk w = true := by
  have hclause := h.clauseOk_iff w.ruleIdx w.clauseIdx
  have hfield : w.toRow.fieldId < s.fields.length ↔ w.fieldId.toNat < t.fields.length := by
    rw [h.fields.length_eq]
    exact Int.ofNat_lt
  have hany : w.toRow.fieldId ≠ sigmaLitrefAnyField.toNat ↔ w.fieldId ≠ sigmaLitrefAnyField := by
    rw [ne_eq, ne_eq, ← UInt16.toNat_inj]
    exact not_congr Int.ofNat_inj
  rw [hany, hfield, h.witnessOk_iff w hcidrs, Tables.fwitOk]
  simp only [Bool.and_eq_true, Bool.not_eq_true', Bool.or_eq_false_iff, decide_eq_true_eq,
    decide_eq_false_iff_not, not_le]
  rw [show s.ClauseOk w.toRow.ruleIdx w.toRow.clause ↔ _ from hclause]
  tauto

/-- **The tables pass the checks exactly if the calls were well formed.** -/
theorem rangesOk_iff (hkept : s.Kept) (hbuckets : ∀ p ∈ s.buckets, Encodes p.1)
    (hneedles : ∀ p ∈ s.needles, Encodes p.1) (hcidrs : t.cidrs.length < 2 ^ 63) :
    t.rangesOk = true ∧ t.ReOk ↔ s.WellFormed := by
  have hrules : ∀ i : UInt32, (i.toNat : Int) < s.rules.length ↔ i.toNat < t.rules.length := fun i => by
    rw [h.rules, List.length_map]
    exact Int.ofNat_lt
  -- the checks that any calls pass
  have hfields : ∀ f ∈ t.fields, t.fieldOk f = true :=
    forall₂_right h.fields fun _ _ _ hf => fieldOk_of_spells hf
  have hvalues : ∀ v ∈ t.values, t.InPool v :=
    forall₂_right h.values fun _ _ _ hv => inPool_of_spells hv
  have hkeys : ∀ k ∈ t.bucketKeys, t.InPool k :=
    forall₂_right h.keys fun _ _ _ hk => inPool_of_spells hk
  have hndls : ∀ k ∈ t.litndl, t.InPool k ∧ k.len ≠ 0 := by
    refine forall₂_right h.ndls fun p hp k hk => ⟨inPool_of_spells hk, fun hlen => ?_⟩
    exact hkept.needles p hp ((nil_iff_of_spells (hneedles p hp) hk).mpr hlen)
  have hlists : ∀ b ∈ t.buckets, t.bucketOk b = true := by
    refine forall₂_right h.lists fun _ _ b hb => decide_eq_true ?_
    have hle := Lies.le hb
    rwa [List.length_map] at hle
  have hposts : ∀ q ∈ t.litpost, t.litpostOk q = true := by
    refine forall₂_right h.posts fun _ _ q hq => decide_eq_true ?_
    have hle := Lies.le hq
    rwa [List.length_map] at hle
  have hsels : ∀ sel ∈ t.sels, t.selOk sel = true := by
    intro sel hsel
    have hle := hkept.sels sel.toRow (h.sels ▸ List.mem_map_of_mem hsel)
    rw [h.preds.length_eq] at hle
    exact decide_eq_true (Int.ofNat_le.mp hle)
  have hscan : (Tables.avScan t.bucketKeys 0 none).isSome = true := by
    refine isSome_avScan (forall₂_imp_of_mem h.keys fun p hp k hk => ?_) hkept.buckets (.inl rfl)
    exact nil_iff_of_spells (hbuckets p hp) hk
  -- the others, one kind of reference after the other
  have hpreds := forall₂_forall_iff (h.preds.imp fun _ _ hp => h.operandOk_iff hp)
  have hrule : (∀ r ∈ s.rules, r.selStart + r.selCount ≤ s.sels.length ∧ s.StringOk r.nameId ∧
      s.StringOk r.mitreId) ↔ ∀ r ∈ t.rules, t.ruleOk r = true := by
    have hcond := hkept.cond
    rw [h.rules, List.forall_mem_map] at hcond
    rw [h.rules, List.forall_mem_map]
    exact forall₂_congr fun r hr => h.ruleOk_iff r (hcond r hr)
  have hcond : (∀ k ∈ s.cond, k.1 ≤ 3) ↔ ∀ k ∈ t.cond, k.kind ≤ sigmaCNot := by
    rw [h.cond, List.forall_mem_map]
    refine forall₂_congr fun k _ => ?_
    rw [UInt8.le_iff_toNat_le]
    exact Int.ofNat_le
  have hbidx : (∀ p ∈ s.buckets, ∀ i ∈ p.2, i < s.rules.length) ↔
      ∀ i ∈ t.bucketIdx, i.toNat < t.rules.length := by
    rw [← forall_mem_lists, ← h.bucketIdx, List.forall_mem_map]
    exact forall₂_congr fun i _ => hrules i
  have href : (∀ p ∈ s.needles, ∀ r ∈ p.2, s.ClauseOk r.ruleIdx r.clause ∧
      (r.fieldId = sigmaLitrefAnyField.toNat ∨ r.fieldId < s.fields.length)) ↔
      ∀ r ∈ t.litpostRef, t.litrefOk r = true := by
    rw [← forall_mem_lists, ← h.litpostRef, List.forall_mem_map]
    exact forall₂_congr fun r _ => h.litrefOk_iff r
  have hav : (∀ i ∈ s.alwaysVerify, i < s.rules.length ∧
      ((s.emittedClauses[i.toNat]?).all fun n => n = 0) = true) ↔
      ∀ ri ∈ t.litav, t.litavOk ri = true := by
    rw [← h.litav, List.forall_mem_map]
    refine forall₂_congr fun ri _ => ?_
    rw [Tables.litavOk, Bool.and_eq_true, decide_eq_true_eq, hrules, h.litav_iff]
    rfl
  have hfwit : (∀ w ∈ s.fwits, s.ClauseOk w.ruleIdx w.clause ∧
      w.fieldId ≠ sigmaLitrefAnyField.toNat ∧ w.fieldId < s.fields.length ∧ s.WitnessOk w) ↔
      ∀ w ∈ t.fwit, t.fwitOk w = true := by
    rw [← h.fwit, List.forall_mem_map]
    exact forall₂_congr fun w _ => h.fwitOk_iff w hcidrs
  simp only [Tables.rangesOk, Bool.and_eq_true, List.all_eq_true, decide_eq_true_eq]
  constructor
  · rintro ⟨⟨⟨⟨⟨⟨⟨⟨⟨⟨⟨⟨⟨⟨⟨⟨-, -⟩, hp⟩, -⟩, hr⟩, hc⟩, -⟩, -⟩, -⟩, hb⟩, -⟩, -⟩, hl⟩, ha⟩, hn⟩, hw⟩, hre⟩
    exact ⟨hpreds.mpr fun q hq => ⟨hp q hq, hre q hq⟩, hrule.mpr hr, hcond.mpr hc, hbidx.mpr hb,
      href.mpr hl, hav.mpr ha, h.clauses_iff.mpr hn, hfwit.mpr hw⟩
  · intro hw
    have hp := hpreds.mp hw.preds
    refine ⟨?_, fun q hq => (hp q hq).2⟩
    exact ⟨⟨⟨⟨⟨⟨⟨⟨⟨⟨⟨⟨⟨⟨⟨hfields, hvalues⟩, fun q hq => (hp q hq).1⟩, hsels⟩, hrule.mp hw.rules⟩,
      hcond.mp hw.cond⟩, hkeys⟩, hlists⟩, hscan⟩, hbidx.mp hw.buckets⟩, hndls⟩, hposts⟩,
      href.mp hw.needles⟩, hav.mp hw.alwaysVerify⟩, h.clauses_iff.mp hw.clauses⟩, hfwit.mp hw.fwits⟩

end Laid

/-! ## Loading

With the checks as conditions on the calls, loading is decided: sizes, checksum and sections are
right because the serializer wrote them. -/

section Artifact

variable {pf : Platform} {calls : List BuilderCall} {version : Int} {bytes : Bytes}

/-- An artifact of well formed calls loads, and the tables of one that loads pass the checks. -/
theorem wellFormed_iff_checks
    (hser : (calls.foldl BuilderCall.apply .init).serialize version = some bytes)
    (hsize : bytes.length < 2 ^ 32) :
    ∃ t, t.layout.total < 2 ^ 32 ∧ bytes = sigmaDbSerialize t ∧ Laid (SourceDb.ofCalls calls) t ∧
      (t.rangesOk = true ∧ t.ReOk ↔ (SourceDb.ofCalls calls).WellFormed) := by
  have hs := Recorded.ofCalls calls
  obtain ⟨t, ht, htotal, hbytes⟩ := exists_tables_of_serialize ⟨calls, rfl⟩ hser hsize
  obtain ⟨hbuckets, hneedles⟩ := encodes_of_serialize hs hser
  have hlaid := laid_of_sameTables hs ht
  obtain ⟨-, hcidrs⟩ := t.section_lt htotal 7 rfl (by decide)
  exact ⟨t, htotal, hbytes, hlaid,
    hlaid.rangesOk_iff (SourceDb.kept_ofCalls calls) hbuckets hneedles (by omega)⟩

theorem loads_of_wellFormed
    (hser : (calls.foldl BuilderCall.apply .init).serialize version = some bytes)
    (hsize : bytes.length < 2 ^ 32) (h : (SourceDb.ofCalls calls).WellFormed) :
    ∃ db, sigmaDbLoadBuffer pf bytes = .ok db := by
  obtain ⟨t, htotal, rfl, -, hiff⟩ := wellFormed_iff_checks hser hsize
  obtain ⟨hranges, hre⟩ := hiff.mpr h
  obtain ⟨db, hload, -⟩ := t.load_serialize pf hranges hre htotal
  exact ⟨db, hload⟩

/-- **The loader accepts the artifact of a builder exactly when the calls were well formed.** -/
theorem artifact_loads_iff
    (hser : (calls.foldl BuilderCall.apply .init).serialize version = some bytes)
    (hsize : bytes.length < 2 ^ 32) :
    (∃ db, sigmaDbLoadBuffer pf bytes = .ok db) ↔ (SourceDb.ofCalls calls).WellFormed := by
  refine ⟨fun ⟨db, hload⟩ => ?_, loads_of_wellFormed hser hsize⟩
  obtain ⟨t, htotal, rfl, -, hiff⟩ := wellFormed_iff_checks hser hsize
  have hsame := same_of_load htotal hload
  obtain ⟨hranges, hre⟩ := rangesOk_of_loadBuffer hload
  refine hiff.mp ⟨hsame.rangesOk ▸ hranges, ?_⟩
  rw [Tables.ReOk, hsame.preds, hsame.values] at hre
  exact hre

end Artifact

theorem sampleBuilder_wellFormed : (SourceDb.ofCalls sampleBuilderCalls).WellFormed := by
  decide +kernel

theorem sampleBuilder_loads : ∃ bytes db, sampleBuilder.serialize 5 = some bytes ∧
    bytes.length < 2 ^ 32 ∧ sigmaDbLoadBuffer samplePlatform bytes = .ok db := by
  obtain ⟨bytes, hbytes, hsize⟩ := sampleBuilder_serialize
  obtain ⟨db, hload⟩ := loads_of_wellFormed hbytes hsize sampleBuilder_wellFormed
  exact ⟨bytes, db, hbytes, hsize, hload⟩

/-- The theorem at the small builder, whose artifact loads. -/
theorem artifact_loads_iff_sample :
    ∃ bytes, sampleBuilder.serialize 5 = some bytes ∧
      ∃ db, sigmaDbLoadBuffer samplePlatform bytes = .ok db := by
  obtain ⟨bytes, hbytes, hsize⟩ := sampleBuilder_serialize
  exact ⟨bytes, hbytes, (artifact_loads_iff hbytes hsize).mpr sampleBuilder_wellFormed⟩

/-! ## A full scan -/

section Artifact

variable {pf : Platform} {calls : List BuilderCall} {version : Int} {bytes : Bytes} {db : SigmaDb}

/-- **A full scan of an artifact reports what the calls on its builder say**, on every event and
from every scratch that was used before. -/
theorem artifact_means_source
    (hser : (calls.foldl BuilderCall.apply .init).serialize version = some bytes)
    (hsize : bytes.length < 2 ^ 32) (hload : sigmaDbLoadBuffer pf bytes = .ok db) (ev : Event)
    (maxHits : Int) {e : SigmaEval} (he : Reached pf db e) :
    ∃ e', (sigmaEvalRunLinear pf db ev maxHits).run e =
      .ok ((SourceDb.ofCalls calls).report pf ev maxHits, e') := by
  have hdb := loaded_of_loadBuffer hload
  have hruns : Runs (sigmaEvalRunLinear pf db ev maxHits) e _ :=
    sigmaEvalRunLinear_runs hdb (he.scratchOk hdb).1
  obtain ⟨rep, e', hrun, rfl, -, -⟩ := hruns
  refine ⟨e', ?_⟩
  rw [hrun, (compiled_of_calls hser hsize hload).linearReport_eq hdb.valid]

end Artifact

/-- The field `a` is `xb`, and `techno` is `k`. -/
def sampleSourceEvent : Event := fun name =>
  if name = [97] then some [120, 98] else if name = ascii "techno" then some [107] else none

/-- The theorem at the small builder: its rule holds. -/
theorem artifact_means_source_sample :
    ∃ bytes db e', sampleBuilder.serialize 5 = some bytes ∧
      sigmaDbLoadBuffer samplePlatform bytes = .ok db ∧
      (sigmaEvalRunLinear samplePlatform db sampleSourceEvent 4).run (sigmaEvalCreate db) =
        .ok (⟨1, [⟨7, 0, 1, 0, none⟩]⟩, e') := by
  obtain ⟨bytes, db, hbytes, hsize, hload⟩ := sampleBuilder_loads
  obtain ⟨e', hrun⟩ := artifact_means_source hbytes hsize hload sampleSourceEvent 4
    (e := sigmaEvalCreate db) ⟨[], [], rfl⟩
  refine ⟨bytes, db, e', hbytes, hload, hrun.trans ?_⟩
  have hreport : (SourceDb.ofCalls sampleBuilderCalls).report samplePlatform sampleSourceEvent 4 =
      ⟨1, [⟨7, 0, 1, 0, none⟩]⟩ := by
    decide +kernel
  rw [hreport]

end LibSigma
