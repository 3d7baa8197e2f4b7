import LibSigma.Matcher.Calls
import LibSigma.Reference.Source

/-!
# Artifacts mean what the calls say

The tables that a builder writes, once loaded, mean what the calls on it say.

## Two relations

The way from the calls to a loaded database has a stop at the builder, and so there are two
relations.  `Recorded` ties what was said to a builder: fields are numbers there, strings are places
in the pool.  It is kept by each call, and proved by induction over the calls.  `Compiled` ties what
was said to a database, with everything that the loader and the finalizer add.  Between them are the
bytes, and they are crossed once, by the agreement with the serializer and the round trip of the
loader (`compiled_of_load`).

## Where the meaning is kept

From then on it is verdict against verdict.  A predicate of the database resolves a field by number
and the source names it; the operand is a string in the pool and the source has it; a network is 16
bytes on both sides.  A selection is a flat list of predicates with group numbers.  The code makes
one pass over it and the source cuts it where the number changes, which comes to the same
(`groupsHold_flatten`).  A condition is the same tokens.

A negated predicate, a missing field and a malformed condition take no special place in this: both
sides define them, and the lemma for each construct compares the two definitions.

* `Recorded`: the builder behind what is said; `Recorded.apply`: **one call.**
* `Compiled`: the database behind what is said; `compiled_of_load`.
* `Compiled.ruleHolds_eq`: **a rule of the database means what was said of it.**
-/

namespace LibSigma

open Library

/-! ## The string pool

A string is found by its offset and length.  The pool only grows, at its end, so what was spelled
once is spelled ever after.  A name of a field has a NUL behind it as well. -/

/-- A list lies in another one at the reference: from where on, and how long it is. -/
def Lies {α : Type} (buf piece : List α) (ref : Int × Int) : Prop :=
  ∃ pre post, buf = pre ++ piece ++ post ∧ ref = ((pre.length : Int), (piece.length : Int))

/-- The pool holds the string at the reference. -/
def Spells (pool : List UInt8) (v : PyStr) (ref : Int × Int) : Prop := Lies pool (encoded v) ref

/-- The pool holds the string at the reference, and a NUL after it. -/
def SpellsName (pool : List UInt8) (v : PyStr) (ref : Int × Int) : Prop :=
  ∃ pre post, pool = pre ++ encoded v ++ 0 :: post ∧
    ref = ((pre.length : Int), ((encoded v).length : Int))

theorem SpellsName.spells {pool : List UInt8} {v : PyStr} {ref : Int × Int}
    (h : SpellsName pool v ref) : Spells pool v ref := by
  obtain ⟨pre, post, hpool, href⟩ := h
  exact ⟨pre, 0 :: post, hpool, href⟩

/-- A pool that grows keeps its strings. -/
theorem Spells.append {pool : List UInt8} {v : PyStr} {ref : Int × Int} (h : Spells pool v ref)
    (more : List UInt8) : Spells (pool ++ more) v ref := by
  obtain ⟨pre, post, rfl, href⟩ := h
  exact ⟨pre, post ++ more, List.append_assoc .., href⟩

theorem SpellsName.append {pool : List UInt8} {v : PyStr} {ref : Int × Int}
    (h : SpellsName pool v ref) (more : List UInt8) : SpellsName (pool ++ more) v ref := by
  obtain ⟨pre, post, rfl, href⟩ := h
  exact ⟨pre, post ++ more, List.append_assoc .., href⟩

/-- The entry of a list that was found by its name. -/
theorem lookup_zipIdx (names : List PyStr) (n : ℕ) (name : PyStr) :
    (names.zipIdx n).lookup name = (names.idxOf? name).map (n + ·) := by
  induction names generalizing n with
  | nil => rfl
  | cons a names ih =>
    rw [List.zipIdx_cons, List.lookup_cons, List.idxOf?_cons, ih]
    by_cases ha : name = a
    · subst ha
      simp
    · rw [beq_eq_false_iff_ne.mpr ha, beq_eq_false_iff_ne.mpr (Ne.symm ha)]
      simp only [Bool.false_eq_true, if_false, Option.map_map]
      refine congrArg (fun f => Option.map f _) (funext fun i => ?_)
      rw [Function.comp_apply, Nat.add_right_comm, Nat.add_assoc]

/-! ## The builder behind what is said

The relation is kept by each call, also by one that raises, as that leaves both sides alone.  Only
the number of a field needs thought: it may have been given out before, for another predicate with
the same name. -/

/-- A row of the builder for a predicate: the number of its field instead of the name. -/
def PredRow (names : List PyStr) (p : SourcePred) (q : PyPred) : Prop :=
  ∃ i : ℕ, names[i]? = some p.field ∧ q = ⟨i, p.group, p.op, p.flags, p.valueId, p.ival⟩

theorem PredRow.append {names : List PyStr} {p : SourcePred} {q : PyPred} (h : PredRow names p q)
    (more : List PyStr) : PredRow (names ++ more) p q := by
  obtain ⟨i, hi, rfl⟩ := h
  exact ⟨i, List.getElem?_append_left (List.getElem?_eq_some_iff.mp hi).1 ▸ hi, rfl⟩

/-- The builder holds what is said. -/
structure Recorded (s : SourceDb) (b : SigmaDbBuilder) : Prop where
  fields : List.Forall₂ (SpellsName b.pool) s.fields b.fields
  ids : b.fieldIds = s.fields.zipIdx
  values : List.Forall₂ (Spells b.pool) s.values b.values
  preds : List.Forall₂ (PredRow s.fields) s.preds b.preds
  sels : b.sels = s.sels
  cond : b.cond = s.cond
  rules : b.rules = s.rules
  cidrs : b.cidrs = s.cidrs
  bucketKeys : b.bucketKeys = s.buckets.map Prod.fst
  bucketLists : b.bucketLists = s.buckets.map Prod.snd
  litNeedles : b.litNeedles = s.needles.map Prod.fst
  litPostings : b.litPostings = s.needles.map Prod.snd
  litAlwaysVerify : b.litAlwaysVerify = s.alwaysVerify
  ruleClauses : b.ruleClauses = s.ruleClauses
  fwits : b.fwits = s.fwits

namespace Recorded

variable {s : SourceDb} {b : SigmaDbBuilder}

theorem init : Recorded SourceDb.init SigmaDbBuilder.init where
  fields := .nil
  ids := rfl
  values := .nil
  preds := .nil
  sels := rfl
  cond := rfl
  rules := rfl
  cidrs := rfl
  bucketKeys := rfl
  bucketLists := rfl
  litNeedles := rfl
  litPostings := rfl
  litAlwaysVerify := rfl
  ruleClauses := rfl
  fwits := rfl

/-- A field is found or interned, and its number stands for the name. -/
theorem field (h : Recorded s b) (name : PyStr) :
    (s.mention name = none ∧ b.field name = none) ∨
      ∃ s' b' i, s.mention name = some s' ∧ b.field name = some (i, b') ∧ Recorded s' b' ∧
        s'.fields[i]? = some name := by
  have hlookup : b.fieldIds.lookup name = s.fields.idxOf? name := by
    rw [h.ids, lookup_zipIdx]
    simp
  unfold SourceDb.mention SigmaDbBuilder.field
  rw [hlookup]
  cases hidx : s.fields.idxOf? name with
  | some i =>
    obtain ⟨hlt, hget, -⟩ := List.idxOf?_eq_some_iff.mp hidx
    have hi : s.fields[i]? = some name := by rw [List.getElem?_eq_getElem hlt, hget]
    rw [if_pos (List.mem_of_getElem? hi)]
    exact .inr ⟨s, b, i, rfl, rfl, h, hi⟩
  | none =>
    rw [if_neg (List.idxOf?_eq_none_iff.mp hidx), SigmaDbBuilder.internCstr]
    cases henc : encodeUtf8 name with
    | none => exact .inl ⟨rfl, rfl⟩
    | some bs =>
      have hbs : encoded name = bs := by rw [encoded, henc, Option.getD_some]
      have hlen : b.fields.length = s.fields.length := h.fields.length_eq.symm
      refine .inr ⟨_, _, _, if_pos rfl, rfl, ?_, ?_⟩
      · have hnew : SpellsName (b.pool ++ bs ++ [0]) name ((b.pool.length : Int), (bs.length : Int)) :=
          ⟨b.pool, [], by rw [hbs], by rw [hbs]⟩
        exact
          { h with
            fields := List.rel_append (h.fields.imp fun _ _ hs => (hs.append _).append _)
              (.cons hnew .nil)
            ids := by
              simp only [h.ids, hlen, List.zipIdx_append, List.zipIdx_singleton, Nat.zero_add]
            values := h.values.imp fun _ _ hs => (hs.append _).append _
            preds := h.preds.imp fun _ _ hp => hp.append _ }
      · simp only [hlen, List.getElem?_concat_length]

/-- **One call.** -/
theorem apply (h : Recorded s b) (call : BuilderCall) : Recorded (s.apply call) (call.apply b) := by
  cases call with
  | field name =>
    rw [SourceDb.apply, BuilderCall.apply]
    rcases h.field name with ⟨hs, hb⟩ | ⟨s', b', i, hs, hb, h', -⟩
    · rw [hs, hb]
      exact h
    · rw [hs, hb]
      exact h'
  | value v =>
    rw [SourceDb.apply, BuilderCall.apply, SigmaDbBuilder.value, SigmaDbBuilder.intern]
    cases henc : encodeUtf8 v with
    | none => exact h
    | some bs =>
      have hbs : encoded v = bs := by rw [encoded, henc, Option.getD_some]
      have hnew : Spells (b.pool ++ bs) v ((b.pool.length : Int), (bs.length : Int)) :=
        ⟨b.pool, [], by rw [hbs, List.append_nil], by rw [hbs]⟩
      exact
        { h with
          fields := h.fields.imp fun _ _ hs => hs.append _
          values := List.rel_append (h.values.imp fun _ _ hs => hs.append _) (.cons hnew .nil) }
  | cidr family prefixLen net =>
    rw [SourceDb.apply, BuilderCall.apply, SigmaDbBuilder.cidr]
    cases hfind : b.cidrs.findIdx? (· == ⟨family, prefixLen, SigmaDbBuilder.padNet net⟩) with
    | some i =>
      obtain ⟨hlt, heq, -⟩ := List.findIdx?_eq_some_iff_getElem.mp hfind
      have hmem : ⟨family, prefixLen, SigmaDbBuilder.padNet net⟩ ∈ s.cidrs := by
        rw [← h.cidrs, ← beq_iff_eq.mp heq]
        exact List.getElem_mem hlt
      rw [if_pos hmem]
      exact h
    | none =>
      have hmem : ⟨family, prefixLen, SigmaDbBuilder.padNet net⟩ ∉ s.cidrs := by
        intro hmem
        have hne := List.findIdx?_eq_none_iff.mp hfind _ (h.cidrs ▸ hmem)
        rw [beq_self_eq_true] at hne
        cases hne
      rw [if_neg hmem]
      exact { h with cidrs := by rw [h.cidrs] }
  | pred fieldName op valueId group flags ival =>
    rw [SourceDb.apply, BuilderCall.apply, SigmaDbBuilder.pred]
    rcases h.field fieldName with ⟨hs, hb⟩ | ⟨s', b', i, hs, hb, h', hi⟩
    · rw [hs, hb]
      exact h
    · rw [hs, hb]
      exact { h' with preds := List.rel_append h'.preds (.cons ⟨i, hi, rfl⟩ .nil) }
  | endSel predStart =>
    exact
      { h with
        sels := by
          simp only [SourceDb.apply, BuilderCall.apply, SigmaDbBuilder.endSel, h.sels,
            h.preds.length_eq] }
  | rule ruleId selStart selCount cond verdict severity scoreX100 nameId mitreId =>
    exact
      { h with
        cond := by simp only [SourceDb.apply, BuilderCall.apply, SigmaDbBuilder.rule, h.cond]
        rules := by
          simp only [SourceDb.apply, BuilderCall.apply, SigmaDbBuilder.rule, h.rules, h.cond] }
  | setBuckets buckets => exact { h with bucketKeys := rfl, bucketLists := rfl }
  | setLitidx needleRefs alwaysVerify ruleClauses fwits =>
    exact
      { h with
        litNeedles := rfl
        litPostings := rfl
        litAlwaysVerify := rfl
        ruleClauses := rfl
        fwits := rfl }

/-- Any calls. -/
theorem ofCalls (calls : List BuilderCall) :
    Recorded (SourceDb.ofCalls calls) (calls.foldl BuilderCall.apply .init) := by
  induction calls using List.reverseRecOn with
  | nil => exact init
  | append_singleton calls call ih =>
    rw [SourceDb.ofCalls, List.foldl_append, List.foldl_append]
    exact ih.apply call

end Recorded

/-! ## The database behind what is said

The step over the bytes.  What is loaded has the tables that the serializer was given, and these are
the rows of the builder; so every record is related to what was said through its row. -/

/-- A record of the database for a predicate. -/
structure PredRecord (names : List PyStr) (p : SourcePred) (q : SigmaPred) : Prop where
  field : names[q.fieldId.toNat]? = some p.field
  group : p.group = q.groupId.toNat
  op : p.op = q.op.toNat
  flags : p.flags = q.flags.toNat
  valueId : p.valueId = q.valueId.toNat
  ival : p.ival = q.ival.toInt

/-- The database holds what is said. -/
structure Compiled (pf : Platform) (s : SourceDb) (db : SigmaDb) : Prop where
  fields : List.Forall₂ (fun name f => db.str f = encoded name) s.fields db.fields
  values : List.Forall₂ (fun v f => db.str f = encoded v) s.values db.values
  preds : List.Forall₂ (PredRecord s.fields) s.preds db.preds
  sels : s.sels = db.sels.map SigmaSel.toRow
  cond : s.cond = db.cond.map SigmaCtok.toRow
  rules : s.rules = db.rules.map SigmaRule.toRow
  cidrs : List.Forall₂ (fun c k => c.network = k) s.cidrs db.cidrs
  re : ∀ (j : ℕ) (p : SigmaPred), db.preds[j]? = some p → p.isRe = true →
    (db.re.bind fun arr => (arr[j]?).join) = (db.values[p.valueId.toNat]?).bind fun v =>
      if pf.pcre2Compiles ⟨db.str v, p.flags &&& sigmaPfCase == 0⟩ then
        some ⟨db.str v, p.flags &&& sigmaPfCase == 0⟩
      else none

section Load

variable {pf : Platform} {t : Tables} {db : SigmaDb} {s : SourceDb} {b : SigmaDbBuilder}

/-- What a string of the pool reads as. -/
theorem str_of_spells {v : PyStr} {f : SigmaStr} {pool : List UInt8} (hv : Spells pool v f.toRow)
    {more : List UInt8} (hpool : t.strpool = pool ++ more) : t.str f = encoded v := by
  obtain ⟨pre, post, rfl, href⟩ := hv
  have hoff : f.off.toNat = pre.length := by
    have h := congrArg Prod.fst href
    exact Int.ofNat.inj h
  have hlen : f.len.toNat = (encoded v).length := by
    have h := congrArg Prod.snd href
    exact Int.ofNat.inj h
  rw [Tables.str, hpool, hoff, hlen, List.append_assoc, List.append_assoc, List.drop_left,
    List.take_left]

/-- The record of a predicate is that of its row. -/
theorem PredRow.record {names : List PyStr} {p : SourcePred} {q : SigmaPred}
    (h : PredRow names p q.toRow) : PredRecord names p q := by
  obtain ⟨i, hi, hq⟩ := h
  injection hq with hfield hgroup hop hflags hvalue hival
  have hi' : q.fieldId.toNat = i := Int.ofNat.inj hfield
  exact ⟨hi' ▸ hi, hgroup.symm, hop.symm, hflags.symm, hvalue.symm, hival.symm⟩

/-- The network of a record with clean padding. -/
theorem network_toRow {k : SigmaCidr} (hk : k.Clean) : k.toRow.network = k := by
  obtain ⟨family, prefixLen, pad, net⟩ := k
  obtain rfl : pad = .replicate 2 0 := hk
  have hnet : (Vector.ofFn fun i : Fin 16 => net.toList.getD i 0) = net := by
    ext i hi
    simp
  simp only [SigmaCidr.toRow, PyCidr.network, Int.toNat_natCast, UInt8.ofNat_toNat, hnet]

/-- A pattern predicate has its pattern in the table. -/
theorem getElem?_compileRes {ps : List SigmaPred} {skipped : ℕ} {arr : List (Option SigmaRe)}
    (h : (compileRes pf t ps skipped).1 = some arr) {j : ℕ} {p : SigmaPred} (hp : ps[j]? = some p)
    (hre : p.isRe = true) :
    (arr[j]?).join = (t.values[p.valueId.toNat]?).bind fun v =>
      if pf.pcre2Compiles ⟨t.str v, p.flags &&& sigmaPfCase == 0⟩ then
        some ⟨t.str v, p.flags &&& sigmaPfCase == 0⟩
      else none := by
  induction ps generalizing skipped arr j with
  | nil => cases hp
  | cons q ps ih =>
    rw [compileRes] at h
    cases j with
    | zero =>
      obtain rfl : q = p := Option.some.inj hp
      rw [if_pos hre] at h
      cases hv : t.values[q.valueId.toNat]? with
      | none =>
        rw [hv] at h
        cases h
      | some v =>
        rw [hv] at h
        obtain ⟨rest, -, rfl⟩ := Option.map_eq_some_iff.mp h
        rfl
    | succ j =>
      have hp' : ps[j]? = some p := hp
      split at h
      · split at h
        · cases h
        · obtain ⟨rest, hrest, rfl⟩ := Option.map_eq_some_iff.mp h
          exact ih hrest hp'
      · obtain ⟨rest, hrest, rfl⟩ := Option.map_eq_some_iff.mp h
        exact ih hrest hp'

/-- The patterns of an accepted artifact. -/
theorem re_of_loadBuffer {buf : Bytes} (h : sigmaDbLoadBuffer pf buf = .ok db) {j : ℕ}
    {p : SigmaPred} (hp : db.preds[j]? = some p) (hre : p.isRe = true) :
    (db.re.bind fun arr => (arr[j]?).join) = (db.values[p.valueId.toNat]?).bind fun v =>
      if pf.pcre2Compiles ⟨db.str v, p.flags &&& sigmaPfCase == 0⟩ then
        some ⟨db.str v, p.flags &&& sigmaPfCase == 0⟩
      else none := by
  obtain ⟨-, -, -, -, poolNext, hfin⟩ := loadBuffer_eq_ok h
  obtain ⟨built, db₁, hrun, -, hnone, -⟩ := finalizeTeddy_fresh
    (fresh_toDb ((readHdr buf (hdrSizeOf buf)).tables buf) poolNext)
  rw [sigmaDbFinalize, hrun] at hfin
  simp only [hnone, Option.isSome_none, Bool.false_eq_true, if_false, if_true] at hfin
  split at hfin
  · rename_i hall
    obtain rfl := (Prod.mk.inj hfin).2
    have hfalse := List.all_eq_true.mp hall p (List.mem_of_getElem? hp)
    rw [hre] at hfalse
    cases hfalse
  · split at hfin
    · rename_i arr skipped hcomp
      obtain rfl := (Prod.mk.inj hfin).2
      exact getElem?_compileRes (congrArg Prod.fst hcomp) hp hre
    · exact absurd (Prod.mk.inj hfin).1 (by decide)

/-- What is loaded from a serialized artifact has its tables. -/
theorem same_of_load (hsize : t.layout.total < 2 ^ 32)
    (h : sigmaDbLoadBuffer pf (sigmaDbSerialize t) = .ok db) : t.Same db.toTables := by
  obtain ⟨-, -, -, -, poolNext, hfin⟩ := loadBuffer_eq_ok h
  have hlen := t.length_serialize
  have hmin := t.hdrSize_add_four_le_total
  obtain ⟨-, hversion⟩ := Tables.magic_readHdr (show hdrSize ≤ (sigmaDbSerialize t).length by omega)
  rw [t.readHdr_serialize, t.header_version] at hversion
  have hhdr : hdrSizeOf (sigmaDbSerialize t) = hdrSize := by
    rw [hdrSizeOf, hversion, if_neg (by decide)]
  rw [hhdr, t.readHdr_serialize] at hfin
  rw [(sigmaDbFinalize_fresh (fresh_toDb _ poolNext) hfin).1.toTables]
  exact (t.tables_serialize hsize).2

/-- **What is loaded from the artifact of a builder holds what is said.** -/
theorem compiled_of_load (hs : Recorded s b) (ht : SameTables b t)
    (hsize : t.layout.total < 2 ^ 32) (h : sigmaDbLoadBuffer pf (sigmaDbSerialize t) = .ok db) :
    Compiled pf s db := by
  have hsame := same_of_load hsize h
  have hpool : db.strpool = b.pool ++ ((b.bucketKeys.map encoded).flatten ++
      (b.litNeedles.map encoded).flatten) := by
    rw [hsame.strpool, ht.strpool, ← List.append_assoc]
    rfl
  have hfields : List.Forall₂ (fun name f => SpellsName b.pool name (SigmaStr.toRow f)) s.fields
      t.fields := List.forall₂_map_right_iff.mp (ht.fields ▸ hs.fields)
  have hvalues : List.Forall₂ (fun v f => Spells b.pool v (SigmaStr.toRow f)) s.values t.values :=
    List.forall₂_map_right_iff.mp (ht.values ▸ hs.values)
  have hpreds : List.Forall₂ (fun p q => PredRow s.fields p (SigmaPred.toRow q)) s.preds t.preds :=
    List.forall₂_map_right_iff.mp (ht.preds ▸ hs.preds)
  refine ⟨?_, ?_, ?_, ?_, ?_, ?_, ?_, fun j p => re_of_loadBuffer h⟩
  · rw [hsame.fields]
    exact hfields.imp fun _ _ hf => str_of_spells hf.spells hpool
  · rw [hsame.values]
    exact hvalues.imp fun _ _ hv => str_of_spells hv hpool
  · rw [hsame.preds]
    exact hpreds.imp fun _ _ hp => hp.record
  · rw [hsame.sels, ht.sels, hs.sels]
  · rw [hsame.cond, ht.cond, hs.cond]
  · rw [hsame.rules, ht.rules, hs.rules]
  · rw [hsame.cidrs, ← hs.cidrs, ← ht.cidrs]
    refine List.forall₂_map_left_iff.mpr (List.forall₂_same.mpr fun k hk => ?_)
    exact network_toRow (ht.cidrsClean k hk)

end Load

/-! ## Predicates -/

/-- Related lists, entry by entry. -/
theorem forall₂_getElem? {α β : Type} {R : α → β → Prop} {xs : List α} {ys : List β}
    (h : List.Forall₂ R xs ys) (i : ℕ) :
    (xs[i]? = none ∧ ys[i]? = none) ∨ ∃ x y, xs[i]? = some x ∧ ys[i]? = some y ∧ R x y := by
  induction h generalizing i with
  | nil => exact .inl ⟨rfl, rfl⟩
  | cons hab hrest ih =>
    cases i with
    | zero => exact .inr ⟨_, _, rfl, rfl, hab⟩
    | succ i => exact ih i

namespace PredRecord

variable {names : List PyStr} {p : SourcePred} {q : SigmaPred}

theorem flag_eq (h : PredRecord names p q) (bit : UInt8) :
    p.flag bit = decide (q.flags &&& bit ≠ 0) := by
  rw [SourcePred.flag, h.flags, Int.toNat_natCast, UInt8.ofNat_toNat]

theorem sigmaOp_eq (h : PredRecord names p q) : p.sigmaOp = SigmaOp.ofByte q.op := by
  rw [SourcePred.sigmaOp, h.op, Int.toNat_natCast, UInt8.ofNat_toNat]

theorem ival_eq (h : PredRecord names p q) : Int64.ofInt p.ival = q.ival := by
  rw [h.ival, Int64.ofInt_toInt]

end PredRecord

/-! ## Positions -/

section Positions

variable {α β : Type}

/-- The entries of a list that satisfy a test, by their positions. -/
theorem filterMap_filter_range (xs : List α) (q : α → Bool) :
    (((List.range xs.length).filter fun i => (xs[i]?).any q).filterMap fun i => xs[i]?) =
      xs.filter q := by
  rw [List.filterMap_filter]
  induction xs using List.reverseRecOn with
  | nil => rfl
  | append_singleton xs x ih =>
    have hbefore : ∀ i ∈ List.range xs.length, (xs ++ [x])[i]? = xs[i]? := fun i hi =>
      List.getElem?_append_left (List.mem_range.mp hi)
    rw [List.length_append, List.length_singleton, List.range_succ, List.filterMap_append,
      List.filter_append, ← ih]
    refine congrArg₂ (· ++ ·) (List.filterMap_congr fun i hi => by rw [hbefore i hi]) ?_
    rw [List.filter_singleton, List.filterMap, List.filterMap_nil, List.getElem?_concat_length,
      Option.any_some]
    cases q x <;> rfl

/-- Where every entry has a value, the first values are those of the first entries. -/
theorem take_filterMap_of_isSome {f : α → Option β} {l : List α} (h : ∀ a ∈ l, (f a).isSome = true)
    (n : ℕ) : (l.take n).filterMap f = (l.filterMap f).take n ∧ (l.filterMap f).length = l.length := by
  induction l generalizing n with
  | nil => exact ⟨by rw [List.take_nil, List.filterMap_nil, List.take_nil], rfl⟩
  | cons a l ih =>
    obtain ⟨b, hb⟩ := Option.isSome_iff_exists.mp (h a List.mem_cons_self)
    have hl : ∀ c ∈ l, (f c).isSome = true := fun c hc => h c (List.mem_cons_of_mem _ hc)
    rw [List.filterMap_cons_some hb, List.length_cons, List.length_cons, (ih hl 0).2]
    cases n with
    | zero => exact ⟨by rw [List.take_zero, List.filterMap_nil, List.take_zero], rfl⟩
    | succ n =>
      rw [List.take_succ_cons, List.filterMap_cons_some hb, List.take_succ_cons, (ih hl n).1]
      exact ⟨rfl, rfl⟩

theorem eraseDups_of_nodup {l : List ℕ} (h : l.Nodup) : l.eraseDups = l := by
  induction l with
  | nil => rfl
  | cons a l ih =>
    obtain ⟨ha, hl⟩ := List.nodup_cons.mp h
    have hself : (l.filter fun b => !b == a) = l := by
      refine List.filter_eq_self.mpr fun b hb => ?_
      have hne : b ≠ a := fun heq => ha (heq ▸ hb)
      simp [hne]
    rw [List.eraseDups_cons, hself, ih hl]

end Positions

namespace Compiled

variable {pf : Platform} {s : SourceDb} {db : SigmaDb} {ev : Event} {p : SourcePred} {q : SigmaPred}

theorem fieldValue_eq (h : Compiled pf s db) (i : ℕ) :
    fieldValue db ev i = (s.fields[i]?).bind fun name => ev (encoded name) := by
  rw [fieldValue]
  rcases forall₂_getElem? h.fields i with ⟨hs, hdb⟩ | ⟨name, f, hs, hdb, hstr⟩
  · rw [hs, hdb]
    rfl
  · rw [hs, hdb, Option.bind_some, Option.bind_some, hstr]

theorem value_eq (h : Compiled pf s db) (i : ℕ) :
    (db.values[i]?).map db.str = (s.values[i]?).map encoded := by
  rcases forall₂_getElem? h.values i with ⟨hs, hdb⟩ | ⟨v, f, hs, hdb, hstr⟩
  · rw [hs, hdb]
    rfl
  · rw [hs, hdb, Option.map_some, Option.map_some, hstr]

theorem operand_eq (h : Compiled pf s db) (hp : PredRecord s.fields p q) :
    operandOf db ev q = s.operand ev p := by
  have hid : p.valueId.toNat = q.valueId.toNat := by rw [hp.valueId, Int.toNat_natCast]
  have hle : p.valueId ≤ 0xFFFF ↔ q.valueId.toNat ≤ 0xFFFF := by
    rw [hp.valueId]
    exact Int.ofNat_le
  rw [operandOf, SourceDb.operand, hp.flag_eq, hid, h.value_eq]
  by_cases href : q.flags &&& sigmaPfFieldref ≠ 0
  · rw [if_pos href, if_pos (decide_eq_true href), if_congr hle rfl rfl, h.fieldValue_eq]
  · rw [if_neg href, if_neg (by simpa using href)]

theorem pattern_eq (h : Compiled pf s db) (hp : PredRecord s.fields p q) {j : ℕ}
    (hj : db.preds[j]? = some q) (hre : q.isRe = true) (val : Bytes) :
    (db.re.bind fun arr => (arr[j]?).join).any (fun c => pf.pcre2Match c val) =
      (s.pattern p).any fun re => pf.pcre2Compiles re && pf.pcre2Match re val := by
  have hid : p.valueId.toNat = q.valueId.toNat := by rw [hp.valueId, Int.toNat_natCast]
  have hcase : (!p.flag sigmaPfCase) = (q.flags &&& sigmaPfCase == 0) := by
    rw [hp.flag_eq]
    by_cases hz : q.flags &&& sigmaPfCase = 0
    · rw [hz]
      rfl
    · rw [decide_eq_true hz, beq_eq_false_iff_ne.mpr hz]
      rfl
  rw [h.re j q hj hre, SourceDb.pattern, hid, hcase]
  rcases forall₂_getElem? h.values q.valueId.toNat with ⟨hs, hdb⟩ | ⟨v, f, hs, hdb, hstr⟩
  · rw [hs, hdb]
    rfl
  · rw [hs, hdb, Option.bind_some, Option.map_some, Option.any_some, hstr]
    cases pf.pcre2Compiles ⟨encoded v, q.flags &&& sigmaPfCase == 0⟩ <;> rfl

theorem testHolds_eq (h : Compiled pf s db) (hp : PredRecord s.fields p q) {j : ℕ}
    (hj : db.preds[j]? = some q) (val : Bytes) :
    testHolds pf db ev q j val = SourceDb.testHolds pf s ev p val := by
  have hid : p.valueId.toNat = q.valueId.toNat := by rw [hp.valueId, Int.toNat_natCast]
  have hcidr : ((db.cidrs[q.valueId.toNat]?).any fun c => cidrVerdict pf val c) =
      (s.cidrs[p.valueId.toNat]?).any fun c => cidrVerdict pf val c.network := by
    rw [hid]
    rcases forall₂_getElem? h.cidrs q.valueId.toNat with ⟨hs, hdb⟩ | ⟨c, k, hs, hdb, hnet⟩
    · rw [hs, hdb]
      rfl
    · rw [hs, hdb, Option.any_some, Option.any_some, hnet]
  rw [testHolds, SourceDb.testHolds, hp.sigmaOp_eq, hp.ival_eq, hp.flag_eq, ← h.operand_eq hp, hcidr]
  cases hop : SigmaOp.ofByte q.op with
  | none => rfl
  | some op =>
    cases op with
    | opRe => exact h.pattern_eq hp hj (by rw [SigmaPred.isRe, hop]; rfl) val
    | _ => rfl

/-- **A predicate of the database means what was said.** -/
theorem predHolds_eq (h : Compiled pf s db) (hp : PredRecord s.fields p q) {j : ℕ}
    (hj : db.preds[j]? = some q) :
    predHolds pf db ev q j = SourceDb.predHolds pf s ev p := by
  have htest : (testHolds pf db ev q j) = SourceDb.testHolds pf s ev p :=
    funext fun val => h.testHolds_eq hp hj val
  have hvalue : fieldValue db ev q.fieldId.toNat = ev (encoded p.field) := by
    rw [h.fieldValue_eq, hp.field, Option.bind_some]
  rw [predHolds, SourceDb.predHolds, hp.sigmaOp_eq, hp.flag_eq, hvalue, htest]
  by_cases hneg : q.flags &&& sigmaPfNegate ≠ 0
  · rw [if_pos hneg, if_pos (decide_eq_true hneg)]
  · have hfalse : ¬ decide (q.flags &&& sigmaPfNegate ≠ 0) = true := fun hc =>
      hneg (of_decide_eq_true hc)
    rw [if_neg hneg, if_neg hfalse]

end Compiled

/-! ## Selections

The code carries the truth of the current group along and takes it into account when the group
changes.
Runs of equal groups are what the source cuts a selection into. -/

/-- Within a run nothing changes. -/
theorem eq_of_isChain {α β : Type} {f : α → β} {g : List α}
    (h : g.IsChain fun a b => f a = f b) : ∀ a ∈ g, ∀ b ∈ g, f a = f b := by
  induction g with
  | nil => exact fun a ha => absurd ha List.not_mem_nil
  | cons a g ih =>
    have hhead : ∀ b ∈ g, f a = f b := by
      cases g with
      | nil => exact fun b hb => absurd hb List.not_mem_nil
      | cons c g =>
        obtain ⟨hac, hrest⟩ := List.isChain_cons_cons.mp h
        exact fun b hb => hac.trans (ih hrest c List.mem_cons_self b hb)
    intro x hx y hy
    rcases List.mem_cons.mp hx with hx | hx
    · rcases List.mem_cons.mp hy with hy | hy
      · rw [hx, hy]
      · rw [hx, hhead y hy]
    · rcases List.mem_cons.mp hy with hy | hy
      · rw [hy, hhead x hx]
      · exact ih h.tail x hx y hy

/-- A list cut where `f` changes. -/
theorem splitBy_runs {α β : Type} [DecidableEq β] (f : α → β) (l : List α) :
    (∀ g ∈ l.splitBy fun a b => f a == f b, ∀ a ∈ g, ∀ b ∈ g, f a = f b) ∧
      (l.splitBy fun a b => f a == f b).IsChain fun g g' => ∀ a ∈ g, ∀ b ∈ g', f a ≠ f b := by
  have hsame : ∀ g ∈ l.splitBy fun a b => f a == f b, ∀ a ∈ g, ∀ b ∈ g, f a = f b := by
    intro g hg
    refine eq_of_isChain ((List.isChain_of_mem_splitBy hg).imp fun a b hab => ?_)
    exact beq_iff_eq.mp hab
  refine ⟨hsame, ?_⟩
  have hcut := List.isChain_getLast_head_splitBy (fun a b => f a == f b) l
  refine (List.isChain_iff_getElem.mpr fun i hi => ?_)
  obtain ⟨hne, hne', hfalse⟩ := List.isChain_iff_getElem.mp hcut i hi
  intro a ha b hb heq
  have hlast := hsame _ (List.getElem_mem _) a ha _ (List.getLast_mem hne)
  have hhead := hsame _ (List.getElem_mem _) b hb _ (List.head_mem hne')
  exact absurd (hlast.symm.trans (heq.trans hhead)) (beq_eq_false_iff_ne.mp hfalse)

section Groups

variable {α : Type} (key : α → UInt16) (val : α → Bool)

/-- A group to its end. -/
theorem groupsHold_run {xs : List α} {rest : List (UInt16 × Bool)} {acc : Bool} {cur : UInt16}
    (h : ∀ a ∈ xs, key a = cur) :
    groupsHold (xs.map (fun a => (key a, val a)) ++ rest) acc cur =
      groupsHold rest (acc || xs.any val) cur := by
  induction xs generalizing acc with
  | nil => rw [List.map_nil, List.nil_append, List.any_nil, Bool.or_false]
  | cons a xs ih =>
    rw [List.map_cons, List.cons_append, groupsHold, if_pos (h a List.mem_cons_self),
      ih fun b hb => h b (List.mem_cons_of_mem _ hb), List.any_cons, Bool.or_assoc]

/-- **The groups are taken one after the other.** -/
theorem groupsHold_flatten {m : List (List α)} {acc : Bool} {cur : UInt16} (hne : [] ∉ m)
    (hsame : ∀ g ∈ m, ∀ a ∈ g, ∀ b ∈ g, key a = key b)
    (hnext : m.IsChain fun g g' => ∀ a ∈ g, ∀ b ∈ g', key a ≠ key b)
    (hcur : ∀ g ∈ m.head?, ∀ a ∈ g, key a ≠ cur) :
    groupsHold (m.flatten.map fun a => (key a, val a)) acc cur =
      (acc && m.all fun g => g.any val) := by
  induction m generalizing acc cur with
  | nil => exact (Bool.and_true acc).symm
  | cons g m ih =>
    cases g with
    | nil => exact absurd List.mem_cons_self hne
    | cons a g =>
      have hkey : ∀ b ∈ g, key b = key a := fun b hb =>
        hsame _ List.mem_cons_self b (List.mem_cons_of_mem _ hb) a List.mem_cons_self
      have ha : ¬ key a = cur := hcur _ rfl a List.mem_cons_self
      have hafter : ∀ g' ∈ m.head?, ∀ b ∈ g', key b ≠ key a := by
        intro g' hg' b hb
        exact ((List.isChain_cons.mp hnext).1 g' hg' a List.mem_cons_self b hb).symm
      rw [List.flatten_cons, List.map_append, List.map_cons, List.cons_append, groupsHold, if_neg ha,
        groupsHold_run key val hkey, ih (fun hm => hne (List.mem_cons_of_mem _ hm))
          (fun g' hg' => hsame g' (List.mem_cons_of_mem _ hg')) (List.isChain_cons.mp hnext).2 hafter,
        List.all_cons, List.any_cons]

end Groups

namespace Compiled

variable {pf : Platform} {s : SourceDb} {db : SigmaDb} {ev : Event}

/-- The group of a predicate as the database has it. -/
def groupKey (p : SourcePred) : UInt16 := UInt16.ofNat p.group.toNat

theorem groupKey_eq {names : List PyStr} {p : SourcePred} {q : SigmaPred}
    (h : PredRecord names p q) : groupKey p = q.groupId := by
  rw [groupKey, h.group, Int.toNat_natCast, UInt16.ofNat_toNat]

/-- The predicates of a selection, each with its group and its verdict. -/
theorem selVerdicts_eq (h : Compiled pf s db) {start n : ℕ} (hin : start + n ≤ db.preds.length) :
    selVerdicts pf db ev start n = (slice s.preds start n).map fun p =>
      (groupKey p, SourceDb.predHolds pf s ev p) := by
  induction n generalizing start with
  | zero => rw [slice_zero]; rfl
  | succ n ih =>
    have hlt : start < db.preds.length := by omega
    rcases forall₂_getElem? h.preds start with ⟨-, hdb⟩ | ⟨p, q, hs, hdb, hp⟩
    · exact absurd hdb (by rw [List.getElem?_eq_getElem hlt]; exact Option.some_ne_none _)
    · rw [selVerdicts_succ hdb, slice_succ hs, List.map_cons, ih (by omega),
        groupKey_eq hp, h.predHolds_eq hp hdb]

/-- Predicates of one group in the database are of one group in what is said. -/
theorem groupKey_inj (h : Compiled pf s db) {p p' : SourcePred} (hp : p ∈ s.preds)
    (hp' : p' ∈ s.preds) : groupKey p = groupKey p' ↔ p.group = p'.group := by
  have hnat : ∀ p ∈ s.preds, p.group = (groupKey p).toNat := by
    intro p hp
    obtain ⟨i, hi⟩ := List.mem_iff_getElem?.mp hp
    rcases forall₂_getElem? h.preds i with ⟨hs, -⟩ | ⟨p₁, q, hs, -, hrec⟩
    · rw [hs] at hi
      cases hi
    · obtain rfl : p₁ = p := Option.some.inj (hs.symm.trans hi)
      rw [groupKey_eq hrec, hrec.group]
  refine ⟨fun heq => ?_, fun heq => by rw [groupKey, groupKey, heq]⟩
  rw [hnat p hp, hnat p' hp', heq]

/-- **A selection of the database means what was said.** -/
theorem selHolds_eq (h : Compiled pf s db) {sel : SigmaSel}
    (hin : sel.predStart.toNat + sel.predCount.toNat ≤ db.preds.length) :
    selHolds pf db ev sel = SourceDb.selHolds pf s ev sel.toRow := by
  have hstart : sel.toRow.1.toNat = sel.predStart.toNat := Int.toNat_natCast _
  have hcount : sel.toRow.2.toNat = sel.predCount.toNat := Int.toNat_natCast _
  rw [selHolds, SourceDb.selHolds, SourceDb.groups, h.selVerdicts_eq hin, hstart, hcount]
  have hmem : ∀ p ∈ slice s.preds sel.predStart.toNat sel.predCount.toNat, p ∈ s.preds :=
    fun p hp => List.mem_of_mem_drop (List.mem_of_mem_take hp)
  generalize slice s.preds sel.predStart.toNat sel.predCount.toNat = l at hmem
  obtain ⟨hsame, hnext⟩ := splitBy_runs SourcePred.group l
  have hflat := List.flatten_splitBy (fun p q : SourcePred => p.group == q.group) l
  have hne := List.nil_notMem_splitBy (fun p q : SourcePred => p.group == q.group) l
  generalize l.splitBy (fun p q : SourcePred => p.group == q.group) = m at hsame hnext hflat hne
  subst hflat
  have hin' : ∀ g ∈ m, ∀ p ∈ g, p ∈ s.preds := fun g hg p hp =>
    hmem p (List.mem_flatten_of_mem hg hp)
  cases m with
  | nil => rfl
  | cons g m =>
    cases g with
    | nil => exact absurd List.mem_cons_self hne
    | cons a g =>
      have hrun : ∀ b ∈ a :: g, groupKey b = groupKey a := by
        intro b hb
        refine (h.groupKey_inj (hin' _ List.mem_cons_self b hb)
          (hin' _ List.mem_cons_self a List.mem_cons_self)).mpr ?_
        exact hsame _ List.mem_cons_self b hb a List.mem_cons_self
      have hsame' : ∀ g' ∈ m, ∀ b ∈ g', ∀ c ∈ g', groupKey b = groupKey c := by
        intro g' hg' b hb c hc
        have hg'' := List.mem_cons_of_mem (a :: g) hg'
        exact (h.groupKey_inj (hin' _ hg'' b hb) (hin' _ hg'' c hc)).mpr (hsame _ hg'' b hb c hc)
      have hnext' : ((a :: g) :: m).IsChain fun g g' =>
          ∀ b ∈ g, ∀ c ∈ g', groupKey b ≠ groupKey c := by
        refine hnext.imp_of_mem_imp fun g₁ g₂ hg₁ hg₂ hdiff b hb c hc hkey => ?_
        exact hdiff b hb c hc ((h.groupKey_inj (hin' _ hg₁ b hb) (hin' _ hg₂ c hc)).mp hkey)
      have hafter : ∀ g' ∈ m.head?, ∀ b ∈ g', groupKey b ≠ groupKey a := by
        intro g' hg' b hb
        exact ((List.isChain_cons.mp hnext').1 g' hg' a List.mem_cons_self b hb).symm
      have hfirst : groupsHold ((((a :: g) :: m).flatten).map fun b =>
            (groupKey b, SourceDb.predHolds pf s ev b)) false (groupKey a) =
          groupsHold (m.flatten.map fun b => (groupKey b, SourceDb.predHolds pf s ev b))
            (false || (a :: g).any (SourceDb.predHolds pf s ev)) (groupKey a) := by
        rw [List.flatten_cons, List.map_append]
        exact groupsHold_run groupKey _ hrun
      rw [Bool.false_or, groupsHold_flatten groupKey _ (fun hm => hne (List.mem_cons_of_mem _ hm))
        hsame' (List.isChain_cons.mp hnext').2 hafter] at hfirst
      exact hfirst

/-! ## Rules

The condition of a rule is a slice of tokens on both sides, and a selection is found by its number
in the rule.  The cases without a condition, with a malformed one and with one that names a
selection which is not there come out alike, as both sides run the same machine on the same tokens.
-/

theorem sels_getElem? (h : Compiled pf s db) (i : ℕ) :
    s.sels[i]? = (db.sels[i]?).map SigmaSel.toRow := by
  rw [h.sels, List.getElem?_map]

theorem ruleSelHolds_eq (hdb : db.Valid) (h : Compiled pf s db) (r : SigmaRule) (idx : ℕ) :
    ruleSelHolds pf db ev r idx = SourceDb.ruleSelHolds pf s ev r.toRow idx := by
  have hstart : r.toRow.selStart.toNat = r.selStart.toNat := Int.toNat_natCast _
  rw [ruleSelHolds, SourceDb.ruleSelHolds, hstart, h.sels_getElem?, Option.any_map]
  cases hsel : db.sels[r.selStart.toNat + idx]? with
  | none => rfl
  | some sel => exact h.selHolds_eq (hdb.selPreds sel (List.mem_of_getElem? hsel))

theorem tok_toRow (k : SigmaCtok) : sourceTok k.toRow = k.tok := by
  have hkind : ∀ c : UInt8, (k.toRow.1 = c.toNat) ↔ k.kind = c := by
    intro c
    rw [← UInt8.toNat_inj]
    exact Int.ofNat_inj
  have hzero : (k.toRow.1 = 0) ↔ k.kind = sigmaCSel := hkind sigmaCSel
  have hthree : (k.toRow.1 = 3) ↔ k.kind = sigmaCNot := hkind sigmaCNot
  have hone : (k.toRow.1 = 1) ↔ k.kind = sigmaCAnd := hkind sigmaCAnd
  have hidx : UInt32.ofNat k.toRow.2.toNat = k.selIdx := by
    rw [SigmaCtok.toRow, Int.toNat_natCast, UInt32.ofNat_toNat]
  rw [sourceTok, SigmaCtok.tok, if_congr hzero rfl rfl, if_congr hthree rfl rfl,
    if_congr hone rfl rfl, hidx]

theorem ruleToks_eq (h : Compiled pf s db) (r : SigmaRule) :
    ruleToks db r = s.ruleToks r.toRow := by
  have hstart : r.toRow.condStart.toNat = r.condStart.toNat := Int.toNat_natCast _
  have hcount : r.toRow.condCount.toNat = r.condCount.toNat := Int.toNat_natCast _
  rw [ruleToks, SourceDb.ruleToks, h.cond, hstart, hcount, slice, slice, ← List.map_drop,
    ← List.map_take, List.map_map]
  exact List.map_congr_left fun k _ => (tok_toRow k).symm

/-- **A rule of the database means what was said.** -/
theorem ruleHolds_eq (hdb : db.Valid) (h : Compiled pf s db) (r : SigmaRule) :
    ruleHolds pf db ev r = SourceDb.ruleHolds pf s ev r.toRow := by
  have hcond : r.toRow.condCount = 0 ↔ r.condCount = 0 := by
    rw [← UInt32.toNat_inj]
    exact Int.ofNat_inj
  have hlt : ∀ i : UInt32, decide ((i.toNat : Int) < r.toRow.selCount) = decide (i < r.selCount) := by
    intro i
    refine decide_eq_decide.mpr ?_
    rw [UInt32.lt_iff_toNat_lt]
    exact Int.ofNat_lt
  have hpos : decide (0 < r.toRow.selCount) = decide (0 < r.selCount) := hlt 0
  have hcount : r.toRow.selCount.toNat = r.selCount.toNat := Int.toNat_natCast _
  have hsels : ruleSelHolds pf db ev r = SourceDb.ruleSelHolds pf s ev r.toRow :=
    funext fun idx => h.ruleSelHolds_eq hdb r idx
  rw [ruleHolds, SourceDb.ruleHolds, if_congr hcond rfl rfl, hpos, hcount, hsels, h.ruleToks_eq,
    funext hlt]

/-- What is reported of a rule. -/
theorem hit_eq (h : Compiled pf s db) (r : SigmaRule) : hitOfRule db r = s.hit r.toRow := by
  have hno : r.mitreId ≠ sigmaNoValue ↔ r.toRow.mitreId ≠ sigmaNoValue.toNat := by
    rw [ne_eq, ne_eq, ← UInt32.toNat_inj]
    exact not_congr Int.ofNat_inj.symm
  rw [hitOfRule, SourceDb.hit, if_congr hno rfl rfl, h.value_eq]
  simp only [SigmaRule.toRow, Int.toNat_natCast, UInt32.ofNat_toNat, UInt8.ofNat_toNat,
    UInt16.ofNat_toNat]

/-! ## Reports -/

theorem ruleAccepts_eq (hdb : db.Valid) (h : Compiled pf s db) (i : ℕ) :
    ruleAccepts pf db ev i = (s.rules[i]?).any (SourceDb.ruleHolds pf s ev) := by
  rw [ruleAccepts, h.rules, List.getElem?_map, Option.any_map]
  exact congrArg (fun f => (db.rules[i]?).any f) (funext fun r => h.ruleHolds_eq hdb r)

/-- The report of rules that there are. -/
theorem reportOf_eq (h : Compiled pf s db) (maxHits : Int) {fired : List ℕ}
    (hin : ∀ i ∈ fired, i < s.rules.length) :
    reportOf db maxHits fired = s.reportOf maxHits (fired.filterMap fun i : ℕ => s.rules[i]?) := by
  have hhit : (fun i : ℕ => (db.rules[i]?).map (hitOfRule db)) =
      fun i : ℕ => (s.rules[i]?).map s.hit := by
    funext i
    rw [h.rules, List.getElem?_map, Option.map_map]
    exact congrArg (fun f => (db.rules[i]?).map f) (funext fun r => h.hit_eq r)
  have hsome : ∀ i ∈ fired, ((fun i : ℕ => s.rules[i]?) i).isSome = true := fun i hi =>
    Option.isSome_iff_exists.mpr ⟨_, List.getElem?_eq_getElem (hin i hi)⟩
  obtain ⟨htake, hlen⟩ := take_filterMap_of_isSome hsome maxHits.toNat
  rw [reportOf, SourceDb.reportOf, hhit, ← List.map_filterMap, htake, hlen]

/-- **A full scan reports what the calls say.** -/
theorem linearReport_eq (hdb : db.Valid) (h : Compiled pf s db) (maxHits : Int) :
    linearReport pf db ev maxHits = s.report pf ev maxHits := by
  have hlen : db.rules.length = s.rules.length := by rw [h.rules, List.length_map]
  have haccepts : ruleAccepts pf db ev = fun i => (s.rules[i]?).any (SourceDb.ruleHolds pf s ev) :=
    funext fun i => h.ruleAccepts_eq hdb i
  rw [linearReport, firedOf, eraseDups_of_nodup List.nodup_range, hlen, haccepts,
    h.reportOf_eq maxHits fun (i : ℕ) hi => List.mem_range.mp (List.mem_filter.mp hi).1,
    filterMap_filter_range, SourceDb.report]

end Compiled

/-! ## Artifacts -/

/-- What `serialize` returns is the artifact of a database with the tables of the builder. -/
theorem exists_tables_of_serialize {b : SigmaDbBuilder} (hreach : b.Reachable) {version : Int}
    {bytes : List UInt8} (h : b.serialize version = some bytes) (hsize : bytes.length < 2 ^ 32) :
    ∃ t, SameTables b t ∧ t.layout.total < 2 ^ 32 ∧ bytes = sigmaDbSerialize t := by
  have hok := SigmaDbBuilder.ok_of_reachable hreach
  rw [SigmaDbBuilder.serialize] at h
  split at h
  · cases h
  · obtain ⟨bk, hbk, h⟩ := Option.bind_eq_some_iff.mp h
    obtain ⟨ln, hln, h⟩ := Option.bind_eq_some_iff.mp h
    obtain rfl : bk = b.bucketTables := SigmaDbBuilder.internBuckets_eq hok hbk
    obtain rfl : ln = b.needleTables := SigmaDbBuilder.internNeedles_eq hok hln
    split at h
    · cases h
    · rename_i hclauses
      have hlen : b.emittedClauses = [] ∨ b.emittedClauses.length = b.rules.length := by
        by_contra hne
        exact hclauses ⟨fun hnil => hne (.inl hnil), fun heq => hne (.inr heq)⟩
      obtain ⟨t, ht⟩ := SigmaDbBuilder.exists_sameTables hok hlen h
      have htotal : t.layout.total = bytes.length := by
        rw [SigmaDbBuilder.length_of_emit h, ht.layout_eq]
        rfl
      rw [ht.emit_eq (htotal ▸ hsize)] at h
      exact ⟨t, ht, htotal ▸ hsize, (Option.some.inj h).symm⟩

section Artifact

variable {pf : Platform} {calls : List BuilderCall} {version : Int} {bytes : Bytes} {db : SigmaDb}

/-- A loaded artifact holds what the calls say. -/
theorem compiled_of_calls
    (hser : (calls.foldl BuilderCall.apply .init).serialize version = some bytes)
    (hsize : bytes.length < 2 ^ 32) (hload : sigmaDbLoadBuffer pf bytes = .ok db) :
    Compiled pf (SourceDb.ofCalls calls) db := by
  obtain ⟨t, ht, htotal, rfl⟩ := exists_tables_of_serialize ⟨calls, rfl⟩ hser hsize
  exact compiled_of_load (.ofCalls calls) ht htotal hload

end Artifact

end LibSigma
