import LibSigma.Matcher.Teddy

/-!
# Finalizing a database

`sigma_db_finalize` derives what is not on disk: the full Teddy matcher, the per-bucket field
bitmaps, one Teddy matcher per field, and the table of compiled patterns.  It returns 0 or a
negative code, together with the database as the call leaves it, failures included.

## Allocation is an input

`mem` says which allocations succeed.  A failure is then an ordinary branch, and a statement for all
`mem` covers every way to run out of memory, also those that no allocator would produce.  The sites
are named after what is allocated and not numbered in the order of the calls, because whether a call
is made at all depends on the artifact.

## Stages

The prefilter part comes first (`finalizeTeddy`) and the patterns second.  Each builder returns the
database with what it has stored so far, also when it fails, since that is what its caller sees.
What the caller then frees is a function of its own (`unbuildTeddy`): the matchers, and nothing
else.  `LibSigma.Matcher.Rollback` compares what is left with what was there before.

## Functions instead of arrays

The derived tables are what the matcher reads of them.  A bitmap is its bytes, in rows of `stride`
bytes, because a wrap of the stride is a finding.  The matcher of a field is a matcher or null.  A
compiled pattern is the pattern and its flag; whether it compiles, and what it matches, is asked of
the platform.  The list of the needles of a field is given by what the loops collect, and
`LibSigma.Matcher.FieldTeddy` has the loops.
-/

namespace LibSigma

open Library

/-- The allocations of `sigma_db_finalize`. -/
inductive AllocSite where
  | teddy | bucketFields | fieldTeddy | reTable
  deriving DecidableEq, Repr

/-! ## Bucket bitmaps -/

/-- The fields that the rules of a bucket name in a predicate, in the order the code visits
them. -/
def Tables.bucketFieldIds (t : Tables) (b : SigmaBucket) : List ℕ :=
  (slice t.bucketIdx b.idxStart.toNat b.idxCount.toNat).flatMap fun ri =>
    match t.rules[ri.toNat]? with
    | none => []
    | some r =>
      (slice t.sels r.selStart.toNat r.selCount.toNat).flatMap fun s =>
        (slice t.preds s.predStart.toNat s.predCount.toNat).filterMap fun p =>
          if p.fieldId.toNat < t.fields.length then some p.fieldId.toNat else none

/-- `row[f >> 3] |= 1 << (f & 7)`. -/
def setRowBit (row : ℕ) (bm : Bytes) (f : ℕ) : Bytes :=
  bm.modify (row + f / 8) (· ||| (1 <<< (f % 8).toUInt8))

/-- The bitmaps of the buckets, one row of `stride` bytes each. -/
def Tables.bucketBitmap (t : Tables) (stride : ℕ) : Bytes :=
  t.buckets.zipIdx.foldl
    (fun bm p => (t.bucketFieldIds p.1).foldl (setRowBit (p.2 * stride)) bm)
    (List.replicate (t.buckets.length * stride) 0)

/-- `build_bucket_fields`; the stride is computed in 32 bits. -/
def buildBucketFields (mem : AllocSite → Bool) (db : SigmaDb) : Bool × SigmaDb :=
  if db.bucketKeys.length = 0 ∨ db.fields.length = 0 then (true, db)
  else if db.litpostRef.any (·.fieldId == sigmaLitrefAnyField) then
    (true, { db with litAnyField := true })
  else
    let stride : UInt32 := (UInt32.ofNat db.fields.length + 7) / 8
    if mem .bucketFields then
      (true, { db with
        bucketFields := some (db.bucketBitmap stride.toNat)
        bucketFieldsStride := stride })
    else (false, db)

/-! ## One matcher per field -/

/-- The postings of needle `i`. -/
def Tables.postings (t : Tables) (i : ℕ) : List SigmaLitref :=
  match t.litpost[i]? with
  | none => []
  | some p => slice t.litpostRef p.idxStart.toNat p.idxCount.toNat

/-- The needles posted to field `f`, each once. -/
def Tables.fieldNeedles (t : Tables) (f : ℕ) : List ℕ :=
  (List.range t.litndl.length).filter fun i => (t.postings i).any (·.fieldId.toNat == f)

/-- The bytes the builders read: `strpool[i]`. -/
def SigmaDb.byte (db : SigmaDb) : ℕ → UInt8 := poolByte db.strpool db.poolNext

/-- `build_field_teddy`. -/
def buildFieldTeddy (mem : AllocSite → Bool) (db : SigmaDb) : Bool × SigmaDb :=
  if db.fields.length = 0 ∨ db.litndl.length = 0 ∨ db.litpostRef = [] then (true, db)
  else if db.litAnyField then (true, db)
  else if mem .fieldTeddy then
    (true, { db with
      fieldTeddy := some ((List.range db.fields.length).map fun f =>
        sigmaTeddyBuildSubset db.litndl db.byte (db.fieldNeedles f)) })
  else (false, db)

/-! ## Patterns -/

/-- `p->op == SIGMA_OP_RE`. -/
def SigmaPred.isRe (p : SigmaPred) : Bool := SigmaOp.ofByte p.op == some .opRe

/-- The compilation loop: `none` when a pattern has no value, and the number of patterns skipped
so far in either case. -/
def compileRes (pf : Platform) (t : Tables) :
    List SigmaPred → ℕ → Option (List (Option SigmaRe)) × ℕ
  | [], skipped => (some [], skipped)
  | p :: ps, skipped =>
    if p.isRe then
      match t.values[p.valueId.toNat]? with
      | none => (none, skipped)
      | some s =>
        let code : SigmaRe := ⟨t.str s, p.flags &&& sigmaPfCase == 0⟩
        let ok := pf.pcre2Compiles code
        let rest := compileRes pf t ps (if ok then skipped else skipped + 1)
        (rest.1.map ((if ok then some code else none) :: ·), rest.2)
    else
      let rest := compileRes pf t ps skipped
      (rest.1.map (none :: ·), rest.2)

/-- The prefilter part of `sigma_db_finalize`: the code, and whether a matcher was built. -/
def finalizeTeddy (mem : AllocSite → Bool) (db : SigmaDb) : Int × Bool × SigmaDb :=
  if db.teddy.isNone ∧ db.litndl ≠ [] then
    if mem .teddy then
      let db₁ := { db with teddy := sigmaTeddyBuild db.litndl db.byte }
      match buildBucketFields mem db₁ with
      | (false, db₂) => (-2, true, { db₂ with teddy := none })
      | (true, db₂) =>
        match buildFieldTeddy mem db₂ with
        | (false, db₃) => (-2, true, { db₃ with fieldTeddy := none, teddy := none })
        | (true, db₃) => (0, true, db₃)
    else (-2, true, { db with teddy := none })
  else (0, false, db)

/-- What a failure after the prefilter part frees. -/
def unbuildTeddy (built : Bool) (db : SigmaDb) : SigmaDb :=
  if built && db.teddy.isSome then { db with fieldTeddy := none, teddy := none } else db

/-- `sigma_db_finalize`. -/
def sigmaDbFinalize (pf : Platform) (mem : AllocSite → Bool) (db : SigmaDb) : Int × SigmaDb :=
  match finalizeTeddy mem db with
  | (0, built, db) =>
    if db.re.isSome then (0, db)
    else if db.preds.all (!·.isRe) then (0, db)
    else if mem .reTable then
      match compileRes pf db.toTables db.preds db.nReSkipped with
      | (some arr, skipped) => (0, { db with re := some arr, nReSkipped := skipped })
      | (none, skipped) => (-1, unbuildTeddy built { db with nReSkipped := skipped })
    else (-2, unbuildTeddy built db)
  | (rc, _, db) => (rc, db)

end LibSigma
