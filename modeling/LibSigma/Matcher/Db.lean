import LibSigma.Library.Checked

/-!
# The compiled rule database

The tables of a `.sigmac` artifact as `sigma_match.h` declares them.  A C table is a list whose
length is the table's count.  Every record keeps its padding bytes as a field: the loader is
zero-copy and the serializer copies whole structs, so padding is carried, not dropped.

## Two structures

`Tables` is what is on disk.  `SigmaDb` adds what the loader and `sigma_db_finalize` derive: the
compiled patterns, the needle matchers of the prefilter, the field that holds the category.  Only
the first is serialized, and a database in use is always the second, built from the first by one
function.  Where a theorem speaks of a loaded artifact it says so, since the tables that a caller
may fill by hand are more than those the loader lets through.

## Widths

Counts and indices have the widths of the source, `UInt32` in most records and `UInt16` in some,
because several findings are about exactly these widths.  A bound on an index is stated on its value
as a natural number, so that the arithmetic of the loader's checks is the arithmetic of the
integers, with the sums that the C code widens to 64 bits.

## An event is a function

The matcher sees an event through a callback only: a field name gives a value or `NULL`.  The model
takes the callback as a function from names to values, which is the contract of the header (the same
answer for the same field while one event is evaluated).  How often it is called is kept in the log
of an evaluation, and is not part of the event.

## Faults

An index past its table, a string past the pool, a name without its terminator: in C these are reads
of other memory.  Here they are the constructors of `Fault`, raised by the checked reads at the end
of this module, through which the rest of the matcher gets at every table.
-/

namespace LibSigma

/-- A byte string; the C code passes a pointer and a length. -/
abbrev Bytes := List UInt8

/-- An event, seen through the field callback: a field name gives a value or `NULL`. -/
abbrev Event := Bytes → Option Bytes

/-! ## Operators and flags -/

/-- `sigma_op_t`. -/
inductive SigmaOp where
  | opEq
  | opContains
  | opStartswith
  | opEndswith
  | opExists
  | opGt
  | opGte
  | opLt
  | opLte
  | opRe
  | opCidr
  | opNumeq
  deriving DecidableEq, Repr

/-- The operator an on-disk byte names; other bytes reach the `default` branches of the code. -/
def SigmaOp.ofByte (b : UInt8) : Option SigmaOp :=
  match b.toNat with
  | 0 => some .opEq
  | 1 => some .opContains
  | 2 => some .opStartswith
  | 3 => some .opEndswith
  | 4 => some .opExists
  | 5 => some .opGt
  | 6 => some .opGte
  | 7 => some .opLt
  | 8 => some .opLte
  | 9 => some .opRe
  | 10 => some .opCidr
  | 11 => some .opNumeq
  | _ => none

/-- `SIGMA_PF_CASE`, `SIGMA_PF_NEGATE` and `SIGMA_PF_FIELDREF`. -/
def sigmaPfCase : UInt8 := 1
def sigmaPfNegate : UInt8 := 2
def sigmaPfFieldref : UInt8 := 4

/-- `SIGMA_NO_VALUE`. -/
def sigmaNoValue : UInt32 := 0xFFFFFFFF

/-- `SIGMA_LITREF_ANY_FIELD`: an unscoped posting. -/
def sigmaLitrefAnyField : UInt16 := 0xFFFF

/-- `SIGMA_MAX_CLAUSES`. -/
def sigmaMaxClauses : ℕ := 32

/-- `SIGMA_COND_STACK_MAX`. -/
def sigmaCondStackMax : ℕ := 64

/-- `SIGMA_PREFILTER_MIN_BUCKET`. -/
def sigmaPrefilterMinBucket : ℕ := 256

/-- `SIGMA_MAX_ROUTE_BUCKETS`. -/
def sigmaMaxRouteBuckets : ℕ := 16

/-! ## Records -/

/-- `sigma_str_t`. -/
structure SigmaStr where
  off : UInt32
  len : UInt32
  deriving DecidableEq, Repr

/-- `sigma_pred_t`; `gap` is the alignment gap before `ival`. -/
structure SigmaPred where
  fieldId : UInt16
  groupId : UInt16
  op : UInt8
  flags : UInt8
  pad : Vector UInt8 2
  valueId : UInt32
  gap : Vector UInt8 4
  ival : Int64
  deriving DecidableEq, Repr

/-- `sigma_sel_t`. -/
structure SigmaSel where
  predStart : UInt32
  predCount : UInt32
  deriving DecidableEq, Repr

/-- `sigma_ctok_t`. -/
structure SigmaCtok where
  kind : UInt8
  pad : Vector UInt8 3
  selIdx : UInt32
  deriving DecidableEq, Repr

/-- `sigma_ctok_kind_t`. -/
def sigmaCSel : UInt8 := 0
def sigmaCAnd : UInt8 := 1
def sigmaCOr : UInt8 := 2
def sigmaCNot : UInt8 := 3

/-- `sigma_rule_t`. -/
structure SigmaRule where
  ruleId : UInt32
  selStart : UInt32
  selCount : UInt32
  condStart : UInt32
  condCount : UInt32
  verdict : UInt8
  severity : UInt8
  scoreX100 : UInt16
  nameId : UInt32
  mitreId : UInt32
  deriving DecidableEq, Repr

/-- `sigma_cidr_t`. -/
structure SigmaCidr where
  family : UInt8
  prefixLen : UInt8
  pad : Vector UInt8 2
  net : Vector UInt8 16
  deriving DecidableEq, Repr

/-- `sigma_bucket_t`. -/
structure SigmaBucket where
  idxStart : UInt32
  idxCount : UInt32
  deriving DecidableEq, Repr

/-- `sigma_litpost_t`. -/
structure SigmaLitpost where
  idxStart : UInt32
  idxCount : UInt32
  deriving DecidableEq, Repr

/-- `sigma_litref_t`. -/
structure SigmaLitref where
  ruleIdx : UInt32
  fieldId : UInt16
  clauseIdx : UInt8
  pad : UInt8
  deriving DecidableEq, Repr

/-- `sigma_fwit_t`. -/
structure SigmaFwit where
  ruleIdx : UInt32
  fieldId : UInt16
  clauseIdx : UInt8
  op : UInt8
  ival : Int64
  deriving DecidableEq, Repr

/-! ## The database -/

/-- The tables of an artifact.  `ruleClauses` is `none` when the section is absent.  Tables that
share one count in the header have one length. -/
structure Tables where
  fields : List SigmaStr
  values : List SigmaStr
  preds : List SigmaPred
  sels : List SigmaSel
  cond : List SigmaCtok
  rules : List SigmaRule
  cidrs : List SigmaCidr
  bucketKeys : List SigmaStr
  buckets : List SigmaBucket
  bucketIdx : List UInt32
  litndl : List SigmaStr
  litpost : List SigmaLitpost
  litpostRef : List SigmaLitref
  litav : List UInt32
  ruleClauses : Option (List UInt8)
  fwit : List SigmaFwit
  strpool : Bytes
  buckets_length : buckets.length = bucketKeys.length
  litpost_length : litpost.length = litndl.length
  ruleClauses_length : ∀ cs, ruleClauses = some cs → cs.length = rules.length

/-- The bytes a string record names. -/
def Tables.str (t : Tables) (s : SigmaStr) : Bytes :=
  (t.strpool.drop s.off.toNat).take s.len.toNat

/-- The bytes of a string record lie inside the string pool. -/
def Tables.InPool (t : Tables) (s : SigmaStr) : Prop :=
  s.off.toNat + s.len.toNat ≤ t.strpool.length

instance (t : Tables) (s : SigmaStr) : Decidable (t.InPool s) :=
  inferInstanceAs (Decidable (_ ≤ _))

/-- The clause count of a rule; 0 when the section is absent. -/
def Tables.clauses (t : Tables) (ruleIdx : ℕ) : ℕ :=
  match t.ruleClauses with
  | none => 0
  | some cs => (cs.getD ruleIdx 0).toNat

/-- `sigma_teddy_t`.  The hash tables and chain links are functions of the index, `UINT32_MAX`
ending a chain; the needles and the string pool are borrowed from the database. -/
structure SigmaTeddy where
  loLut : ℕ → Bool
  hiLut : ℕ → Bool
  nNeedles : ℕ
  fpHead : UInt32 → UInt32
  fpNext : ℕ → UInt32
  fp2Head : UInt32 → UInt32
  fp2Next : ℕ → UInt32
  fpC2 : ℕ → UInt16
  nShort : ℕ

/-- A compiled pattern of the `re` side table: the pattern bytes and the `PCRE2_CASELESS` bit. -/
structure SigmaRe where
  pattern : Bytes
  caseless : Bool
  deriving DecidableEq, Repr

/-- `sigma_db_t`.  `poolNext` is the byte the C code sees just past the string pool: building the
chain of a one-byte needle at the end of the pool reads it. -/
structure SigmaDb extends Tables where
  poolNext : UInt8
  avBucket : Option ℕ
  catFieldId : Option ℕ
  teddy : Option SigmaTeddy
  fieldTeddy : Option (List (Option SigmaTeddy))
  bucketFields : Option Bytes
  bucketFieldsStride : UInt32
  litAnyField : Bool
  re : Option (List (Option SigmaRe))
  nReSkipped : ℕ

/-! ## The platform -/

/-- What the matcher takes from its platform: `inet_pton` for the two families (it fails or
delivers 4 or 16 bytes), PCRE2, and whether the SIMD code is compiled in.  `strayVerdict` is the
verdict of a comparison that reads past an address, about which the language says nothing. -/
structure Platform where
  inetPton4 : Bytes → Option (Vector UInt8 4)
  inetPton6 : Bytes → Option (Vector UInt8 16)
  pcre2Compiles : SigmaRe → Bool
  pcre2Match : SigmaRe → Bytes → Bool
  strayVerdict : Bytes → SigmaCidr → Bool
  simd : Bool

/-! ## Faults -/

/-- The tables whose indices are checked. -/
inductive Table where
  | fields | values | preds | sels | cond | rules | cidrs | bucketKeys | buckets | bucketIdx
  | litndl | litpost | litpostRef | litav | ruleClauses | fwit | memo | stamps | re
  deriving DecidableEq, Repr

/-- What can go wrong in C without the program noticing: an index past its table, a string past
the pool, a field name whose terminator is not in the pool, a shift by 32 or more, a condition
stack that runs over or under, a byte past an address, a chain that does not end. -/
inductive Fault where
  | index (table : Table) (i : ℕ)
  | pool (off len : ℕ)
  | shift (n : ℕ)
  | stack
  | byte (i : ℕ)
  | chain
  deriving DecidableEq, Repr

/-! ## Checked reads -/

section Reads

variable {σ α : Type}

/-- `table[i]`. -/
def tableAt (table : Table) (xs : List α) (i : ℕ) : StateT σ (Except Fault) α :=
  liftM (Library.readAt (Fault.index table i) xs i)

/-- The bytes of a length-only string. -/
def SigmaDb.poolStr (db : SigmaDb) (s : SigmaStr) : StateT σ (Except Fault) Bytes :=
  if db.InPool s then pure (db.str s) else throw (.pool s.off.toNat s.len.toNat)

/-- The bytes of a field name, whose terminator must lie in the pool too. -/
def SigmaDb.poolName (db : SigmaDb) (s : SigmaStr) : StateT σ (Except Fault) Bytes :=
  if db.strpool[s.off.toNat + s.len.toNat]? = some 0 then pure (db.str s)
  else throw (.pool s.off.toNat (s.len.toNat + 1))

end Reads

section ReadRules

variable {σ α β : Type} {s : σ} {P : β → σ → Prop}

theorem runs_tableAt {table : Table} {xs : List α} {i : ℕ} {a : α}
    {f : α → StateT σ (Except Fault) β} (h : xs[i]? = some a) (hf : Library.Runs (f a) s P) :
    Library.Runs (tableAt table xs i >>= f) s P :=
  Library.Runs.lift_bind (Library.readAt_of_getElem? h) hf

theorem runs_poolStr {db : SigmaDb} {str : SigmaStr} {f : Bytes → StateT σ (Except Fault) β}
    (h : db.InPool str) (hf : Library.Runs (f (db.str str)) s P) :
    Library.Runs (db.poolStr str >>= f) s P := by
  rw [SigmaDb.poolStr, if_pos h, pure_bind]
  exact hf

end ReadRules

end LibSigma
