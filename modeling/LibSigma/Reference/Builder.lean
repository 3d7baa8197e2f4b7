import Mathlib.Data.List.Sort
import LibSigma.Library.Struct

/-!
# The reference emitter

`reference/sigmac/format.py`: `SigmaDbBuilder`, its methods and `serialize`.

## Python values

Integers are unbounded and a method that raises returns `none`; each of them raises before it
changes the builder.  Packing raises when a value does not fit its field.  A `str` is a list of code
points, surrogates included: a dictionary from a JSON file can hold a lone surrogate, and encoding
it raises.  A `dict` keeps the order of insertion, and `sorted` orders its items by key; both orders
are visible in the artifact, the first in the numbers of fields and values, the second in the
buckets.

## Shared strings

All strings go into one pool.  Names of fields are stored with a terminator and everything else
without (`internCstr`, `intern`).  A dictionary of the fields seen so far keeps a name from being
stored twice; other strings are stored as often as they are given.

## Serialization

`serialize` is one long function that lays out the sections, packs a header and copies rows into a
buffer.  The model keeps these three as lists: the offsets (`PyLayout`), the arguments of the
header's `struct.pack_into` in the order of its format string, and the writes in the order in which
they are made (`SigmaDbBuilder.writes`).  Format strings are kept as they stand, and are interpreted
by `LibSigma.Library.Struct`, so a letter that is wrong in one of them would be wrong here.

The checksum is a second implementation of CRC32C, in Python's unbounded integers with a mask; that
it agrees with the one in C is proved, not assumed.
-/

namespace LibSigma

open Library

/-! ## Python values -/

/-- A `str`: code points, surrogates included. -/
abbrev PyStr := List (Fin 0x110000)

/-- One code point in UTF-8; a surrogate has no encoding. -/
def utf8Char (c : ℕ) : Option (List UInt8) :=
  if c < 0x80 then some [UInt8.ofNat c]
  else if c < 0x800 then some [UInt8.ofNat (0xC0 + c / 64), UInt8.ofNat (0x80 + c % 64)]
  else if 0xD800 ≤ c ∧ c < 0xE000 then none
  else if c < 0x10000 then
    some [UInt8.ofNat (0xE0 + c / 4096), UInt8.ofNat (0x80 + c / 64 % 64),
      UInt8.ofNat (0x80 + c % 64)]
  else
    some [UInt8.ofNat (0xF0 + c / 262144), UInt8.ofNat (0x80 + c / 4096 % 64),
      UInt8.ofNat (0x80 + c / 64 % 64), UInt8.ofNat (0x80 + c % 64)]

/-- `s.encode("utf-8")`. -/
def encodeUtf8 (s : PyStr) : Option (List UInt8) :=
  (s.mapM fun c => utf8Char c.val).map List.flatten

/-- The order of strings: lexicographic, by code points. -/
def pyStrLe : PyStr → PyStr → Bool
  | [], _ => true
  | _ :: _, [] => false
  | c :: cs, d :: ds => c.val < d.val || (c.val == d.val && pyStrLe cs ds)

/-- A `dict` with string keys. -/
structure PyDict (ν : Type) where
  items : List (PyStr × ν)
  nodup : (items.map Prod.fst).Nodup

/-- The items in the order of `sorted(d)`. -/
def PyDict.sorted {ν : Type} (d : PyDict ν) : List (PyStr × ν) :=
  d.items.insertionSort fun p q => pyStrLe p.1 q.1 = true

/-! ## The builder -/

/-- `_Pred`. -/
structure PyPred where
  fieldId : Int
  groupId : Int
  op : Int
  flags : Int
  valueId : Int
  ival : Int

/-- `_Rule`. -/
structure PyRule where
  ruleId : Int
  selStart : Int
  selCount : Int
  condStart : Int
  condCount : Int
  verdict : Int
  severity : Int
  scoreX100 : Int
  nameId : Int
  mitreId : Int

/-- `(rule_idx, field_id, clause)`. -/
structure PyLitref where
  ruleIdx : Int
  fieldId : Int
  clause : Int

/-- `(rule_idx, field_id, clause, op, ival)`. -/
structure PyFwit where
  ruleIdx : Int
  fieldId : Int
  clause : Int
  op : Int
  ival : Int

/-- `(family, prefix, net16)`. -/
structure PyCidr where
  family : Int
  prefixLen : Int
  net : List UInt8
  deriving DecidableEq

/-- `SigmaDbBuilder`. -/
structure SigmaDbBuilder where
  pool : List UInt8
  fieldIds : List (PyStr × ℕ)
  fields : List (Int × Int)
  values : List (Int × Int)
  preds : List PyPred
  sels : List (Int × Int)
  cond : List (Int × Int)
  rules : List PyRule
  cidrs : List PyCidr
  bucketKeys : List PyStr
  bucketLists : List (List Int)
  litNeedles : List PyStr
  litPostings : List (List PyLitref)
  litAlwaysVerify : List Int
  ruleClauses : List Int
  fwits : List PyFwit

namespace SigmaDbBuilder

/-- `SigmaDbBuilder()`. -/
def init : SigmaDbBuilder where
  pool := []
  fieldIds := []
  fields := []
  values := []
  preds := []
  sels := []
  cond := []
  rules := []
  cidrs := []
  bucketKeys := []
  bucketLists := []
  litNeedles := []
  litPostings := []
  litAlwaysVerify := []
  ruleClauses := []
  fwits := []

variable (b : SigmaDbBuilder)

/-- `_intern`. -/
def intern (s : PyStr) : Option ((Int × Int) × SigmaDbBuilder) :=
  (encodeUtf8 s).map fun bs =>
    ((b.pool.length, bs.length), { b with pool := b.pool ++ bs })

/-- `_intern_cstr`. -/
def internCstr (s : PyStr) : Option ((Int × Int) × SigmaDbBuilder) :=
  (encodeUtf8 s).map fun bs =>
    ((b.pool.length, bs.length), { b with pool := b.pool ++ bs ++ [0] })

/-- `field`. -/
def field (name : PyStr) : Option (ℕ × SigmaDbBuilder) :=
  match b.fieldIds.lookup name with
  | some fid => some (fid, b)
  | none =>
    (b.internCstr name).map fun (ref, b) =>
      (b.fields.length,
        { b with
          fields := b.fields ++ [ref]
          fieldIds := b.fieldIds ++ [(name, b.fields.length)] })

/-- `value`. -/
def value (s : PyStr) : Option (ℕ × SigmaDbBuilder) :=
  (b.intern s).map fun (ref, b) => (b.values.length, { b with values := b.values ++ [ref] })

/-- `net[:16].ljust(16, b"\x00")`. -/
def padNet (net : List UInt8) : List UInt8 :=
  net.take 16 ++ List.replicate (16 - (net.take 16).length) 0

/-- `cidr`. -/
def cidr (family prefixLen : Int) (net : List UInt8) : ℕ × SigmaDbBuilder :=
  let row : PyCidr := ⟨family, prefixLen, padNet net⟩
  match b.cidrs.findIdx? (· == row) with
  | some i => (i, b)
  | none => (b.cidrs.length, { b with cidrs := b.cidrs ++ [row] })

/-- `pred`. -/
def pred (fieldName : PyStr) (op valueId group flags ival : Int) : Option SigmaDbBuilder :=
  (b.field fieldName).map fun (fid, b) =>
    { b with preds := b.preds ++ [⟨fid, group, op, flags, valueId, ival⟩] }

/-- `begin_sel`. -/
def beginSel : ℕ := b.preds.length

/-- `end_sel`. -/
def endSel (predStart : Int) : ℕ × SigmaDbBuilder :=
  (b.sels.length, { b with sels := b.sels ++ [(predStart, b.preds.length - predStart)] })

/-- `rule`. -/
def rule (ruleId selStart selCount : Int) (cond : Option (List (Int × Int)))
    (verdict severity scoreX100 nameId mitreId : Int) : ℕ × SigmaDbBuilder :=
  let cond := cond.getD []
  (b.rules.length,
    { b with
      cond := b.cond ++ cond
      rules := b.rules ++ [⟨ruleId, selStart, selCount, b.cond.length, cond.length, verdict,
        severity, scoreX100, nameId, mitreId⟩] })

/-- `set_buckets`. -/
def setBuckets (buckets : PyDict (List Int)) : SigmaDbBuilder :=
  let kept := buckets.sorted.filter fun p => !p.2.isEmpty
  { b with bucketKeys := kept.map Prod.fst, bucketLists := kept.map Prod.snd }

/-- `set_litidx`. -/
def setLitidx (needleRefs : PyDict (List PyLitref)) (alwaysVerify : List Int)
    (ruleClauses : Option (List Int)) (fwits : Option (List PyFwit)) : SigmaDbBuilder :=
  let kept := needleRefs.sorted.filter fun p => !p.1.isEmpty && !p.2.isEmpty
  { b with
    litNeedles := kept.map Prod.fst
    litPostings := kept.map Prod.snd
    litAlwaysVerify := alwaysVerify
    ruleClauses := ruleClauses.getD []
    fwits := fwits.getD [] }

end SigmaDbBuilder

/-- A method call that changes the builder. -/
inductive BuilderCall where
  | field (name : PyStr)
  | value (s : PyStr)
  | cidr (family prefixLen : Int) (net : List UInt8)
  | pred (fieldName : PyStr) (op valueId group flags ival : Int)
  | endSel (predStart : Int)
  | rule (ruleId selStart selCount : Int) (cond : Option (List (Int × Int)))
      (verdict severity scoreX100 nameId mitreId : Int)
  | setBuckets (buckets : PyDict (List Int))
  | setLitidx (needleRefs : PyDict (List PyLitref)) (alwaysVerify : List Int)
      (ruleClauses : Option (List Int)) (fwits : Option (List PyFwit))

/-- The builder after a call; a call that raises leaves it as it is. -/
def BuilderCall.apply (b : SigmaDbBuilder) : BuilderCall → SigmaDbBuilder
  | .field name => ((b.field name).map Prod.snd).getD b
  | .value s => ((b.value s).map Prod.snd).getD b
  | .cidr family prefixLen net => (b.cidr family prefixLen net).2
  | .pred fieldName op valueId group flags ival =>
    (b.pred fieldName op valueId group flags ival).getD b
  | .endSel predStart => (b.endSel predStart).2
  | .rule ruleId selStart selCount cond verdict severity scoreX100 nameId mitreId =>
    (b.rule ruleId selStart selCount cond verdict severity scoreX100 nameId mitreId).2
  | .setBuckets buckets => b.setBuckets buckets
  | .setLitidx needleRefs alwaysVerify ruleClauses fwits =>
    b.setLitidx needleRefs alwaysVerify ruleClauses fwits

/-- The builder after a sequence of calls on a new one. -/
def SigmaDbBuilder.Reachable (b : SigmaDbBuilder) : Prop :=
  ∃ calls : List BuilderCall, calls.foldl BuilderCall.apply .init = b

/-! ## Checksum -/

/-- One bit of `crc32c`. -/
def pyCrcBit (crc : ℕ) : ℕ :=
  if crc &&& 1 ≠ 0 then (crc >>> 1) ^^^ 0x82F63B78 else crc >>> 1

/-- One byte of `crc32c`. -/
def pyCrcByte (crc : ℕ) (byte : UInt8) : ℕ := pyCrcBit^[8] (crc ^^^ byte.toNat)

/-- `crc32c`. -/
def pyCrc32c (data : List UInt8) : ℕ :=
  (data.foldl pyCrcByte 0xFFFFFFFF ^^^ 0xFFFFFFFF) &&& 0xFFFFFFFF

/-! ## Serialization -/

/-- `_align8`. -/
def pyAlign8 (x : ℕ) : ℕ := x + 7 - (x + 7) % 8

/-- `MAGIC`, `VERSION` and the sizes of the header and of the records. -/
def pyMagic : Int := 0x53474D41
def pyVersion : Int := 5
def pyHdrSize : ℕ := 144
def szStr : ℕ := 8
def szPred : ℕ := 24
def szSel : ℕ := 8
def szCtok : ℕ := 8
def szRule : ℕ := 32
def szCidr : ℕ := 20
def szBucket : ℕ := 8
def szLitpost : ℕ := 8
def szLitref : ℕ := 8
def szFwit : ℕ := 16

/-- The format strings of `struct.pack_into`. -/
def fmtHdr : List StructField := [.u32, .u32, .u64] ++ List.replicate 32 .u32
def fmt2I : List StructField := [.u32, .u32]
def fmtPred : List StructField :=
  [.u16, .u16, .u8, .u8, .pad 2, .u32, .pad 4, .i64]
def fmtCtok : List StructField := [.u8, .pad 3, .u32]
def fmtRule : List StructField :=
  [.u32, .u32, .u32, .u32, .u32, .u8, .u8, .u16, .u32, .u32]
def fmtCidr : List StructField := [.u8, .u8, .pad 2, .bytes 16]
def fmtI : List StructField := [.u32]
def fmtLitref : List StructField := [.u32, .u16, .u8, .u8]
def fmtB : List StructField := [.u8]
def fmtFwit : List StructField := [.u32, .u16, .u8, .u8, .i64]

/-- The arguments of `struct.pack_into` for each kind of row. -/
def valsPair (r : Int × Int) : List StructVal := [.int r.1, .int r.2]
def valsPred (p : PyPred) : List StructVal :=
  [.int p.fieldId, .int p.groupId, .int p.op, .int p.flags, .int p.valueId, .int p.ival]
def valsRule (r : PyRule) : List StructVal :=
  [.int r.ruleId, .int r.selStart, .int r.selCount, .int r.condStart, .int r.condCount,
    .int r.verdict, .int r.severity, .int r.scoreX100, .int r.nameId, .int r.mitreId]
def valsCidr (c : PyCidr) : List StructVal := [.int c.family, .int c.prefixLen, .bytes c.net]
def valsInt (n : Int) : List StructVal := [.int n]
def valsLitref (r : PyLitref) : List StructVal :=
  [.int r.ruleIdx, .int r.fieldId, .int r.clause, .int 0]
def valsFwit (w : PyFwit) : List StructVal :=
  [.int w.ruleIdx, .int w.fieldId, .int w.clause, .int w.op, .int w.ival]

/-- What the interning loop of `serialize` accumulates: the pool, a reference for each key, the
lists one after the other, and where each list lies. -/
structure Interned (β : Type) where
  pool : List UInt8
  refs : List (Int × Int)
  flat : List β
  descr : List (Int × Int)

/-- One key with its list. -/
def internStep {β : Type} (acc : Interned β) (p : PyStr × List β) : Option (Interned β) :=
  (encodeUtf8 p.1).map fun kb =>
    { pool := acc.pool ++ kb
      refs := acc.refs ++ [((acc.pool.length : Int), (kb.length : Int))]
      flat := acc.flat ++ p.2
      descr := acc.descr ++ [((acc.flat.length : Int), (p.2.length : Int))] }

/-- The interning loop, over `zip(keys, lists)`. -/
def internAll {β : Type} (pool : List UInt8) (ps : List (PyStr × List β)) :
    Option (Interned β) :=
  ps.foldlM internStep ⟨pool, [], [], []⟩

namespace SigmaDbBuilder

variable (b : SigmaDbBuilder)

/-- `emit_buckets` and `emit_litidx`. -/
def emitBuckets : Bool := !b.bucketKeys.isEmpty
def emitLitidx : Bool := !b.litNeedles.isEmpty || !b.litAlwaysVerify.isEmpty || !b.fwits.isEmpty

/-- The loop over the buckets. -/
def internBuckets : Option (Interned Int) :=
  if b.emitBuckets then internAll b.pool (b.bucketKeys.zip b.bucketLists)
  else some ⟨b.pool, [], [], []⟩

/-- The loop over the needles, on the pool the buckets left. -/
def internNeedles (pool : List UInt8) : Option (Interned PyLitref) :=
  if b.emitLitidx then internAll pool (b.litNeedles.zip b.litPostings)
  else some ⟨pool, [], [], []⟩

/-- `rule_clauses`. -/
def emittedClauses : List Int := if b.emitLitidx then b.ruleClauses else []

/-- The always-verify list and the field witnesses, when they are emitted. -/
def emittedLitav : List Int := if b.emitLitidx then b.litAlwaysVerify else []
def emittedFwits : List PyFwit := if b.emitLitidx then b.fwits else []

end SigmaDbBuilder

/-- The offsets of `serialize`. -/
structure PyLayout where
  offFields : ℕ
  offValues : ℕ
  offPreds : ℕ
  offSels : ℕ
  offCond : ℕ
  offRules : ℕ
  offCidrs : ℕ
  offBkeys : ℕ
  offBuckets : ℕ
  offBidx : ℕ
  offLitndl : ℕ
  offLitpost : ℕ
  offLitpostRef : ℕ
  offLitav : ℕ
  offRuleClauses : ℕ
  offFwit : ℕ
  offStrpool : ℕ
  total : ℕ

section Emission

variable (b : SigmaDbBuilder) (bk : Interned Int) (ln : Interned PyLitref)

def SigmaDbBuilder.layout : PyLayout :=
  let offFields := pyAlign8 pyHdrSize
  let offValues := pyAlign8 (offFields + b.fields.length * szStr)
  let offPreds := pyAlign8 (offValues + b.values.length * szStr)
  let offSels := pyAlign8 (offPreds + b.preds.length * szPred)
  let offCond := pyAlign8 (offSels + b.sels.length * szSel)
  let offRules := pyAlign8 (offCond + b.cond.length * szCtok)
  let offCidrs := pyAlign8 (offRules + b.rules.length * szRule)
  let offBkeys := pyAlign8 (offCidrs + b.cidrs.length * szCidr)
  let offBuckets := pyAlign8 (offBkeys + bk.refs.length * szStr)
  let offBidx := pyAlign8 (offBuckets + bk.refs.length * szBucket)
  let offLitndl := pyAlign8 (offBidx + bk.flat.length * 4)
  let offLitpost := pyAlign8 (offLitndl + ln.refs.length * szStr)
  let offLitpostRef := pyAlign8 (offLitpost + ln.refs.length * szLitpost)
  let offLitav := pyAlign8 (offLitpostRef + ln.flat.length * szLitref)
  let offRuleClauses := pyAlign8 (offLitav + b.emittedLitav.length * 4)
  let offFwit := pyAlign8 (offRuleClauses + b.emittedClauses.length)
  let offStrpool := pyAlign8 (offFwit + b.emittedFwits.length * szFwit)
  ⟨offFields, offValues, offPreds, offSels, offCond, offRules, offCidrs, offBkeys, offBuckets,
    offBidx, offLitndl, offLitpost, offLitpostRef, offLitav, offRuleClauses, offFwit, offStrpool,
    offStrpool + ln.pool.length + 4⟩

/-- `off if n else 0`. -/
def pyOffIf (n off : ℕ) : ℕ := if n ≠ 0 then off else 0

/-- The arguments of the header's `struct.pack_into`. -/
def SigmaDbBuilder.hdrVals : List StructVal :=
  let l := b.layout bk ln
  [.int pyMagic, .int pyVersion, .int l.total,
    .int b.fields.length, .int l.offFields,
    .int b.values.length, .int l.offValues,
    .int b.preds.length, .int l.offPreds,
    .int b.sels.length, .int l.offSels,
    .int b.cond.length, .int l.offCond,
    .int b.rules.length, .int l.offRules,
    .int ln.pool.length, .int l.offStrpool,
    .int b.cidrs.length, .int l.offCidrs,
    .int 0,
    .int bk.refs.length, .int (pyOffIf bk.refs.length l.offBkeys),
    .int (pyOffIf bk.refs.length l.offBuckets),
    .int bk.flat.length, .int (pyOffIf bk.flat.length l.offBidx),
    .int ln.refs.length, .int (pyOffIf ln.refs.length l.offLitndl),
    .int (pyOffIf ln.refs.length l.offLitpost),
    .int ln.flat.length, .int (pyOffIf ln.flat.length l.offLitpostRef),
    .int b.emittedLitav.length, .int (pyOffIf b.emittedLitav.length l.offLitav),
    .int (pyOffIf b.emittedClauses.length l.offRuleClauses),
    .int b.emittedFwits.length, .int (pyOffIf b.emittedFwits.length l.offFwit)]

/-- The writes of `serialize`, in order.  The loops that `emit_buckets` and `emit_litidx` guard are
over lists that are empty otherwise. -/
def SigmaDbBuilder.writes : List (List UInt8 → Option (List UInt8)) :=
  let l := b.layout bk ln
  [fun buf => packInto fmtHdr buf 0 (b.hdrVals bk ln),
    packRows fmt2I valsPair szStr l.offFields b.fields,
    packRows fmt2I valsPair szStr l.offValues b.values,
    packRows fmtPred valsPred szPred l.offPreds b.preds,
    packRows fmt2I valsPair szSel l.offSels b.sels,
    packRows fmtCtok valsPair szCtok l.offCond b.cond,
    packRows fmtRule valsRule szRule l.offRules b.rules,
    packRows fmtCidr valsCidr szCidr l.offCidrs b.cidrs,
    packRows fmt2I valsPair szStr l.offBkeys bk.refs,
    packRows fmt2I valsPair szBucket l.offBuckets bk.descr,
    packRows fmtI valsInt 4 l.offBidx bk.flat,
    packRows fmt2I valsPair szStr l.offLitndl ln.refs,
    packRows fmt2I valsPair szLitpost l.offLitpost ln.descr,
    packRows fmtLitref valsLitref szLitref l.offLitpostRef ln.flat,
    packRows fmtI valsInt 4 l.offLitav b.emittedLitav,
    packRows fmtB valsInt 1 l.offRuleClauses b.emittedClauses,
    packRows fmtFwit valsFwit szFwit l.offFwit b.emittedFwits,
    fun buf => some (poke buf l.offStrpool ln.pool)]

/-- The end of `serialize`: the writes, and the checksum of what stands before it. -/
def SigmaDbBuilder.emit : Option (List UInt8) :=
  let l := b.layout bk ln
  (runWrites (b.writes bk ln) (List.replicate l.total 0)).bind fun buf =>
    packInto fmtI buf (l.total - 4) [.int (pyCrc32c (buf.take (l.total - 4)))]

/-- `serialize`. -/
def SigmaDbBuilder.serialize (version : Int) : Option (List UInt8) :=
  if version ≠ pyVersion then none
  else b.internBuckets.bind fun bk =>
    (b.internNeedles bk.pool).bind fun ln =>
      if b.emittedClauses ≠ [] ∧ b.emittedClauses.length ≠ b.rules.length then none
      else b.emit bk ln

end Emission

end LibSigma
