import LibSigma.Library.Codec
import LibSigma.Matcher.Finalize

/-!
# The `.sigmac` artifact

`sigma_format.h` and `sigma_format.c`: the byte layout of the tables, `sigma_db_serialize` and the
validating loader `sigma_db_load_buffer`.

## Records are codecs

Each C struct is one `Codec`: the layout of its fields in order, from which its size, its encoder
and its decoder follow together.  So a record is laid out in one place, and the round trip of a
table is the general round trip of `LibSigma.Library.Codec` at that record.  The padding of a struct
is a field like the others.  The serializer copies whole structs and the loader points into the
file, so what stands in the padding goes through both ways, and a model without it would claim a
round trip the bytes do not have.

## The file

The header holds the counts and the offset of each section.  The serializer computes the offsets
from the counts (`Tables.layout`), fills a zeroed buffer section by section (`Tables.body`), and
puts the checksum of all that into the last four bytes.  Offsets are rounded up to 8 bytes, and the
offset of an empty section is zero (`offIf`).  Version 4 files have a shorter header, which the
loader completes with zeros.

## The loader

The loader answers with a status, and the order of its checks decides which one: the size, the
magic, the version, the total size, the bounds of the sections, the checksum, and last the
references between the tables.  The range checks on references are gathered in `Tables.rangesOk`,
one definition per table, in the order the loader makes them; all of them answer `SIGMA_ERR_RANGE`,
so their order among themselves is not observable and is kept for the reader only.  What the loader
does not check matters as much as what it does, and is written out in no definition: the prefix of a
CIDR operand, and whether the postings of a rule suffice to credit all its clauses
(`LibSigma.Matcher.Cidr`, `LibSigma.Matcher.Gating`).

The checksum is the table-free loop over bits, `sigma__crc32c_sw`; the versions with hardware
instructions compute the same function and are not modelled apart.
-/

namespace LibSigma

open Library

/-! ## Record layouts -/

def SigmaStr.codec : Codec SigmaStr :=
  (Codec.u32.pair Codec.u32).map (fun p => ⟨p.1, p.2⟩) (fun s => (s.off, s.len))
    (fun _ => rfl) (fun _ => rfl)

def SigmaPred.codec : Codec SigmaPred :=
  (Codec.u16.pair <| Codec.u16.pair <| Codec.u8.pair <| Codec.u8.pair <| (Codec.bytes 2).pair <|
    Codec.u32.pair <| (Codec.bytes 4).pair Codec.i64).map
    (fun (a, b, c, d, e, f, g, h) => ⟨a, b, c, d, e, f, g, h⟩)
    (fun p => (p.fieldId, p.groupId, p.op, p.flags, p.pad, p.valueId, p.gap, p.ival))
    (fun _ => rfl) (fun _ => rfl)

def SigmaSel.codec : Codec SigmaSel :=
  (Codec.u32.pair Codec.u32).map (fun p => ⟨p.1, p.2⟩) (fun s => (s.predStart, s.predCount))
    (fun _ => rfl) (fun _ => rfl)

def SigmaCtok.codec : Codec SigmaCtok :=
  (Codec.u8.pair <| (Codec.bytes 3).pair Codec.u32).map (fun (a, b, c) => ⟨a, b, c⟩)
    (fun k => (k.kind, k.pad, k.selIdx)) (fun _ => rfl) (fun _ => rfl)

def SigmaRule.codec : Codec SigmaRule :=
  (Codec.u32.pair <| Codec.u32.pair <| Codec.u32.pair <| Codec.u32.pair <| Codec.u32.pair <|
    Codec.u8.pair <| Codec.u8.pair <| Codec.u16.pair <| Codec.u32.pair Codec.u32).map
    (fun (a, b, c, d, e, f, g, h, i, j) => ⟨a, b, c, d, e, f, g, h, i, j⟩)
    (fun r => (r.ruleId, r.selStart, r.selCount, r.condStart, r.condCount, r.verdict, r.severity,
      r.scoreX100, r.nameId, r.mitreId))
    (fun _ => rfl) (fun _ => rfl)

def SigmaCidr.codec : Codec SigmaCidr :=
  (Codec.u8.pair <| Codec.u8.pair <| (Codec.bytes 2).pair (Codec.bytes 16)).map
    (fun (a, b, c, d) => ⟨a, b, c, d⟩) (fun c => (c.family, c.prefixLen, c.pad, c.net))
    (fun _ => rfl) (fun _ => rfl)

def SigmaBucket.codec : Codec SigmaBucket :=
  (Codec.u32.pair Codec.u32).map (fun p => ⟨p.1, p.2⟩) (fun b => (b.idxStart, b.idxCount))
    (fun _ => rfl) (fun _ => rfl)

def SigmaLitpost.codec : Codec SigmaLitpost :=
  (Codec.u32.pair Codec.u32).map (fun p => ⟨p.1, p.2⟩) (fun b => (b.idxStart, b.idxCount))
    (fun _ => rfl) (fun _ => rfl)

def SigmaLitref.codec : Codec SigmaLitref :=
  (Codec.u32.pair <| Codec.u16.pair <| Codec.u8.pair Codec.u8).map (fun (a, b, c, d) => ⟨a, b, c, d⟩)
    (fun r => (r.ruleIdx, r.fieldId, r.clauseIdx, r.pad)) (fun _ => rfl) (fun _ => rfl)

def SigmaFwit.codec : Codec SigmaFwit :=
  (Codec.u32.pair <| Codec.u16.pair <| Codec.u8.pair <| Codec.u8.pair Codec.i64).map
    (fun (a, b, c, d, e) => ⟨a, b, c, d, e⟩)
    (fun w => (w.ruleIdx, w.fieldId, w.clauseIdx, w.op, w.ival)) (fun _ => rfl) (fun _ => rfl)

/-- `sigma_hdr_t`. -/
structure SigmaHdr where
  magic : UInt32
  version : UInt32
  totalSize : UInt64
  nFields : UInt32
  offFields : UInt32
  nValues : UInt32
  offValues : UInt32
  nPreds : UInt32
  offPreds : UInt32
  nSels : UInt32
  offSels : UInt32
  nCond : UInt32
  offCond : UInt32
  nRules : UInt32
  offRules : UInt32
  strpoolLen : UInt32
  offStrpool : UInt32
  nCidrs : UInt32
  offCidrs : UInt32
  flags : UInt32
  nBuckets : UInt32
  offBkeys : UInt32
  offBuckets : UInt32
  nBucketIdx : UInt32
  offBucketIdx : UInt32
  nLitndl : UInt32
  offLitndl : UInt32
  offLitpost : UInt32
  nLitpostRef : UInt32
  offLitpostRef : UInt32
  nLitav : UInt32
  offLitav : UInt32
  offRuleClauses : UInt32
  nFwit : UInt32
  offFwit : UInt32
  deriving DecidableEq, Repr

def SigmaHdr.codec : Codec SigmaHdr :=
  (Codec.u32.pair <| Codec.u32.pair <| Codec.u64.pair <| Codec.u32.pair <| Codec.u32.pair <|
    Codec.u32.pair <| Codec.u32.pair <| Codec.u32.pair <| Codec.u32.pair <| Codec.u32.pair <|
    Codec.u32.pair <| Codec.u32.pair <| Codec.u32.pair <| Codec.u32.pair <| Codec.u32.pair <|
    Codec.u32.pair <| Codec.u32.pair <| Codec.u32.pair <| Codec.u32.pair <| Codec.u32.pair <|
    Codec.u32.pair <| Codec.u32.pair <| Codec.u32.pair <| Codec.u32.pair <| Codec.u32.pair <|
    Codec.u32.pair <| Codec.u32.pair <| Codec.u32.pair <| Codec.u32.pair <| Codec.u32.pair <|
    Codec.u32.pair <| Codec.u32.pair <| Codec.u32.pair <| Codec.u32.pair <| Codec.u32).map
    (fun (magic, version, totalSize, nFields, offFields, nValues, offValues, nPreds, offPreds, nSels,
      offSels, nCond, offCond, nRules, offRules, strpoolLen, offStrpool, nCidrs, offCidrs, flags,
      nBuckets, offBkeys, offBuckets, nBucketIdx, offBucketIdx, nLitndl, offLitndl, offLitpost,
      nLitpostRef, offLitpostRef, nLitav, offLitav, offRuleClauses, nFwit, offFwit) =>
      ⟨magic, version, totalSize, nFields, offFields, nValues, offValues, nPreds, offPreds, nSels,
       offSels, nCond, offCond, nRules, offRules, strpoolLen, offStrpool, nCidrs, offCidrs, flags,
       nBuckets, offBkeys, offBuckets, nBucketIdx, offBucketIdx, nLitndl, offLitndl, offLitpost,
       nLitpostRef, offLitpostRef, nLitav, offLitav, offRuleClauses, nFwit, offFwit⟩)
    (fun h => (h.magic, h.version, h.totalSize, h.nFields, h.offFields, h.nValues, h.offValues, h.nPreds,
      h.offPreds, h.nSels, h.offSels, h.nCond, h.offCond, h.nRules, h.offRules, h.strpoolLen,
      h.offStrpool, h.nCidrs, h.offCidrs, h.flags, h.nBuckets, h.offBkeys, h.offBuckets,
      h.nBucketIdx, h.offBucketIdx, h.nLitndl, h.offLitndl, h.offLitpost, h.nLitpostRef,
      h.offLitpostRef, h.nLitav, h.offLitav, h.offRuleClauses, h.nFwit, h.offFwit))
    (fun _ => rfl) (fun _ => rfl)

/-- `sizeof(sigma_hdr_t)` and `SIGMA_HDR_V4_SIZE`. -/
def hdrSize : ℕ := 144
def hdrV4Size : ℕ := 136

example : SigmaHdr.codec.size = hdrSize ∧ SigmaStr.codec.size = 8 ∧ SigmaPred.codec.size = 24 ∧
    SigmaSel.codec.size = 8 ∧ SigmaCtok.codec.size = 8 ∧ SigmaRule.codec.size = 32 ∧
    SigmaCidr.codec.size = 20 ∧ SigmaBucket.codec.size = 8 ∧ SigmaLitpost.codec.size = 8 ∧
    SigmaLitref.codec.size = 8 ∧ SigmaFwit.codec.size = 16 := by decide

/-- `SIGMA_MAGIC`, `SIGMA_FORMAT_VERSION` and `SIGMA_FORMAT_VERSION_MIN`. -/
def sigmaMagic : UInt32 := 0x53474D41
def sigmaFormatVersion : UInt32 := 5
def sigmaFormatVersionMin : UInt32 := 4

/-! ## CRC32C -/

/-- One bit of the reflected CRC. -/
def crcBit (crc : UInt32) : UInt32 := (crc >>> 1) ^^^ (0x82F63B78 &&& (0 - (crc &&& 1)))

/-- One byte. -/
def crcByte (crc : UInt32) (b : UInt8) : UInt32 := crcBit^[8] (crc ^^^ b.toUInt32)

/-- `sigma__crc32c_sw`; the hardware instructions compute the same function. -/
def sigmaCrc32c (crc : UInt32) (data : Bytes) : UInt32 := ~~~ (data.foldl crcByte (~~~ crc))

/-! ## The serializer -/

/-- `align8`. -/
def align8 (x : ℕ) : ℕ := (x + 7) / 8 * 8

/-- The section offsets `sigma_db_serialize` computes, and the total size. -/
structure Layout where
  offFields : ℕ
  offValues : ℕ
  offPreds : ℕ
  offSels : ℕ
  offCond : ℕ
  offRules : ℕ
  offCidrs : ℕ
  offBkeys : ℕ
  offBuckets : ℕ
  offBidx : ℕ
  offLitndl : ℕ
  offLitpost : ℕ
  offLitpostRef : ℕ
  offLitav : ℕ
  offRuleClauses : ℕ
  offFwit : ℕ
  offStrpool : ℕ
  total : ℕ

/-- The bytes of the `rule_clauses` section. -/
def Tables.ruleClausesLen (t : Tables) : ℕ := if t.ruleClauses.isSome then t.rules.length else 0

def Tables.layout (t : Tables) : Layout :=
  let offFields := align8 hdrSize
  let offValues := align8 (offFields + t.fields.length * 8)
  let offPreds := align8 (offValues + t.values.length * 8)
  let offSels := align8 (offPreds + t.preds.length * 24)
  let offCond := align8 (offSels + t.sels.length * 8)
  let offRules := align8 (offCond + t.cond.length * 8)
  let offCidrs := align8 (offRules + t.rules.length * 32)
  let offBkeys := align8 (offCidrs + t.cidrs.length * 20)
  let offBuckets := align8 (offBkeys + t.bucketKeys.length * 8)
  let offBidx := align8 (offBuckets + t.bucketKeys.length * 8)
  let offLitndl := align8 (offBidx + t.bucketIdx.length * 4)
  let offLitpost := align8 (offLitndl + t.litndl.length * 8)
  let offLitpostRef := align8 (offLitpost + t.litndl.length * 8)
  let offLitav := align8 (offLitpostRef + t.litpostRef.length * 8)
  let offRuleClauses := align8 (offLitav + t.litav.length * 4)
  let offFwit := align8 (offRuleClauses + t.ruleClausesLen)
  let offStrpool := align8 (offFwit + t.fwit.length * 16)
  let bodyEnd := offStrpool + t.strpool.length
  ⟨offFields, offValues, offPreds, offSels, offCond, offRules, offCidrs, offBkeys, offBuckets,
    offBidx, offLitndl, offLitpost, offLitpostRef, offLitav, offRuleClauses, offFwit, offStrpool,
    bodyEnd + 4⟩

/-- A count, or an offset that is zeroed when its section is empty. -/
def offIf (present : Bool) (off : ℕ) : UInt32 := if present then UInt32.ofNat off else 0

/-- The header `sigma_db_serialize` writes. -/
def Tables.header (t : Tables) : SigmaHdr :=
  let l := t.layout
  { magic := sigmaMagic
    version := sigmaFormatVersion
    totalSize := UInt64.ofNat l.total
    nFields := UInt32.ofNat t.fields.length
    offFields := UInt32.ofNat l.offFields
    nValues := UInt32.ofNat t.values.length
    offValues := UInt32.ofNat l.offValues
    nPreds := UInt32.ofNat t.preds.length
    offPreds := UInt32.ofNat l.offPreds
    nSels := UInt32.ofNat t.sels.length
    offSels := UInt32.ofNat l.offSels
    nCond := UInt32.ofNat t.cond.length
    offCond := UInt32.ofNat l.offCond
    nRules := UInt32.ofNat t.rules.length
    offRules := UInt32.ofNat l.offRules
    strpoolLen := UInt32.ofNat t.strpool.length
    offStrpool := UInt32.ofNat l.offStrpool
    nCidrs := UInt32.ofNat t.cidrs.length
    offCidrs := UInt32.ofNat l.offCidrs
    flags := 0
    nBuckets := UInt32.ofNat t.bucketKeys.length
    offBkeys := offIf (t.bucketKeys.length ≠ 0) l.offBkeys
    offBuckets := offIf (t.bucketKeys.length ≠ 0) l.offBuckets
    nBucketIdx := UInt32.ofNat t.bucketIdx.length
    offBucketIdx := offIf (t.bucketIdx.length ≠ 0) l.offBidx
    nLitndl := UInt32.ofNat t.litndl.length
    offLitndl := offIf (t.litndl.length ≠ 0) l.offLitndl
    offLitpost := offIf (t.litndl.length ≠ 0) l.offLitpost
    nLitpostRef := UInt32.ofNat t.litpostRef.length
    offLitpostRef := offIf (t.litpostRef.length ≠ 0) l.offLitpostRef
    nLitav := UInt32.ofNat t.litav.length
    offLitav := offIf (t.litav.length ≠ 0) l.offLitav
    offRuleClauses := offIf (t.ruleClauses.isSome && t.rules.length ≠ 0) l.offRuleClauses
    nFwit := UInt32.ofNat t.fwit.length
    offFwit := offIf (t.fwit.length ≠ 0) l.offFwit }

/-- The sections `sigma_db_serialize` copies, with their offsets.  The copies the code guards by a
nonzero count are copies of nothing when the count is 0. -/
def Tables.sections (t : Tables) : List (ℕ × Bytes) :=
  let l := t.layout
  [(0, SigmaHdr.codec.enc t.header),
    (l.offFields, SigmaStr.codec.encTable t.fields),
    (l.offValues, SigmaStr.codec.encTable t.values),
    (l.offPreds, SigmaPred.codec.encTable t.preds),
    (l.offSels, SigmaSel.codec.encTable t.sels),
    (l.offCond, SigmaCtok.codec.encTable t.cond),
    (l.offRules, SigmaRule.codec.encTable t.rules),
    (l.offCidrs, SigmaCidr.codec.encTable t.cidrs),
    (l.offBkeys, SigmaStr.codec.encTable t.bucketKeys),
    (l.offBuckets, SigmaBucket.codec.encTable t.buckets),
    (l.offBidx, Codec.u32.encTable t.bucketIdx),
    (l.offLitndl, SigmaStr.codec.encTable t.litndl),
    (l.offLitpost, SigmaLitpost.codec.encTable t.litpost),
    (l.offLitpostRef, SigmaLitref.codec.encTable t.litpostRef),
    (l.offLitav, Codec.u32.encTable t.litav),
    (l.offRuleClauses, Codec.u8.encTable (t.ruleClauses.getD [])),
    (l.offFwit, SigmaFwit.codec.encTable t.fwit),
    (l.offStrpool, t.strpool)]

/-- The zeroed buffer after all sections are copied, before the checksum. -/
def Tables.body (t : Tables) : Bytes := pokes (List.replicate t.layout.total 0) t.sections

/-- `sigma_db_serialize`. -/
def sigmaDbSerialize (t : Tables) : Bytes :=
  let crc := sigmaCrc32c 0 (t.body.take (t.layout.total - 4))
  poke t.body (t.layout.total - 4) (Codec.u32.enc crc)

/-! ## The loader -/

/-- `sigma_status_t`. -/
inductive SigmaStatus where
  | ok | errNomem | errIo | errMagic | errVersion | errSize | errCrc | errRange | errRegex
  deriving DecidableEq, Repr

/-- `sect_ok`. -/
def sectOk (off : UInt32) (n esz len : ℕ) : Bool :=
  if off.toNat % 8 ≠ 0 then false
  else if len < off.toNat then false
  else n * esz ≤ len - off.toNat

/-- The bounds checks on the sections of a header. -/
def SigmaHdr.sectionsOk (h : SigmaHdr) (len : ℕ) : Bool :=
  sectOk h.offFields h.nFields.toNat 8 len &&
  sectOk h.offValues h.nValues.toNat 8 len &&
  sectOk h.offPreds h.nPreds.toNat 24 len &&
  sectOk h.offSels h.nSels.toNat 8 len &&
  sectOk h.offCond h.nCond.toNat 8 len &&
  sectOk h.offRules h.nRules.toNat 32 len &&
  sectOk h.offCidrs h.nCidrs.toNat 20 len &&
  sectOk h.offBkeys h.nBuckets.toNat 8 len &&
  sectOk h.offBuckets h.nBuckets.toNat 8 len &&
  sectOk h.offBucketIdx h.nBucketIdx.toNat 4 len &&
  sectOk h.offLitndl h.nLitndl.toNat 8 len &&
  sectOk h.offLitpost h.nLitndl.toNat 8 len &&
  sectOk h.offLitpostRef h.nLitpostRef.toNat 8 len &&
  sectOk h.offLitav h.nLitav.toNat 4 len &&
  sectOk h.offRuleClauses (if h.offRuleClauses ≠ 0 then h.nRules.toNat else 0) 1 len &&
  sectOk h.offFwit h.nFwit.toNat 16 len &&
  !(len < h.offStrpool.toNat || len - h.offStrpool.toNat < h.strpoolLen.toNat)

/-- The table of `n` records at `off`. -/
def tableOf {α : Type} (c : Codec α) (buf : Bytes) (off n : UInt32) : List α :=
  c.decTable n.toNat (buf.drop off.toNat)

@[simp] theorem length_tableOf {α : Type} (c : Codec α) (buf : Bytes) (off n : UInt32) :
    (tableOf c buf off n).length = n.toNat :=
  c.length_decTable _ _

/-- The tables a header points at. -/
def SigmaHdr.tables (h : SigmaHdr) (buf : Bytes) : Tables where
  fields := tableOf SigmaStr.codec buf h.offFields h.nFields
  values := tableOf SigmaStr.codec buf h.offValues h.nValues
  preds := tableOf SigmaPred.codec buf h.offPreds h.nPreds
  sels := tableOf SigmaSel.codec buf h.offSels h.nSels
  cond := tableOf SigmaCtok.codec buf h.offCond h.nCond
  rules := tableOf SigmaRule.codec buf h.offRules h.nRules
  cidrs := tableOf SigmaCidr.codec buf h.offCidrs h.nCidrs
  bucketKeys := tableOf SigmaStr.codec buf h.offBkeys h.nBuckets
  buckets := tableOf SigmaBucket.codec buf h.offBuckets h.nBuckets
  bucketIdx := tableOf Codec.u32 buf h.offBucketIdx h.nBucketIdx
  litndl := tableOf SigmaStr.codec buf h.offLitndl h.nLitndl
  litpost := tableOf SigmaLitpost.codec buf h.offLitpost h.nLitndl
  litpostRef := tableOf SigmaLitref.codec buf h.offLitpostRef h.nLitpostRef
  litav := tableOf Codec.u32 buf h.offLitav h.nLitav
  ruleClauses :=
    if h.offRuleClauses ≠ 0 then some (tableOf Codec.u8 buf h.offRuleClauses h.nRules) else none
  fwit := tableOf SigmaFwit.codec buf h.offFwit h.nFwit
  strpool := slice buf h.offStrpool.toNat h.strpoolLen.toNat
  buckets_length := by simp
  litpost_length := by simp
  ruleClauses_length := by
    intro cs hcs
    split at hcs
    · rw [← Option.some.inj hcs]
      simp
    · exact absurd hcs (by simp)

namespace Tables

variable (t : Tables)

/-- A field name and its terminator are in the pool. -/
def fieldOk (f : SigmaStr) : Bool :=
  let fin := f.off.toNat + f.len.toNat
  fin + 1 ≤ t.strpool.length && t.strpool.getD fin 0 == 0

/-- What the meaning of `value_id` demands of a predicate. -/
def predOk (p : SigmaPred) : Bool :=
  p.fieldId.toNat < t.fields.length &&
  if p.flags &&& sigmaPfFieldref ≠ 0 then p.valueId.toNat < t.fields.length
  else if SigmaOp.ofByte p.op = some .opCidr then p.valueId.toNat < t.cidrs.length
  else p.valueId = sigmaNoValue || p.valueId.toNat < t.values.length

def selOk (s : SigmaSel) : Bool := s.predStart.toNat + s.predCount.toNat ≤ t.preds.length

def ruleOk (r : SigmaRule) : Bool :=
  r.selStart.toNat + r.selCount.toNat ≤ t.sels.length &&
  r.condStart.toNat + r.condCount.toNat ≤ t.cond.length &&
  (r.nameId = sigmaNoValue || r.nameId.toNat < t.values.length) &&
  (r.mitreId = sigmaNoValue || r.mitreId.toNat < t.values.length)

def bucketOk (b : SigmaBucket) : Bool := b.idxStart.toNat + b.idxCount.toNat ≤ t.bucketIdx.length

/-- The scan for the always-verify bucket; `none` rejects a second empty key. -/
def avScan : List SigmaStr → ℕ → Option ℕ → Option (Option ℕ)
  | [], _, av => some av
  | k :: ks, i, av =>
    if k.len = 0 then
      match av with
      | some _ => none
      | none => avScan ks (i + 1) (some i)
    else avScan ks (i + 1) av

def litpostOk (p : SigmaLitpost) : Bool :=
  p.idxStart.toNat + p.idxCount.toNat ≤ t.litpostRef.length

/-- `d.rule_clauses && clause_idx < d.rule_clauses[rule_idx]`. -/
def clauseNamed (ruleIdx : UInt32) (clauseIdx : UInt8) : Bool :=
  t.ruleClauses.isSome && clauseIdx.toNat < t.clauses ruleIdx.toNat

def litrefOk (r : SigmaLitref) : Bool :=
  r.ruleIdx.toNat < t.rules.length &&
  (r.fieldId = sigmaLitrefAnyField || r.fieldId.toNat < t.fields.length) &&
  r.clauseIdx.toNat < sigmaMaxClauses &&
  t.clauseNamed r.ruleIdx r.clauseIdx

def litavOk (ri : UInt32) : Bool :=
  ri.toNat < t.rules.length && (t.ruleClauses.isNone || t.clauses ri.toNat = 0)

def fwitOk (w : SigmaFwit) : Bool :=
  w.ruleIdx.toNat < t.rules.length &&
  !(w.fieldId = sigmaLitrefAnyField || t.fields.length ≤ w.fieldId.toNat) &&
  w.clauseIdx.toNat < sigmaMaxClauses &&
  t.clauseNamed w.ruleIdx w.clauseIdx &&
  match SigmaOp.ofByte w.op with
  | some .opCidr => w.ival.toUInt64.toNat < t.cidrs.length
  | some .opGt | some .opGte | some .opLt | some .opLte | some .opNumeq => true
  | _ => false

/-- The reference checks of `sigma_db_load_buffer`. -/
def rangesOk : Bool :=
  t.fields.all t.fieldOk &&
  t.values.all (fun s => decide (t.InPool s)) &&
  t.preds.all t.predOk &&
  t.sels.all t.selOk &&
  t.rules.all t.ruleOk &&
  t.cond.all (·.kind ≤ sigmaCNot) &&
  t.bucketKeys.all (fun s => decide (t.InPool s)) &&
  t.buckets.all t.bucketOk &&
  (avScan t.bucketKeys 0 none).isSome &&
  t.bucketIdx.all (·.toNat < t.rules.length) &&
  t.litndl.all (fun s => decide (t.InPool s) && s.len ≠ 0) &&
  t.litpost.all t.litpostOk &&
  t.litpostRef.all t.litrefOk &&
  t.litav.all t.litavOk &&
  (t.ruleClauses.getD []).all (·.toNat ≤ sigmaMaxClauses) &&
  t.fwit.all t.fwitOk

end Tables

/-- An ASCII string constant of the source. -/
def ascii (s : String) : Bytes := s.toList.map fun c => c.toNat.toUInt8

/-- `CATF`. -/
def catf : Bytes := ascii "event.category"

/-- The first field named `event.category`. -/
def Tables.catFieldIdOf (t : Tables) : Option ℕ :=
  if t.bucketKeys.length = 0 then none
  else t.fields.findIdx? fun f => f.len.toNat == catf.length && t.str f == catf

/-- The database before it is finalized. -/
def Tables.toDb (t : Tables) (poolNext : UInt8) : SigmaDb where
  toTables := t
  poolNext := poolNext
  avBucket := (Tables.avScan t.bucketKeys 0 none).getD none
  catFieldId := t.catFieldIdOf
  teddy := none
  fieldTeddy := none
  bucketFields := none
  bucketFieldsStride := 0
  litAnyField := false
  re := none
  nReSkipped := 0

/-- The header of a buffer; a version 4 header is completed with zeros. -/
def readHdr (buf : Bytes) (hdrSz : ℕ) : SigmaHdr :=
  SigmaHdr.codec.dec (buf.take hdrSz ++ List.replicate (hdrSize - hdrSz) 0)

/-- `sigma_db_load_buffer`. -/
def sigmaDbLoadBuffer (pf : Platform) (buf : Bytes) : Except SigmaStatus SigmaDb :=
  let len := buf.length
  if len < 12 then .error .errSize
  else
    let magic := Codec.u32.dec (slice buf 0 4)
    let version := Codec.u32.dec (slice buf 4 4)
    if magic ≠ sigmaMagic then .error .errMagic
    else if version < sigmaFormatVersionMin ∨ sigmaFormatVersion < version then .error .errVersion
    else
      let hdrSz := if version = 4 then hdrV4Size else hdrSize
      if len < hdrSz + 4 then .error .errSize
      else
        let h := readHdr buf hdrSz
        if h.totalSize.toNat ≠ len then .error .errSize
        else if !h.sectionsOk len then .error .errRange
        else if sigmaCrc32c 0 (buf.take (len - 4)) ≠ Codec.u32.dec (slice buf (len - 4) 4) then
          .error .errCrc
        else
          let t := h.tables buf
          if !t.rangesOk then .error .errRange
          else
            let poolNext := buf.getD (h.offStrpool.toNat + h.strpoolLen.toNat) 0
            match sigmaDbFinalize pf (fun _ => true) (t.toDb poolNext) with
            | (0, db) => .ok db
            | _ => .error .errRegex

end LibSigma
