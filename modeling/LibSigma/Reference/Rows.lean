import LibSigma.Matcher.Format
import LibSigma.Reference.Builder

/-!
# The rows of the emitter and the records of the serializer

Each `struct.pack_into` of `format.py` writes the record of `sigma_match.h` that holds the same
numbers, its padding zero.

## One shape for ten tables

A row is a list of numbers, and a format string says how each is packed; a record is a structure,
and a codec says how its fields are laid out.  For each table there is a function from the record to
its row (`toRow`), and one statement: packing the row gives the bytes of the record.  They are
gathered in one structure of `LibSigma.Library.Struct`, so the emitter's proof treats all tables
alike.

Packing is partial.  The statement has both directions: where packing returns, there is a record
with these numbers, and the bytes are its bytes; so a row that is too large for its fields has no
record, and the emitter raises exactly there.

## Padding

Four of the records have padding or reserved bytes, and a row has no number for them.  `Clean` says
that they are zero.  A database that was loaded from somewhere else need not be clean, which is why
agreement is stated for databases that hold the tables of a builder.
-/

namespace LibSigma

open Library

/-! ## Rows of records -/

def SigmaStr.toRow (s : SigmaStr) : Int × Int := (s.off.toNat, s.len.toNat)

def SigmaPred.toRow (p : SigmaPred) : PyPred where
  fieldId := p.fieldId.toNat
  groupId := p.groupId.toNat
  op := p.op.toNat
  flags := p.flags.toNat
  valueId := p.valueId.toNat
  ival := p.ival.toInt

def SigmaSel.toRow (s : SigmaSel) : Int × Int := (s.predStart.toNat, s.predCount.toNat)

def SigmaCtok.toRow (k : SigmaCtok) : Int × Int := (k.kind.toNat, k.selIdx.toNat)

def SigmaRule.toRow (r : SigmaRule) : PyRule where
  ruleId := r.ruleId.toNat
  selStart := r.selStart.toNat
  selCount := r.selCount.toNat
  condStart := r.condStart.toNat
  condCount := r.condCount.toNat
  verdict := r.verdict.toNat
  severity := r.severity.toNat
  scoreX100 := r.scoreX100.toNat
  nameId := r.nameId.toNat
  mitreId := r.mitreId.toNat

def SigmaCidr.toRow (c : SigmaCidr) : PyCidr where
  family := c.family.toNat
  prefixLen := c.prefixLen.toNat
  net := c.net.toList

def SigmaBucket.toRow (b : SigmaBucket) : Int × Int := (b.idxStart.toNat, b.idxCount.toNat)

def SigmaLitpost.toRow (p : SigmaLitpost) : Int × Int := (p.idxStart.toNat, p.idxCount.toNat)

def SigmaLitref.toRow (r : SigmaLitref) : PyLitref where
  ruleIdx := r.ruleIdx.toNat
  fieldId := r.fieldId.toNat
  clause := r.clauseIdx.toNat

def SigmaFwit.toRow (w : SigmaFwit) : PyFwit where
  ruleIdx := w.ruleIdx.toNat
  fieldId := w.fieldId.toNat
  clause := w.clauseIdx.toNat
  op := w.op.toNat
  ival := w.ival.toInt

/-! ## Clean padding -/

def SigmaPred.Clean (p : SigmaPred) : Prop := p.pad = .replicate 2 0 ∧ p.gap = .replicate 4 0
def SigmaCtok.Clean (k : SigmaCtok) : Prop := k.pad = .replicate 3 0
def SigmaCidr.Clean (c : SigmaCidr) : Prop := c.pad = .replicate 2 0
def SigmaLitref.Clean (r : SigmaLitref) : Prop := r.pad = 0

/-! ## Record formats -/

/-- A record of two 32-bit numbers. -/
theorem pack_fmt2I (x y : UInt32) :
    pack fmt2I (valsPair (x.toNat, y.toNat)) = some (Codec.u32.enc x ++ Codec.u32.enc y) := by
  simp [fmt2I, valsPair]

theorem of_pack_fmt2I {r : Int × Int} (h : (pack fmt2I (valsPair r)).isSome = true) :
    ∃ x y : UInt32, ((x.toNat : Int), (y.toNat : Int)) = r := by
  simp only [fmt2I, valsPair, isSome_pack_u32] at h
  obtain ⟨⟨x, hx⟩, ⟨y, hy⟩, -⟩ := h
  exact ⟨x, y, Prod.ext hx hy⟩

def strFormat : RecordFormat (Int × Int) SigmaStr where
  codec := SigmaStr.codec
  fmt := fmt2I
  vals := valsPair
  row := SigmaStr.toRow
  clean _ := True
  good _ := True
  pack_row s _ := pack_fmt2I s.off s.len
  of_pack r _ h := by
    obtain ⟨x, y, rfl⟩ := of_pack_fmt2I h
    exact ⟨⟨x, y⟩, trivial, rfl⟩

def selFormat : RecordFormat (Int × Int) SigmaSel where
  codec := SigmaSel.codec
  fmt := fmt2I
  vals := valsPair
  row := SigmaSel.toRow
  clean _ := True
  good _ := True
  pack_row s _ := pack_fmt2I s.predStart s.predCount
  of_pack r _ h := by
    obtain ⟨x, y, rfl⟩ := of_pack_fmt2I h
    exact ⟨⟨x, y⟩, trivial, rfl⟩

def bucketFormat : RecordFormat (Int × Int) SigmaBucket where
  codec := SigmaBucket.codec
  fmt := fmt2I
  vals := valsPair
  row := SigmaBucket.toRow
  clean _ := True
  good _ := True
  pack_row b _ := pack_fmt2I b.idxStart b.idxCount
  of_pack r _ h := by
    obtain ⟨x, y, rfl⟩ := of_pack_fmt2I h
    exact ⟨⟨x, y⟩, trivial, rfl⟩

def litpostFormat : RecordFormat (Int × Int) SigmaLitpost where
  codec := SigmaLitpost.codec
  fmt := fmt2I
  vals := valsPair
  row := SigmaLitpost.toRow
  clean _ := True
  good _ := True
  pack_row p _ := pack_fmt2I p.idxStart p.idxCount
  of_pack r _ h := by
    obtain ⟨x, y, rfl⟩ := of_pack_fmt2I h
    exact ⟨⟨x, y⟩, trivial, rfl⟩

def predFormat : RecordFormat PyPred SigmaPred where
  codec := SigmaPred.codec
  fmt := fmtPred
  vals := valsPred
  row := SigmaPred.toRow
  clean := SigmaPred.Clean
  good _ := True
  pack_row p hp := by
    obtain ⟨hpad, hgap⟩ := hp
    simp [fmtPred, valsPred, SigmaPred.toRow, SigmaPred.codec, Codec.map, Codec.pair, Codec.bytes,
      hpad, hgap]
  of_pack r _ h := by
    simp only [fmtPred, valsPred, pack_pad, Option.isSome_map, isSome_pack_u8, isSome_pack_u16,
      isSome_pack_u32, isSome_pack_i64] at h
    obtain ⟨⟨a, ha⟩, ⟨b, hb⟩, ⟨c, hc⟩, ⟨d, hd⟩, ⟨e, he⟩, ⟨f, hf⟩, -⟩ := h
    refine ⟨⟨a, b, c, d, .replicate 2 0, e, .replicate 4 0, f⟩, ⟨rfl, rfl⟩, ?_⟩
    rw [SigmaPred.toRow, ha, hb, hc, hd, he, hf]

def ctokFormat : RecordFormat (Int × Int) SigmaCtok where
  codec := SigmaCtok.codec
  fmt := fmtCtok
  vals := valsPair
  row := SigmaCtok.toRow
  clean := SigmaCtok.Clean
  good _ := True
  pack_row k hk := by
    have hpad : k.pad = .replicate 3 0 := hk
    simp [fmtCtok, valsPair, SigmaCtok.toRow, SigmaCtok.codec, Codec.map, Codec.pair, Codec.bytes,
      hpad]
  of_pack r _ h := by
    simp only [fmtCtok, valsPair, pack_pad, Option.isSome_map, isSome_pack_u8, isSome_pack_u32] at h
    obtain ⟨⟨a, ha⟩, ⟨b, hb⟩, -⟩ := h
    exact ⟨⟨a, .replicate 3 0, b⟩, rfl, Prod.ext ha hb⟩

def ruleFormat : RecordFormat PyRule SigmaRule where
  codec := SigmaRule.codec
  fmt := fmtRule
  vals := valsRule
  row := SigmaRule.toRow
  clean _ := True
  good _ := True
  pack_row r _ := by
    simp [fmtRule, valsRule, SigmaRule.toRow, SigmaRule.codec, Codec.map, Codec.pair]
  of_pack r _ h := by
    simp only [fmtRule, valsRule, isSome_pack_u8, isSome_pack_u16, isSome_pack_u32] at h
    obtain ⟨⟨a, ha⟩, ⟨b, hb⟩, ⟨c, hc⟩, ⟨d, hd⟩, ⟨e, he⟩, ⟨f, hf⟩, ⟨g, hg⟩, ⟨i, hi⟩, ⟨j, hj⟩,
      ⟨k, hk⟩, -⟩ := h
    refine ⟨⟨a, b, c, d, e, f, g, i, j, k⟩, trivial, ?_⟩
    rw [SigmaRule.toRow, ha, hb, hc, hd, he, hf, hg, hi, hj, hk]

/-- A network of 16 bytes; `cidr` pads every network to that length. -/
def cidrFormat : RecordFormat PyCidr SigmaCidr where
  codec := SigmaCidr.codec
  fmt := fmtCidr
  vals := valsCidr
  row := SigmaCidr.toRow
  clean := SigmaCidr.Clean
  good c := c.net.length = 16
  pack_row c hc := by
    have hpad : c.pad = .replicate 2 0 := hc
    simp [fmtCidr, valsCidr, SigmaCidr.toRow, SigmaCidr.codec, Codec.map, Codec.pair, Codec.bytes,
      hpad]
  of_pack r hr h := by
    simp only [fmtCidr, valsCidr, pack_pad, Option.isSome_map, isSome_pack_u8] at h
    obtain ⟨⟨a, ha⟩, ⟨b, hb⟩, -⟩ := h
    refine ⟨⟨a, b, .replicate 2 0, ⟨r.net.toArray, hr⟩⟩, rfl, ?_⟩
    rw [SigmaCidr.toRow, ha, hb]
    rfl

def u32Format : RecordFormat Int UInt32 where
  codec := Codec.u32
  fmt := fmtI
  vals := valsInt
  row x := x.toNat
  clean _ := True
  good _ := True
  pack_row x _ := by simp [fmtI, valsInt]
  of_pack n _ h := by
    simp only [fmtI, valsInt, isSome_pack_u32] at h
    obtain ⟨⟨x, hx⟩, -⟩ := h
    exact ⟨x, trivial, hx⟩

def u8Format : RecordFormat Int UInt8 where
  codec := Codec.u8
  fmt := fmtB
  vals := valsInt
  row x := x.toNat
  clean _ := True
  good _ := True
  pack_row x _ := by simp [fmtB, valsInt]
  of_pack n _ h := by
    simp only [fmtB, valsInt, isSome_pack_u8] at h
    obtain ⟨⟨x, hx⟩, -⟩ := h
    exact ⟨x, trivial, hx⟩

def litrefFormat : RecordFormat PyLitref SigmaLitref where
  codec := SigmaLitref.codec
  fmt := fmtLitref
  vals := valsLitref
  row := SigmaLitref.toRow
  clean := SigmaLitref.Clean
  good _ := True
  pack_row r hr := by
    have hpad : r.pad = 0 := hr
    have hzero : pack [.u8] [.int 0] = some (Codec.u8.enc 0) := rfl
    simp [fmtLitref, valsLitref, SigmaLitref.toRow, SigmaLitref.codec, Codec.map, Codec.pair, hpad,
      hzero]
  of_pack r _ h := by
    simp only [fmtLitref, valsLitref, isSome_pack_u8, isSome_pack_u16, isSome_pack_u32] at h
    obtain ⟨⟨a, ha⟩, ⟨b, hb⟩, ⟨c, hc⟩, -⟩ := h
    refine ⟨⟨a, b, c, 0⟩, rfl, ?_⟩
    rw [SigmaLitref.toRow, ha, hb, hc]

def fwitFormat : RecordFormat PyFwit SigmaFwit where
  codec := SigmaFwit.codec
  fmt := fmtFwit
  vals := valsFwit
  row := SigmaFwit.toRow
  clean _ := True
  good _ := True
  pack_row w _ := by
    simp [fmtFwit, valsFwit, SigmaFwit.toRow, SigmaFwit.codec, Codec.map, Codec.pair]
  of_pack r _ h := by
    simp only [fmtFwit, valsFwit, isSome_pack_u8, isSome_pack_u16, isSome_pack_u32,
      isSome_pack_i64] at h
    obtain ⟨⟨a, ha⟩, ⟨b, hb⟩, ⟨c, hc⟩, ⟨d, hd⟩, ⟨e, he⟩, -⟩ := h
    refine ⟨⟨a, b, c, d, e⟩, trivial, ?_⟩
    rw [SigmaFwit.toRow, ha, hb, hc, hd, he]

end LibSigma
