import Mathlib.Logic.Function.Basic
import LibSigma.Library.Buffer
import LibSigma.Library.Stamp
import LibSigma.Matcher.Text

/-!
# The literal prefilter: building and scanning

`sigma_teddy.h`.  A needle sits on the hash chain of its first three bytes, folded to lower case (of
its first two when it is shorter); the scan hashes every text position and compares the needles of
that chain in place.  A needle is confirmed at most once per scan: confirming it stamps it with the
scan's generation.

## Chains

The chains are linked lists in arrays: two tables of heads, one for each kind of hash, and one array
of next links.  The builder pushes each needle at the head of its chain, so a chain runs from the
last needle to the first, which is the order in which the scan confirms them.  Walking a chain is
bounded by fuel here; the fuel is the number of needles, and `teddyWalk` answers with a fault when
it runs out.  That it never does on a matcher of the builders is part of
`LibSigma.Matcher.TeddySpec`, not an assumption.

## Nibble tables

With SIMD the scan looks at 16 positions at a time and skips the block when no byte of it can begin
a needle.  The test is a pair of tables, one for each half of a byte, and may pass bytes that begin
nothing; it must not miss one.  The vector instructions compute `teddyChunkInteresting`, so the two
versions differ in the list of positions that are probed (`teddyPositions`) and in nothing else, and
the scan is one definition over that list.

## Bytes past the pool

The hash of a needle of one byte reads two.  At the end of the string pool the second one lies past
it, and the model takes that byte as data (`SigmaDb.poolNext`), since the code does read it: the
chain that such a needle lands on depends on it.  The loader lets needles of one byte through, and
the statements about scans say what they need of the lengths.

The text of a scan is any string of bytes.  The callback is any action on the scratch of the
evaluation, as in the source, and the prefilter passes the one that credits postings.
-/

namespace LibSigma

open Library

/-- `UINT32_MAX`, the end of a chain. -/
def chainEnd : UInt32 := 0xFFFFFFFF

/-- `TEDDY_NO_C2`. -/
def teddyNoC2 : UInt16 := 0xFFFF

/-! ## Fingerprints -/

/-- `teddy_fp16`. -/
def teddyFp16 (a b : UInt8) : UInt32 :=
  (sgLower a).toUInt32 ||| ((sgLower b).toUInt32 <<< 8)

/-- `teddy_fp24`. -/
def teddyFp24 (a b c : UInt8) : UInt32 :=
  teddyFp16 a b ||| ((sgLower c).toUInt32 <<< 16)

/-- `teddy_hash`: Knuth's multiplicative hash to `TEDDY_HASH_BITS` = 14 bits. -/
def teddyHash (fp : UInt32) : UInt32 :=
  ((fp * 2654435761) >>> 18) &&& 0x3FFF

/-! ## Building -/

/-- `teddy_mark_byte`. -/
def teddyMarkByte (t : SigmaTeddy) (c : UInt8) : SigmaTeddy :=
  { t with
    loLut := Function.update t.loLut (c &&& 0x0F).toNat true
    hiLut := Function.update t.hiLut (c >>> 4).toNat true }

/-- The matcher before any needle is chained. -/
def teddyEmpty (nLitndl : ℕ) : SigmaTeddy where
  loLut _ := false
  hiLut _ := false
  nNeedles := nLitndl
  fpHead _ := chainEnd
  fpNext _ := chainEnd
  fp2Head _ := chainEnd
  fp2Next _ := chainEnd
  fpC2 _ := teddyNoC2
  nShort := 0

/-- The byte at `strpool + i`; one past the pool it is `poolNext`. -/
def poolByte (strpool : Bytes) (poolNext : UInt8) (i : ℕ) : UInt8 :=
  (strpool ++ [poolNext]).getD i 0

/-- The hash-table part of chaining needle `i`, whose bytes are `p 0`, `p 1`, and so on. -/
def teddyLink (t : SigmaTeddy) (i : ℕ) (len : ℕ) (p : ℕ → UInt8) : SigmaTeddy :=
  if 3 ≤ len then
    let h := teddyHash (teddyFp24 (p 0) (p 1) (p 2))
    { t with
      fpNext := Function.update t.fpNext i (t.fpHead h)
      fpHead := Function.update t.fpHead h (UInt32.ofNat i)
      fpC2 := Function.update t.fpC2 i (sgLower (p 2)).toUInt16 }
  else
    let h := teddyHash (teddyFp16 (p 0) (p 1))
    { t with
      fp2Next := Function.update t.fp2Next i (t.fp2Head h)
      fp2Head := Function.update t.fp2Head h (UInt32.ofNat i)
      fpC2 := Function.update t.fpC2 i teddyNoC2
      nShort := t.nShort + 1 }

/-- The loop body both builders share: put needle `i` at the head of its chain and mark both cases
of its first byte in the nibble tables. -/
def teddyChain (litndl : List SigmaStr) (byte : ℕ → UInt8) (t : SigmaTeddy) (i : ℕ) :
    SigmaTeddy :=
  match litndl[i]? with
  | none => t
  | some s =>
    let p := fun j => byte (s.off.toNat + j)
    let cl := sgLower (p 0)
    let cu := if 97 ≤ cl ∧ cl ≤ 122 then cl - 32 else cl
    teddyMarkByte (teddyMarkByte (teddyLink t i s.len.toNat p) cl) cu

/-- `sigma_teddy_build`. -/
def sigmaTeddyBuild (litndl : List SigmaStr) (byte : ℕ → UInt8) : Option SigmaTeddy :=
  if litndl = [] then none
  else some ((List.range litndl.length).foldl (teddyChain litndl byte) (teddyEmpty litndl.length))

/-- `sigma_teddy_build_subset`: the same matcher with only the needles `ids` chained. -/
def sigmaTeddyBuildSubset (litndl : List SigmaStr) (byte : ℕ → UInt8) (ids : List ℕ) :
    Option SigmaTeddy :=
  if litndl = [] ∨ ids = [] then none
  else some (ids.foldl (teddyChain litndl byte) (teddyEmpty litndl.length))

/-! ## Scanning -/

/-- `sigma_teddy_scratch_t`; `ndlGen` is empty when it was not allocated. -/
structure TeddyScratch where
  ndlGen : List UInt32
  gen : UInt32
  chainSteps : ℕ

/-- `sigma_teddy_scratch_init`. -/
def sigmaTeddyScratchInit (nNeedles : ℕ) : TeddyScratch where
  ndlGen := List.replicate nNeedles 0
  gen := 0
  chainSteps := 0

/-- `sigma_teddy_scratch_next`. -/
def sigmaTeddyScratchNext (scr : TeddyScratch) : TeddyScratch :=
  { scr with ndlGen := nextCells scr.gen scr.ndlGen, gen := nextGen scr.gen }

section Scan

variable {σ : Type} (db : SigmaDb) (t : SigmaTeddy) (mark : ℕ → StateT σ (Except Fault) PUnit)

/-- One entry of a chain: confirm needle `k` at `pos` unless it is confirmed already. -/
def teddyTry (buf : Bytes) (avail pos : ℕ) (k : ℕ) (scr₀ : TeddyScratch) :
    StateT σ (Except Fault) TeddyScratch := do
  let scr := { scr₀ with chainSteps := scr₀.chainSteps + 1 }
  let g ← tableAt .stamps scr.ndlGen k
  if g = scr.gen then pure scr
  else do
    let n ← tableAt .litndl db.litndl k
    if avail < n.len.toNat then pure scr
    else if t.fpC2 k ≠ teddyNoC2 ∧ (sgLower (buf.getD (pos + 2) 0)).toUInt16 ≠ t.fpC2 k then
      pure scr
    else do
      let ndl ← db.poolStr n
      if teddyEqCi (buf.drop pos) ndl then do
        mark k
        pure { scr with ndlGen := scr.ndlGen.set k scr.gen }
      else pure scr

/-- `teddy_walk`. -/
def teddyWalk (buf : Bytes) (avail pos : ℕ) (next : ℕ → UInt32) :
    ℕ → UInt32 → TeddyScratch → StateT σ (Except Fault) TeddyScratch
  | fuel, k, scr =>
    if k = chainEnd then pure scr
    else match fuel with
      | 0 => throw .chain
      | fuel + 1 => do
        let scr ← teddyTry db t mark buf avail pos k.toNat scr
        teddyWalk buf avail pos next fuel (next k.toNat) scr

/-- `teddy_probe_at`. -/
def teddyProbeAt (buf : Bytes) (pos : ℕ) (scr : TeddyScratch) :
    StateT σ (Except Fault) TeddyScratch := do
  let avail := buf.length - pos
  let b := fun j => buf.getD (pos + j) 0
  let scr ←
    if 3 ≤ avail then
      teddyWalk db t mark buf avail pos t.fpNext t.nNeedles
        (t.fpHead (teddyHash (teddyFp24 (b 0) (b 1) (b 2)))) scr
    else pure scr
  if t.nShort ≠ 0 then
    teddyWalk db t mark buf avail pos t.fp2Next t.nNeedles
      (t.fp2Head (teddyHash (teddyFp16 (b 0) (b 1)))) scr
  else pure scr

/-- `teddy_chunk_interesting`: some byte of the chunk passes both nibble tables. -/
def teddyChunkInteresting (chunk : Bytes) : Bool :=
  chunk.any fun c => t.loLut (c &&& 0x0F).toNat && t.hiLut (c >>> 4).toNat

/-- The positions `teddy_confirm` probes, in order: with SIMD, 16-byte chunks are skipped whole
when no byte of theirs is interesting, and a scalar tail follows; without, every position. -/
def teddyPositions (simd : Bool) (buf : Bytes) : List ℕ :=
  let lastPair := buf.length - 1
  let chunks := if simd then buf.length / 16 else 0
  ((List.range chunks).flatMap fun j =>
    if teddyChunkInteresting t (slice buf (16 * j) 16) then
      ((List.range 16).map (16 * j + ·)).filter (· < lastPair)
    else []) ++ List.range' (16 * chunks) (lastPair - 16 * chunks)

/-- The probes of one scan. -/
def teddyScan (buf : Bytes) : List ℕ → TeddyScratch → StateT σ (Except Fault) TeddyScratch
  | [], scr => pure scr
  | pos :: rest, scr => do
    let scr ← teddyProbeAt db t mark buf pos scr
    teddyScan buf rest scr

/-- `teddy_confirm`. -/
def teddyConfirm (simd : Bool) (buf : Bytes) (scr : TeddyScratch) :
    StateT σ (Except Fault) TeddyScratch :=
  if buf.length < 2 ∨ scr.ndlGen = [] then pure scr
  else teddyScan db t mark buf (teddyPositions t simd buf) (sigmaTeddyScratchNext scr)

end Scan

end LibSigma
