import LibSigma.Library.Crc
import LibSigma.Matcher.RoundTrip

/-!
# Corrupt artifacts

`sigma_db_load_buffer` compares the CRC32C of all bytes but the last four with those four, and the
size in the header with the size of the buffer.

## The checksum as polynomial division

The loop over bits is a shift register.  `LibSigma.Library.Crc` has the algebra of such a register
over any polynomial: it is linear in what it reads, and reading zeros is injective.  Two facts
follow that are used here.  A difference between two buffers changes the register as that difference
alone would.  And a burst of up to 32 bits, which is a nonzero polynomial below the degree of the
generator, never leaves a zero register.

## The residue

The check sum of an accepted buffer is its own last word.  Reading it as well brings the register to
a constant, whatever the buffer (`residue_of_accepts`).  So the argument needs no case for bursts
that reach into the check sum, and none for bursts in the header either, as the header is read like
any other part.

## Truncation

A proper prefix has another length than its header says.  The total size is inside the part that
remains, or the prefix is too short to be read at all; either way it is refused, with no appeal to
the check sum.

* `toNat_foldl_crcByte`: the register of `sigma__crc32c_sw` is the long shift.
* `residue_of_accepts`: **all accepted buffers of one length leave the same register**, their own
  check sum read as well.
* `corruption_rejected`: **no burst of up to 32 bits and no truncation of an accepted buffer is
  accepted.**
-/

namespace LibSigma

open Library

/-- The polynomial of CRC32C, reflected. -/
def castagnoli : ℕ := 0x82F63B78

/-! ## The register -/

theorem toNat_crcBit_eq (crc : UInt32) : (crcBit crc).toNat = shiftOut castagnoli crc.toNat := by
  have hand : (crc &&& 1).toNat = crc.toNat % 2 := by
    rw [UInt32.toNat_and]
    exact Nat.and_one_is_mod crc.toNat
  have hshift : (crc >>> 1).toNat = crc.toNat / 2 := by
    rw [UInt32.toNat_shiftRight]
    exact Nat.shiftRight_succ crc.toNat 0
  unfold crcBit shiftOut
  rw [UInt32.toNat_xor, hshift, Nat.testBit_zero]
  rcases Nat.mod_two_eq_zero_or_one crc.toNat with hbit | hbit
  · have hzero : crc &&& 1 = 0 := UInt32.toNat_inj.mp (by rw [hand, hbit]; rfl)
    rw [hzero, hbit, if_neg (by decide)]
    exact Nat.xor_zero _
  · have hone : crc &&& 1 = 1 := UInt32.toNat_inj.mp (by rw [hand, hbit]; rfl)
    rw [hone, hbit, if_pos (by decide)]
    rfl

theorem toNat_crcByte_eq (crc : UInt32) (b : UInt8) :
    (crcByte crc b).toNat = crcOctet castagnoli crc.toNat b := by
  have hiter : ∀ (k : ℕ) (c : UInt32),
      (crcBit^[k] c).toNat = (shiftOut castagnoli)^[k] c.toNat := by
    intro k
    induction k with
    | zero => exact fun _ => rfl
    | succ k ih =>
      intro c
      rw [Function.iterate_succ_apply, ih, toNat_crcBit_eq, Function.iterate_succ_apply]
  rw [crcByte, hiter, crcOctet, UInt32.toNat_xor, UInt8.toNat_toUInt32]

/-- **The register of the code** is the long shift of what it has read. -/
theorem toNat_foldl_crcByte (crc : UInt32) (bs : Bytes) :
    (bs.foldl crcByte crc).toNat = bs.foldl (crcOctet castagnoli) crc.toNat := by
  induction bs generalizing crc with
  | nil => rfl
  | cons b bs ih => rw [List.foldl_cons, ih, toNat_crcByte_eq, List.foldl_cons]

/-! ## Accepted buffers -/

/-- **The residue.**  Reading an accepted buffer to its end, the check sum included, leaves the
register of four bytes of ones. -/
theorem residue_of_accepts {pf : Platform} {buf : Bytes} {db : SigmaDb}
    (h : sigmaDbLoadBuffer pf buf = .ok db) :
    buf.foldl (crcOctet castagnoli) 0xFFFFFFFF = (shiftOut castagnoli)^[32] 0xFFFFFFFF := by
  obtain ⟨hlen, -, hcrc, -⟩ := loadBuffer_eq_ok h
  obtain ⟨s, hs⟩ : ∃ s, s = (buf.take (buf.length - 4)).foldl crcByte (~~~ 0) := ⟨_, rfl⟩
  have hsplit : buf = buf.take (buf.length - 4) ++ slice buf (buf.length - 4) 4 := by
    have htail : slice buf (buf.length - 4) 4 = buf.drop (buf.length - 4) := by
      rw [slice, List.take_of_length_le]
      rw [List.length_drop]
      omega
    rw [htail, List.take_append_drop]
  have hfour : (slice buf (buf.length - 4) 4).length = 4 := length_slice buf (by omega)
  have hwant : leToNat (slice buf (buf.length - 4) 4) = (~~~ s).toNat := by
    have henc := Codec.u32.enc_dec _ hfour
    rw [← hcrc, sigmaCrc32c, ← hs] at henc
    rw [← henc]
    exact leToNat_natToLE_of_lt (by simpa using (~~~ s).toNat_lt)
  have hones : s.toNat ^^^ (~~~ s).toNat = 0xFFFFFFFF := by
    rw [← UInt32.toNat_xor]
    have hall : s ^^^ ~~~ s = 0xFFFFFFFF := by
      rw [UInt32.xor_not, UInt32.xor_self]
      rfl
    rw [hall]
    rfl
  have hread : (buf.take (buf.length - 4)).foldl (crcOctet castagnoli) 0xFFFFFFFF = s.toNat := by
    rw [hs, toNat_foldl_crcByte]
    rfl
  rw [hsplit, List.foldl_append, hread, foldl_crcOctet, hfour, hwant, hones]

/-! ## Corruption -/

/-- The loader refuses the buffer. -/
def Rejects (pf : Platform) (buf : Bytes) : Prop := ∃ err, sigmaDbLoadBuffer pf buf = .error err

theorem rejects_of_not_ok {pf : Platform} {buf : Bytes}
    (h : ∀ db, sigmaDbLoadBuffer pf buf ≠ .ok db) : Rejects pf buf := by
  cases hrun : sigmaDbLoadBuffer pf buf with
  | error err => exact ⟨err, hrun⟩
  | ok db => exact absurd hrun (h db)

/-- Flip the bits of `es`. -/
def flipBits (buf es : Bytes) : Bytes := List.zipWith (· ^^^ ·) buf es

theorem length_flipBits {buf es : Bytes} (h : es.length = buf.length) :
    (flipBits buf es).length = buf.length := by
  rw [flipBits, List.length_zipWith, h, Nat.min_self]

/-- The register is linear in what it reads. -/
theorem foldl_flipBits {buf es : Bytes} (h : es.length = buf.length) (n : ℕ) :
    (flipBits buf es).foldl (crcOctet castagnoli) n =
      buf.foldl (crcOctet castagnoli) n ^^^ es.foldl (crcOctet castagnoli) 0 := by
  rw [foldl_crcOctet, foldl_crcOctet, foldl_crcOctet, length_flipBits h, flipBits,
    leToNat_zipWith_xor h, h, Nat.zero_xor, ← Nat.xor_assoc, iterate_shiftOut_xor]

/-- A burst changes the register, and all accepted buffers leave the same one. -/
theorem rejects_flipBits {pf : Platform} {buf : Bytes} {db : SigmaDb}
    (hload : sigmaDbLoadBuffer pf buf = .ok db) {es : Bytes} (hlen : es.length = buf.length)
    (hburst : Burst 32 es) {q : ℕ} (hset : bitAt es q = true) : Rejects pf (flipBits buf es) := by
  refine rejects_of_not_ok fun db' hload' => ?_
  have hres := residue_of_accepts hload
  have hres' := residue_of_accepts hload'
  rw [foldl_flipBits hlen, hres] at hres'
  have hzero : es.foldl (crcOctet castagnoli) 0 = 0 := by
    have hcancel := congrArg ((shiftOut castagnoli)^[32] 0xFFFFFFFF ^^^ ·) hres'
    simpa only [← Nat.xor_assoc, Nat.xor_self, Nat.zero_xor] using hcancel
  exact foldl_crcOctet_ne_zero (by decide) (by decide) hburst hset hzero

/-- The header tells a prefix from the whole. -/
theorem rejects_prefix {pf : Platform} {buf : Bytes} {db : SigmaDb}
    (hload : sigmaDbLoadBuffer pf buf = .ok db) {front rest : Bytes} (hsplit : buf = front ++ rest)
    (hrest : rest ≠ []) : Rejects pf front := by
  refine rejects_of_not_ok fun db' hload' => ?_
  obtain ⟨-, hsize, -⟩ := loadBuffer_eq_ok hload
  obtain ⟨hlen', hsize', -⟩ := loadBuffer_eq_ok hload'
  have hver : 8 ≤ hdrSizeOf front := by
    unfold hdrSizeOf
    split <;> decide
  have hversion : hdrSizeOf front = hdrSizeOf buf := by
    have hslice : slice buf 4 4 = slice front 4 4 := by
      unfold slice
      rw [hsplit, List.drop_append_of_le_length (by omega), List.take_append_of_le_length]
      rw [List.length_drop]
      omega
    unfold hdrSizeOf
    rw [hslice]
  have hhdr : readHdr buf (hdrSizeOf buf) = readHdr front (hdrSizeOf front) := by
    unfold readHdr
    rw [← hversion, hsplit, List.take_append_of_le_length (by omega)]
  have hsame : buf.length = front.length := by rw [← hsize, ← hsize', hhdr]
  rw [hsplit, List.length_append] at hsame
  exact hrest (List.length_eq_zero_iff.mp (by omega))

/-- **Corruption is never loaded.**  Of an accepted buffer, the loader refuses every variant in
which some bits within 32 consecutive positions are flipped, wherever they lie, and every proper
prefix. -/
theorem corruption_rejected {pf : Platform} {buf : Bytes} {db : SigmaDb}
    (hload : sigmaDbLoadBuffer pf buf = .ok db) :
    (∀ es : Bytes, es.length = buf.length → (∃ q, bitAt es q = true) → Burst 32 es →
      Rejects pf (flipBits buf es)) ∧
    ∀ front rest, buf = front ++ rest → rest ≠ [] → Rejects pf front := by
  constructor
  · rintro es hlen ⟨q, hset⟩ hburst
    exact rejects_flipBits hload hlen hburst hset
  · exact fun front rest hsplit hrest => rejects_prefix hload hsplit hrest

/-- Both halves at the small artifact. -/
theorem corruption_rejected_sample :
    (∀ es : Bytes, es.length = (sigmaDbSerialize sampleTables).length →
      (∃ q, bitAt es q = true) → Burst 32 es →
        Rejects samplePlatform (flipBits (sigmaDbSerialize sampleTables) es)) ∧
    ∀ front rest, sigmaDbSerialize sampleTables = front ++ rest → rest ≠ [] →
      Rejects samplePlatform front := by
  obtain ⟨db, hload, -⟩ := load_sample
  exact corruption_rejected hload

end LibSigma
