import LibSigma.Matcher.RoundTrip

/-!
# Address tests

`ip_in_cidr` compares whole bytes and then the leading bits of one more byte.  Up to the width of
the family that is agreement on the first `prefix` bits; from a whole byte past the width on it is
"no match".  In between lie the seven prefixes that leave no whole byte beyond the width: there the
code goes on to the byte after the address.

## What sound means

A test is sound on a value when it reads no byte outside the address and answers as the meaning of a
network says: the value is an address of the family, the prefix is one that the family has, and the
two agree on that many leading bits (`CidrMeets`).  Nothing in this mentions bytes.  The three
lemmas on ranges of the prefix go from the comparison of bytes to the comparison of bits.

## Where it fails

The header promises prefixes up to the width, and the loader does not check it.  So the operand of
an accepted artifact may have any prefix.  For one in the critical seven the test compares every
byte of the address first, and only an address equal to the network gets to the stray read.  That
makes the condition an equivalence, in the prefix and the stored network, over every operand of
every accepted artifact, also those of field witnesses, which run the same test.

The stray read is a fault of `prefixMatch`.  What it returns is up to memory, so for these values
there is no right or wrong answer to compare with, and `CidrTestSound` fails by the read alone.

* `addrBit`, `CidrMeets`: agreement on leading bits, the meaning of the test.
* `prefixMatch_within`, `prefixMatch_past`, `prefixMatch_stray`: the three ranges.
* `cidrTest_sound_iff`: **the test is sound exactly when it does not stray.**
-/

namespace LibSigma

open Library

/-! ## Bits -/

/-- Bit `i` of an address, most significant first. -/
def addrBit (bs : Bytes) (i : ℕ) : Bool := (bs.getD (i / 8) 0).toNat.testBit (7 - i % 8)

theorem uint8_eq_iff_testBit {a b : UInt8} :
    a = b ↔ ∀ j < 8, a.toNat.testBit (7 - j) = b.toNat.testBit (7 - j) := by
  refine ⟨fun h _ _ => by rw [h], fun h => UInt8.toNat_inj.mp (Nat.eq_of_testBit_eq fun k => ?_)⟩
  by_cases hk : k < 8
  · have hbit := h (7 - k) (by omega)
    rwa [show 7 - (7 - k) = k by omega] at hbit
  · have hbig : ∀ c : UInt8, c.toNat.testBit k = false := fun c =>
      Nat.testBit_lt_two_pow (Nat.lt_of_lt_of_le c.toNat_lt (Nat.pow_le_pow_right (by decide)
        (Nat.le_of_not_lt hk)))
    rw [hbig, hbig]

/-- The mask of the leading `r` bits. -/
theorem testBit_leadingMask {r j : ℕ} (hr : 0 < r) (hr8 : r < 8) (hj : j < 8) :
    (0xFF <<< (8 - r).toUInt8 : UInt8).toNat.testBit (7 - j) = decide (j < r) := by
  have hcast : (8 - r).toUInt8.toNat = 8 - r := by
    rw [Nat.toUInt8_eq, UInt8.toNat_ofNat']
    omega
  rw [UInt8.toNat_shiftLeft, hcast, Nat.mod_eq_of_lt (show 8 - r < 8 by omega),
    Nat.testBit_mod_two_pow,
    Nat.testBit_shiftLeft, show (0xFF : UInt8).toNat = 2 ^ 8 - 1 from rfl,
    Nat.testBit_two_pow_sub_one]
  by_cases hjr : j < r
  · rw [decide_eq_true (show 7 - j < 8 by omega), decide_eq_true (show 8 - r ≤ 7 - j by omega),
      decide_eq_true (show 7 - j - (8 - r) < 8 by omega), decide_eq_true hjr]
    rfl
  · rw [decide_eq_false (show ¬ 8 - r ≤ 7 - j by omega), decide_eq_false hjr, Bool.false_and,
      Bool.and_false]

/-- The masked comparison compares the leading bits. -/
theorem leadingMask_eq_iff {a b : UInt8} {r : ℕ} (hr : 0 < r) (hr8 : r < 8) :
    a &&& (0xFF <<< (8 - r).toUInt8) = b &&& (0xFF <<< (8 - r).toUInt8) ↔
      ∀ j < r, a.toNat.testBit (7 - j) = b.toNat.testBit (7 - j) := by
  rw [uint8_eq_iff_testBit]
  simp only [UInt8.toNat_and, Nat.testBit_and]
  constructor
  · intro h j hj
    have hbit := h j (by omega)
    rwa [testBit_leadingMask hr hr8 (by omega), decide_eq_true hj, Bool.and_true,
      Bool.and_true] at hbit
  · intro h j hj
    rw [testBit_leadingMask hr hr8 hj]
    by_cases hjr : j < r
    · rw [h j hjr]
    · rw [decide_eq_false hjr, Bool.and_false, Bool.and_false]

/-- Comparing whole bytes compares their bits. -/
theorem take_eq_iff_addrBit {addr net : Bytes} {full : ℕ} (ha : full ≤ addr.length)
    (hn : full ≤ net.length) :
    addr.take full = net.take full ↔ ∀ i < 8 * full, addrBit addr i = addrBit net i := by
  have hbyte : ∀ {bs : Bytes} {k : ℕ} (h : k < bs.length), bs.getD k 0 = bs[k] := by
    intro bs k h
    rw [List.getD_eq_getElem?_getD, List.getElem?_eq_getElem h, Option.getD_some]
  constructor
  · intro h i hi
    have hk : i / 8 < full := by omega
    have hget : (addr.take full)[i / 8]? = (net.take full)[i / 8]? := by rw [h]
    rw [List.getElem?_take_of_lt hk, List.getElem?_take_of_lt hk] at hget
    rw [addrBit, addrBit, List.getD_eq_getElem?_getD, hget, ← List.getD_eq_getElem?_getD]
  · intro h
    refine List.ext_getElem (by rw [List.length_take, List.length_take]; omega) fun k hk _ => ?_
    have hkf : k < full := by
      rw [List.length_take] at hk
      omega
    rw [List.getElem_take, List.getElem_take, ← hbyte, ← hbyte, uint8_eq_iff_testBit]
    intro j hj
    have hbit := h (8 * k + j) (by omega)
    rwa [addrBit, addrBit, show (8 * k + j) / 8 = k by omega,
      show (8 * k + j) % 8 = j by omega] at hbit

/-! ## The three ranges of a prefix -/

section Ranges

variable {addr net : Bytes} {prefixLen : UInt8} {nbytes : ℕ}

/-- **Within the width** the comparison is agreement on the leading bits, and reads nothing past
either address. -/
theorem prefixMatch_within (ha : addr.length = nbytes) (hn : nbytes ≤ net.length)
    (hp : prefixLen.toNat ≤ 8 * nbytes) :
    ∃ b, prefixMatch addr net prefixLen nbytes = .ok b ∧
      (b = true ↔ ∀ i < prefixLen.toNat, addrBit addr i = addrBit net i) := by
  have hfull : ¬ nbytes < prefixLen.toNat / 8 := by omega
  have hbytes := take_eq_iff_addrBit (show prefixLen.toNat / 8 ≤ addr.length by omega)
    (show prefixLen.toNat / 8 ≤ net.length by omega)
  unfold prefixMatch
  dsimp only
  rw [if_neg hfull]
  by_cases htake : addr.take (prefixLen.toNat / 8) = net.take (prefixLen.toNat / 8)
  · rw [if_neg (not_not.mpr htake)]
    have hwhole := hbytes.mp htake
    by_cases hrem : prefixLen.toNat % 8 = 0
    · rw [if_neg (not_not.mpr hrem)]
      exact ⟨true, rfl, iff_of_true rfl fun i hi => hwhole i (by omega)⟩
    · have hla : prefixLen.toNat / 8 < addr.length := by omega
      have hln : prefixLen.toNat / 8 < net.length := by omega
      rw [if_pos hrem, readAt_of_lt hla, readAt_of_lt hln]
      have hmask := leadingMask_eq_iff (a := addr[prefixLen.toNat / 8])
        (b := net[prefixLen.toNat / 8]) (Nat.pos_of_ne_zero hrem) (Nat.mod_lt _ (by decide))
      have hsplit : (∀ i < prefixLen.toNat, addrBit addr i = addrBit net i) ↔
          ∀ j < prefixLen.toNat % 8, addr[prefixLen.toNat / 8].toNat.testBit (7 - j) =
            net[prefixLen.toNat / 8].toNat.testBit (7 - j) := by
        have hlast : ∀ {bs : Bytes} (h : prefixLen.toNat / 8 < bs.length), ∀ j < 8,
            addrBit bs (8 * (prefixLen.toNat / 8) + j) =
              bs[prefixLen.toNat / 8].toNat.testBit (7 - j) := by
          intro bs h j hj
          rw [addrBit, show (8 * (prefixLen.toNat / 8) + j) / 8 = prefixLen.toNat / 8 by omega,
            show (8 * (prefixLen.toNat / 8) + j) % 8 = j by omega, List.getD_eq_getElem?_getD,
            List.getElem?_eq_getElem h, Option.getD_some]
        constructor
        · intro h j hj
          have hj8 : j < 8 := by omega
          rw [← hlast hla j hj8, ← hlast hln j hj8]
          exact h _ (by omega)
        · intro h i hi
          by_cases hlow : i < 8 * (prefixLen.toNat / 8)
          · exact hwhole i hlow
          · have hbit := h (i - 8 * (prefixLen.toNat / 8)) (by omega)
            rw [← hlast hla _ (by omega), ← hlast hln _ (by omega)] at hbit
            rwa [show 8 * (prefixLen.toNat / 8) + (i - 8 * (prefixLen.toNat / 8)) = i by omega]
              at hbit
      rw [hsplit, ← hmask]
      by_cases heq : addr[prefixLen.toNat / 8] &&& (0xFF <<< (8 - prefixLen.toNat % 8).toUInt8) =
          net[prefixLen.toNat / 8] &&& (0xFF <<< (8 - prefixLen.toNat % 8).toUInt8)
      · exact ⟨true, if_neg (not_not.mpr heq), iff_of_true rfl heq⟩
      · exact ⟨false, if_pos heq, iff_of_false Bool.false_ne_true heq⟩
  · rw [if_pos htake]
    refine ⟨false, rfl, iff_of_false Bool.false_ne_true fun h => htake (hbytes.mpr fun i hi => ?_)⟩
    exact h i (by omega)

/-- **A whole byte past the width** there is no match, and nothing is read. -/
theorem prefixMatch_past (hp : 8 * nbytes + 8 ≤ prefixLen.toNat) :
    prefixMatch addr net prefixLen nbytes = .ok false := by
  unfold prefixMatch
  dsimp only
  rw [if_pos (by omega)]

/-- **Less than a byte past the width** the code reads the byte after the address when all before
it agree; otherwise there is no match. -/
theorem prefixMatch_stray (ha : addr.length = nbytes) (hlow : 8 * nbytes < prefixLen.toNat)
    (hhigh : prefixLen.toNat < 8 * nbytes + 8) :
    prefixMatch addr net prefixLen nbytes =
      if addr = net.take nbytes then .error (.byte nbytes) else .ok false := by
  have hfull : prefixLen.toNat / 8 = nbytes := by omega
  unfold prefixMatch
  dsimp only
  rw [hfull, if_neg (Nat.lt_irrefl _), List.take_of_length_le (Nat.le_of_eq ha)]
  by_cases heq : addr = net.take nbytes
  · rw [if_neg (not_not.mpr heq), if_pos (by omega), if_pos heq, readAt,
      List.getElem?_eq_none (Nat.le_of_eq ha)]
    rfl
  · rw [if_pos heq, if_neg heq]

end Ranges

/-! ## The test -/

/-- The bytes of an address of the family; 0 when there is no such family. -/
def SigmaCidr.nbytes (c : SigmaCidr) : ℕ := if c.family = 4 then 4 else if c.family = 6 then 16 else 0

/-- The address a value parses as, in the family of `c`. -/
def parseAddr (pf : Platform) (val : Bytes) (c : SigmaCidr) : Option Bytes :=
  if val.length = 0 ∨ inet6Addrstrlen ≤ val.length then none
  else if c.family = 4 then (pf.inetPton4 (cString val)).map (·.toList)
  else if c.family = 6 then (pf.inetPton6 (cString val)).map (·.toList)
  else none

/-- The value is an address of the family and agrees with the network on its first `prefix` bits,
which are no more than the family has. -/
def CidrMeets (pf : Platform) (val : Bytes) (c : SigmaCidr) : Prop :=
  ∃ addr, parseAddr pf val c = some addr ∧ c.prefixLen.toNat ≤ 8 * c.nbytes ∧
    ∀ i < c.prefixLen.toNat, addrBit addr i = addrBit c.net.toList i

/-- The test of `c` on a value reads no byte past the address, and answers right. -/
def CidrTestSound (pf : Platform) (val : Bytes) (c : SigmaCidr) : Prop :=
  ∃ b, ipInCidr pf val c = .ok b ∧ (b = true ↔ CidrMeets pf val c)

/-- The prefix is one of the seven past the width of the family, and the value is the address of
the network itself. -/
def CidrStrays (pf : Platform) (val : Bytes) (c : SigmaCidr) : Prop :=
  8 * c.nbytes < c.prefixLen.toNat ∧ c.prefixLen.toNat < 8 * c.nbytes + 8 ∧
    parseAddr pf val c = some (c.net.toList.take c.nbytes)

/-- `c` is the operand of a CIDR predicate or of a CIDR field witness. -/
def CidrOperand (db : SigmaDb) (c : SigmaCidr) : Prop :=
  (∃ p ∈ db.preds, SigmaOp.ofByte p.op = some .opCidr ∧ db.cidrs[p.valueId.toNat]? = some c) ∨
    ∃ w ∈ db.fwit, SigmaOp.ofByte w.op = some .opCidr ∧
      db.cidrs[w.ival.toUInt64.toUInt32.toNat]? = some c

section Test

variable {pf : Platform} {val : Bytes} {c : SigmaCidr}

/-- The test parses the value and compares. -/
theorem ipInCidr_eq : ipInCidr pf val c =
    match parseAddr pf val c with
    | none => .ok false
    | some addr => prefixMatch addr c.net.toList c.prefixLen c.nbytes := by
  unfold ipInCidr parseAddr SigmaCidr.nbytes
  split
  · rfl
  · split
    · cases pf.inetPton4 (cString val) <;> rfl
    · split
      · cases pf.inetPton6 (cString val) <;> rfl
      · rfl

theorem length_of_parseAddr {addr : Bytes} (h : parseAddr pf val c = some addr) :
    addr.length = c.nbytes ∧ c.nbytes ≤ c.net.toList.length := by
  unfold parseAddr at h
  unfold SigmaCidr.nbytes
  split at h
  · exact absurd h (by simp)
  · split at h
    · rename_i hfour
      obtain ⟨a, -, rfl⟩ := Option.map_eq_some_iff.mp h
      rw [if_pos hfour, Vector.length_toList, Vector.length_toList]
      decide
    · rename_i hfour
      split at h
      · rename_i hsix
        obtain ⟨a, -, rfl⟩ := Option.map_eq_some_iff.mp h
        rw [if_neg hfour, if_pos hsix, Vector.length_toList, Vector.length_toList]
        decide
      · exact absurd h (by simp)

/-- On every entry and value, the test is sound or strays. -/
theorem cidrTestSound_iff_not_strays : CidrTestSound pf val c ↔ ¬ CidrStrays pf val c := by
  unfold CidrTestSound CidrStrays CidrMeets
  rw [ipInCidr_eq]
  cases hparse : parseAddr pf val c with
  | none => exact iff_of_true ⟨false, rfl, by simp⟩ (by simp)
  | some addr =>
    obtain ⟨hlen, hnet⟩ := length_of_parseAddr hparse
    dsimp only
    by_cases hwithin : c.prefixLen.toNat ≤ 8 * c.nbytes
    · refine iff_of_true ?_ (by omega)
      obtain ⟨b, hb, hspec⟩ := prefixMatch_within hlen hnet hwithin
      refine ⟨b, hb, hspec.trans ⟨fun h => ⟨addr, rfl, hwithin, h⟩, ?_⟩⟩
      rintro ⟨addr', haddr', -, h⟩
      rwa [Option.some.inj haddr']
    · have hnot : ¬ ∃ addr', some addr = some addr' ∧ c.prefixLen.toNat ≤ 8 * c.nbytes ∧
          ∀ i < c.prefixLen.toNat, addrBit addr' i = addrBit c.net.toList i :=
        fun ⟨_, _, hle, _⟩ => hwithin hle
      have hsound : prefixMatch addr c.net.toList c.prefixLen c.nbytes = .ok false →
          ∃ b, prefixMatch addr c.net.toList c.prefixLen c.nbytes = .ok b ∧
            (b = true ↔ ∃ addr', some addr = some addr' ∧ c.prefixLen.toNat ≤ 8 * c.nbytes ∧
              ∀ i < c.prefixLen.toNat, addrBit addr' i = addrBit c.net.toList i) :=
        fun h => ⟨false, h, iff_of_false Bool.false_ne_true hnot⟩
      by_cases hpast : 8 * c.nbytes + 8 ≤ c.prefixLen.toNat
      · exact iff_of_true (hsound (prefixMatch_past hpast)) (by omega)
      · have hstray : prefixMatch addr c.net.toList c.prefixLen c.nbytes = _ :=
          prefixMatch_stray hlen (by omega) (by omega)
        by_cases heq : addr = c.net.toList.take c.nbytes
        · rw [if_pos heq] at hstray
          refine iff_of_false ?_ (not_not.mpr ⟨by omega, by omega, by rw [heq]⟩)
          rintro ⟨b, hb, -⟩
          rw [hstray] at hb
          exact nomatch hb
        · rw [if_neg heq] at hstray
          exact iff_of_true (hsound hstray) fun h => heq (Option.some.inj h.2.2)

end Test

/-- **When the address test is sound.**  For every operand of an accepted artifact and every value:
unless the value is the network's own address and the prefix one of the seven past the width. -/
theorem cidrTest_sound_iff {pf : Platform} {buf : Bytes} {db : SigmaDb}
    (_ : sigmaDbLoadBuffer pf buf = .ok db) :
    ∀ c, CidrOperand db c → ∀ val, CidrTestSound pf val c ↔ ¬ CidrStrays pf val c :=
  fun _ _ _ => cidrTestSound_iff_not_strays

/-! ## An artifact that strays -/

/-- One rule, "field `a` is in 1.2.3.4/33". -/
def strayTables : Tables where
  fields := [⟨0, 1⟩]
  values := []
  preds := [⟨0, 0, 10, 0, .replicate 2 0, 0, .replicate 4 0, 0⟩]
  sels := [⟨0, 1⟩]
  cond := []
  rules := [⟨7, 0, 1, 0, 0, 1, 2, 300, sigmaNoValue, sigmaNoValue⟩]
  cidrs := [⟨4, 33, .replicate 2 0, #v[1, 2, 3, 4, 0, 0, 0, 0, 0, 0, 0, 0, 0, 0, 0, 0]⟩]
  bucketKeys := []
  buckets := []
  bucketIdx := []
  litndl := []
  litpost := []
  litpostRef := []
  litav := []
  ruleClauses := none
  fwit := []
  strpool := [97, 0]
  buckets_length := rfl
  litpost_length := rfl
  ruleClauses_length := by
    intro cs hcs
    cases hcs

/-- A platform that parses the one address 1.2.3.4. -/
def strayPlatform : Platform :=
  { samplePlatform with
    inetPton4 := fun s => if s = ascii "1.2.3.4" then some #v[1, 2, 3, 4] else none }

theorem load_stray :
    ∃ db, sigmaDbLoadBuffer strayPlatform (sigmaDbSerialize strayTables) = .ok db ∧
      ∃ c, CidrOperand db c ∧ c ∈ strayTables.cidrs := by
  obtain ⟨db, hload, hsame⟩ :=
    strayTables.load_serialize strayPlatform (by decide) (by decide) (by decide)
  refine ⟨db, hload, _, .inl ⟨strayTables.preds[0], ?_, rfl, ?_⟩, List.mem_singleton_self _⟩
  · rw [hsame.preds]
    exact List.getElem_mem _
  · rw [hsame.cidrs]
    rfl

/-- The test reads the byte after the four of the address. -/
theorem cidrTest_strays :
    ∃ db, sigmaDbLoadBuffer strayPlatform (sigmaDbSerialize strayTables) = .ok db ∧
      ∃ c, CidrOperand db c ∧ ¬ CidrTestSound strayPlatform (ascii "1.2.3.4") c := by
  obtain ⟨db, hload, c, hc, hmem⟩ := load_stray
  refine ⟨db, hload, c, hc, ?_⟩
  have hread : ipInCidr strayPlatform (ascii "1.2.3.4") c = .error (.byte 4) := by
    obtain rfl := List.mem_singleton.mp hmem
    rfl
  rintro ⟨b, hb, -⟩
  rw [hread] at hb
  exact absurd hb (by simp)

theorem cidrTest_sound_iff_sample :
    ∃ db, sigmaDbLoadBuffer strayPlatform (sigmaDbSerialize strayTables) = .ok db ∧
      ∃ c, CidrOperand db c ∧ (CidrTestSound strayPlatform (ascii "1.2.3.4") c ↔
        ¬ CidrStrays strayPlatform (ascii "1.2.3.4") c) := by
  obtain ⟨db, hload, c, hc, -⟩ := load_stray
  exact ⟨db, hload, c, hc, cidrTest_sound_iff hload c hc _⟩

end LibSigma
