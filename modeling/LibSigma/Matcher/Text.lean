import LibSigma.Library.Checked
import LibSigma.Matcher.Db

/-!
# Text, numbers and addresses

The byte-string helpers of `sigma_match.c` and `sigma_simd.h`: ASCII case folding, the four string
comparisons, the leading signed integer of a field and the CIDR test.

## Bytes, not characters

A field value is a pointer and a length, and nothing in the matcher decodes it.  Folding touches the
26 ASCII capitals and leaves every other byte alone, so a comparison of UTF-8 text folds its ASCII
part only.  The comparisons here are stated over lists of bytes, and what they mean (equality,
containment, prefix and suffix up to folding) is immediate from the definitions; the vector versions
of the substring search, with blocks and lanes, have their own module, `LibSigma.Matcher.Memmem`.

## Saturation

`sg_to_i64` accumulates a magnitude in 64 bits and saturates.  The loop is kept as the source has
it, flag and all (`digitRun`), because the claim is about its result at the borders:
`LibSigma.Matcher.Numbers` compares it with the integer that the digits denote.

## Where an address test may stray

`prefix_match` compares whole bytes and then some bits of the next one.  For a prefix a little over
the width of the family there is a next byte past the address, and C reads it.  The model makes this
read a fault (`prefixMatch`), and lets the evaluation go on with an answer of the platform
(`cidrVerdict`), since the program goes on too.  `LibSigma.Matcher.Cidr` says for which operands
this happens.

The text of an address is copied to a buffer of `INET6_ADDRSTRLEN` bytes and read as a C string, so
a longer value is no address and a NUL ends one early; both are in `ipInCidr`.
-/

namespace LibSigma

open Library

/-! ## Case folding and comparison -/

/-- `sg_lower`; `sigma__lc` and `sigma__lc_` are the same function. -/
def sgLower (c : UInt8) : UInt8 := if 65 ≤ c ∧ c ≤ 90 then c + 32 else c

/-- `sg_eq`. -/
def sgEq (a b : Bytes) (cs : Bool) : Bool :=
  if a.length ≠ b.length then false
  else if cs then a == b
  else (a.zip b).all fun p => sgLower p.1 == sgLower p.2

/-- `teddy_eq_ci`, and the inner loop of the substring searches: does `n` start at `p`? -/
def teddyEqCi : Bytes → Bytes → Bool
  | _, [] => true
  | [], _ :: _ => false
  | a :: p, b :: n => sgLower a == sgLower b && teddyEqCi p n

/-- The case-sensitive inner loop of `sg_contains`. -/
def startsAt : Bytes → Bytes → Bool
  | _, [] => true
  | [], _ :: _ => false
  | a :: p, b :: n => a == b && startsAt p n

/-- `sg_contains`. -/
def sgContains (hay ndl : Bytes) (cs : Bool) : Bool :=
  if ndl.length = 0 then true
  else if hay.length < ndl.length then false
  else (List.range (hay.length - ndl.length + 1)).any fun i =>
    if cs then startsAt (hay.drop i) ndl else teddyEqCi (hay.drop i) ndl

/-- `sigma__memmem_ci_scalar`: the offset of the first occurrence. -/
def sigmaMemmemCiScalar (hay ndl : Bytes) : Option ℕ :=
  match ndl with
  | [] => some 0
  | n0 :: rest =>
    if hay.length < ndl.length then none
    else (List.range (hay.length - ndl.length + 1)).find? fun i =>
      match hay.drop i with
      | [] => false
      | h :: t => sgLower h == sgLower n0 && teddyEqCi t rest

/-- `sg_starts`. -/
def sgStarts (s p : Bytes) (cs : Bool) : Bool :=
  if s.length < p.length then false else sgEq (s.take p.length) p cs

/-- `sg_ends`. -/
def sgEnds (s p : Bytes) (cs : Bool) : Bool :=
  if s.length < p.length then false else sgEq (s.drop (s.length - p.length)) p cs

/-! ## Numbers -/

/-- `'0' <= c && c <= '9'`. -/
def isDigit (c : UInt8) : Bool := 48 ≤ c && c ≤ 57

/-- The digit loop of `sg_to_i64`: the saturation flag and the magnitude. -/
def digitRun : Bytes → UInt64 → Bool × UInt64
  | [], mag => (false, mag)
  | c :: cs, mag =>
    if isDigit c then
      if (0xFFFFFFFFFFFFFFFF - 9) / 10 < mag then (true, mag)
      else digitRun cs (mag * 10 + (c - 48).toUInt64)
    else (false, mag)

/-- `sg_to_i64`: the leading signed integer of a field, saturating. -/
def sgToI64 (s : Bytes) : Option Int64 :=
  let signed := s.head? == some 45 || s.head? == some 43
  let neg := s.head? == some 45
  let digits := if signed then s.tail else s
  match digits with
  | [] => none
  | c :: _ =>
    if isDigit c then
      let (sat, mag) := digitRun digits 0
      if neg then
        if sat || 0x8000000000000000 ≤ mag then some Int64.minValue else some (-mag.toInt64)
      else if sat || 0x7FFFFFFFFFFFFFFF < mag then some Int64.maxValue
      else some mag.toInt64
    else none

/-- The numeric comparisons shared by `pred_match` and `fwit_holds`. -/
def numHolds (op : SigmaOp) (iv ival : Int64) : Bool :=
  match op with
  | .opGt => ival < iv
  | .opGte => ival ≤ iv
  | .opLt => iv < ival
  | .opLte => iv ≤ ival
  | .opNumeq => iv == ival
  | _ => false

/-! ## Addresses -/

/-- `prefix_match`: `addr` has `nbytes` bytes and `net` has 16; a read past either is a fault. -/
def prefixMatch (addr net : Bytes) (prefixLen : UInt8) (nbytes : ℕ) : Except Fault Bool :=
  let full := prefixLen.toNat / 8
  let rem := prefixLen.toNat % 8
  if nbytes < full then .ok false
  else if addr.take full ≠ net.take full then .ok false
  else if rem ≠ 0 then do
    let mask : UInt8 := 0xFF <<< (8 - rem).toUInt8
    let a ← readAt (.byte full) addr full
    let n ← readAt (.byte full) net full
    if a &&& mask ≠ n &&& mask then .ok false else .ok true
  else .ok true

/-- `INET6_ADDRSTRLEN`. -/
def inet6Addrstrlen : ℕ := 46

/-- The C string in a buffer: the bytes before the first NUL. -/
def cString (val : Bytes) : Bytes := val.takeWhile (· ≠ 0)

/-- `ip_in_cidr`. -/
def ipInCidr (pf : Platform) (val : Bytes) (c : SigmaCidr) : Except Fault Bool :=
  if val.length = 0 ∨ inet6Addrstrlen ≤ val.length then .ok false
  else if c.family = 4 then
    match pf.inetPton4 (cString val) with
    | none => .ok false
    | some a => prefixMatch a.toList c.net.toList c.prefixLen 4
  else if c.family = 6 then
    match pf.inetPton6 (cString val) with
    | none => .ok false
    | some a => prefixMatch a.toList c.net.toList c.prefixLen 16
  else .ok false

/-- The verdict of the CIDR test as its callers see it; a read past an address leaves it to the
platform. -/
def cidrVerdict (pf : Platform) (val : Bytes) (c : SigmaCidr) : Bool :=
  match ipInCidr pf val c with
  | .ok b => b
  | .error _ => pf.strayVerdict val c

end LibSigma
