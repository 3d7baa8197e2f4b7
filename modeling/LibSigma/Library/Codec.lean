import Mathlib.Data.List.Basic
import Mathlib.Tactic.NormNum
import Mathlib.Tactic.Ring

/-!
# Fixed-size byte codecs

A binary file format lays out records of a fixed size one after the other.  This file is the algebra
of such layouts, with no reference to a particular format.

A codec carries the proofs of both round trips, so a record that is put together from codecs by
`pair` and `map` has them without further work, and a layout that loses a bit cannot be written
down.  The second round trip, from bytes to a value and back to the same bytes, is the one that
forces padding to be a field of the record: bytes that no field holds could not be written again.

`dec` is total and reads the first `size` bytes of what it is given.  A reader that takes records
out of a longer buffer thus needs no case for the end of the buffer; the caller shows that there are
enough bytes, once per table.

The scalars are little-endian.  A signed number is carried over from the unsigned one of its width
along the bijection of two's complement.

* `natToLE w n` and `leToNat`: the little-endian bytes of a natural number, and back.
* `Codec α`: values of `α` written as a fixed number of bytes.  Both round trips are fields, so a
  codec that loses a bit cannot be built.
* `Codec.u8`, `u16`, `u32`, `u64`, `i64`, `bytes`: the scalar codecs.
* `Codec.pair` and `Codec.map`: records from scalars.
* `Codec.encTable` and `decTable`: tables of records, with `decTable_encTable`.
-/

namespace LibSigma.Library

/-! ## Little-endian naturals -/

/-- The `w` little-endian bytes of `n`; higher bits are dropped. -/
def natToLE : ℕ → ℕ → List UInt8
  | 0, _ => []
  | w + 1, n => UInt8.ofNat n :: natToLE w (n / 256)

/-- The number with the given little-endian bytes. -/
def leToNat : List UInt8 → ℕ
  | [] => 0
  | b :: bs => b.toNat + 256 * leToNat bs

@[simp] theorem length_natToLE (w n : ℕ) : (natToLE w n).length = w := by
  induction w generalizing n with
  | zero => rfl
  | succ w ih => simp [natToLE, ih]

theorem leToNat_natToLE (w n : ℕ) : leToNat (natToLE w n) = n % 256 ^ w := by
  induction w generalizing n with
  | zero => simp [natToLE, leToNat, Nat.mod_one]
  | succ w ih =>
    have hb : (UInt8.ofNat n).toNat = n % 256 := by simp
    rw [natToLE, leToNat, ih, hb, pow_succ', Nat.mod_mul]

theorem leToNat_natToLE_of_lt {w n : ℕ} (h : n < 256 ^ w) : leToNat (natToLE w n) = n := by
  rw [leToNat_natToLE, Nat.mod_eq_of_lt h]

theorem leToNat_lt (bs : List UInt8) : leToNat bs < 256 ^ bs.length := by
  induction bs with
  | nil => simp [leToNat]
  | cons b bs ih =>
    have hb : b.toNat < 256 := b.toNat_lt
    rw [leToNat, List.length_cons, pow_succ]
    omega

theorem natToLE_leToNat (bs : List UInt8) : natToLE bs.length (leToNat bs) = bs := by
  induction bs with
  | nil => rfl
  | cons b bs ih =>
    have hb : b.toNat < 256 := b.toNat_lt
    have hlow : UInt8.ofNat (b.toNat + 256 * leToNat bs) = b := by
      apply UInt8.toNat_inj.mp
      rw [UInt8.toNat_ofNat', Nat.add_mul_mod_self_left, Nat.mod_eq_of_lt hb]
    have hhigh : (b.toNat + 256 * leToNat bs) / 256 = leToNat bs := by omega
    rw [List.length_cons, leToNat, natToLE, hlow, hhigh, ih]

/-! ## Codecs -/

/-- Values of `α` written as exactly `size` bytes.  `dec` is total: it reads the first `size`
bytes of what it is given. -/
structure Codec (α : Type) where
  size : ℕ
  enc : α → List UInt8
  dec : List UInt8 → α
  length_enc : ∀ a, (enc a).length = size
  dec_enc_append : ∀ a rest, dec (enc a ++ rest) = a
  enc_dec : ∀ bs, bs.length = size → enc (dec bs) = bs

namespace Codec

variable {α β : Type}

attribute [simp] length_enc dec_enc_append

@[simp] theorem dec_enc (c : Codec α) (a : α) : c.dec (c.enc a) = a := by
  simpa using c.dec_enc_append a []

/-- An unsigned number of `w` bytes, given by an embedding of `α` in the naturals. -/
def ofNat (w : ℕ) (toNat : α → ℕ) (ofNat : ℕ → α) (hlt : ∀ a, toNat a < 256 ^ w)
    (hof : ∀ a, ofNat (toNat a) = a) (hto : ∀ n, n < 256 ^ w → toNat (ofNat n) = n) :
    Codec α where
  size := w
  enc a := natToLE w (toNat a)
  dec bs := ofNat (leToNat (bs.take w))
  length_enc a := length_natToLE w _
  dec_enc_append a rest := by
    rw [List.take_append_of_le_length (by simp), List.take_of_length_le (by simp),
      leToNat_natToLE_of_lt (hlt a), hof]
  enc_dec bs h := by
    have hbs := leToNat_lt bs
    rw [h] at hbs
    rw [List.take_of_length_le h.le, hto _ hbs]
    conv_lhs => rw [← h]
    exact natToLE_leToNat bs

def u8 : Codec UInt8 :=
  ofNat 1 UInt8.toNat UInt8.ofNat (fun a => by simpa using a.toNat_lt) (fun a => by simp)
    (fun n h => by simpa using h)

def u16 : Codec UInt16 :=
  ofNat 2 UInt16.toNat UInt16.ofNat (fun a => by simpa using a.toNat_lt) (fun a => by simp)
    (fun n h => by simpa using h)

def u32 : Codec UInt32 :=
  ofNat 4 UInt32.toNat UInt32.ofNat (fun a => by simpa using a.toNat_lt) (fun a => by simp)
    (fun n h => by simpa using h)

def u64 : Codec UInt64 :=
  ofNat 8 UInt64.toNat UInt64.ofNat (fun a => by simpa using a.toNat_lt) (fun a => by simp)
    (fun n h => by simpa using h)

/-- Two records one after the other. -/
def pair (c : Codec α) (d : Codec β) : Codec (α × β) where
  size := c.size + d.size
  enc p := c.enc p.1 ++ d.enc p.2
  dec bs := (c.dec (bs.take c.size), d.dec (bs.drop c.size))
  length_enc p := by simp
  dec_enc_append p rest := by
    have hlen : (c.enc p.1).length = c.size := c.length_enc p.1
    rw [List.append_assoc, List.take_left' hlen, List.drop_left' hlen, dec_enc, dec_enc_append]
  enc_dec bs h := by
    rw [c.enc_dec _ (by rw [List.length_take]; omega),
      d.enc_dec _ (by rw [List.length_drop]; omega), List.take_append_drop]

/-- A codec carried along a bijection. -/
def map (c : Codec α) (f : α → β) (g : β → α) (hfg : ∀ b, f (g b) = b) (hgf : ∀ a, g (f a) = a) :
    Codec β where
  size := c.size
  enc b := c.enc (g b)
  dec bs := f (c.dec bs)
  length_enc b := by simp
  dec_enc_append b rest := by rw [dec_enc_append, hfg]
  enc_dec bs h := by rw [hgf, c.enc_dec bs h]

/-- A signed 64-bit number in two's complement. -/
def i64 : Codec Int64 :=
  u64.map UInt64.toInt64 Int64.toUInt64 (fun _ => rfl) (fun _ => rfl)

/-- `n` raw bytes. -/
def bytes (n : ℕ) : Codec (Vector UInt8 n) where
  size := n
  enc v := v.toList
  dec bs := Vector.ofFn fun i => bs.getD i 0
  length_enc v := by simp
  dec_enc_append v rest := by
    ext i hi
    have hlen : i < v.toList.length := by simpa using hi
    simp [List.getD_eq_getElem?_getD, List.getElem?_append_left hlen, hi]
  enc_dec bs h := by
    apply List.ext_getElem
    · simpa using h.symm
    · intro i h₁ h₂
      simp [List.getD_eq_getElem?_getD, h₂]

/-! ## Tables -/

/-- A table: its records one after the other. -/
def encTable (c : Codec α) (xs : List α) : List UInt8 := xs.flatMap c.enc

/-- The first `n` records of a byte string. -/
def decTable (c : Codec α) : ℕ → List UInt8 → List α
  | 0, _ => []
  | n + 1, bs => c.dec (bs.take c.size) :: decTable c n (bs.drop c.size)

@[simp] theorem encTable_nil (c : Codec α) : c.encTable [] = [] := rfl

@[simp] theorem encTable_cons (c : Codec α) (x : α) (xs : List α) :
    c.encTable (x :: xs) = c.enc x ++ c.encTable xs := rfl

@[simp] theorem length_encTable (c : Codec α) (xs : List α) :
    (c.encTable xs).length = xs.length * c.size := by
  induction xs with
  | nil => simp
  | cons x xs ih => simp [ih, Nat.succ_mul, Nat.add_comm]

@[simp] theorem length_decTable (c : Codec α) (n : ℕ) (bs : List UInt8) :
    (c.decTable n bs).length = n := by
  induction n generalizing bs with
  | zero => rfl
  | succ n ih => simp [decTable, ih]

@[simp] theorem decTable_encTable_append (c : Codec α) (xs : List α) (rest : List UInt8) :
    c.decTable xs.length (c.encTable xs ++ rest) = xs := by
  induction xs with
  | nil => rfl
  | cons x xs ih =>
    have hlen : (c.enc x).length = c.size := c.length_enc x
    rw [List.length_cons, decTable, encTable_cons, List.append_assoc, List.take_left' hlen,
      List.drop_left' hlen, dec_enc, ih]

@[simp] theorem decTable_encTable (c : Codec α) (xs : List α) :
    c.decTable xs.length (c.encTable xs) = xs := by
  simpa using c.decTable_encTable_append xs []

end Codec

end LibSigma.Library
