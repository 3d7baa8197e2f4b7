import LibSigma.Library.Buffer
import LibSigma.Library.Codec

/-!
# Packing unbounded integers into records

A packing function takes a format and unbounded integers, and fails when an integer does not fit its
field.  A codec, on the other side, writes values that are of the right width by type.

## Where the two agree

A `RecordFormat` has one of each for the same record: a format with the arguments a row gives it,
and a codec.  The row of a record forgets its padding.  Two laws are fields.  Packing the row of a
record with clean padding gives the bytes of the codec.  And if packing a row succeeds, the row is
that of a record.  So packing is the codec, with a failure exactly where no record exists.

## Tables and buffers

Rows are packed into a buffer one after the other, each at its own offset.  In a buffer that has
room that is the table of the records, copied as a whole (`packRows_map`).  A program is a sequence
of such writes.  When each copies a section, all of them together are the copies of the sections,
and what is known about buffers written by sections applies.

* `pack`, `packInto`: the packing functions, with failure.
* `RecordFormat`: a format and a codec that agree, with the records that have clean padding.
* `packRows_map`, `exists_of_packRows`: **packing rows succeeds exactly on the rows of records, and
  writes what the codec writes.**
* `runWrites_eq_pokes`: writes that each copy a section.
-/

namespace LibSigma.Library

/-! ## Packing -/

/-- A field of a little-endian packed format: an integer of a given width, zero padding, or raw
bytes. -/
inductive StructField where
  | u8
  | u16
  | u32
  | u64
  | i64
  | pad (n : ℕ)
  | bytes (n : ℕ)

/-- An argument of the packing function. -/
inductive StructVal where
  | int (n : Int)
  | bytes (bs : List UInt8)

/-- The `w` bytes of an unsigned integer. -/
def packUnsigned (w : ℕ) (n : Int) : Option (List UInt8) :=
  if 0 ≤ n ∧ n < 256 ^ w then some (natToLE w n.toNat) else none

/-- One argument. -/
def packOne : StructField → StructVal → Option (List UInt8)
  | .u8, .int n => packUnsigned 1 n
  | .u16, .int n => packUnsigned 2 n
  | .u32, .int n => packUnsigned 4 n
  | .u64, .int n => packUnsigned 8 n
  | .i64, .int n =>
    if -2 ^ 63 ≤ n ∧ n < 2 ^ 63 then some (natToLE 8 (n % 2 ^ 64).toNat) else none
  | .bytes k, .bytes bs => some (bs.take k ++ List.replicate (k - bs.length) 0)
  | _, _ => none

/-- All arguments; padding takes none. -/
def pack : List StructField → List StructVal → Option (List UInt8)
  | [], [] => some []
  | .pad n :: fs, vs => (pack fs vs).map (List.replicate n 0 ++ ·)
  | f :: fs, v :: vs => (packOne f v).bind fun b => (pack fs vs).map (b ++ ·)
  | _, _ => none

/-- Packing into a buffer, which must have room. -/
def packInto (fs : List StructField) (buf : List UInt8) (off : ℕ) (vs : List StructVal) :
    Option (List UInt8) :=
  (pack fs vs).bind fun bs => if off + bs.length ≤ buf.length then some (poke buf off bs) else none

@[simp] theorem pack_nil : pack [] [] = some [] := by rw [pack]

@[simp] theorem pack_pad (n : ℕ) (fs : List StructField) (vs : List StructVal) :
    pack (.pad n :: fs) vs = (pack fs vs).map (List.replicate n 0 ++ ·) := by
  cases vs <;> rw [pack]

/-- An integer of `w` bytes: the value fits exactly when it is one of a fixed-width type. -/
theorem packUnsigned_eq_some_iff {w : ℕ} {n : Int} {bs : List UInt8} :
    packUnsigned w n = some bs ↔ ∃ m < 256 ^ w, n = (m : ℕ) ∧ bs = natToLE w m := by
  unfold packUnsigned
  constructor
  · intro h
    split at h
    · rename_i hn
      refine ⟨n.toNat, ?_, by omega, (Option.some.inj h).symm⟩
      have hcast : ((256 ^ w : ℕ) : Int) = 256 ^ w := by norm_cast
      omega
    · exact absurd h (by simp)
  · rintro ⟨m, hm, rfl, rfl⟩
    have hcast : ((256 ^ w : ℕ) : Int) = 256 ^ w := by norm_cast
    rw [if_pos ⟨by omega, by omega⟩, Int.toNat_natCast]

section Fields

variable {fs : List StructField} {vs : List StructVal}

/-- An unsigned field takes the numbers of its width. -/
theorem pack_unsigned {f : StructField} {w : ℕ} (hf : ∀ n, f ≠ .pad n)
    (hone : ∀ n, packOne f (.int n) = packUnsigned w n) {m : ℕ} (hm : m < 256 ^ w) :
    pack (f :: fs) (.int m :: vs) = (pack fs vs).map (natToLE w m ++ ·) := by
  rw [pack]
  · rw [hone, packUnsigned_eq_some_iff.mpr ⟨m, hm, rfl, rfl⟩, Option.bind_some]
  · exact hf

@[simp] theorem pack_u8 (x : UInt8) :
    pack (.u8 :: fs) (.int x.toNat :: vs) = (pack fs vs).map (Codec.u8.enc x ++ ·) :=
  pack_unsigned (by simp) (fun _ => rfl) x.toNat_lt

@[simp] theorem pack_u16 (x : UInt16) :
    pack (.u16 :: fs) (.int x.toNat :: vs) = (pack fs vs).map (Codec.u16.enc x ++ ·) :=
  pack_unsigned (by simp) (fun _ => rfl) x.toNat_lt

@[simp] theorem pack_u32 (x : UInt32) :
    pack (.u32 :: fs) (.int x.toNat :: vs) = (pack fs vs).map (Codec.u32.enc x ++ ·) :=
  pack_unsigned (by simp) (fun _ => rfl) x.toNat_lt

@[simp] theorem pack_u64 (x : UInt64) :
    pack (.u64 :: fs) (.int x.toNat :: vs) = (pack fs vs).map (Codec.u64.enc x ++ ·) :=
  pack_unsigned (by simp) (fun _ => rfl) x.toNat_lt

@[simp] theorem pack_i64 (x : Int64) :
    pack (.i64 :: fs) (.int x.toInt :: vs) = (pack fs vs).map (Codec.i64.enc x ++ ·) := by
  have hbytes : (x.toInt % 2 ^ 64).toNat = x.toUInt64.toNat := by
    have hlt := x.toUInt64.toNat_lt
    change (x.toUInt64.toBitVec.toInt % 2 ^ 64).toNat = x.toUInt64.toNat
    rw [BitVec.toInt_eq_toNat_bmod]
    change (Int.bmod (x.toUInt64.toNat : Int) (2 ^ 64 : ℕ) % (2 ^ 64 : ℕ)).toNat = _
    rw [Int.bmod_emod]
    omega
  rw [pack]
  · rw [packOne, if_pos ⟨x.le_toInt, x.toInt_lt⟩, hbytes]
    rfl
  · simp

@[simp] theorem pack_bytes {n : ℕ} (x : Vector UInt8 n) :
    pack (.bytes n :: fs) (.bytes x.toList :: vs) =
      (pack fs vs).map ((Codec.bytes n).enc x ++ ·) := by
  have hlen : x.toList.length = n := Vector.length_toList
  rw [pack]
  · rw [packOne, List.take_of_length_le hlen.le, hlen, Nat.sub_self, List.replicate_zero,
      List.append_nil]
    rfl
  · simp

/-! ## What packs -/

theorem isSome_pack_cons {f : StructField} {v : StructVal} (hf : ∀ n, f ≠ .pad n) :
    (pack (f :: fs) (v :: vs)).isSome = true ↔
      (packOne f v).isSome = true ∧ (pack fs vs).isSome = true := by
  rw [pack]
  · cases packOne f v <;> simp
  · exact hf

/-- An unsigned field takes no others. -/
theorem isSome_pack_unsigned {f : StructField} {w : ℕ} {α : Type} {toNat : α → ℕ}
    (hf : ∀ n, f ≠ .pad n) (hone : ∀ n, packOne f (.int n) = packUnsigned w n)
    (hlt : ∀ x, toNat x < 256 ^ w) (hof : ∀ m < 256 ^ w, ∃ x, toNat x = m) {n : Int} :
    (pack (f :: fs) (.int n :: vs)).isSome = true ↔
      (∃ x, (toNat x : Int) = n) ∧ (pack fs vs).isSome = true := by
  rw [isSome_pack_cons hf, hone, Option.isSome_iff_exists]
  refine and_congr_left fun _ => ⟨?_, ?_⟩
  · rintro ⟨bs, hbs⟩
    obtain ⟨m, hm, rfl, -⟩ := packUnsigned_eq_some_iff.mp hbs
    obtain ⟨x, rfl⟩ := hof m hm
    exact ⟨x, rfl⟩
  · rintro ⟨x, rfl⟩
    exact ⟨_, packUnsigned_eq_some_iff.mpr ⟨toNat x, hlt x, rfl, rfl⟩⟩

theorem isSome_pack_u8 {n : Int} : (pack (.u8 :: fs) (.int n :: vs)).isSome = true ↔
    (∃ x : UInt8, (x.toNat : Int) = n) ∧ (pack fs vs).isSome = true :=
  isSome_pack_unsigned (by simp) (fun _ => rfl) (fun x => x.toNat_lt)
    (fun m hm => ⟨UInt8.ofNat m, UInt8.toNat_ofNat_of_lt' hm⟩)

theorem isSome_pack_u16 {n : Int} : (pack (.u16 :: fs) (.int n :: vs)).isSome = true ↔
    (∃ x : UInt16, (x.toNat : Int) = n) ∧ (pack fs vs).isSome = true :=
  isSome_pack_unsigned (by simp) (fun _ => rfl) (fun x => x.toNat_lt)
    (fun m hm => ⟨UInt16.ofNat m, UInt16.toNat_ofNat_of_lt' hm⟩)

theorem isSome_pack_u32 {n : Int} : (pack (.u32 :: fs) (.int n :: vs)).isSome = true ↔
    (∃ x : UInt32, (x.toNat : Int) = n) ∧ (pack fs vs).isSome = true :=
  isSome_pack_unsigned (by simp) (fun _ => rfl) (fun x => x.toNat_lt)
    (fun m hm => ⟨UInt32.ofNat m, UInt32.toNat_ofNat_of_lt' hm⟩)

theorem isSome_pack_i64 {n : Int} : (pack (.i64 :: fs) (.int n :: vs)).isSome = true ↔
    (∃ x : Int64, x.toInt = n) ∧ (pack fs vs).isSome = true := by
  rw [isSome_pack_cons (by simp), packOne]
  refine and_congr_left fun _ => ⟨?_, ?_⟩
  · intro h
    split at h
    · rename_i hn
      exact ⟨Int64.ofInt n, Int64.toInt_ofInt_of_le hn.1 hn.2⟩
    · exact absurd h (by simp)
  · rintro ⟨x, rfl⟩
    rw [if_pos ⟨x.le_toInt, x.toInt_lt⟩]
    rfl

end Fields

/-! ## Records and tables -/

/-- A packing format for rows `ρ` and a codec for records `α` that write the same bytes.  `clean`
are the records whose padding is zero, `row` forgets the widths of the fields, and `good` are the
rows that are packed. -/
structure RecordFormat (ρ α : Type) where
  codec : Codec α
  fmt : List StructField
  vals : ρ → List StructVal
  row : α → ρ
  clean : α → Prop
  good : ρ → Prop
  pack_row : ∀ a, clean a → pack fmt (vals (row a)) = some (codec.enc a)
  of_pack : ∀ r, good r → (pack fmt (vals r)).isSome = true → ∃ a, clean a ∧ row a = r

/-- Packing rows one after the other, `size` bytes apart, from `off + k * size` on. -/
def packRows {ρ : Type} (fmt : List StructField) (vals : ρ → List StructVal) (size : ℕ) :
    ℕ → List ρ → List UInt8 → Option (List UInt8)
  | _, [], buf => some buf
  | off, r :: rows, buf =>
    (packInto fmt buf off (vals r)).bind (packRows fmt vals size (off + size) rows)

section Tables

variable {ρ α : Type} (F : RecordFormat ρ α)

/-- **Rows of records are packed as the codec writes the records.** -/
theorem packRows_map {xs : List α} (hclean : ∀ a ∈ xs, F.clean a) {buf : List UInt8} {off : ℕ}
    (hfit : off + xs.length * F.codec.size ≤ buf.length) :
    packRows F.fmt F.vals F.codec.size off (xs.map F.row) buf =
      some (poke buf off (F.codec.encTable xs)) := by
  induction xs generalizing buf off with
  | nil => rw [Codec.encTable_nil, poke_nil]; rfl
  | cons a xs ih =>
    have hlen : (F.codec.enc a).length = F.codec.size := F.codec.length_enc a
    have htable : (F.codec.encTable xs).length = xs.length * F.codec.size := Codec.length_encTable _ _
    rw [List.length_cons, Nat.succ_mul] at hfit
    rw [List.map_cons, packRows, packInto, F.pack_row a (hclean a List.mem_cons_self),
      Option.bind_some, if_pos (by omega), Option.bind_some,
      ih (fun b hb => hclean b (List.mem_cons_of_mem _ hb)) (by rw [length_poke (by omega)]; omega),
      ← hlen, poke_poke_adjacent (by omega), Codec.encTable_cons]

/-- **What is packed is the rows of records.** -/
theorem exists_of_packRows {rows : List ρ} (hgood : ∀ r ∈ rows, F.good r) {size off : ℕ}
    {buf buf' : List UInt8} (h : packRows F.fmt F.vals size off rows buf = some buf') :
    ∃ xs : List α, (∀ a ∈ xs, F.clean a) ∧ xs.map F.row = rows := by
  induction rows generalizing buf off with
  | nil => exact ⟨[], by simp, rfl⟩
  | cons r rows ih =>
    rw [packRows, packInto] at h
    cases hpack : pack F.fmt (F.vals r) with
    | none =>
      rw [hpack] at h
      exact absurd h (by simp)
    | some bs =>
      rw [hpack, Option.bind_some] at h
      split at h
      · obtain ⟨xs, hclean, rfl⟩ := ih (fun r' hr' => hgood r' (List.mem_cons_of_mem _ hr')) h
        obtain ⟨a, ha, rfl⟩ := F.of_pack r (hgood r List.mem_cons_self) (by rw [hpack]; rfl)
        refine ⟨a :: xs, fun b hb => ?_, rfl⟩
        rcases List.mem_cons.mp hb with rfl | hb
        · exact ha
        · exact hclean b hb
      · exact absurd h (by simp)

end Tables

/-- Packing keeps the size of the buffer. -/
theorem length_packInto {fs : List StructField} {vs : List StructVal} {buf buf' : List UInt8}
    {off : ℕ} (h : packInto fs buf off vs = some buf') : buf'.length = buf.length := by
  unfold packInto at h
  obtain ⟨bs, -, hbs⟩ := Option.bind_eq_some_iff.mp h
  split at hbs
  · rename_i hfit
    rw [← Option.some.inj hbs, length_poke hfit]
  · exact absurd hbs (by simp)

theorem length_packRows {ρ : Type} {fs : List StructField} {vals : ρ → List StructVal}
    {size off : ℕ} {rows : List ρ} {buf buf' : List UInt8}
    (h : packRows fs vals size off rows buf = some buf') : buf'.length = buf.length := by
  induction rows generalizing buf off with
  | nil => rw [← Option.some.inj h]
  | cons r rows ih =>
    obtain ⟨buf₁, h₁, h₂⟩ := Option.bind_eq_some_iff.mp h
    rw [ih h₂, length_packInto h₁]

/-! ## Sequences of writes -/

/-- Writes one after the other. -/
def runWrites : List (List UInt8 → Option (List UInt8)) → List UInt8 → Option (List UInt8)
  | [], buf => some buf
  | write :: writes, buf => (write buf).bind (runWrites writes)

/-- In a buffer of `len` bytes, the write is the copy of a section. -/
def Copies (len : ℕ) (write : List UInt8 → Option (List UInt8)) (s : ℕ × List UInt8) : Prop :=
  ∀ buf, buf.length = len → write buf = some (poke buf s.1 s.2)

/-- **Writes that each copy a section copy all of them.** -/
theorem runWrites_eq_pokes {len : ℕ} {writes : List (List UInt8 → Option (List UInt8))}
    {sects : List (ℕ × List UInt8)} (h : List.Forall₂ (Copies len) writes sects)
    (hfit : Fits len sects) {buf : List UInt8} (hlen : buf.length = len) :
    runWrites writes buf = some (pokes buf sects) := by
  induction h generalizing buf with
  | nil => rfl
  | cons hw _ ih =>
    have hs := hfit _ List.mem_cons_self
    rw [runWrites, hw buf hlen, Option.bind_some, pokes_cons]
    refine ih (fun s hmem => hfit s (List.mem_cons_of_mem _ hmem)) ?_
    rw [length_poke (by rw [hlen]; exact hs), hlen]

/-- Packing the rows of records is the copy of their table. -/
theorem RecordFormat.copies {ρ α : Type} (F : RecordFormat ρ α) {len size off : ℕ}
    {rows : List ρ} {xs : List α} (hrows : xs.map F.row = rows) (hclean : ∀ a ∈ xs, F.clean a)
    (hsize : F.codec.size = size) (hfit : off + (F.codec.encTable xs).length ≤ len) :
    Copies len (packRows F.fmt F.vals size off rows) (off, F.codec.encTable xs) := by
  intro buf hlen
  rw [← hrows, ← hsize]
  exact packRows_map F hclean (by rw [hlen, ← Codec.length_encTable]; exact hfit)

/-- If all writes succeed, each of them did. -/
theorem exists_of_runWrites {writes : List (List UInt8 → Option (List UInt8))}
    {buf buf' : List UInt8} (h : runWrites writes buf = some buf')
    {write : List UInt8 → Option (List UInt8)} (hmem : write ∈ writes) :
    ∃ b b', write b = some b' := by
  induction writes generalizing buf with
  | nil => exact absurd hmem (List.not_mem_nil)
  | cons w ws ih =>
    obtain ⟨buf₁, hfirst, hrest⟩ := Option.bind_eq_some_iff.mp h
    rcases List.mem_cons.mp hmem with rfl | hmem
    · exact ⟨buf, buf₁, hfirst⟩
    · exact ih hrest hmem

/-- Writes that keep the size of the buffer, one after the other. -/
theorem length_runWrites {len : ℕ} {writes : List (List UInt8 → Option (List UInt8))}
    (h : ∀ write ∈ writes, ∀ b b', b.length = len → write b = some b' → b'.length = len)
    {buf buf' : List UInt8} (hlen : buf.length = len) (hrun : runWrites writes buf = some buf') :
    buf'.length = len := by
  induction writes generalizing buf with
  | nil => rw [← Option.some.inj hrun, hlen]
  | cons w ws ih =>
    obtain ⟨buf₁, hfirst, hrest⟩ := Option.bind_eq_some_iff.mp hrun
    exact ih (fun write hw => h write (List.mem_cons_of_mem _ hw))
      (h w List.mem_cons_self buf buf₁ hlen hfirst) hrest

end LibSigma.Library
